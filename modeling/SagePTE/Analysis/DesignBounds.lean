import Mathlib.Algebra.BigOperators.Ring.Finset
import Mathlib.Algebra.BigOperators.Ring.List
import Mathlib.Tactic.Ring
import SagePTE.Analysis.Costs

/-!
# Bounds on the designs

Nested paging pays for every reference of a walk. The other designs skip references, or
overlap them as the prefetcher of ASAP does, so on no walk they cost more. What holds on
every walk holds for the averages, whatever the counts are.

The walk of a 2 MB page that is derived from a walk of a 4 KB page keeps the references
under their labels.

## Main definitions

* `Design.bounded` — the designs that never cost more than nested paging
* `Sums.Accounted` — what the loop of `tally` keeps

## Main results

* `formula_le_npw` — one walk
* `averages_of_tally` — the averages, and those of the derived walk
-/

set_option autoImplicit false

namespace SagePTE.Analysis

open Simulator Dict

/-! ### One walk -/

/-- The prefetcher overlaps stages, so the whole is not longer than their sum. -/
theorem asapPrefetch_le_sum {stages : List ℤ} (hnonneg : ∀ s ∈ stages, 0 ≤ s) :
    asapPrefetch stages ≤ stages.sum := by
  have hfold (l : List (ℤ × ℕ)) (done : ℤ) (hdone : 0 ≤ done) (hl : ∀ p ∈ l, 0 ≤ p.1) :
      l.foldl (fun done s => max (done + if s.2 = 0 then asapG3Est else asapG4Est) s.1) done ≤
        done + (l.map Prod.fst).sum := by
    induction l generalizing done with
    | nil => simp
    | cons p l ih =>
      rw [List.forall_mem_cons] at hl
      have hest : (if p.2 = 0 then asapG3Est else asapG4Est) = 0 := by
        split_ifs <;> rfl
      have hmax : max (done + 0) p.1 ≤ done + p.1 := by
        have hp := hl.1
        omega
      have hrest := ih (max (done + 0) p.1) (by omega) hl.2
      rw [List.foldl_cons, hest, List.map_cons, List.sum_cons]
      omega
  match stages with
  | [] => exact le_refl 0
  | [s] => simpa [asapPrefetch] using hnonneg s (by simp)
  | s₀ :: s₁ :: stages =>
    have h₀ := hnonneg s₀ (by simp)
    have h₁ := hnonneg s₁ (by simp)
    have hrest := hfold stages.zipIdx (s₀ + s₁) (by omega) fun p hp =>
      hnonneg p.1 (by simp [List.fst_mem_of_mem_zipIdx hp])
    rw [List.zipIdx_map_fst] at hrest
    rw [asapPrefetch, List.sum_cons, List.sum_cons]
    omega

section Formula

variable {L : Levels} {d : Label → ℤ}

/-- The references of one guest level. -/
def guestCost (L : Levels) (d : Label → ℤ) (i : ℕ) : ℤ :=
  ((oneTo L.host).map fun j => d (.gh i j)).sum + d (.g i)

/-- Nested paging pays for the guest levels and the h-final references. -/
theorem npw_eq : npw L d = ((oneTo L.guest).map (guestCost L d)).sum + udSum L d := by
  rw [npw, labelsFor, List.map_append, List.sum_append, List.map_map, List.map_flatMap,
    List.flatMap_def, List.sum_flatten, List.map_map]
  congr 2
  refine List.map_congr_left fun i _ => ?_
  simp [guestCost, Function.comp_def]

variable (hd : ∀ l, 0 ≤ d l)

include hd

theorem guestCost_nonneg (i : ℕ) : 0 ≤ guestCost L d i :=
  add_nonneg (sum_map_nonneg hd _ _) (hd _)

theorem sum_guestCost_nonneg : ∀ c ∈ (oneTo L.guest).map (guestCost L d), 0 ≤ c := by
  intro c hc
  obtain ⟨i, -, rfl⟩ := List.mem_map.1 hc
  exact guestCost_nonneg hd i

theorem sagepte_le_npw : sagepte L d ≤ npw L d :=
  sub_le_self _ (sum_map_nonneg hd (oneTo L.host) Label.ud)

theorem dmt_le_npw : dmt L d ≤ npw L d := by
  have hhost : L.host ∈ oneTo L.host := mem_oneTo.2 ⟨by have := L.two_le_host; omega, le_refl _⟩
  have hgh : d (.gh L.guest L.host) + d (.g L.guest) ≤ guestCost L d L.guest :=
    add_le_add_left (le_sum_map hd (Label.gh L.guest) hhost) _
  have hguest := List.single_le_sum (sum_guestCost_nonneg (L := L) hd) _
    (List.mem_map_of_mem L.guest_mem)
  have hud : d (.ud L.host) ≤ udSum L d := le_sum_map hd Label.ud hhost
  rw [dmt, npw_eq]
  omega

/-- FPT reads some of the guest levels, and of these some of the host levels. -/
theorem fpt_le_npw : fpt L d ≤ npw L d := by
  have hsub (n : ℕ) : (sameParity n).Sublist (oneTo n) := List.filter_sublist
  have hhost (i : ℕ) : ((sameParity L.host).map fun j => d (.gh i j)).sum + d (.g i) ≤
      guestCost L d i := by
    refine add_le_add_left (((hsub L.host).map _).sum_le_sum fun c hc => ?_) _
    obtain ⟨j, -, rfl⟩ := List.mem_map.1 hc
    exact hd _
  have hguest : ((sameParity L.guest).map (guestCost L d)).sum ≤
      ((oneTo L.guest).map (guestCost L d)).sum :=
    ((hsub L.guest).map _).sum_le_sum (sum_guestCost_nonneg hd)
  have hud : ((sameParity L.host).map fun j => d (.ud j)).sum ≤ udSum L d := by
    refine ((hsub L.host).map _).sum_le_sum fun c hc => ?_
    obtain ⟨j, -, rfl⟩ := List.mem_map.1 hc
    exact hd _
  have hsum := List.sum_le_sum fun i (_ : i ∈ sameParity L.guest) => hhost i
  rw [List.sum_map_add] at hsum
  rw [fpt, npw_eq, List.flatMap_def, List.sum_flatten, List.map_map]
  simp only [Function.comp_def]
  omega

theorem asap_le_npw : asap L d ≤ npw L d := by
  have hhost (i : ℕ) : asapPrefetch ((oneTo L.host).map fun j => d (.gh i j)) + d (.g i) ≤
      guestCost L d i := by
    refine add_le_add_left (asapPrefetch_le_sum fun c hc => ?_) _
    obtain ⟨j, -, rfl⟩ := List.mem_map.1 hc
    exact hd _
  have hstages : asapPrefetch ((oneTo L.guest).map fun i =>
      asapPrefetch ((oneTo L.host).map fun j => d (.gh i j)) + d (.g i)) ≤
        ((oneTo L.guest).map (guestCost L d)).sum := by
    refine (asapPrefetch_le_sum fun c hc => ?_).trans (List.sum_le_sum fun i _ => hhost i)
    obtain ⟨i, -, rfl⟩ := List.mem_map.1 hc
    exact add_nonneg (asapPrefetch_nonneg hd L.two_le_host (Label.gh i)) (hd _)
  have hud : asapPrefetch ((oneTo L.host).map fun j => d (.ud j)) ≤ udSum L d := by
    refine asapPrefetch_le_sum fun c hc => ?_
    obtain ⟨j, -, rfl⟩ := List.mem_map.1 hc
    exact hd _
  rw [asap, npw_eq]
  exact add_le_add hstages hud

theorem agile_le_npw : agile L d ≤ npw L d := by
  have hguest : gSum L d ≤ ((oneTo L.guest).map (guestCost L d)).sum :=
    List.sum_le_sum fun i _ => le_add_of_nonneg_left (sum_map_nonneg hd _ _)
  rw [agile, npw_eq]
  exact add_le_add_left hguest _

end Formula

/-- The designs that skip or overlap references of nested paging, and add none. -/
def Design.bounded : List Design := [.sagePte, .dmt, .fpt, .asap, .agilePaging]

/-- **One walk.** The designs cost at most what nested paging costs. -/
theorem formula_le_npw {L : Levels} {d : Label → ℤ} (hd : ∀ l, 0 ≤ d l) {n : Design}
    (hn : n ∈ Design.bounded) : n.formula L d ≤ Design.npw.formula L d := by
  simp only [Design.bounded, List.mem_cons, List.not_mem_nil, or_false] at hn
  rcases hn with rfl | rfl | rfl | rfl | rfl
  · exact sagepte_le_npw hd
  · exact dmt_le_npw hd
  · exact fpt_le_npw hd
  · exact asap_le_npw hd
  · exact agile_le_npw hd

/-! ### Averages -/

/-- An invariant of the loop of `tally`. -/
theorem tallySums_invariant {L : Levels} {project : List CacheResult → Option (List CacheResult)}
    {P : Sums → Prop} {records : List Record}
    (hstep : ∀ r ∈ records, ∀ d, r.costs L project = some d → ∀ s, P s → P (s.add L d r.count))
    {s s' : Sums} (h : tallySums L project s records = some s') (hs : P s) : P s' := by
  induction records generalizing s with
  | nil =>
    cases h
    exact hs
  | cons r records ih =>
    rw [List.forall_mem_cons] at hstep
    rw [tallySums_cons, Option.bind_eq_some_iff] at h
    obtain ⟨d, hd, h⟩ := h
    exact ih hstep.2 h (hstep.1 d hd s hs)

/-- The sums of the designs against the sums of the references. -/
structure Sums.Accounted (L : Levels) (s : Sums) : Prop where
  npw : s.designSum .npw = ((labelsFor L).map s.refSum).sum
  sagePte : s.designSum .sagePte =
    s.designSum .npw - ((oneTo L.host).map fun h => s.refSum (.ud h)).sum
  bounded : ∀ n ∈ Design.bounded, s.designSum n ≤ s.designSum .npw

/-- What a record adds to a sum over labels. -/
theorem sum_refSum_add {α : Type} {L : Levels} (s : Sums) (d : Label → ℤ) (count : ℤ)
    (l : List α) (f : α → Label) :
    (l.map fun a => (s.add L d count).refSum (f a)).sum =
      (l.map fun a => s.refSum (f a)).sum + ((l.map fun a => d (f a)).sum : ℤ) * count := by
  have hcast : (((l.map fun a => d (f a)).sum : ℤ) : ℚ) = (l.map fun a => (d (f a) : ℚ)).sum := by
    rw [Int.cast_list_sum, List.map_map]
    rfl
  rw [hcast, ← List.sum_map_mul_right, ← List.sum_map_add]
  rfl

theorem Sums.Accounted.zero (L : Levels) : Sums.zero.Accounted L where
  npw := by simp [Sums.zero]
  sagePte := by simp [Sums.zero]
  bounded _ _ := le_refl _

theorem Sums.Accounted.add {L : Levels} {s : Sums} (h : s.Accounted L) {d : Label → ℤ}
    (hd : ∀ l, 0 ≤ d l) {count : ℤ} (hcount : 0 ≤ count) : (s.add L d count).Accounted L where
  npw := by
    have hsum := sum_refSum_add (L := L) s d count (labelsFor L) id
    simp only [id_eq] at hsum
    rw [hsum, ← h.npw]
    rfl
  sagePte := by
    have hsage : ((sagepte L d : ℤ) : ℚ) = (Analysis.npw L d : ℤ) - (udSum L d : ℤ) := by
      rw [sagepte, Int.cast_sub]
    have hud := sum_refSum_add (L := L) s d count (oneTo L.host) Label.ud
    rw [← udSum] at hud
    show s.designSum .sagePte + (sagepte L d : ℤ) * count =
      s.designSum .npw + (Analysis.npw L d : ℤ) * count - _
    rw [hud, h.sagePte, hsage]
    ring
  bounded n hn := by
    have hle : (n.formula L d : ℚ) ≤ (Design.npw.formula L d : ℤ) :=
      Int.cast_le.2 (formula_le_npw hd hn)
    exact add_le_add (h.bounded n hn) (mul_le_mul_of_nonneg_right hle (Int.cast_nonneg hcount))

/-! ### The derived walk -/

/-- Every label of the walk of a 2 MB page is one of the walk of a 4 KB page. -/
theorem exists_base_index {l : Label} (hl : l ∈ labelsFor .huge) :
    ∃ i : ℕ, (labelsFor .base)[i]? = some l := by
  have hsub : ∀ l ∈ labelsFor .huge, l ∈ labelsFor .base := by decide
  exact List.mem_iff_getElem?.1 (hsub l hl)

/-- The derived walk costs under a label what the walk costs. -/
theorem deriveThp_costs {refs : List CacheResult} {d : Label → ℤ}
    (h : walkCosts .base refs = some d) :
    ∃ d', (deriveThp refs).bind (walkCosts .huge) = some d' ∧
      ∀ l ∈ labelsFor .huge, d' l = d l := by
  obtain ⟨lat, hlat, hlen, rfl⟩ := walkCosts_eq_some h
  obtain ⟨refs', hthp, hlen', -, hmem⟩ := deriveThp_spec ((length_of_mapM hlat).symm.trans hlen)
  obtain ⟨d', hd'⟩ := exists_walkCosts (L := .huge)
    (fun r hr => exists_eq_some_of_mapM hlat (hmem r hr)) hlen'
  rw [hthp, Option.bind_some]
  refine ⟨d', hd', fun l hl => ?_⟩
  obtain ⟨lat', hlat', -, rfl⟩ := walkCosts_eq_some hd'
  obtain ⟨i, hi⟩ := exists_base_index hl
  obtain ⟨k, hk⟩ := List.mem_iff_getElem?.1 hl
  have hplace : refs'[k]? = refs[i]? := by
    rw [getElem?_of_mapM hthp, hk, Option.bind_some]
    exact lookup_zip nodup_labelsFor_base hi
  show (((labelsFor .huge).zip lat').lookup l).getD 0 =
    (((labelsFor .base).zip lat).lookup l).getD 0
  rw [lookup_zip nodup_labelsFor_huge hk, lookup_zip nodup_labelsFor_base hi,
    getElem?_of_mapM hlat', getElem?_of_mapM hlat, hplace]

/-- The sums of two loops agree where the walks do. -/
def Sums.Agree (s t : Sums) : Prop :=
  t.total = s.total ∧ ∀ l ∈ labelsFor .huge, t.refSum l = s.refSum l

/-- The loop over the derived walks beside the loop over the walks. -/
theorem tallySums_deriveThp {records : List Record} {s s' t : Sums}
    (h : tallySums .base some s records = some s') (hst : s.Agree t) :
    ∃ t', tallySums .huge deriveThp t records = some t' ∧ s'.Agree t' := by
  induction records generalizing s t with
  | nil =>
    cases h
    exact ⟨t, rfl, hst⟩
  | cons r records ih =>
    rw [tallySums_cons, Option.bind_eq_some_iff] at h
    obtain ⟨d, hd, h⟩ := h
    obtain ⟨d', hd', hlabels⟩ := deriveThp_costs hd
    have hagree : (s.add .base d r.count).Agree (t.add .huge d' r.count) := by
      refine ⟨congrArg (· + r.count) hst.1, fun l hl => ?_⟩
      show t.refSum l + d' l * r.count = s.refSum l + d l * r.count
      rw [hst.2 l hl, hlabels l hl]
    obtain ⟨t', ht', hs't'⟩ := ih h hagree
    exact ⟨t', by rw [tallySums_cons, Record.costs, hd', Option.bind_some, ht'], hs't'⟩

/-! ### The averages -/

/-- **The averages.** For walks over the latencies with positive counts, nested paging costs the
sum of its references, SagePTE that sum without the h-final references, and no other design
that reads references of the walk costs more. The averages of the derived walk are those of
the walk. -/
theorem averages_of_tally {L : Levels} {records : List Record} (hne : records ≠ [])
    (hlen : ∀ r ∈ records, r.refs.length = (labelsFor L).length)
    (hlat : ∀ r ∈ records, ∀ x ∈ r.refs, ∃ c, latency x = some c)
    (hcount : ∀ r ∈ records, 0 < r.count) :
    ∃ t, tally L records = some t ∧
      t.byDesign .npw = ((labelsFor L).map t.byLabel).sum ∧
      t.byDesign .sagePte = ((labelsFor L).map t.byLabel).sum -
        ((oneTo L.host).map fun h => t.byLabel (.ud h)).sum ∧
      (∀ n ∈ Design.bounded, t.byDesign n ≤ t.byDesign .npw) ∧
      (L = .base → ∃ t', tallyWith deriveThp .huge records = some t' ∧
        ∀ l ∈ labelsFor .base, l ∈ labelsFor .huge → t'.byLabel l = t.byLabel l) := by
  have hcosts : ∀ r ∈ records, (r.costs L some).isSome := by
    intro r hr
    obtain ⟨d, hd⟩ := exists_walkCosts (hlat r hr) (hlen r hr)
    rw [Record.costs, Option.bind_some, hd]
    rfl
  obtain ⟨s, hs⟩ := Option.isSome_iff_exists.1 ((isSome_tallySums .zero records).2 hcosts)
  have hacc : s.Accounted L :=
    tallySums_invariant (fun r hr d hd s hs => hs.add (walkCosts_nonneg hd) (hcount r hr).le) hs
      (.zero L)
  have htotal : 0 < s.total := tallySums_total_pos hne hcount hs
  have hpos : (0 : ℚ) ≤ s.total := Int.cast_nonneg htotal.le
  have hdiv {α : Type} (l : List α) (f : α → ℚ) :
      (l.map fun a => f a / s.total).sum = (l.map f).sum / s.total := by
    simp only [div_eq_mul_inv, List.sum_map_mul_right]
  refine ⟨_, tallyWith_eq_some_iff.2 ⟨s, hs, htotal.ne', rfl⟩, ?_, ?_, fun n hn => ?_, ?_⟩
  · rw [hdiv, ← hacc.npw]
  · rw [hdiv, hdiv, ← sub_div, ← hacc.npw, ← hacc.sagePte]
  · exact div_le_div_of_nonneg_right (hacc.bounded n hn) hpos
  · rintro rfl
    obtain ⟨t, ht, hagree⟩ := tallySums_deriveThp hs (t := .zero) ⟨rfl, fun _ _ => rfl⟩
    refine ⟨_, tallyWith_eq_some_iff.2 ⟨t, ht, hagree.1 ▸ htotal.ne', rfl⟩, fun l _ hl => ?_⟩
    show t.refSum l / t.total = s.refSum l / s.total
    rw [hagree.1, hagree.2 l hl]

/-- Three walks that hit in the page-walk cache, and one that goes to memory for everything. -/
theorem averages_of_four_walks :
    let records : List Record :=
      [⟨List.replicate 9 .zero ++ .pwc :: List.replicate 14 .foundL2, some .rangeHit, 3⟩,
        ⟨List.replicate 24 .notFound, none, 1⟩]
    ∃ t, tally .base records = some t ∧ (∀ n ∈ Design.bounded, t.byDesign n ≤ t.byDesign .npw) ∧
      ∃ t', tallyWith deriveThp .huge records = some t' ∧ t'.byLabel (.g 3) = t.byLabel (.g 3) := by
  intro records
  obtain ⟨t, ht, -, -, hle, hthp⟩ := @averages_of_tally .base records
    (List.cons_ne_nil _ _) (by decide) (fun r hr x hx => Option.isSome_iff_exists.1 (by
      revert r x
      decide)) (by decide)
  obtain ⟨t', ht', hlabel⟩ := hthp rfl
  exact ⟨t, ht, hle, t', ht', hlabel (.g 3) (by decide) (by decide)⟩

end SagePTE.Analysis
