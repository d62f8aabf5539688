import SagePTE.Analysis.WalkStats
import SagePTE.Lib.Dict
import SagePTE.Simulator.WalkEvents

/-!
# Walks cost something

A reference that a page-walk cache skips costs nothing, so a design that reads few
references could be free. It is not: whatever level a page-walk cache hits, the guest
references of levels three and four are read or answered by the page-walk cache, and
every design reads the last guest level of its walk or adds a constant to it.

## Main results

* `formula_pos` — a walk whose last guest reference costs something
* `walkShape_refs`, `base_costs`, `huge_costs` — recorded walks are such
-/

set_option autoImplicit false

namespace SagePTE.Analysis

open Simulator Dict

/-! ### Formulas -/

theorem mem_oneTo {i n : ℕ} : i ∈ oneTo n ↔ 1 ≤ i ∧ i ≤ n := by
  rw [oneTo, List.mem_range'_1]
  omega

theorem Levels.guest_mem (L : Levels) : L.guest ∈ oneTo L.guest :=
  mem_oneTo.mpr ⟨by have := L.two_le_guest; omega, le_refl _⟩

theorem Levels.guest_mem_sameParity (L : Levels) : L.guest ∈ sameParity L.guest := by
  simp [sameParity, L.guest_mem]

/-- A stage is not longer than the whole. -/
theorem le_asapPrefetch {stages : List ℤ} (hlen : 2 ≤ stages.length)
    (hnonneg : ∀ s ∈ stages, 0 ≤ s) {s : ℤ} (hs : s ∈ stages) : s ≤ asapPrefetch stages := by
  -- later stages only make the whole longer
  have hfold (l : List (ℤ × ℕ)) (done : ℤ) :
      let r := l.foldl
        (fun done s => max (done + if s.2 = 0 then asapG3Est else asapG4Est) s.1) done
      done ≤ r ∧ ∀ p ∈ l, p.1 ≤ r := by
    induction l generalizing done with
    | nil => simp
    | cons p l ih =>
      obtain ⟨hdone, hmem⟩ := ih (max (done + if p.2 = 0 then asapG3Est else asapG4Est) p.1)
      have hest : (if p.2 = 0 then asapG3Est else asapG4Est) = 0 := by
        split_ifs <;> rfl
      rw [hest, add_zero] at hdone hmem
      simp only [List.foldl_cons, hest, add_zero]
      refine ⟨(le_max_left _ _).trans hdone, fun q hq => ?_⟩
      rcases List.mem_cons.mp hq with rfl | hq
      · exact (le_max_right _ _).trans hdone
      · exact hmem q hq
  match stages, hlen with
  | s₀ :: s₁ :: stages, _ =>
    obtain ⟨hdone, hmem⟩ := hfold stages.zipIdx (s₀ + s₁)
    have h₀ : 0 ≤ s₀ := hnonneg s₀ (by simp)
    have h₁ : 0 ≤ s₁ := hnonneg s₁ (by simp)
    rw [asapPrefetch]
    rcases List.mem_cons.mp hs with rfl | hs
    · omega
    · rcases List.mem_cons.mp hs with rfl | hs
      · omega
      · obtain ⟨i, hi⟩ := List.mem_iff_getElem?.mp hs
        exact hmem (s, i) (List.mem_zipIdx_iff_getElem?.mpr hi)

section Formula

variable {L : Levels} {d : Label → ℤ} (hd : ∀ l, 0 ≤ d l)

include hd

theorem sum_map_nonneg {α : Type} (l : List α) (f : α → Label) :
    0 ≤ (l.map fun a => d (f a)).sum :=
  List.sum_nonneg fun x hx => by
    obtain ⟨a, -, rfl⟩ := List.mem_map.mp hx
    exact hd _

theorem le_sum_map {α : Type} {l : List α} (f : α → Label) {a : α} (ha : a ∈ l) :
    d (f a) ≤ (l.map fun a => d (f a)).sum :=
  List.single_le_sum (fun x hx => by
    obtain ⟨b, -, rfl⟩ := List.mem_map.mp hx
    exact hd _) _ (List.mem_map.mpr ⟨a, ha, rfl⟩)

/-- The stages of one walk of a host table. -/
theorem asapPrefetch_nonneg {n : ℕ} (hn : 2 ≤ n) (f : ℕ → Label) :
    0 ≤ asapPrefetch ((oneTo n).map fun j => d (f j)) := by
  have hmem : n ∈ oneTo n := mem_oneTo.mpr ⟨by omega, le_refl n⟩
  refine (hd (f n)).trans (le_asapPrefetch (by simpa [oneTo] using hn) ?_ ?_)
  · intro s hs
    obtain ⟨j, -, rfl⟩ := List.mem_map.mp hs
    exact hd _
  · exact List.mem_map.mpr ⟨n, hmem, rfl⟩

theorem gSum_pos (hlast : 0 < d (.g L.guest)) : 0 < gSum L d :=
  hlast.trans_le (le_sum_map hd Label.g L.guest_mem)

/-- Without the h-final references there is still the last guest reference. -/
theorem sagepte_pos (hlast : 0 < d (.g L.guest)) : 0 < sagepte L d := by
  have hmem : Label.g L.guest ∈ (oneTo L.guest).flatMap
      (fun g => (oneTo L.host).map (Label.gh g) ++ [Label.g g]) :=
    List.mem_flatMap.mpr ⟨L.guest, L.guest_mem, by simp⟩
  have hle := le_sum_map hd id hmem
  have hsplit : sagepte L d = (((oneTo L.guest).flatMap
      (fun g => (oneTo L.host).map (Label.gh g) ++ [Label.g g])).map fun l => d (id l)).sum := by
    simp only [sagepte, npw, labelsFor, List.map_append, List.sum_append, List.map_map, udSum,
      id_eq]
    exact add_sub_cancel_right _ _
  rw [hsplit]
  exact hlast.trans_le hle

theorem asap_pos (hlast : 0 < d (.g L.guest)) : 0 < asap L d := by
  have hnonneg (i : ℕ) := asapPrefetch_nonneg hd L.two_le_host (Label.gh i)
  have hud := asapPrefetch_nonneg hd L.two_le_host Label.ud
  have hstage : asapPrefetch ((oneTo L.host).map fun j => d (.gh L.guest j)) + d (.g L.guest) ≤
      asapPrefetch ((oneTo L.guest).map fun i =>
        asapPrefetch ((oneTo L.host).map fun j => d (.gh i j)) + d (.g i)) := by
    refine le_asapPrefetch (by simpa [oneTo] using L.two_le_guest) ?_ ?_
    · intro s hs
      obtain ⟨i, -, rfl⟩ := List.mem_map.mp hs
      exact add_nonneg (hnonneg i) (hd _)
    · exact List.mem_map.mpr ⟨L.guest, L.guest_mem, rfl⟩
  have hfirst := hnonneg L.guest
  rw [asap]
  omega

theorem fpt_pos (hlast : 0 < d (.g L.guest)) : 0 < fpt L d := by
  have hg := le_sum_map hd Label.g L.guest_mem_sameParity
  have hgh : 0 ≤ ((sameParity L.guest).flatMap fun i =>
      (sameParity L.host).map fun j => d (.gh i j)).sum :=
    List.sum_nonneg fun x hx => by
      obtain ⟨i, -, hi⟩ := List.mem_flatMap.mp hx
      obtain ⟨j, -, rfl⟩ := List.mem_map.mp hi
      exact hd _
  have hud := sum_map_nonneg hd (sameParity L.host) Label.ud
  rw [fpt]
  omega

/-- **Every design costs something** on a walk whose last guest reference does. -/
theorem formula_pos (hlast : 0 < d (.g L.guest)) (n : Design) : 0 < n.formula L d := by
  have hgh := hd (.gh L.guest L.host)
  have hudLast := hd (.ud L.host)
  have hud : 0 ≤ udSum L d := sum_map_nonneg hd (oneTo L.host) Label.ud
  have hg := gSum_pos hd hlast
  have hsage := sagepte_pos hd hlast
  cases n with
  | npw =>
    show 0 < npw L d
    rw [sagepte] at hsage
    omega
  | sagePte => exact hsage
  | tpt =>
    show 0 < tpt L d
    rw [tpt]
    omega
  | dmt =>
    show 0 < dmt L d
    rw [dmt]
    omega
  | ecpt =>
    show 0 < ecpt L d
    rw [ecpt, ecptVirt]
    omega
  | fpt => exact fpt_pos hd hlast
  | asap => exact asap_pos hd hlast
  | agilePaging =>
    show 0 < agile L d
    rw [agile]
    omega

end Formula

/-! ### Costs of a record -/

/-- A result that a reference of a walk can have. -/
def IsRefResult (r : CacheResult) : Prop := IsCacheResult r ∨ r = .pwc ∨ r = .zero

theorem IsRefResult.exists_latency {r : CacheResult} (h : IsRefResult r) :
    ∃ c, latency r = some c := by
  rcases h with (rfl | rfl | rfl | rfl) | rfl | rfl <;> exact ⟨_, rfl⟩

/-- Only a skipped reference is free. -/
theorem latency_pos {r : CacheResult} (h : IsCacheResult r ∨ r = .pwc) {c : ℤ}
    (hc : latency r = some c) : 0 < c := by
  rcases h with (rfl | rfl | rfl | rfl) | rfl <;> (cases hc; decide)

/-- No reference has a negative latency. -/
theorem latency_nonneg {r : CacheResult} {c : ℤ} (h : latency r = some c) : 0 ≤ c := by
  cases r <;> cases h <;> decide

theorem nodup_labelsFor_base : (labelsFor .base).Nodup := by decide

theorem nodup_labelsFor_huge : (labelsFor .huge).Nodup := by decide

section Costs

variable {L : Levels} {refs : List CacheResult}

theorem exists_walkCosts (hrefs : ∀ r ∈ refs, ∃ c, latency r = some c)
    (hlen : refs.length = (labelsFor L).length) : ∃ d, walkCosts L refs = some d := by
  obtain ⟨lat, hlat⟩ := exists_mapM_eq_some hrefs
  have hlat_len := (length_of_mapM hlat).trans hlen
  refine ⟨fun l => (((labelsFor L).zip lat).lookup l).getD 0, ?_⟩
  simp [walkCosts, hlat, hlat_len]

theorem walkCosts_eq_some {d : Label → ℤ} (h : walkCosts L refs = some d) :
    ∃ lat, refs.mapM latency = some lat ∧ lat.length = (labelsFor L).length ∧
      d = fun l => (((labelsFor L).zip lat).lookup l).getD 0 := by
  obtain ⟨lat, hlat, hd⟩ := Option.bind_eq_some_iff.mp h
  split_ifs at hd with hlen
  cases hd
  exact ⟨lat, hlat, hlen, rfl⟩

theorem walkCosts_nonneg {d : Label → ℤ} (h : walkCosts L refs = some d) (l : Label) :
    0 ≤ d l := by
  obtain ⟨lat, hlat, -, rfl⟩ := walkCosts_eq_some h
  cases hl : ((labelsFor L).zip lat).lookup l with
  | none => simp [hl]
  | some c =>
    obtain ⟨r, -, hc⟩ := exists_mem_of_mapM hlat (mem_of_lookup_zip hl)
    simpa [hl] using latency_nonneg hc

/-- The reference at the place of a label costs what its result costs. -/
theorem walkCosts_pos {d : Label → ℤ} (h : walkCosts L refs = some d)
    (hnodup : (labelsFor L).Nodup) {i : ℕ} {l : Label} (hl : (labelsFor L)[i]? = some l)
    {r : CacheResult} (hr : refs[i]? = some r) (hpaid : IsCacheResult r ∨ r = .pwc) : 0 < d l := by
  obtain ⟨lat, hlat, -, rfl⟩ := walkCosts_eq_some h
  have hrefs : IsRefResult r := hpaid.imp_right .inl
  obtain ⟨c, hc⟩ := hrefs.exists_latency
  have hi : lat[i]? = some c := by rw [getElem?_of_mapM hlat, hr, Option.bind_some, hc]
  simpa [lookup_zip hnodup hl, hi] using latency_pos hpaid hc

end Costs

/-! ### The walk of a 2 MB page -/

/-- The projection of a walk of 24 references keeps results of the walk, and puts its
fifteenth one, the third guest reference, at the twelfth place. -/
theorem deriveThp_spec {refs : List CacheResult} (hlen : refs.length = 24) :
    ∃ refs', deriveThp refs = some refs' ∧ refs'.length = 15 ∧ refs'[11]? = refs[14]? ∧
      ∀ r ∈ refs', r ∈ refs := by
  have hsub : ∀ l ∈ labelsFor .huge, ∃ i < 24, (labelsFor .base)[i]? = some l := by decide
  have hlook : ∀ l ∈ labelsFor .huge, ∃ r, ((labelsFor .base).zip refs).lookup l = some r := by
    intro l hl
    obtain ⟨i, hi, hbase⟩ := hsub l hl
    exact ⟨refs.get ⟨i, hlen ▸ hi⟩, by simp [lookup_zip nodup_labelsFor_base hbase, hlen, hi]⟩
  obtain ⟨refs', hrefs'⟩ := exists_mapM_eq_some hlook
  refine ⟨refs', hrefs', length_of_mapM hrefs', ?_, fun r hr => ?_⟩
  · have hthird : (labelsFor .huge)[11]? = some (.g 3) := rfl
    rw [getElem?_of_mapM hrefs', hthird, Option.bind_some]
    exact lookup_zip nodup_labelsFor_base rfl
  · obtain ⟨l, -, hl⟩ := exists_mem_of_mapM hrefs' hr
    exact mem_of_lookup_zip hl

/-! ### Recorded walks -/

theorem hostGroup_entries {g : List CacheResult} (h : HostGroup g) :
    (∀ r ∈ g, IsRefResult r) ∧ ∃ r, g[4]? = some r ∧ IsCacheResult r := by
  have hlen := h.length_eq
  obtain ⟨m, -, rs, r, -, hrs, hr, rfl⟩ := h
  constructor
  · intro x hx
    simp only [List.mem_append, List.mem_singleton] at hx
    rcases hx with (hx | hx) | rfl
    · split_ifs at hx
      · cases hx
      · rcases List.mem_append.mp hx with hx | hx
        · exact .inr (.inr (List.eq_of_mem_replicate hx))
        · exact .inr (.inl (List.mem_singleton.mp hx))
    · exact .inl (hrs x hx)
    · exact .inl hr
  · refine ⟨r, ?_, hr⟩
    rw [List.length_append, List.length_singleton] at hlen
    rw [← Nat.succ.inj hlen]
    exact List.getElem?_concat_length

/-- The entries of one guest level: the last one is skipped only below the hit level. -/
theorem guestGroup_entries {k : ℕ} {level : Fin 5} {g : List CacheResult}
    (h : GuestGroup k level g) :
    (∀ r ∈ g, IsRefResult r) ∧
      (k ≤ level.val → ∃ r, g[4]? = some r ∧ (IsCacheResult r ∨ r = .pwc)) := by
  unfold GuestGroup at h
  split_ifs at h with hlt heq
  · subst h
    exact ⟨fun r hr => .inr (.inr (List.eq_of_mem_replicate hr)), fun hle => by omega⟩
  · subst h
    refine ⟨fun r hr => ?_, fun _ => ⟨.pwc, rfl, .inr rfl⟩⟩
    rcases List.mem_append.mp hr with hr | hr
    · exact .inr (.inr (List.eq_of_mem_replicate hr))
    · exact .inr (.inl (List.mem_singleton.mp hr))
  · obtain ⟨hall, r, hr, hcache⟩ := hostGroup_entries h
    exact ⟨hall, fun _ => ⟨r, hr, .inl hcache⟩⟩

/-- What the parser makes of a recorded walk: 24 references, of which the third and the
fourth guest reference are not skipped. -/
theorem walkShape_refs {v : List CacheResult} (h : WalkShape v) :
    ∃ refs flag, v = refs ++ [flag] ∧ (flag = .rangeHit ∨ flag = .rangeMiss) ∧
      refs.length = 24 ∧ (∀ r ∈ refs, IsRefResult r) ∧
      (∃ r, refs[14]? = some r ∧ (IsCacheResult r ∨ r = .pwc)) ∧
      ∃ r, refs[19]? = some r ∧ (IsCacheResult r ∨ r = .pwc) := by
  obtain ⟨-, k, hk, g1, g2, g3, g4, last, flag, h1, h2, h3, h4, ⟨hlen, hlast⟩, hflag, rfl⟩ := h
  have hlens := And.intro h1.length_eq (And.intro h2.length_eq
    (And.intro h3.length_eq h4.length_eq))
  obtain ⟨r3, hr3, hpaid3⟩ := (guestGroup_entries h3).2 hk
  obtain ⟨r4, hr4, hpaid4⟩ := (guestGroup_entries h4).2 (hk.trans (by decide))
  refine ⟨g1 ++ g2 ++ g3 ++ g4 ++ last, flag, rfl, hflag, ?_, ?_, ⟨r3, ?_, hpaid3⟩,
    ⟨r4, ?_, hpaid4⟩⟩
  · simp [hlens, hlen]
  · intro r hr
    simp only [List.mem_append] at hr
    rcases hr with (((hr | hr) | hr) | hr) | hr
    · exact (guestGroup_entries h1).1 r hr
    · exact (guestGroup_entries h2).1 r hr
    · exact (guestGroup_entries h3).1 r hr
    · exact (guestGroup_entries h4).1 r hr
    · exact .inl (hlast r hr)
  · simp only [List.getElem?_append, List.length_append, hlens]
    exact hr3
  · simp only [List.getElem?_append, List.length_append, hlens]
    exact hr4

/-- A recorded walk costs something under every design. -/
theorem base_costs {refs : List CacheResult} (hlen : refs.length = 24)
    (hrefs : ∀ r ∈ refs, IsRefResult r)
    (hpaid : ∃ r, refs[19]? = some r ∧ (IsCacheResult r ∨ r = .pwc)) :
    ∃ d, walkCosts .base refs = some d ∧ ∀ n : Design, 0 < n.formula .base d := by
  obtain ⟨d, hd⟩ := exists_walkCosts (L := .base) (fun r hr => (hrefs r hr).exists_latency) hlen
  obtain ⟨r, hr, hpaid⟩ := hpaid
  have hlast : 0 < d (.g 4) := walkCosts_pos hd nodup_labelsFor_base rfl hr hpaid
  exact ⟨d, hd, formula_pos (walkCosts_nonneg hd) hlast⟩

/-- So does the walk of a 2 MB page that it implies. -/
theorem huge_costs {refs : List CacheResult} (hlen : refs.length = 24)
    (hrefs : ∀ r ∈ refs, IsRefResult r)
    (hpaid : ∃ r, refs[14]? = some r ∧ (IsCacheResult r ∨ r = .pwc)) :
    ∃ d, (deriveThp refs).bind (walkCosts .huge) = some d ∧
      ∀ n : Design, 0 < n.formula .huge d := by
  obtain ⟨refs', hthp, hlen', hthird, hmem⟩ := deriveThp_spec hlen
  have hrefs' : ∀ r ∈ refs', IsRefResult r := fun r hr => hrefs r (hmem r hr)
  obtain ⟨d, hd⟩ := exists_walkCosts (L := .huge) (fun r hr => (hrefs' r hr).exists_latency) hlen'
  obtain ⟨r, hr, hpaid⟩ := hpaid
  have hlast : 0 < d (.g 3) :=
    walkCosts_pos hd nodup_labelsFor_huge rfl (hthird.trans hr) hpaid
  rw [hthp, Option.bind_some]
  exact ⟨d, hd, formula_pos (walkCosts_nonneg hd) hlast⟩

/-- A walk that no page-walk cache shortens and whose references all have one result. -/
def uniformWalk (r : CacheResult) : List CacheResult := List.replicate 24 r ++ [.rangeMiss]

theorem walkShape_uniformWalk {r : CacheResult} (h : IsCacheResult r) :
    WalkShape (uniformWalk r) := by
  have hgroup : HostGroup (List.replicate 5 r) :=
    ⟨0, by decide, List.replicate 4 r, r, rfl, fun x hx => List.eq_of_mem_replicate hx ▸ h, h, rfl⟩
  exact ⟨rfl, 0, by decide, _, _, _, _, List.replicate 4 r, .rangeMiss, hgroup, hgroup, hgroup,
    hgroup, ⟨rfl, fun x hx => List.eq_of_mem_replicate hx ▸ h⟩, .inr rfl, rfl⟩

end SagePTE.Analysis
