import Mathlib.Data.List.Perm.Subperm
import SagePTE.Tools.SkipList

/-!
# The layout of the list

What the pointers of the list say when the lines are in a given order: the links in both
directions, the positions of the skip nodes, and the times, which go down from the front.

## Main definitions

* `LineRefList.At` — nodes at given positions
* `LineRefList.Layout` — the lines are in the list, in a given order

## Main results

* `LineRefList.reuseDistance_eq` — the walk to the nearest skip node finds the position of a line
* `LineRefList.Layout.shift` — the skip nodes before a line that moves to the front
* `LineRefList.printList_eq` — the assertions of the debug output hold
-/

set_option autoImplicit false

namespace SagePTE.Tools

open Function Linked

namespace LineRefList

variable {α : Type} {L : LineRefList α} {l S : List α} {ks : List ℕ} {x ref : α} {k turns : ℕ}

/-! ### Positions -/

/-- The nodes of `S` are at these positions of `l`. -/
def At (l S : List α) (ks : List ℕ) : Prop := S.map some = ks.map (l[·]?)

theorem At.exists_of_mem (h : At l S ks) (hx : x ∈ S) : ∃ k ∈ ks, l[k]? = some x := by
  have hmem : some x ∈ ks.map (l[·]?) := by
    rw [← h]
    exact List.mem_map_of_mem hx
  exact List.mem_map.mp hmem

theorem At.exists_of_position (h : At l S ks) (hk : k ∈ ks) : ∃ x ∈ S, l[k]? = some x := by
  have hmem : l[k]? ∈ S.map some := by
    rw [h]
    exact List.mem_map_of_mem hk
  obtain ⟨x, hx, hkx⟩ := List.mem_map.mp hmem
  exact ⟨x, hx, hkx.symm⟩

theorem At.mem_iff (h : At l S ks) (hl : l.Nodup) (hx : l[k]? = some x) : x ∈ S ↔ k ∈ ks := by
  constructor
  · intro hmem
    obtain ⟨j, hj, hjx⟩ := h.exists_of_mem hmem
    have hlt : j < l.length := (List.getElem?_eq_some_iff.mp hjx).1
    rwa [← (List.getElem?_inj hlt hl).mp (hjx.trans hx.symm)]
  · intro hk
    obtain ⟨y, hy, hky⟩ := h.exists_of_position hk
    rwa [Option.some.inj (hx.symm.trans hky)]

theorem At.length_le (h : At l S ks) (hS : S.Nodup) : S.length ≤ l.length := by
  refine (hS.subperm fun x hx => ?_).length_le
  obtain ⟨k, -, hk⟩ := h.exists_of_mem hx
  exact List.mem_of_getElem? hk

theorem At.cons (h : At l S ks) (x : α) : At (x :: l) S (ks.map (· + 1)) := by
  rw [At, h, List.map_map]
  rfl

theorem At.eq_of_range (h : At l S (List.range l.length)) : S = l := by
  have hall : (List.range l.length).map (l[·]?) = l.map some := by
    refine List.ext_getElem (by simp) fun i hi hi' => ?_
    simp only [List.length_map] at hi'
    simp [List.getElem?_eq_getElem hi']
  exact (List.map_inj_right fun _ _ => Option.some.inj).mp (h.trans hall)

/-- The nodes in front of the first one. -/
theorem At.front (h : At l S ks) (hl : l.Nodup) (hks : ks.Pairwise (· < ·)) :
    ∃ u v, l = u ++ v ∧ u.length = ks.head?.getD l.length ∧ v.head? = S.head? ∧
      ∀ y ∈ u, y ∉ S := by
  cases ks with
  | nil =>
    obtain rfl : S = [] := by simpa [At] using h
    exact ⟨l, [], by simp, rfl, rfl, by simp⟩
  | cons k ks =>
    obtain ⟨s, S, rfl, hs, -⟩ : ∃ s S', S = s :: S' ∧ some s = l[k]? ∧ At l S' ks := by
      simpa [At, List.map_eq_cons_iff] using h
    have hk : k < l.length := (List.getElem?_eq_some_iff.mp hs.symm).1
    refine ⟨l.take k, l.drop k, (List.take_append_drop k l).symm, ?_, ?_, ?_⟩
    · rw [List.length_take, Nat.min_eq_left (Nat.le_of_lt hk)]
      rfl
    · rw [List.head?_drop, ← hs, List.head?_cons]
    · intro y hy
      obtain ⟨j, hj, hjy⟩ := List.mem_take_iff_getElem.mp hy
      have hj' : j < k ∧ j < l.length := Nat.lt_min.mp hj
      rw [h.mem_iff hl (List.getElem?_eq_some_iff.mpr ⟨hj'.2, hjy⟩), List.mem_cons, not_or]
      refine ⟨by omega, fun hmem => ?_⟩
      have := (List.pairwise_cons.mp hks).1 j hmem
      omega

/-- A skip node knows its position. -/
theorem Chain.depth_eq (hS : L.Chain S ks) (h : At l S ks) (hl : l.Nodup) (hx : l[k]? = some x) :
    L.depth x = if k ∈ ks then (k : ℤ) else -1 := by
  split_ifs with hk
  · obtain ⟨i, hi⟩ := List.mem_iff_getElem?.mp hk
    have hSi : S[i]? = some x := by
      have := congrArg (·[i]?) h
      simpa [hi, hx] using this
    have := congrArg (·[i]?) hS.depths
    simpa [hSi, hi] using this
  · exact (hS.off x (mt (h.mem_iff hl hx).mp hk)).2.2

/-- The lines of `l` are in the list, in this order. -/
structure Layout (L : LineRefList α) (l : List α) : Prop where
  nodup : l.Nodup
  links : Links L.next L.prev none l none
  head : L.head = l.head?
  uniqueLines : L.uniqueLines = l.length
  skips : ∃ S, At l S (skipDepths L.skipDistance l.length) ∧
    L.Chain S (skipDepths L.skipDistance l.length)
  times : l.Pairwise fun x y => L.timeStamp y < L.timeStamp x
  time_lt : ∀ x ∈ l, L.timeStamp x < L.curTime

theorem At.append_iff {ks₁ ks₂ : List ℕ} :
    At l S (ks₁ ++ ks₂) ↔ ∃ S₁ S₂, S = S₁ ++ S₂ ∧ At l S₁ ks₁ ∧ At l S₂ ks₂ := by
  rw [At, List.map_append, List.map_eq_append_iff]
  rfl

theorem exists_split {ks : List ℕ} (h : ks.Pairwise (· < ·)) (p : ℕ) :
    ∃ ks₁ ks₂, ks = ks₁ ++ ks₂ ∧ (∀ k ∈ ks₁, k ≤ p) ∧ ∀ k ∈ ks₂, p < k := by
  induction ks with
  | nil => exact ⟨[], [], rfl, by simp, by simp⟩
  | cons k ks ih =>
    obtain ⟨hk, hks⟩ := List.pairwise_cons.mp h
    rcases Nat.lt_or_ge p k with hlt | hle
    · refine ⟨[], k :: ks, rfl, by simp, List.forall_mem_cons.mpr ⟨hlt, fun j hj => ?_⟩⟩
      exact Nat.lt_trans hlt (hk j hj)
    · obtain ⟨ks₁, ks₂, rfl, h₁, h₂⟩ := ih hks
      exact ⟨k :: ks₁, ks₂, rfl, List.forall_mem_cons.mpr ⟨hle, h₁⟩, h₂⟩

/-! ### Shifted positions -/

theorem At.nodup (h : At l S ks) (hl : l.Nodup) (hks : ks.Nodup) : S.Nodup := by
  have hmap : (ks.map (l[·]?)).Nodup := by
    apply List.Nodup.map_on _ hks
    intro j hj k hk hjk
    obtain ⟨x, -, hx⟩ := h.exists_of_position hj
    exact (List.getElem?_inj (List.getElem?_eq_some_iff.mp hx).1 hl).mp hjk
  rw [← h] at hmap
  exact hmap.of_map

/-- The predecessor of a node at one of the positions. -/
theorem At.exists_prev (h : At l S ks) (hlinks : Links L.next L.prev none l none)
    (hpos : ∀ k ∈ ks, 0 < k) (hx : x ∈ S) :
    ∃ k y, k + 1 ∈ ks ∧ L.prev x = some y ∧ l[k]? = some y := by
  obtain ⟨k, hk, hkx⟩ := h.exists_of_mem hx
  obtain ⟨k, rfl⟩ := Nat.exists_add_one_eq.mpr (hpos k hk)
  have hlt : k < l.length := Nat.lt_of_succ_lt (List.getElem?_eq_some_iff.mp hkx).1
  refine ⟨k, l[k], hk, ?_, List.getElem?_eq_getElem hlt⟩
  rw [hlinks.prev_getElem? hkx, List.getElem?_eq_getElem hlt]

section Front

variable {xs ys : List α}

/-- The lines up to the one that moves are one position further back. -/
theorem getElem?_front_of_le (hpos : 0 < k) (hk : k ≤ xs.length) :
    (ref :: (xs ++ ys))[k]? = (xs ++ ref :: ys)[k - 1]? := by
  obtain ⟨k, rfl⟩ := Nat.exists_add_one_eq.mpr hpos
  rw [List.getElem?_cons_succ, Nat.add_sub_cancel, List.getElem?_append_left hk,
    List.getElem?_append_left hk]

/-- The lines behind it stay where they are. -/
theorem getElem?_front_of_lt (hk : xs.length < k) :
    (ref :: (xs ++ ys))[k]? = (xs ++ ref :: ys)[k]? := by
  obtain ⟨j, rfl⟩ : ∃ j, k = xs.length + 1 + j := ⟨k - xs.length - 1, by omega⟩
  have hsub : xs.length + j + 1 = xs.length + 1 + j := by omega
  rw [← hsub, List.getElem?_cons_succ, List.getElem?_append_right (by omega),
    List.getElem?_append_right (by omega), Nat.add_sub_cancel_left]
  have hsub' : xs.length + j + 1 - xs.length = j + 1 := by omega
  rw [hsub', List.getElem?_cons_succ]

theorem At.front_of_lt (h : At (xs ++ ref :: ys) S ks) (hks : ∀ k ∈ ks, xs.length < k) :
    At (ref :: (xs ++ ys)) S ks := by
  rw [At, h]
  apply List.map_congr_left
  intro k hk
  exact (getElem?_front_of_lt (hks k hk)).symm

/-- The predecessors of skip nodes take their positions. -/
theorem At.front_of_le {f : α → α} (h : At (xs ++ ref :: ys) S ks)
    (hlinks : Links L.next L.prev none (xs ++ ref :: ys) none)
    (hks : ∀ k ∈ ks, 0 < k ∧ k ≤ xs.length) (hf : ∀ x ∈ S, L.prev x = some (f x)) :
    At (ref :: (xs ++ ys)) (S.map f) ks := by
  have hprev : ∀ k ∈ ks, (xs ++ ref :: ys)[k]?.bind L.prev = (ref :: (xs ++ ys))[k]? := by
    intro k hk
    obtain ⟨hpos, hle⟩ := hks k hk
    rw [getElem?_front_of_le hpos hle]
    have hlt : k < (xs ++ ref :: ys).length := by
      rw [List.length_append, List.length_cons]
      omega
    obtain ⟨k, rfl⟩ := Nat.exists_add_one_eq.mpr hpos
    rw [List.getElem?_eq_getElem hlt, Option.bind_some, Nat.add_sub_cancel]
    exact hlinks.prev_getElem? (List.getElem?_eq_getElem hlt)
  have hbind := congrArg (List.map (·.bind L.prev)) h
  rw [List.map_map, List.map_map] at hbind
  rw [At, List.map_map, ← List.map_congr_left hprev]
  refine Eq.trans ?_ hbind
  apply List.map_congr_left
  intro x hx
  exact (hf x hx).symm

end Front

theorem require_of {p : Prop} [Decidable p] (hp : p) : require p = .ok () := if_pos hp

section Distance

variable {xs ys S₁ : List α} {ks₁ ks₂ : List ℕ}

/-- The walk back from a line, if the first `m` nodes end with a skip node and the others up to
the line are none. -/
theorem climb_front {m : ℕ} (hlinks : Links L.next L.prev none (xs ++ ref :: ys) none)
    (hm : m ≤ xs.length + 1)
    (hskip : ∀ x ∈ ((xs ++ [ref]).take m).getLast?, L.depth x ≠ -1)
    (hrest : ∀ x ∈ (xs ++ [ref]).drop m, L.depth x = -1) (hturns : xs.length + 1 < turns) :
    L.climb turns (some ref) 0 =
      .ok ((xs.length + 1 - m : ℕ), ((xs ++ [ref]).take m).getLast?) := by
  have hpath : ((xs ++ [ref]).drop m).reverse ++ ((xs ++ [ref]).take m).reverse =
      ref :: xs.reverse := by
    rw [← List.reverse_append, List.take_append_drop, List.reverse_append]
    rfl
  have hprev : Follows L.prev (ref :: xs.reverse) := by
    have := hlinks.follows_prev
    rw [List.reverse_append, List.reverse_cons, List.append_assoc] at this
    exact this.of_append
  rw [← hpath] at hprev
  have hlen : ((xs ++ [ref]).drop m).reverse.length < turns := by
    simp only [List.length_reverse, List.length_drop, List.length_append, List.length_singleton]
    omega
  have hclimb := climb_eq hprev (by simpa using hrest) (by simpa using hskip) hlen 0
  rw [hpath] at hclimb
  simpa using hclimb

/-- The walk back from a line ends at the last skip node that is not behind it. Together with
the depth of that node, its length is the position of the line. -/
theorem reuseDistance_eq
    (hlinks : Links L.next L.prev none (xs ++ ref :: ys) none)
    (hdepth : ∀ k x, (xs ++ ref :: ys)[k]? = some x →
      L.depth x = if k ∈ ks₁ ++ ks₂ then (k : ℤ) else -1)
    (hsorted : ks₁.Pairwise (· < ·)) (h₁ : ∀ k ∈ ks₁, k ≤ xs.length)
    (h₂ : ∀ k ∈ ks₂, xs.length < k) (hS₁ : At (xs ++ ref :: ys) S₁ ks₁)
    (hturns : xs.length + 1 < turns) :
    L.reuseDistance turns ref = .ok ((xs.length : ℤ), S₁.getLast?) := by
  have hat : ∀ k ≤ xs.length, (xs ++ [ref])[k]? = (xs ++ ref :: ys)[k]? := by
    intro k hk
    have hlen : k < (xs ++ [ref]).length := by
      rw [List.length_append, List.length_singleton]
      omega
    rw [List.append_cons xs ref ys, List.getElem?_append_left hlen]
  -- no node after the last skip node and up to the line is a skip node
  have hrest : ∀ m, (∀ k ∈ ks₁, k < m) → ∀ x ∈ (xs ++ [ref]).drop m, L.depth x = -1 := by
    intro m hm x hx
    obtain ⟨j, hj⟩ := List.mem_iff_getElem?.mp hx
    rw [List.getElem?_drop] at hj
    have hlt : m + j ≤ xs.length := by
      have := (List.getElem?_eq_some_iff.mp hj).1
      simp at this
      omega
    rw [hdepth (m + j) x (by rw [← hat _ hlt, hj]), if_neg]
    intro hmem
    rcases List.mem_append.mp hmem with hmem | hmem
    · have := hm _ hmem
      omega
    · have := h₂ _ hmem
      omega
  rw [reuseDistance]
  -- without a skip node the walk ends at the front of the list
  rcases List.eq_nil_or_concat ks₁ with rfl | ⟨ks, k, rfl⟩
  · obtain rfl : S₁ = [] := by simpa [At] using hS₁
    rw [climb_front (m := 0) hlinks (by omega) (by simp) (hrest 0 (by simp)) hturns]
    simp [bind, Except.bind, pure, Except.pure]
  · rw [List.concat_eq_append] at *
    obtain ⟨A, B, rfl, -, hB⟩ := At.append_iff.mp hS₁
    obtain ⟨s, rfl, hs⟩ : ∃ s, B = [s] ∧ some s = (xs ++ ref :: ys)[k]? := by
      simpa [At, List.map_eq_singleton_iff] using hB
    have hk : k ≤ xs.length := h₁ k (by simp)
    have hlast : ((xs ++ [ref]).take (k + 1)).getLast? = some s := by
      rw [List.getLast?_take, if_neg (Nat.succ_ne_zero k), Nat.add_sub_cancel, hat k hk, ← hs]
      rfl
    have hskip : L.depth s = k := by
      rw [hdepth k s hs.symm, if_pos (by simp)]
    have hbefore : ∀ j ∈ ks ++ [k], j < k + 1 := by
      intro j hj
      rcases List.mem_append.mp hj with hj | hj
      · exact Nat.lt_succ_of_lt ((List.pairwise_append.mp hsorted).2.2 j hj k (by simp))
      · rw [List.mem_singleton.mp hj]
        exact Nat.lt_succ_self k
    rw [climb_front (m := k + 1) hlinks (by omega) (by simp [hlast, hskip])
      (hrest _ hbefore) hturns, hlast]
    simp [bind, Except.bind, pure, Except.pure, hskip]
    omega

variable [DecidableEq α]

theorem bruteDistance_eq (hnext : Follows L.next (xs ++ ref :: ys)) (href : ref ∉ xs)
    (hturns : xs.length ≤ turns) (dist : ℤ) :
    L.bruteDistance ref turns (xs ++ ref :: ys).head? dist = .ok (dist + xs.length) := by
  induction xs generalizing turns dist with
  | nil => cases turns <;> simp [bruteDistance]
  | cons x xs ih =>
    rw [List.cons_append, follows_cons] at hnext
    obtain ⟨hx, htail⟩ := hnext
    rw [List.mem_cons, not_or] at href
    obtain ⟨turns, rfl⟩ : ∃ n, turns = n + 1 := ⟨turns - 1, by simp at hturns; omega⟩
    rw [List.cons_append, List.head?_cons, bruteDistance, if_neg (Ne.symm href.1), hx,
      ih htail href.2 (by simpa using hturns), List.length_cons]
    congr 1
    push_cast
    omega

theorem shiftFrom_eq (hnone : S₁ = [] → L.depth ref = -1) :
    L.shiftFrom turns ref S₁.getLast? = L.shiftSkips turns S₁.getLast? := by
  cases hlast : S₁.getLast? with
  | some skip => rfl
  | none =>
    rw [shiftFrom, require_of (hnone (List.getLast?_eq_none_iff.mp hlast)), shiftSkips_none]
    rfl

/-- The distance that is computed for a line is its position, and the skip nodes get the
positions that they have when the line is at the front. -/
theorem Layout.shift (h : L.Layout (xs ++ ref :: ys)) (hd : L.skipDistance ≠ 1)
    (hturns : (xs ++ ref :: ys).length < turns) :
    ∃ skip L', L.reuseDistance turns ref = .ok ((xs.length : ℤ), skip) ∧
      L.shiftFrom turns ref skip = .ok L' ∧ L.SkipsOnly L' ∧
      ∃ S, At (ref :: (xs ++ ys)) S (skipDepths L.skipDistance (xs ++ ref :: ys).length) ∧
        L'.Chain S (skipDepths L.skipDistance (xs ++ ref :: ys).length) := by
  obtain ⟨S, hat, hchain⟩ := h.skips
  have hdepth := fun k x => hchain.depth_eq (k := k) (x := x) hat h.nodup
  have hpos {k : ℕ} := pos_of_mem_skipDepths (k := k) (n := (xs ++ ref :: ys).length) hd
  have hpred {k : ℕ} := pred_notMem_skipDepths (k := k) (n := (xs ++ ref :: ys).length) hd
  have hsorted := sorted_skipDepths L.skipDistance (xs ++ ref :: ys).length
  -- only the skip nodes up to the line move, each to its predecessor in the list
  obtain ⟨ks₁, ks₂, hks, h₁, h₂⟩ := exists_split hsorted xs.length
  rw [hks] at hat hchain hdepth hsorted hpos hpred ⊢
  obtain ⟨S₁, S₂, rfl, hS₁, hS₂⟩ := At.append_iff.mp hat
  have hpos₁ : ∀ k ∈ ks₁, 0 < k := fun k hk => hpos (List.mem_append_left ks₂ hk)
  have hf : ∀ x ∈ S₁, L.prev x = some ((L.prev x).getD x) := by
    intro x hx
    obtain ⟨k, y, -, hy, -⟩ := hS₁.exists_prev h.links hpos₁ hx
    rw [hy, Option.getD_some]
  have hat₁ := hS₁.front_of_le h.links (fun k hk => ⟨hpos₁ k hk, h₁ k hk⟩) hf
  have hnodup : (ref :: (xs ++ ys)).Nodup := List.nodup_middle.mp h.nodup
  -- here the distance must not be one: a predecessor must not be a skip node itself
  have hnew : ∀ x ∈ S₁, (L.prev x).getD x ∉ S₁ ++ S₂ := by
    intro x hx
    obtain ⟨k, y, hk, hy, hky⟩ := hS₁.exists_prev h.links hpos₁ hx
    rw [hy, Option.getD_some, hat.mem_iff h.nodup hky]
    exact hpred (List.mem_append_left ks₂ hk)
  have hlen : S₁.length ≤ turns := by
    have := hat.length_le hchain.nodup
    rw [List.length_append] at this
    omega
  obtain ⟨L', hshift, honly, hL'⟩ := shiftSkips_eq hchain hf hnew
    (hat₁.nodup hnodup ((List.pairwise_append.mp hsorted).1.imp Nat.ne_of_lt)) hlen
  refine ⟨S₁.getLast?, L', ?_, ?_, honly, S₁.map (fun x => (L.prev x).getD x) ++ S₂,
    At.append_iff.mpr ⟨_, _, rfl, hat₁, hS₂.front_of_lt h₂⟩, hL'⟩
  · apply reuseDistance_eq h.links hdepth (List.pairwise_append.mp hsorted).1 h₁ h₂ hS₁
    rw [List.length_append, List.length_cons] at hturns
    omega
  · rw [shiftFrom_eq, hshift]
    rintro rfl
    obtain rfl : ks₁ = [] := by simpa [At] using hS₁
    rw [hdepth xs.length ref (by simp), if_neg]
    intro hmem
    exact absurd (h₂ _ hmem) (Nat.lt_irrefl _)

end Distance

/-! ### The assertions of the debug output -/

theorem Chain.depth_ne_iff (h : L.Chain S ks) : L.depth x ≠ -1 ↔ x ∈ S := by
  constructor
  · intro hx
    by_contra hmem
    exact hx (h.off x hmem).2.2
  · intro hx
    have hmem : L.depth x ∈ ks.map (fun k : ℕ => (k : ℤ)) := by
      rw [← h.depths]
      exact List.mem_map_of_mem hx
    obtain ⟨k, -, hk⟩ := List.mem_map.mp hmem
    omega

theorem printList_some [DecidableEq α] (L : LineRefList α) (turns : ℕ) (node : α) :
    L.printList (turns + 1) (some node) =
      (if L.depth node ≠ -1 then
          require (∀ skip ∈ L.nextSkip node, L.prevSkip skip = some node)
        else require (L.nextSkip node = none ∧ L.prevSkip node = none)) >>=
        fun _ => L.printList turns (L.next node) := by
  rw [printList]
  split_ifs <;> rfl

theorem printList_eq [DecidableEq α] {path : List α} (hS : L.Chain S ks)
    (hnext : Follows L.next path) (hturns : path.length ≤ turns) :
    L.printList turns path.head? = .ok () := by
  induction path generalizing turns with
  | nil => cases turns <;> rfl
  | cons x path ih =>
    obtain ⟨hx, htail⟩ := hnext
    obtain ⟨turns, rfl⟩ : ∃ n, turns = n + 1 := ⟨turns - 1, by simp at hturns; omega⟩
    have hrest := ih htail (by simpa using hturns)
    rw [List.head?_cons, printList_some, hx]
    split_ifs with hdepth
    · have hback : ∀ skip ∈ L.nextSkip x, L.prevSkip skip = some x := by
        intro skip hskip
        exact hS.links.prev_of_next (hS.depth_ne_iff.mp hdepth) hskip
      rw [require_of hback]
      exact hrest
    · obtain ⟨hnext, hprev, -⟩ := hS.off x (mt hS.depth_ne_iff.mpr hdepth)
      rw [require_of ⟨hnext, hprev⟩]
      exact hrest

end LineRefList
end SagePTE.Tools
