import Mathlib.Data.List.Basic
import SagePTE.Tools.LineRefList

/-!
# The skip list

Where the skip nodes are depends only on the number of lines. An access that moves a line to the
front leaves them at their positions, by passing the place of each of them on to the node before
it. For this the skip nodes must not be next to each other, nor at the head of the list.

## Main definitions

* `newDepths`, `skipDepths` — the positions of the skip nodes
* `LineRefList.Chain` — the nodes of the skip list and their depths

## Main results

* `skipDepths_spaced` — the distances between the skip nodes
* `LineRefList.scanFront_eq`, `LineRefList.climb_eq`, `LineRefList.deepen_eq` — the loops over
  the nodes
* `LineRefList.shiftSkips_eq` — the loop that shifts the skip nodes
-/

set_option autoImplicit false

namespace SagePTE.Tools

open Function Linked

/-- The position of a new skip node, if there are enough nodes in front of the others. -/
def newDepths (d count : ℕ) : List ℕ := if 0 < d ∧ 2 * d - 1 ≤ count then [d - 1] else []

/-- The positions of the skip nodes in a list of `n` nodes. Each new line moves them back, and
one more may be added. -/
def skipDepths (d : ℕ) : ℕ → List ℕ
  | 0 => []
  | n + 1 =>
    let depths := (skipDepths d n).map (· + 1)
    newDepths d (depths.head?.getD (n + 1)) ++ depths

variable {d n : ℕ}

theorem skipDepths_succ (d n : ℕ) :
    skipDepths d (n + 1) = newDepths d (((skipDepths d n).map (· + 1)).head?.getD (n + 1)) ++
      (skipDepths d n).map (· + 1) :=
  rfl

@[simp] theorem skipDepths_zero_left (n : ℕ) : skipDepths 0 n = [] := by
  induction n with
  | zero => rfl
  | succ n ih => simp [skipDepths_succ, newDepths, ih]

/-- With a skip distance of one, all nodes are skip nodes. -/
theorem skipDepths_one (n : ℕ) : skipDepths 1 n = List.range n := by
  induction n with
  | zero => rfl
  | succ n ih =>
    rw [skipDepths_succ, ih, List.range_succ_eq_map, newDepths, if_pos]
    · rfl
    · cases n with
      | zero => simp
      | succ n => simp [List.range_succ_eq_map]

/-- Skip nodes are at least a skip distance apart, and not too close to the ends. -/
theorem skipDepths_spaced (d n : ℕ) :
    (skipDepths d n).Pairwise (· + d ≤ ·) ∧ ∀ k ∈ skipDepths d n, d ≤ k + 1 ∧ k + d ≤ n := by
  induction n with
  | zero => simp [skipDepths]
  | succ n ih =>
    obtain ⟨hpair, hbound⟩ := ih
    have hpair' : ((skipDepths d n).map (· + 1)).Pairwise (· + d ≤ ·) := by
      rw [List.pairwise_map]
      exact hpair.imp fun h => by omega
    have hbound' : ∀ k ∈ (skipDepths d n).map (· + 1), d ≤ k + 1 ∧ k + d ≤ n + 1 := by
      simp only [List.forall_mem_map]
      intro k hk
      have := hbound k hk
      omega
    rw [skipDepths_succ, newDepths]
    -- what the older nodes are does not matter from here on, only the place of the first one
    generalize (skipDepths d n).map (· + 1) = depths at hpair' hbound' ⊢
    split_ifs with hnew
    · obtain ⟨hd, hnew⟩ := hnew
      cases depths with
      | nil =>
        simp only [List.head?_nil, Option.getD_none] at hnew
        simp only [List.append_nil, List.pairwise_singleton, List.mem_singleton, forall_eq,
          true_and]
        omega
      | cons first depths =>
        simp only [List.head?_cons, Option.getD_some] at hnew
        have hfirst := hbound' first List.mem_cons_self
        refine ⟨List.pairwise_cons.mpr ⟨?_, hpair'⟩, List.forall_mem_cons.mpr ⟨by omega, hbound'⟩⟩
        have hlater := (List.pairwise_cons.mp hpair').1
        refine List.forall_mem_cons.mpr ⟨by omega, fun k hk => ?_⟩
        have := hlater k hk
        omega
    · exact ⟨hpair', hbound'⟩

theorem sorted_skipDepths (d n : ℕ) : (skipDepths d n).Pairwise (· < ·) := by
  rcases Nat.eq_zero_or_pos d with rfl | hd
  · simp
  · exact (skipDepths_spaced d n).1.imp fun h => by omega

/-- The skip nodes have predecessors. -/
theorem pos_of_mem_skipDepths {k : ℕ} (hd : d ≠ 1) (hk : k ∈ skipDepths d n) : 0 < k := by
  rcases Nat.eq_zero_or_pos d with rfl | hpos
  · simp at hk
  · have := ((skipDepths_spaced d n).2 k hk).1
    omega

/-- The predecessors of skip nodes are no skip nodes. -/
theorem pred_notMem_skipDepths {k : ℕ} (hd : d ≠ 1) (hk : k + 1 ∈ skipDepths d n) :
    k ∉ skipDepths d n := by
  intro hk'
  rcases Nat.eq_zero_or_pos d with rfl | hpos
  · simp at hk
  have hpair := (skipDepths_spaced d n).1
  obtain ⟨i, hi, hik⟩ := List.mem_iff_getElem.mp hk
  obtain ⟨j, hj, hjk⟩ := List.mem_iff_getElem.mp hk'
  rw [List.pairwise_iff_getElem] at hpair
  rcases Nat.lt_trichotomy i j with h | rfl | h
  · have := hpair i j hi hj h
    omega
  · omega
  · have := hpair j i hj hi h
    omega

namespace LineRefList

variable {α : Type} {L : LineRefList α} {ks : List ℕ}

/-- The nodes of `S` form the skip list, and have these depths. -/
structure Chain (L : LineRefList α) (S : List α) (ks : List ℕ) : Prop where
  nodup : S.Nodup
  links : Links L.nextSkip L.prevSkip none S none
  depths : S.map L.depth = ks.map (↑)
  off : ∀ x, x ∉ S → L.nextSkip x = none ∧ L.prevSkip x = none ∧ L.depth x = -1

/-! ### The loops -/

section Loops

variable {u v path : List α} {x : α} {turns : ℕ}

@[simp] theorem scanFront_none (L : LineRefList α) (turns count : ℕ) (skip : Option α) :
    L.scanFront turns none count skip = .ok (count, none, skip) := by
  cases turns <;> rfl

theorem scanFront_some (L : LineRefList α) (turns : ℕ) (x : α) (count : ℕ) (skip : Option α) :
    L.scanFront (turns + 1) (some x) count skip =
      if L.depth x = -1 then
        L.scanFront turns (L.next x) (count + 1)
          (if count + 1 = L.skipDistance then some x else skip)
      else .ok (count, some x, skip) :=
  rfl

/-- The loop stops at the first skip node, and has seen the node of the skip distance if there
are enough nodes before. -/
theorem scanFront_eq (hnext : Follows L.next (u ++ v)) (hu : ∀ x ∈ u, L.depth x = -1)
    (hv : ∀ x ∈ v.head?, L.depth x ≠ -1) (hturns : u.length < turns) (count : ℕ)
    (skip : Option α) :
    L.scanFront turns (u ++ v).head? count skip =
      .ok (count + u.length, v.head?,
        if count < L.skipDistance ∧ L.skipDistance ≤ count + u.length then
          u[L.skipDistance - 1 - count]?
        else skip) := by
  obtain ⟨turns, rfl⟩ := Nat.exists_eq_add_one_of_ne_zero (Nat.ne_zero_of_lt hturns)
  induction u generalizing turns count skip with
  | nil =>
    rw [if_neg (by simp only [List.length_nil]; omega)]
    cases v with
    | nil => rfl
    | cons y v =>
      rw [List.nil_append, List.head?_cons, scanFront_some, if_neg (hv y rfl)]
      rfl
  | cons x u ih =>
    rw [List.cons_append, follows_cons] at hnext
    obtain ⟨hx, htail⟩ := hnext
    obtain ⟨turns, rfl⟩ : ∃ n, turns = n + 1 := ⟨turns - 1, by simp at hturns; omega⟩
    rw [List.cons_append, List.head?_cons, scanFront_some, if_pos (hu x List.mem_cons_self), hx,
      ih htail (fun y hy => hu y (List.mem_cons_of_mem x hy)) (count + 1) _ turns
        (by simpa using hturns), List.length_cons]
    congr 2
    · omega
    · rcases Nat.lt_trichotomy (count + 1) L.skipDistance with hlt | heq | hgt
      · have hidx : L.skipDistance - 1 - count = L.skipDistance - 1 - (count + 1) + 1 := by omega
        rw [hidx, List.getElem?_cons_succ]
        grind
      · simp [← heq]
      · grind

@[simp] theorem climb_none (L : LineRefList α) (turns : ℕ) (dist : ℤ) :
    L.climb turns none dist = .ok (dist, none) := by
  cases turns <;> rfl

theorem climb_some (L : LineRefList α) (turns : ℕ) (x : α) (dist : ℤ) :
    L.climb (turns + 1) (some x) dist =
      if L.depth x = -1 then L.climb turns (L.prev x) (dist + 1) else .ok (dist, some x) :=
  rfl

theorem climb_eq (hprev : Follows L.prev (u ++ v)) (hu : ∀ x ∈ u, L.depth x = -1)
    (hv : ∀ x ∈ v.head?, L.depth x ≠ -1) (hturns : u.length < turns) (dist : ℤ) :
    L.climb turns (u ++ v).head? dist = .ok (dist + u.length, v.head?) := by
  induction u generalizing turns dist with
  | nil =>
    cases v with
    | nil => simp
    | cons y v =>
      obtain ⟨turns, rfl⟩ := Nat.exists_eq_add_one_of_ne_zero (Nat.ne_zero_of_lt hturns)
      rw [List.nil_append, List.head?_cons, climb_some, if_neg (hv y rfl)]
      simp
  | cons x u ih =>
    rw [List.cons_append, follows_cons] at hprev
    obtain ⟨hx, htail⟩ := hprev
    obtain ⟨turns, rfl⟩ := Nat.exists_eq_add_one_of_ne_zero (Nat.ne_zero_of_lt hturns)
    rw [List.cons_append, List.head?_cons, climb_some, if_pos (hu x List.mem_cons_self), hx,
      ih htail (fun y hy => hu y (List.mem_cons_of_mem x hy)) (by simpa using hturns),
      List.length_cons]
    congr 2
    push_cast
    omega

section Update

variable [DecidableEq α]

@[simp] theorem deepen_none (L : LineRefList α) (turns : ℕ) : L.deepen turns none = .ok L := by
  cases turns <;> rfl

theorem deepen_some (L : LineRefList α) (turns : ℕ) (x : α) :
    L.deepen (turns + 1) (some x) =
      deepen { L with depth := update L.depth x (L.depth x + 1) } turns (L.nextSkip x) :=
  rfl

/-- All skip nodes from a node on get a new depth. -/
theorem deepen_eq (hskip : Follows L.nextSkip path) (hpath : path.Nodup)
    (hturns : path.length ≤ turns) :
    L.deepen turns path.head? =
      .ok { L with depth := fun x => if x ∈ path then L.depth x + 1 else L.depth x } := by
  induction path generalizing L turns with
  | nil => simp
  | cons x path ih =>
    obtain ⟨hx, htail⟩ := hskip
    obtain ⟨hmem, hpath⟩ := List.nodup_cons.mp hpath
    obtain ⟨turns, rfl⟩ : ∃ n, turns = n + 1 := ⟨turns - 1, by simp at hturns; omega⟩
    have hrest := ih (L := { L with depth := update L.depth x (L.depth x + 1) }) htail hpath
      (by simpa using hturns)
    have hdepth : (fun y => if y ∈ path then update L.depth x (L.depth x + 1) y + 1
        else update L.depth x (L.depth x + 1) y) =
          fun y => if y ∈ x :: path then L.depth y + 1 else L.depth y := by
      funext y
      by_cases hy : y = x
      · subst hy
        simp [hmem]
      · simp [hy]
    rw [List.head?_cons, deepen_some, hx, hrest]
    simp only [hdepth]

theorem Chain.moveSkipFields {A B : List α} {src dst : α} (h : L.Chain (A ++ src :: B) ks)
    (hdst : dst ∉ A ++ src :: B) : (L.moveSkipFields src dst).Chain (A ++ dst :: B) ks := by
  have hne : src ≠ dst := by
    rintro rfl
    exact hdst (by simp)
  obtain ⟨-, hprev, hnext, -⟩ := links_middle.mp h.links
  rw [Option.or_none] at hprev hnext
  have hmem : src ∉ A ∧ src ∉ B := by
    have := (List.nodup_cons.mp (List.nodup_middle.mp h.nodup)).1
    simpa using this
  -- no write but the last ones is to `src`
  have hsrc : setAt (update L.nextSkip dst (L.nextSkip src)) (L.prevSkip src) (some dst) src =
      L.nextSkip src := by
    rw [setAt_update_of_ne hne, setAt_of_ne (by rw [hprev]; exact ne_of_mem_getLast? hmem.1)]
  have hrest : (A ++ B).Nodup := (List.nodup_cons.mp (List.nodup_middle.mp h.nodup)).2
  constructor
  · rw [List.nodup_middle, List.nodup_cons]
    refine ⟨fun hmem => hdst ?_, hrest⟩
    simp only [List.mem_append, List.mem_cons] at hmem ⊢
    tauto
  · have hlinks := h.links.replace h.nodup hdst
    simpa only [LineRefList.moveSkipFields, update_of_ne hne, hsrc] using hlinks
  · have hdepth : ∀ x ∈ A ++ B,
        update (update L.depth dst (L.depth src)) src (-1) x = L.depth x := by
      intro x hx
      rw [update_of_ne (by grind), update_of_ne (by grind)]
    rw [List.forall_mem_append] at hdepth
    rw [← h.depths]
    simp only [LineRefList.moveSkipFields, List.map_append, List.map_cons,
      List.map_congr_left hdepth.1, List.map_congr_left hdepth.2, update_of_ne hne.symm,
      update_self]
  · intro x hx
    simp only [LineRefList.moveSkipFields, update_of_ne hne, hsrc]
    by_cases hxs : x = src
    · subst hxs
      simp
    · have hxd : x ≠ dst := by grind
      rw [update_of_ne hxs, update_of_ne hxs, update_of_ne hxs, update_of_ne hxd,
        setAt_update_of_ne hxd, setAt_update_of_ne hxd, setAt_of_ne, setAt_of_ne]
      · exact h.off x (by grind)
      · rw [hnext]
        exact ne_of_mem_head? (by grind)
      · rw [hprev]
        exact ne_of_mem_getLast? (by grind)

@[simp] theorem shiftSkips_none (L : LineRefList α) (turns : ℕ) :
    L.shiftSkips turns none = .ok L := by
  cases turns <;> rfl

theorem shiftSkips_some (L : LineRefList α) (turns : ℕ) {src dst : α}
    (hdst : L.prev src = some dst) :
    L.shiftSkips (turns + 1) (some src) =
      (L.moveSkipFields src dst).shiftSkips turns (L.prevSkip src) := by
  simp only [shiftSkips, hdst, deref]
  rfl

theorem shiftSkips_fault (L : LineRefList α) (turns : ℕ) {src : α} (hsrc : L.prev src = none) :
    L.shiftSkips (turns + 1) (some src) = .error .fault := by
  simp only [shiftSkips, hsrc, deref]
  rfl

/-- Nothing but the skip list is changed. -/
def SkipsOnly (L L' : LineRefList α) : Prop :=
  ∃ prevSkip nextSkip depth,
    L' = { L with prevSkip := prevSkip, nextSkip := nextSkip, depth := depth }

/-- The skip nodes up to one of them give way to their predecessors in the list. -/
theorem shiftSkips_eq {A B : List α} {f : α → α} (h : L.Chain (A ++ B) ks)
    (hprev : ∀ x ∈ A, L.prev x = some (f x)) (hf : ∀ x ∈ A, f x ∉ A ++ B)
    (hinj : (A.map f).Nodup) (hturns : A.length ≤ turns) :
    ∃ L', L.shiftSkips turns A.getLast? = .ok L' ∧ L.SkipsOnly L' ∧
      L'.Chain (A.map f ++ B) ks := by
  -- the loop goes from the last skip node to the first, so the list is taken apart at its end
  induction A using List.reverseRecOn generalizing L B turns with
  | nil => exact ⟨L, by simp, ⟨_, _, _, rfl⟩, h⟩
  | append_singleton A src ih =>
    obtain ⟨turns, rfl⟩ : ∃ n, turns = n + 1 := ⟨turns - 1, by simp at hturns; omega⟩
    have hsrc : L.prevSkip src = A.getLast? := by
      rw [List.append_assoc] at h
      simpa using (links_middle.mp h.links).2.1
    have hmem : src ∈ A ++ [src] := by simp
    have hchain : (L.moveSkipFields src (f src)).Chain (A ++ f src :: B) ks := by
      rw [List.append_assoc] at h
      apply h.moveSkipFields
      simpa using hf src hmem
    have hinj' : (A.map f).Nodup ∧ f src ∉ A.map f := by
      rw [List.map_append, List.nodup_append_comm] at hinj
      have := List.nodup_cons.mp hinj
      exact ⟨this.2, this.1⟩
    obtain ⟨L', hshift, honly, hL'⟩ := ih hchain (fun x hx => hprev x (List.mem_append_left _ hx))
      (fun x hx hmem => by
        have hx' := hf x (List.mem_append_left _ hx)
        have hne : f x ≠ f src := fun heq => hinj'.2 (heq ▸ List.mem_map_of_mem hx)
        simp only [List.mem_append, List.mem_cons] at hx' hmem
        tauto) hinj'.1 (by simpa using hturns)
    refine ⟨L', ?_, ?_, by simpa using hL'⟩
    · rw [List.getLast?_concat, shiftSkips_some L turns (hprev src hmem), hsrc]
      exact hshift
    · obtain ⟨_, _, _, rfl⟩ := honly
      exact ⟨_, _, _, rfl⟩

end Update

end Loops

end LineRefList
end SagePTE.Tools
