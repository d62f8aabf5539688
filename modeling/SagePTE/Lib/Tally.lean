import Mathlib.Algebra.Order.Ring.Nat
import Mathlib.Data.List.Induction
import Mathlib.Data.List.Sort
import Mathlib.Order.RelClasses

/-!
# Tallies

How often each element occurs in a list, kept as a list of elements with their counts. Sorted by
the elements and with each element repeated as often as it occurs, a tally is the sorted list, so
that a running count over the tally finds the element at an index of that list.

## Main definitions

* `Tally.add`, `Tally.ofList` — one more element is counted, and a list of them
* `Tally.expand` — the elements, as often as they have been counted
* `Tally.atRank` — the first element at which the running count reaches a rank

## Main results

* `Tally.lookup_ofList` — the counts
* `Tally.expand_sort_ofList` — the sorted tally is the sorted list
* `Tally.atRank_eq` — the running count
-/

set_option autoImplicit false

namespace SagePTE.Tally

variable {κ : Type*} {a k : κ} {l : List (κ × ℕ)}

/-- The elements, as often as they have been counted. -/
def expand (l : List (κ × ℕ)) : List κ := l.flatMap fun e => List.replicate e.2 e.1

@[simp] theorem expand_nil : expand ([] : List (κ × ℕ)) = [] := rfl

@[simp] theorem expand_cons (e : κ × ℕ) (l : List (κ × ℕ)) :
    expand (e :: l) = List.replicate e.2 e.1 ++ expand l :=
  rfl

theorem length_expand (l : List (κ × ℕ)) : (expand l).length = (l.map Prod.snd).sum := by
  rw [expand, List.length_flatMap]
  simp only [List.length_replicate]

/-- The first element at which the running count reaches a rank. -/
def atRank (rank : ℕ) : ℕ → List (κ × ℕ) → Option κ
  | _, [] => none
  | seen, e :: l => if rank ≤ seen + e.2 then some e.1 else atRank rank (seen + e.2) l

/-- The running count reaches a rank at the element with this rank. Ranks zero and one are the
same. -/
theorem atRank_eq {rank seen : ℕ} (hpos : ∀ e ∈ l, 0 < e.2) (hseen : seen ≤ rank - 1) :
    atRank rank seen l = (expand l)[rank - 1 - seen]? := by
  induction l generalizing seen with
  | nil => simp [atRank]
  | cons e l ih =>
    rw [List.forall_mem_cons] at hpos
    have hiff : rank ≤ seen + e.2 ↔ rank - 1 - seen < e.2 := by omega
    rw [atRank, expand_cons]
    split_ifs with hreached
    · rw [List.getElem?_append_left (by simpa using hiff.mp hreached),
        List.getElem?_replicate_of_lt (hiff.mp hreached)]
    · have hsub : rank - 1 - seen - e.2 = rank - 1 - (seen + e.2) := by omega
      rw [ih hpos.2 (by omega), List.getElem?_append_right (by simp; omega),
        List.length_replicate, hsub]

section Add

variable [DecidableEq κ]

/-- One more element is counted. -/
def add (l : List (κ × ℕ)) (a : κ) : List (κ × ℕ) :=
  match l with
  | [] => [(a, 1)]
  | e :: l => if e.1 = a then (e.1, e.2 + 1) :: l else e :: add l a

/-- The elements of a list are counted. -/
def ofList (as : List κ) : List (κ × ℕ) := as.foldl add []

theorem ofList_concat (as : List κ) (a : κ) : ofList (as ++ [a]) = add (ofList as) a := by
  simp [ofList]

theorem lookup_cons_eq (e : κ × ℕ) (l : List (κ × ℕ)) (k : κ) :
    (e :: l).lookup k = if k = e.1 then some e.2 else l.lookup k := by
  rw [List.lookup_cons]
  split_ifs with hk
  · rw [beq_iff_eq.mpr hk]
  · rw [beq_eq_false_iff_ne.mpr hk]

theorem lookup_add (l : List (κ × ℕ)) (a k : κ) :
    (add l a).lookup k = if k = a then some ((l.lookup a).getD 0 + 1) else l.lookup k := by
  induction l with
  | nil => exact lookup_cons_eq (a, 1) [] k
  | cons e l ih =>
    rw [add]
    by_cases he : e.1 = a
    · rw [if_pos he]
      subst he
      simp only [lookup_cons_eq]
      split_ifs <;> rfl
    · rw [if_neg he]
      simp only [lookup_cons_eq, ih, if_neg (Ne.symm he)]
      split_ifs with hk hka
      · exact absurd (hk.symm.trans hka) he
      · rfl
      · rfl
      · rfl

/-- The counts. -/
theorem lookup_ofList (as : List κ) (k : κ) : ((ofList as).lookup k).getD 0 = as.count k := by
  induction as using List.reverseRecOn with
  | nil => rfl
  | append_singleton as a ih =>
    rw [ofList_concat, lookup_add, List.count_append]
    by_cases hk : k = a
    · subst hk
      simp [ih]
    · simp [hk, ih, Ne.symm hk]

theorem pos_of_mem_add (h : ∀ e ∈ l, 0 < e.2) (a : κ) : ∀ e ∈ add l a, 0 < e.2 := by
  induction l with
  | nil => simp [add]
  | cons e l ih =>
    rw [List.forall_mem_cons] at h
    rw [add]
    split_ifs
    · exact List.forall_mem_cons.mpr ⟨Nat.succ_pos _, h.2⟩
    · exact List.forall_mem_cons.mpr ⟨h.1, ih h.2⟩

theorem pos_of_mem_ofList (as : List κ) : ∀ e ∈ ofList as, 0 < e.2 := by
  induction as using List.reverseRecOn with
  | nil => simp [ofList]
  | append_singleton as a ih =>
    rw [ofList_concat]
    exact pos_of_mem_add ih a

theorem expand_add (l : List (κ × ℕ)) (a : κ) : (expand (add l a)).Perm (a :: expand l) := by
  induction l with
  | nil => simp [add]
  | cons e l ih =>
    rw [add]
    split_ifs with he
    · subst he
      rw [expand_cons, List.replicate_succ, expand_cons, List.cons_append]
    · rw [expand_cons, expand_cons]
      exact (ih.append_left _).trans List.perm_middle

theorem expand_ofList (as : List κ) : (expand (ofList as)).Perm as := by
  induction as using List.reverseRecOn with
  | nil => exact List.Perm.nil
  | append_singleton as a ih =>
    rw [ofList_concat]
    exact (expand_add _ a).trans ((ih.cons a).trans (List.perm_append_singleton a as).symm)

end Add

section Ordered

variable [LinearOrder κ]

/-- The elements in ascending order, with their counts. -/
def sort (l : List (κ × ℕ)) : List (κ × ℕ) := l.insertionSort (Order.Preimage Prod.fst (· ≤ ·))

theorem mem_sort {e : κ × ℕ} : e ∈ sort l ↔ e ∈ l := (List.perm_insertionSort _ l).mem_iff

theorem pairwise_expand_sort (l : List (κ × ℕ)) : (expand (sort l)).Pairwise (· ≤ ·) := by
  rw [expand, List.pairwise_flatMap]
  constructor
  · intro e _
    exact List.pairwise_replicate.mpr (.inr le_rfl)
  · refine (List.pairwise_insertionSort _ l).imp ?_
    intro e e' h x hx y hy
    rwa [List.eq_of_mem_replicate hx, List.eq_of_mem_replicate hy]

/-- The sorted tally of a list is the sorted list. -/
theorem expand_sort_ofList (as : List κ) :
    expand (sort (ofList as)) = as.insertionSort (· ≤ ·) := by
  have hperm : (expand (sort (ofList as))).Perm (as.insertionSort (· ≤ ·)) :=
    ((List.perm_insertionSort _ _).flatMap_right _).trans
      ((expand_ofList as).trans (List.perm_insertionSort _ as).symm)
  exact hperm.eq_of_pairwise (fun _ _ _ _ => le_antisymm) (pairwise_expand_sort _)
    (List.pairwise_insertionSort _ as)

end Ordered

end SagePTE.Tally
