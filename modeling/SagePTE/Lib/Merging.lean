import Mathlib.Data.List.Sort
import Mathlib.Data.List.Perm.Lattice

/-!
# Merging queues

Some queues are merged by taking, again and again, one of their first elements that comes
before all the other first elements. If the queues are sorted, what is taken is sorted; and at
every time what was taken and what is left are what there was.

## Main definitions

* `Merging.Takes` — a sequence of elements taken from queues

## Main results

* `Merging.Takes.perm`, `Merging.Takes.pairwise` — what is taken
* `Merging.Takes.eq_mergeSort` — all of what there was, in order
-/

set_option autoImplicit false

namespace SagePTE.Merging

variable {α : Type*} {r : α → α → Prop}

/-- From the first queues, the elements are taken one after the other, and the second queues are
left. Each of the elements comes before the first elements of all queues. -/
inductive Takes (r : α → α → Prop) (qs : List (List α)) : List α → List (List α) → Prop
  | nil : Takes r qs [] qs
  | concat {out : List α} {qs' : List (List α)} {i : ℕ} {a : α} {q : List α}
      (h : Takes r qs out qs') (hi : qs'[i]? = some (a :: q))
      (hfirst : ∀ q' ∈ qs', ∀ b ∈ q'.head?, r a b) : Takes r qs (out ++ [a]) (qs'.set i q)

theorem flatten_set_perm {qs : List (List α)} {i : ℕ} {a : α} {q : List α}
    (hi : qs[i]? = some (a :: q)) : (a :: (qs.set i q).flatten).Perm qs.flatten := by
  induction qs generalizing i with
  | nil => simp at hi
  | cons q₀ qs ih =>
    cases i with
    | zero =>
      obtain rfl : q₀ = a :: q := by simpa using hi
      simp
    | succ i =>
      have hperm := (ih (by simpa using hi)).append_left q₀
      rw [List.set_cons_succ, List.flatten_cons, List.flatten_cons]
      exact List.perm_middle.symm.trans hperm

/-- What was taken and what is left are what there was. -/
theorem Takes.perm {qs qs' : List (List α)} {out : List α} (h : Takes r qs out qs') :
    (out ++ qs'.flatten).Perm qs.flatten := by
  induction h with
  | nil => simp
  | @concat out qs' i a q _ hi _ ih =>
    rw [List.append_assoc, List.singleton_append]
    exact ((flatten_set_perm hi).append_left out).trans ih

section Sorted

variable [IsTrans α r]

/-- The first of the first elements comes before all elements. -/
theorem rel_of_mem_flatten {qs : List (List α)} (hsorted : ∀ q ∈ qs, q.Pairwise r) {a : α}
    (hfirst : ∀ q ∈ qs, ∀ b ∈ q.head?, r a b) {b : α} (hb : b ∈ qs.flatten) : r a b := by
  obtain ⟨q, hq, hb⟩ := List.mem_flatten.mp hb
  cases q with
  | nil => simp at hb
  | cons c q =>
    have hc : r a c := hfirst _ hq c rfl
    rcases List.mem_cons.mp hb with rfl | hb
    · exact hc
    · exact IsTrans.trans _ _ _ hc (List.rel_of_pairwise_cons (hsorted _ hq) hb)

/-- What is taken from sorted queues is sorted, and comes before what is left. -/
theorem Takes.pairwise {qs qs' : List (List α)} {out : List α} (h : Takes r qs out qs')
    (hsorted : ∀ q ∈ qs, q.Pairwise r) :
    out.Pairwise r ∧ (∀ q ∈ qs', q.Pairwise r) ∧ ∀ a ∈ out, ∀ b ∈ qs'.flatten, r a b := by
  induction h with
  | nil => exact ⟨.nil, hsorted, by simp⟩
  | @concat out qs' i a q _ hi hfirst ih =>
    obtain ⟨hout, hqs', hbefore⟩ := ih
    have ha : ∀ b ∈ qs'.flatten, r a b := fun b hb => rel_of_mem_flatten hqs' hfirst hb
    have hmem : a ∈ qs'.flatten :=
      List.mem_flatten.mpr ⟨a :: q, List.mem_of_getElem? hi, List.mem_cons_self⟩
    have hleft : ∀ b ∈ (qs'.set i q).flatten, b ∈ qs'.flatten := fun b hb =>
      (flatten_set_perm hi).subset (List.mem_cons_of_mem a hb)
    refine ⟨?_, ?_, ?_⟩
    · rw [List.pairwise_append]
      exact ⟨hout, List.pairwise_singleton r a, by simpa using fun b hb => hbefore b hb a hmem⟩
    · intro q' hq'
      rcases List.mem_or_eq_of_mem_set hq' with hq' | rfl
      · exact hqs' q' hq'
      · exact (hqs' _ (List.mem_of_getElem? hi)).of_cons
    · intro c hc b hb
      rcases List.mem_append.mp hc with hc | hc
      · exact hbefore c hc b (hleft b hb)
      · rw [List.mem_singleton.mp hc]
        exact ha b (hleft b hb)

/-- When nothing is left, everything was taken in order. -/
theorem Takes.eq_mergeSort [Std.Antisymm r] [Std.Total r] [DecidableRel r]
    {qs qs' : List (List α)} {out : List α} (h : Takes r qs out qs')
    (hsorted : ∀ q ∈ qs, q.Pairwise r) (hempty : qs'.flatten = []) :
    out = qs.flatten.mergeSort (fun a b => decide (r a b)) := by
  have hperm : out.Perm qs.flatten := by simpa [hempty] using h.perm
  exact (hperm.trans (List.mergeSort_perm _ _).symm).eq_of_pairwise' (h.pairwise hsorted).1
    (List.pairwise_mergeSort' r _)

end Sorted

end SagePTE.Merging
