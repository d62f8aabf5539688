import Mathlib.Data.Finset.Card
import Mathlib.Data.List.DropRight

/-!
# Moving to the front

The elements that have been used form a list, in which each use moves an element to the front.
The elements before one of them in this list are those that have been used since its last use,
so its position is the number of different elements among these.

## Main definitions

* `MoveToFront.order` — the elements that have been used, the latest first
* `MoveToFront.distance` — how many different elements have been used since the last use of one
* `MoveToFront.reuses` — the uses of elements that had been used before, with their distances

## Main results

* `MoveToFront.exists_order_eq` — the position of an element is its distance
-/

set_option autoImplicit false

namespace SagePTE.MoveToFront

variable {α : Type*} [DecidableEq α] {used rest : List α} {x y : α}

/-- The list of the elements that have been used, the latest first. -/
def order (used : List α) : List α := used.foldl (fun l x => x :: l.erase x) []

@[simp] theorem order_nil : order ([] : List α) = [] := rfl

@[simp] theorem order_concat (used : List α) (x : α) :
    order (used ++ [x]) = x :: (order used).erase x := by
  simp [order]

theorem nodup_order (used : List α) : (order used).Nodup := by
  induction used using List.reverseRecOn with
  | nil => simp
  | append_singleton used x ih =>
    rw [order_concat, List.nodup_cons]
    exact ⟨ih.not_mem_erase, ih.erase x⟩

theorem mem_order : y ∈ order used ↔ y ∈ used := by
  induction used using List.reverseRecOn with
  | nil => simp
  | append_singleton used x ih =>
    rw [order_concat, List.mem_cons, (nodup_order used).mem_erase_iff, List.mem_append,
      List.mem_singleton, ih]
    tauto

theorem length_order (used : List α) : (order used).length = used.toFinset.card := by
  rw [← List.toFinset_card_of_nodup (nodup_order used)]
  congr 1
  ext y
  simp [mem_order]

theorem length_order_le (used : List α) : (order used).length ≤ used.length := by
  rw [length_order]
  exact used.toFinset_card_le

theorem order_concat_of_notMem (hx : x ∉ used) : order (used ++ [x]) = x :: order used := by
  rw [order_concat, List.erase_of_not_mem (mt mem_order.mp hx)]

theorem order_concat_of_eq {xs ys : List α} (h : order used = xs ++ x :: ys) :
    order (used ++ [x]) = x :: (xs ++ ys) := by
  have hx : x ∉ xs := by
    have hnodup := nodup_order used
    rw [h, List.nodup_middle, List.nodup_cons] at hnodup
    exact fun hx => hnodup.1 (List.mem_append_left ys hx)
  rw [order_concat, h, List.erase_append_right _ hx, List.erase_cons_head]

/-- The number of different elements that have been used since the last use of `x`. -/
def distance (used : List α) (x : α) : ℕ := (used.rtakeWhile (· ≠ x)).toFinset.card

/-- The elements before `x` are those that have been used since its last use. -/
theorem exists_order_eq (hx : x ∈ used) :
    ∃ xs ys, order used = xs ++ x :: ys ∧ xs.length = distance used x := by
  suffices h : ∃ xs ys, order used = xs ++ x :: ys ∧
      xs.toFinset = (used.rtakeWhile (· ≠ x)).toFinset by
    obtain ⟨xs, ys, horder, hset⟩ := h
    refine ⟨xs, ys, horder, ?_⟩
    have hnodup := nodup_order used
    rw [horder, List.nodup_append] at hnodup
    rw [distance, ← hset, List.toFinset_card_of_nodup hnodup.1]
  induction used using List.reverseRecOn with
  | nil => simp at hx
  | append_singleton used y ih =>
    by_cases hxy : y = x
    · subst hxy
      exact ⟨[], (order used).erase y, by simp, by simp⟩
    · have hmem : x ∈ used := by
        rw [List.mem_append, List.mem_singleton] at hx
        exact hx.resolve_right (Ne.symm hxy)
      obtain ⟨xs, ys, horder, hset⟩ := ih hmem
      have hlast : ((used ++ [y]).rtakeWhile (· ≠ x)).toFinset = insert y xs.toFinset := by
        rw [hset]
        ext z
        simp [hxy]
      rw [order_concat, horder, hlast]
      -- `y` comes from before `x`, or from behind it
      by_cases hy : y ∈ xs
      · refine ⟨y :: xs.erase y, ys, by simp [List.erase_append_left _ hy], ?_⟩
        ext z
        by_cases hz : z = y <;> simp [hz, List.mem_erase_of_ne]
      · refine ⟨y :: xs, ys.erase y, ?_, by simp⟩
        rw [List.erase_append_right _ hy, List.erase_cons_tail (by simpa using Ne.symm hxy),
          List.cons_append]

/-! ### Reuses -/

/-- The uses in a list of elements that have been used before, given what was used before the
list. -/
def reusesAfter (past : List α) : List α → List (α × ℕ)
  | [] => []
  | x :: rest =>
    (if x ∈ past then [(x, distance past x)] else []) ++ reusesAfter (past ++ [x]) rest

/-- The uses of elements that have been used before, with their distances. -/
def reuses (used : List α) : List (α × ℕ) := reusesAfter [] used

theorem reusesAfter_append (past used rest : List α) :
    reusesAfter past (used ++ rest) = reusesAfter past used ++ reusesAfter (past ++ used) rest := by
  induction used generalizing past with
  | nil => simp [reusesAfter]
  | cons y used ih =>
    rw [List.cons_append, reusesAfter, reusesAfter, ih, List.append_assoc, List.append_assoc]
    rfl

theorem reuses_append (used rest : List α) :
    reuses (used ++ rest) = reuses used ++ reusesAfter used rest := by
  rw [reuses, reusesAfter_append, List.nil_append]
  rfl

@[simp] theorem reuses_nil : reuses ([] : List α) = [] := rfl

theorem reuses_concat_of_mem (hx : x ∈ used) :
    reuses (used ++ [x]) = reuses used ++ [(x, distance used x)] := by
  simp [reuses_append, reusesAfter, hx]

theorem reuses_concat_of_notMem (hx : x ∉ used) : reuses (used ++ [x]) = reuses used := by
  simp [reuses_append, reusesAfter, hx]

theorem mem_of_mem_reuses {r : α × ℕ} (hr : r ∈ reuses used) : r.1 ∈ used := by
  induction used using List.reverseRecOn with
  | nil => simp at hr
  | append_singleton used x ih =>
    by_cases hx : x ∈ used
    · rw [reuses_concat_of_mem hx, List.mem_append, List.mem_singleton] at hr
      rcases hr with hr | rfl
      · exact List.mem_append_left [x] (ih hr)
      · simp
    · rw [reuses_concat_of_notMem hx] at hr
      exact List.mem_append_left [x] (ih hr)

end SagePTE.MoveToFront
