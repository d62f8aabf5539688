import Mathlib.Data.Finset.Card
import Mathlib.Data.List.Basic

/-!
# Ranks by recency

Requests are recorded in a list, the latest one first, so that the first position of an element
says how long ago it was last asked for. Among a set of elements, the rank of one of them is the
number of those asked for more recently. Asking for an element gives it rank zero and adds one
to the ranks that were below its own; an element that takes the place of the least recent one
adds one to all ranks.

## Main definitions

* `Recency.rank` — how many of a set have been asked for more recently

## Main results

* `Recency.rank_lt_rank_iff` — ranks and positions give the same order
* `Recency.rank_cons_of_mem` — the ranks after one of the set is asked for
* `Recency.rank_replace` — the ranks after a new element takes the place of an old one
-/

set_option autoImplicit false

namespace SagePTE.Recency

variable {α : Type*} [DecidableEq α] {S : Finset α} {l : List α} {a b : α}

/-- The number of elements of `S` that have been asked for more recently. -/
def rank (S : Finset α) (l : List α) (a : α) : ℕ := (S.filter fun x => l.idxOf x < l.idxOf a).card

theorem idxOf_cons_lt_iff (hb : b ≠ a) (x : α) :
    (a :: l).idxOf x < (a :: l).idxOf b ↔ x = a ∨ l.idxOf x < l.idxOf b := by
  rw [List.idxOf_cons_ne l hb.symm]
  by_cases hx : x = a
  · simp [hx]
  · rw [List.idxOf_cons_ne l (Ne.symm hx)]
    simp [hx]

theorem rank_cons_self (S : Finset α) (l : List α) (a : α) : rank S (a :: l) a = 0 := by
  simp [rank]

/-- An element outside the set changes nothing. -/
theorem rank_cons_of_notMem (ha : a ∉ S) (hb : b ≠ a) : rank S (a :: l) b = rank S l b := by
  rw [rank, rank]
  congr 1
  refine Finset.filter_congr fun x hx => ?_
  have hxa : x ≠ a := fun h => ha (h ▸ hx)
  simp [idxOf_cons_lt_iff hb, hxa]

/-- Elements that were more recent than the one asked for come after it now. -/
theorem rank_cons_of_mem (ha : a ∈ S) (hb : b ≠ a) :
    rank S (a :: l) b = if l.idxOf a < l.idxOf b then rank S l b else rank S l b + 1 := by
  have hset : (S.filter fun x => (a :: l).idxOf x < (a :: l).idxOf b) =
      insert a (S.filter fun x => l.idxOf x < l.idxOf b) := by
    ext x
    simp only [Finset.mem_filter, Finset.mem_insert, idxOf_cons_lt_iff hb]
    constructor
    · rintro ⟨hx, h⟩
      exact h.imp_right fun h => ⟨hx, h⟩
    · rintro (rfl | ⟨hx, h⟩)
      · exact ⟨ha, .inl rfl⟩
      · exact ⟨hx, .inr h⟩
  rw [rank, hset]
  split_ifs with hlt
  · rw [Finset.insert_eq_of_mem (by simp [ha, hlt]), rank]
  · rw [Finset.card_insert_of_notMem (by simp [hlt]), rank]

/-- A new element in the place of one that is not more recent than `b`. -/
theorem rank_replace {old : α} (ha : a ∉ S) (hb : b ≠ a) (hold : l.idxOf b ≤ l.idxOf old) :
    rank (insert a (S.erase old)) (a :: l) b = rank S l b + 1 := by
  have hset : ((insert a (S.erase old)).filter fun x => (a :: l).idxOf x < (a :: l).idxOf b) =
      insert a (S.filter fun x => l.idxOf x < l.idxOf b) := by
    ext x
    simp only [Finset.mem_filter, Finset.mem_insert, Finset.mem_erase, idxOf_cons_lt_iff hb]
    constructor
    · rintro ⟨rfl | ⟨-, hx⟩, h⟩
      · exact .inl rfl
      · exact h.imp_right fun h => ⟨hx, h⟩
    · rintro (rfl | ⟨hx, h⟩)
      · exact ⟨.inl rfl, .inl rfl⟩
      · refine ⟨.inr ⟨?_, hx⟩, .inr h⟩
        rintro rfl
        omega
  rw [rank, hset, Finset.card_insert_of_notMem (by simp [ha]), rank]

/-- Ranks and positions give the same order. -/
theorem rank_lt_rank_iff (ha : a ∈ S) : rank S l a < rank S l b ↔ l.idxOf a < l.idxOf b := by
  have hmono {c d : α} (h : l.idxOf c ≤ l.idxOf d) :
      (S.filter fun x => l.idxOf x < l.idxOf c) ⊆ S.filter fun x => l.idxOf x < l.idxOf d := by
    intro x hx
    simp only [Finset.mem_filter] at hx ⊢
    exact ⟨hx.1, hx.2.trans_le h⟩
  constructor
  · intro h
    by_contra hle
    exact absurd (Finset.card_le_card (hmono (not_lt.mp hle))) (not_le.mpr h)
  · intro h
    refine Finset.card_lt_card ⟨hmono h.le, fun hsub => ?_⟩
    -- `a` itself is more recent than `b`, but not than itself
    have hmem := hsub (Finset.mem_filter.mpr ⟨ha, h⟩)
    simp at hmem

/-- The more recent ones are among the others, without any that is not. -/
theorem rank_le_card {old : α} (hold : l.idxOf b ≤ l.idxOf old) :
    rank S l b ≤ ((S.erase old).erase b).card := by
  refine Finset.card_le_card fun x hx => ?_
  simp only [Finset.mem_filter, Finset.mem_erase] at hx ⊢
  refine ⟨?_, ?_, hx.1⟩
  · rintro rfl
    omega
  · rintro rfl
    omega

end SagePTE.Recency
