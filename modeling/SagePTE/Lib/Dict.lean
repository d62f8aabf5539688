import Mathlib.Data.List.Zip
import SagePTE.Lib.Pointwise

/-!
# Lists of keys and values

A dictionary made with `dict(zip(keys, values))`, and functions that may fail mapped
over a list.

## Main results

* `Dict.mapM_eq_some_iff` — a mapped list, element by element
* `Dict.lookup_zip` — the value under the key at an index
-/

set_option autoImplicit false

namespace SagePTE.Dict

section Map

variable {α β : Type*} {f : α → Option β}

theorem mapM_eq_some_iff {l : List α} {r : List β} :
    l.mapM f = some r ↔ List.Forall₂ (fun a b => f a = some b) l r := by
  induction l generalizing r with
  | nil => simp [eq_comm]
  | cons a l ih =>
    cases r with
    | nil => simp [Option.bind_eq_some_iff]
    | cons b r => simp [Option.bind_eq_some_iff, ih]

theorem exists_mapM_eq_some {l : List α} (h : ∀ a ∈ l, ∃ b, f a = some b) :
    ∃ r, l.mapM f = some r := by
  induction l with
  | nil => exact ⟨[], rfl⟩
  | cons a l ih =>
    rw [List.forall_mem_cons] at h
    obtain ⟨b, hb⟩ := h.1
    obtain ⟨r, hr⟩ := ih h.2
    exact ⟨b :: r, by simp [hb, hr]⟩

/-- Every element was mapped. -/
theorem exists_eq_some_of_mapM {l : List α} {r : List β} (h : l.mapM f = some r) {a : α}
    (ha : a ∈ l) : ∃ b, f a = some b := by
  obtain ⟨b, -, hb⟩ := Pointwise.exists_of_mem_left (mapM_eq_some_iff.mp h) ha
  exact ⟨b, hb⟩

/-- What was mapped to an element of the result. -/
theorem exists_mem_of_mapM {l : List α} {r : List β} (h : l.mapM f = some r) {b : β}
    (hb : b ∈ r) : ∃ a ∈ l, f a = some b :=
  Pointwise.exists_of_mem_right (mapM_eq_some_iff.mp h) hb

/-- The element at an index. -/
theorem getElem?_of_mapM {l : List α} {r : List β} (h : l.mapM f = some r) (i : ℕ) :
    r[i]? = l[i]?.bind f := by
  rw [mapM_eq_some_iff] at h
  induction h generalizing i with
  | nil => simp
  | cons hab _ ih =>
    cases i with
    | zero => simp [hab]
    | succ i => simpa using ih i

theorem length_of_mapM {l : List α} {r : List β} (h : l.mapM f = some r) : r.length = l.length :=
  (mapM_eq_some_iff.mp h).length_eq.symm

end Map

section Lookup

variable {κ β : Type*} [BEq κ] [LawfulBEq κ]

theorem lookup_zip {keys : List κ} (hkeys : keys.Nodup) {values : List β} {i : ℕ} {k : κ}
    (hk : keys[i]? = some k) : (keys.zip values).lookup k = values[i]? := by
  induction keys generalizing values i with
  | nil => cases hk
  | cons k' keys ih =>
    rw [List.nodup_cons] at hkeys
    cases values with
    | nil => simp
    | cons v values =>
      cases i with
      | zero =>
        cases hk
        simp
      | succ i =>
        rw [List.getElem?_cons_succ] at hk
        have hne : k ≠ k' := by
          rintro rfl
          exact hkeys.1 (List.mem_of_getElem? hk)
        rw [List.zip_cons_cons, List.lookup_cons, beq_false_of_ne hne, ih hkeys.2 hk,
          List.getElem?_cons_succ]

theorem mem_of_lookup_zip {keys : List κ} {values : List β} {k : κ} {v : β}
    (h : (keys.zip values).lookup k = some v) : v ∈ values := by
  obtain ⟨front, rest, heq, -⟩ := List.lookup_eq_some_iff.mp h
  exact (List.of_mem_zip (a := k) (b := v) (by rw [heq]; simp)).2

end Lookup

end SagePTE.Dict
