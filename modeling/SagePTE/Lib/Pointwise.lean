import Mathlib.Algebra.Order.Ring.Nat
import Mathlib.Data.List.Forall2

/-!
# Lists, position by position

Lists whose elements are related one by one, and a list in which one element is replaced.

## Main results

* `Pointwise.exists_of_getElem?`, `Pointwise.exists_of_mem_left`, `Pointwise.exists_of_mem_right`
  — the partner of an element
* `Pointwise.forall₂_of_set`, `Pointwise.sum_map_set` — one element replaced
-/

set_option autoImplicit false

namespace SagePTE.Pointwise

variable {α β : Type*} {R : α → β → Prop} {l : List α} {r : List β} {i : ℕ} {a a' : α}

/-! ### Related lists -/

theorem exists_of_getElem? (h : List.Forall₂ R l r) (ha : l[i]? = some a) :
    ∃ b, r[i]? = some b ∧ R a b := by
  induction h generalizing i with
  | nil => simp at ha
  | cons hhead _ ih =>
    cases i with
    | zero =>
      obtain rfl := Option.some.inj ha
      exact ⟨_, rfl, hhead⟩
    | succ i => exact ih (by simpa using ha)

theorem exists_of_mem_left (h : List.Forall₂ R l r) (ha : a ∈ l) : ∃ b ∈ r, R a b := by
  obtain ⟨i, hi⟩ := List.mem_iff_getElem?.mp ha
  obtain ⟨b, hb, hab⟩ := exists_of_getElem? h hi
  exact ⟨b, List.mem_of_getElem? hb, hab⟩

theorem exists_of_mem_right (h : List.Forall₂ R l r) {b : β} (hb : b ∈ r) : ∃ a ∈ l, R a b :=
  exists_of_mem_left h.flip hb

/-! ### One element replaced -/

theorem set_of_getElem? (ha : l[i]? = some a) : l.set i a = l := by
  obtain ⟨hi, rfl⟩ := List.getElem?_eq_some_iff.mp ha
  exact List.set_getElem_self hi

/-- What is related to the new element is related to the old one. -/
theorem forall₂_of_set (ha : l[i]? = some a) (h : List.Forall₂ R (l.set i a') r)
    (hR : ∀ b, R a' b → R a b) : List.Forall₂ R l r := by
  induction l generalizing r i with
  | nil => simp at ha
  | cons a₀ l ih =>
    cases i with
    | zero =>
      obtain rfl : a₀ = a := by simpa using ha
      cases h with
      | cons hhead htail => exact .cons (hR _ hhead) htail
    | succ i =>
      cases h with
      | cons hhead htail => exact .cons hhead (ih (by simpa using ha) htail)

theorem sum_map_set (f : α → ℕ) (ha : l[i]? = some a) (a' : α) :
    ((l.set i a').map f).sum + f a = (l.map f).sum + f a' := by
  induction l generalizing i with
  | nil => simp at ha
  | cons a₀ l ih =>
    cases i with
    | zero =>
      obtain rfl : a₀ = a := by simpa using ha
      simp only [List.set_cons_zero, List.map_cons, List.sum_cons]
      omega
    | succ i =>
      have := ih (by simpa using ha)
      simp only [List.set_cons_succ, List.map_cons, List.sum_cons]
      omega

end SagePTE.Pointwise
