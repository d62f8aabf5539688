import Mathlib.Data.Set.Card

/-!
# Loads of a partial assignment

Keys are assigned to values one after the other, and an assignment may be taken back. The
load of a value is the number of keys that are assigned to it.

## Main definitions

* `Load.FiniteDom` — only finitely many keys are assigned
* `Load.load` — the number of keys of a value

## Main results

* `Load.load_assign`, `Load.load_remove` — the loads after one change
-/

set_option autoImplicit false

namespace SagePTE.Load

variable {α β : Type*} {f : α → Option β} {a : α} {b : β}

/-- The keys of a value. -/
def keys (f : α → Option β) (b : β) : Set α := {a | f a = some b}

/-- Finitely many keys are assigned. -/
def FiniteDom (f : α → Option β) : Prop := {a | f a ≠ none}.Finite

/-- The number of keys of a value. -/
noncomputable def load (f : α → Option β) (b : β) : ℕ := (keys f b).ncard

theorem finiteDom_none : FiniteDom (fun _ => none : α → Option β) := by
  simp [FiniteDom]

@[simp] theorem load_none (b : β) : load (fun _ => none : α → Option β) b = 0 := by
  simp [load, keys]

theorem FiniteDom.finite_keys (h : FiniteDom f) (b : β) : (keys f b).Finite :=
  h.subset fun a (ha : f a = some b) => by simp [ha]

theorem load_pos (h : FiniteDom f) (ha : f a = some b) : 0 < load f b :=
  (Set.ncard_pos (h.finite_keys b)).2 ⟨a, ha⟩

section Update

variable [DecidableEq α]

theorem FiniteDom.update (h : FiniteDom f) (a : α) (v : Option β) :
    FiniteDom (Function.update f a v) := by
  refine (h.insert a).subset fun x hx => ?_
  rcases eq_or_ne x a with rfl | hne
  · exact Set.mem_insert x _
  · refine Set.mem_insert_of_mem a ?_
    rwa [Set.mem_ofPred_eq, Function.update_of_ne hne] at hx

theorem keys_assign_self (f : α → Option β) (a : α) (b : β) :
    keys (Function.update f a (some b)) b = insert a (keys f b) := by
  ext x
  rcases eq_or_ne x a with rfl | hne
  · simp [keys]
  · simp [keys, hne]

theorem keys_assign_of_ne {c : β} (ha : f a = none) (hne : b ≠ c) :
    keys (Function.update f a (some b)) c = keys f c := by
  ext x
  rcases eq_or_ne x a with rfl | hxa
  · simp [keys, ha, hne]
  · simp [keys, hxa]

variable [DecidableEq β]

/-- A key that was not assigned adds one to the load of its value. -/
theorem load_assign (h : FiniteDom f) (ha : f a = none) (b c : β) :
    load (Function.update f a (some b)) c = load f c + if b = c then 1 else 0 := by
  rcases eq_or_ne b c with rfl | hne
  · have hmem : a ∉ keys f b := by simp [keys, ha]
    rw [load, keys_assign_self, Set.ncard_insert_of_notMem hmem (h.finite_keys b), if_pos rfl, load]
  · rw [load, keys_assign_of_ne ha hne, if_neg hne, load, add_zero]

/-- A key that is taken back takes one from the load of its value. -/
theorem load_remove (h : FiniteDom f) (ha : f a = some b) (c : β) :
    load f c = load (Function.update f a none) c + if b = c then 1 else 0 := by
  -- the old assignment is the new one with the key assigned again
  have hback : Function.update (Function.update f a none) a (some b) = f := by
    rw [Function.update_idem, ← ha, Function.update_eq_self]
  have hnone : Function.update f a none a = none := Function.update_self a none f
  rw [← load_assign (h.update a none) hnone b c, hback]

end Update

end SagePTE.Load
