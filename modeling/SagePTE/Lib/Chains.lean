import Mathlib.Data.Set.Finite.Basic
import Mathlib.Logic.Relation
import Mathlib.Order.WellFounded

/-!
# Chains of links

In a relation in which every element has at most one successor, the elements after a given one
form a chain. A chain ends, or it runs into a cycle, and with finitely many elements there is
nothing else.

## Main definitions

* `Chains.Endless` — the chain never comes to an element without a successor

## Main results

* `Chains.endless_iff` — the endless chains are those that run into a cycle
* `Chains.wellFounded_of_acyclic` — without cycles all chains end
-/

set_option autoImplicit false

namespace SagePTE.Chains

open Relation

variable {α : Type*} {r : α → α → Prop} {a b c : α}

/-- Every element of the chain has a successor. -/
def Endless (r : α → α → Prop) (a : α) : Prop := ∀ b, ReflTransGen r a b → ∃ c, r b c

theorem Endless.step (h : Endless r a) (hab : r a b) : Endless r b :=
  fun c hbc => h c (.head hab hbc)

/-- On a cycle one comes back from everywhere. -/
theorem reflTransGen_of_cycle (hr : Relator.RightUnique r) (hcycle : TransGen r b b)
    (hbc : ReflTransGen r b c) : ReflTransGen r c b := by
  induction hbc with
  | refl => exact .refl
  | tail _ hdc ih =>
    obtain ⟨e, hde, heb⟩ := TransGen.head'_iff.mp (TransGen.trans_right ih hcycle)
    rwa [hr hdc hde]

theorem endless_of_cycle (hr : Relator.RightUnique r) (hab : ReflTransGen r a b)
    (hcycle : TransGen r b b) : Endless r a := by
  intro c hac
  -- from a place before the cycle or on it, the cycle is ahead
  have hcb : ReflTransGen r c b := by
    rcases hab.total_of_right_unique hr hac with hbc | hcb
    · exact reflTransGen_of_cycle hr hcycle hbc
    · exact hcb
  obtain ⟨d, hcd, -⟩ := TransGen.head'_iff.mp (TransGen.trans_right hcb hcycle)
  exact ⟨d, hcd⟩

/-- Without cycles there is no endless way through finitely many elements. -/
theorem wellFounded_of_acyclic [Finite α] (h : ∀ a, ¬TransGen r a a) :
    WellFounded fun b a => TransGen r a b := by
  have : IsTrans α fun b a => TransGen r a b := ⟨fun _ _ _ hab hbc => hbc.trans hab⟩
  have : Std.Irrefl fun b a => TransGen r a b := ⟨h⟩
  exact Finite.wellFounded_of_trans_of_irrefl _

theorem exists_cycle_of_endless (hfin : {b | ReflTransGen r a b}.Finite) (h : Endless r a) :
    ∃ b, ReflTransGen r a b ∧ TransGen r b b := by
  by_contra hnone
  have : Finite {b // ReflTransGen r a b} := hfin.to_subtype
  let next : {b // ReflTransGen r a b} → {b // ReflTransGen r a b} → Prop := fun x y => r x y
  have hacyclic : ∀ x, ¬TransGen next x x := by
    intro x hx
    exact hnone ⟨x, x.2, hx.lift Subtype.val fun _ _ h => h⟩
  -- an element with nothing after it
  obtain ⟨x, -, hlast⟩ :=
    (wellFounded_of_acyclic hacyclic).has_min Set.univ ⟨⟨a, .refl⟩, trivial⟩
  obtain ⟨y, hxy⟩ := h x x.2
  exact hlast ⟨y, x.2.tail hxy⟩ trivial (.single hxy)

/-- The endless chains are those that run into a cycle. -/
theorem endless_iff (hr : Relator.RightUnique r) (hfin : {b | ReflTransGen r a b}.Finite) :
    Endless r a ↔ ∃ b, ReflTransGen r a b ∧ TransGen r b b := by
  constructor
  · exact exists_cycle_of_endless hfin
  · rintro ⟨b, hab, hcycle⟩
    exact endless_of_cycle hr hab hcycle

end SagePTE.Chains
