import Mathlib.Data.List.Induction
import Mathlib.Data.List.Nodup
import Mathlib.Logic.Function.Basic

/-!
# Doubly linked lists

The nodes of a doubly linked list are given by two functions, the links forward and the links
back. The list that they represent is an ordinary list of nodes. Its ends are linked to
whatever comes before and after it, so that a list can be cut in two and each part be changed
on its own.

## Main definitions

* `Linked.setAt` — a write through a pointer that may be null
* `Linked.Links` — the nodes of a list are linked in both directions
* `Linked.Follows` — a walk along the links of one direction

## Main results

* `Linked.links_append` — cutting a linked list in two
* `Linked.Links.cons`, `Linked.Links.erase`, `Linked.Links.replace` — a node added in front, a
  node taken out, and a node put in the place of another one
* `Linked.Links.follows_next`, `Linked.Links.follows_prev` — walks through a linked list
-/

set_option autoImplicit false

namespace SagePTE.Linked

open Function

variable {α β : Type*}

/-! ### Writes through pointers -/

section SetAt

variable [DecidableEq α]

/-- Writes `v` where `p` points to. Nothing is written through a null pointer. -/
def setAt (f : α → β) (p : Option α) (v : β) : α → β := p.elim f fun x => update f x v

@[simp] theorem setAt_none (f : α → β) (v : β) : setAt f none v = f := rfl

@[simp] theorem setAt_some (f : α → β) (x : α) (v : β) : setAt f (some x) v = update f x v := rfl

theorem setAt_of_ne {f : α → β} {p : Option α} {x : α} (h : p ≠ some x) (v : β) :
    setAt f p v x = f x := by
  cases p with
  | none => rfl
  | some y =>
    rw [setAt_some, update_of_ne]
    rintro rfl
    exact h rfl

theorem setAt_update_of_ne {f : α → β} {x y : α} (h : x ≠ y) (p : Option α) (v w : β) :
    setAt (update f y w) p v x = setAt f p v x := by
  cases p with
  | none => exact update_of_ne h w f
  | some z =>
    simp only [setAt_some, update_apply, if_neg h]

end SetAt

/-! ### Linked lists -/

variable {next prev next' prev' : α → Option α} {before after : Option α} {l l₁ l₂ : List α}
  {x y : α}

/-- The nodes of `l` are linked in both directions, the first one back to `before` and the last
one on to `after`. -/
def Links (next prev : α → Option α) : Option α → List α → Option α → Prop
  | _, [], _ => True
  | before, x :: l, after =>
    prev x = before ∧ next x = l.head?.or after ∧ Links next prev (some x) l after

@[simp] theorem links_nil : Links next prev before [] after := trivial

@[simp] theorem links_cons :
    Links next prev before (x :: l) after ↔
      prev x = before ∧ next x = l.head?.or after ∧ Links next prev (some x) l after :=
  Iff.rfl

/-- A linked list is two lists, each linked to the end of the other one. -/
theorem links_append :
    Links next prev before (l₁ ++ l₂) after ↔
      Links next prev before l₁ (l₂.head?.or after) ∧
        Links next prev (l₁.getLast?.or before) l₂ after := by
  induction l₁ generalizing before with
  | nil => simp
  | cons x l₁ ih =>
    have hlast : (x :: l₁).getLast?.or before = l₁.getLast?.or (some x) := by
      cases hl : l₁.getLast? with
      | none => simp [List.getLast?_cons, hl]
      | some y => simp [List.getLast?_cons, hl]
    rw [List.cons_append, links_cons, links_cons, ih, hlast, List.head?_append, Option.or_assoc,
      and_assoc, and_assoc]

theorem links_middle :
    Links next prev before (l₁ ++ x :: l₂) after ↔
      Links next prev before l₁ (some x) ∧ prev x = l₁.getLast?.or before ∧
        next x = l₂.head?.or after ∧ Links next prev (some x) l₂ after := by
  rw [links_append, links_cons]
  rfl

/-- Only the links of the nodes in the list count. -/
theorem Links.congr (h : Links next prev before l after) (hnext : ∀ x ∈ l, next' x = next x)
    (hprev : ∀ x ∈ l, prev' x = prev x) : Links next' prev' before l after := by
  induction l generalizing before with
  | nil => trivial
  | cons x l ih =>
    obtain ⟨hx, hx', hl⟩ := h
    refine ⟨(hprev x List.mem_cons_self).trans hx, (hnext x List.mem_cons_self).trans hx', ?_⟩
    exact ih hl (fun y hy => hnext y (List.mem_cons_of_mem x hy))
      fun y hy => hprev y (List.mem_cons_of_mem x hy)

/-- The links back, by position. -/
theorem Links.prev_getElem? {k : ℕ} (h : Links next prev before l after)
    (hx : l[k + 1]? = some x) : prev x = l[k]? := by
  induction l generalizing before k with
  | nil => simp at hx
  | cons y l ih =>
    obtain ⟨-, -, htail⟩ := h
    rw [List.getElem?_cons_succ] at hx
    cases k with
    | zero =>
      cases l with
      | nil => simp at hx
      | cons z l =>
        obtain rfl : z = x := by simpa using hx
        exact htail.1
    | succ k => exact ih htail hx

/-- The two links between neighbours. -/
theorem Links.prev_of_next (h : Links next prev before l none) (hx : x ∈ l)
    (hy : next x = some y) : prev y = some x := by
  obtain ⟨l₁, l₂, rfl⟩ := List.append_of_mem hx
  obtain ⟨-, -, hnext, hback⟩ := links_middle.mp h
  cases l₂ with
  | nil => simp [hy] at hnext
  | cons z l₂ =>
    obtain rfl : y = z := by simpa [hy] using hnext
    exact hback.1

theorem ne_of_mem_head? (hx : x ∉ l) : l.head? ≠ some x :=
  fun h => hx (List.mem_of_mem_head? h)

theorem ne_of_mem_getLast? (hx : x ∉ l) : l.getLast? ≠ some x :=
  fun h => hx (List.mem_of_getLast? h)

section Change

variable [DecidableEq α]

/-- The last node is linked on to another node. -/
theorem Links.setNext (h : Links next prev before l after) (hl : l.Nodup) (v : Option α) :
    Links (setAt next l.getLast? v) prev before l v := by
  induction l using List.reverseRecOn with
  | nil => trivial
  | append_singleton l x =>
    obtain ⟨hinit, hprev, -, -⟩ := links_middle.mp h
    rw [List.getLast?_concat, setAt_some]
    refine links_middle.mpr ⟨hinit.congr ?_ fun _ _ => rfl, hprev, by simp, trivial⟩
    intro y hy
    apply update_of_ne
    rintro rfl
    exact (List.nodup_append.mp hl).2.2 y hy y List.mem_cons_self rfl

/-- The first node is linked back to another node. -/
theorem Links.setPrev (h : Links next prev before l after) (hl : l.Nodup) (v : Option α) :
    Links next (setAt prev l.head? v) v l after := by
  cases l with
  | nil => trivial
  | cons x l =>
    obtain ⟨-, hnext, htail⟩ := h
    rw [List.head?_cons, setAt_some]
    refine ⟨by simp, hnext, htail.congr (fun _ _ => rfl) ?_⟩
    intro y hy
    apply update_of_ne
    rintro rfl
    exact (List.nodup_cons.mp hl).1 hy

/-- A node is added in front of a list. -/
theorem Links.cons (h : Links next prev none l none) (hl : (x :: l).Nodup) (hx : prev x = none) :
    Links (update next x l.head?) (setAt prev l.head? (some x)) none (x :: l) none := by
  obtain ⟨hmem, hl⟩ := List.nodup_cons.mp hl
  refine ⟨?_, by simp, ?_⟩
  · rw [setAt_of_ne (ne_of_mem_head? hmem), hx]
  · refine (h.setPrev hl (some x)).congr ?_ fun _ _ => rfl
    intro y hy
    apply update_of_ne
    rintro rfl
    exact hmem hy

/-- A node is taken out of a list. -/
theorem Links.erase (h : Links next prev none (l₁ ++ x :: l₂) none)
    (hl : (l₁ ++ x :: l₂).Nodup) :
    Links (setAt next l₁.getLast? l₂.head?) (setAt prev l₂.head? l₁.getLast?) none (l₁ ++ l₂)
      none := by
  obtain ⟨hfront, -, -, hback⟩ := links_middle.mp h
  have hnodup := List.nodup_middle.mp hl
  obtain ⟨hl₁, hl₂, hdisj⟩ := List.nodup_append.mp (List.nodup_cons.mp hnodup).2
  rw [links_append]
  simp only [Option.or_none]
  refine ⟨(hfront.setNext hl₁ _).congr (fun _ _ => rfl) ?_,
    (hback.setPrev hl₂ _).congr ?_ fun _ _ => rfl⟩
  · intro y hy
    exact setAt_of_ne (ne_of_mem_head? fun hy' => hdisj y hy y hy' rfl) _
  · intro y hy
    exact setAt_of_ne (ne_of_mem_getLast? fun hy' => hdisj y hy' y hy rfl) _

/-- A node takes over the links of another one, whose own links become null. -/
theorem Links.replace (h : Links next prev none (l₁ ++ x :: l₂) none)
    (hl : (l₁ ++ x :: l₂).Nodup) (hy : y ∉ l₁ ++ x :: l₂) :
    Links (update (setAt (update next y (next x)) (prev x) (some y)) x none)
      (update (setAt (update prev y (prev x)) (next x) (some y)) x none) none (l₁ ++ y :: l₂)
      none := by
  obtain ⟨hfront, hprev, hnext, hback⟩ := links_middle.mp h
  rw [Option.or_none] at hprev hnext
  obtain ⟨hx, hnodup⟩ := List.nodup_cons.mp (List.nodup_middle.mp hl)
  obtain ⟨hl₁, hl₂, hdisj⟩ := List.nodup_append.mp hnodup
  simp only [List.mem_append, List.mem_cons, not_or] at hy hx
  obtain ⟨hy₁, hyx, hy₂⟩ := hy
  rw [hprev, hnext, links_middle]
  -- the neighbours of `x` are linked to `y`, and the other writes are to `x` and `y` themselves
  refine ⟨(hfront.setNext hl₁ (some y)).congr ?_ ?_, ?_, ?_,
    (hback.setPrev hl₂ (some y)).congr ?_ ?_⟩
  · intro z hz
    rw [update_of_ne (by grind), setAt_update_of_ne (by grind)]
  · intro z hz
    rw [update_of_ne (by grind), setAt_of_ne (ne_of_mem_head? (by grind)),
      update_of_ne (by grind)]
  · rw [update_of_ne hyx, setAt_of_ne (ne_of_mem_head? hy₂), update_self, Option.or_none]
  · rw [update_of_ne hyx, setAt_of_ne (ne_of_mem_getLast? hy₁), update_self, Option.or_none]
  · intro z hz
    rw [update_of_ne (by grind), setAt_of_ne (ne_of_mem_getLast? (by grind)),
      update_of_ne (by grind)]
  · intro z hz
    rw [update_of_ne (by grind), setAt_update_of_ne (by grind)]

end Change

/-! ### Walks -/

/-- Each node of `l` is followed by the next one, and nothing follows the last. -/
def Follows (step : α → Option α) : List α → Prop
  | [] => True
  | x :: l => step x = l.head? ∧ Follows step l

@[simp] theorem follows_nil {step : α → Option α} : Follows step [] := trivial

@[simp] theorem follows_cons {step : α → Option α} :
    Follows step (x :: l) ↔ step x = l.head? ∧ Follows step l :=
  Iff.rfl

theorem Follows.of_append {step : α → Option α} (h : Follows step (l₁ ++ l₂)) :
    Follows step l₂ := by
  induction l₁ with
  | nil => exact h
  | cons x l₁ ih => exact ih h.2

theorem Links.follows_next (h : Links next prev before l none) : Follows next l := by
  induction l generalizing before with
  | nil => trivial
  | cons x l ih =>
    obtain ⟨-, hnext, htail⟩ := h
    exact ⟨by rw [hnext, Option.or_none], ih htail⟩

theorem Links.follows_prev (h : Links next prev none l after) : Follows prev l.reverse := by
  induction l using List.reverseRecOn generalizing after with
  | nil => trivial
  | append_singleton l x ih =>
    obtain ⟨hinit, hprev, -, -⟩ := links_middle.mp h
    rw [List.reverse_append, List.reverse_singleton, List.singleton_append, follows_cons,
      List.head?_reverse, hprev, Option.or_none]
    exact ⟨rfl, ih hinit⟩

end SagePTE.Linked
