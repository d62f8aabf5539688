import Mathlib.Order.Defs.Unbundled

/-!
# What lies between the neighbours of an increasing list

A rule puts some elements between any two. Applied to all neighbours of a list that
increases in a strict order, it yields an increasing list again, and none of its elements
is one of the given.

## Main definitions

* `Between.Inside` — a rule that stays strictly between its arguments
* `Between.gaps` — what a rule puts between the neighbours of a list

## Main results

* `Between.pairwise_gaps` — the gaps are increasing
* `Between.not_mem_of_mem_gaps` — they are disjoint from the list
-/

set_option autoImplicit false

namespace SagePTE.Between

variable {α : Type*} {r : α → α → Prop} {f : α → α → List α}

/-- Between two elements the rule puts an increasing list that lies strictly between
them. -/
structure Inside (r : α → α → Prop) (f : α → α → List α) : Prop where
  pairwise : ∀ {a b}, r a b → (f a b).Pairwise r
  lower : ∀ {a b x}, r a b → x ∈ f a b → r a x
  upper : ∀ {a b x}, r a b → x ∈ f a b → r x b

/-- What the rule puts between neighbours. -/
def gaps (f : α → α → List α) (l : List α) : List α :=
  (l.zip l.tail).flatMap fun p => f p.1 p.2

@[simp] theorem gaps_singleton (a : α) : gaps f [a] = [] := rfl

@[simp] theorem gaps_cons_cons (a b : α) (l : List α) :
    gaps f (a :: b :: l) = f a b ++ gaps f (b :: l) := rfl

theorem mem_gaps {l : List α} {x : α} : x ∈ gaps f l ↔ ∃ p ∈ l.zip l.tail, x ∈ f p.1 p.2 :=
  List.mem_flatMap

theorem rel_of_mem_zip_tail {l : List α} (hl : l.Pairwise r) {p : α × α}
    (hp : p ∈ l.zip l.tail) : r p.1 p.2 := by
  induction l with
  | nil => cases hp
  | cons a l ih =>
    obtain ⟨hfirst, hrest⟩ := List.pairwise_cons.mp hl
    cases l with
    | nil => cases hp
    | cons b l =>
      rw [List.tail_cons, List.zip_cons_cons, List.mem_cons] at hp
      rcases hp with rfl | hp
      · exact hfirst b (by simp)
      · exact ih hrest hp

/-- No element of the list lies between two neighbours. -/
theorem not_rel_of_mem_zip_tail [IsTrans α r] [Std.Irrefl r] {l : List α} (hl : l.Pairwise r)
    {p : α × α} (hp : p ∈ l.zip l.tail) {x : α} (hx : x ∈ l) (hlower : r p.1 x) : ¬r x p.2 := by
  induction l with
  | nil => cases hp
  | cons a l ih =>
    obtain ⟨hfirst, hrest⟩ := List.pairwise_cons.mp hl
    cases l with
    | nil => cases hp
    | cons b l =>
      rw [List.tail_cons, List.zip_cons_cons, List.mem_cons] at hp
      rcases hp with rfl | hp
      · -- the first neighbours: all others lie behind the second one
        intro hupper
        rcases List.mem_cons.mp hx with rfl | hx
        · exact irrefl_of r x hlower
        rcases List.mem_cons.mp hx with rfl | hx
        · exact irrefl_of r x hupper
        · exact irrefl_of r x (trans_of r hupper ((List.pairwise_cons.mp hrest).1 x hx))
      · rcases List.mem_cons.mp hx with rfl | hx
        · have hmem := (List.of_mem_zip hp).1
          exact fun _ => irrefl_of r x (trans_of r (hfirst p.1 hmem) hlower)
        · exact ih hrest hp hx

/-- The gaps lie behind the first element. -/
theorem rel_of_mem_gaps [IsTrans α r] (hf : Inside r f) {a : α} {l : List α}
    (hl : (a :: l).Pairwise r) {x : α} (hx : x ∈ gaps f (a :: l)) : r a x := by
  induction l generalizing a with
  | nil => simp at hx
  | cons b l ih =>
    obtain ⟨hfirst, hrest⟩ := List.pairwise_cons.mp hl
    have hab : r a b := hfirst b (by simp)
    rw [gaps_cons_cons, List.mem_append] at hx
    rcases hx with hx | hx
    · exact hf.lower hab hx
    · exact trans_of r hab (ih hrest hx)

/-- The gaps lie before the last element. -/
theorem exists_rel_of_mem_gaps (hf : Inside r f) {l : List α} (hl : l.Pairwise r) {x : α}
    (hx : x ∈ gaps f l) : ∃ b ∈ l, r x b := by
  induction l with
  | nil => cases hx
  | cons a l ih =>
    obtain ⟨hfirst, hrest⟩ := List.pairwise_cons.mp hl
    cases l with
    | nil => simp at hx
    | cons b l =>
      rw [gaps_cons_cons, List.mem_append] at hx
      rcases hx with hx | hx
      · exact ⟨b, by simp, hf.upper (hfirst b (by simp)) hx⟩
      · obtain ⟨c, hc, hrel⟩ := ih hrest hx
        exact ⟨c, List.mem_cons_of_mem a hc, hrel⟩

theorem pairwise_gaps [IsTrans α r] (hf : Inside r f) {l : List α} (hl : l.Pairwise r) :
    (gaps f l).Pairwise r := by
  induction l with
  | nil => exact .nil
  | cons a l ih =>
    obtain ⟨hfirst, hrest⟩ := List.pairwise_cons.mp hl
    cases l with
    | nil => exact .nil
    | cons b l =>
      have hab : r a b := hfirst b (by simp)
      rw [gaps_cons_cons, List.pairwise_append]
      exact ⟨hf.pairwise hab, ih hrest,
        fun x hx y hy => trans_of r (hf.upper hab hx) (rel_of_mem_gaps hf hrest hy)⟩

theorem not_mem_of_mem_gaps [IsTrans α r] [Std.Irrefl r] (hf : Inside r f) {l : List α}
    (hl : l.Pairwise r) {x : α} (hx : x ∈ gaps f l) : x ∉ l := by
  induction l with
  | nil => simp
  | cons a l ih =>
    have hlt := rel_of_mem_gaps hf hl hx
    obtain ⟨hfirst, hrest⟩ := List.pairwise_cons.mp hl
    cases l with
    | nil => simp at hx
    | cons b l =>
      have hab : r a b := hfirst b (by simp)
      rw [gaps_cons_cons, List.mem_append] at hx
      intro hmem
      rcases List.mem_cons.mp hmem with rfl | hmem
      · exact irrefl_of r x hlt
      rcases hx with hx | hx
      · -- all other elements lie behind the first gap
        have hxb := hf.upper hab hx
        rcases List.mem_cons.mp hmem with rfl | hmem
        · exact irrefl_of r x hxb
        · exact irrefl_of r x (trans_of r hxb ((List.pairwise_cons.mp hrest).1 x hmem))
      · exact ih hrest hx hmem

end SagePTE.Between
