import Mathlib.Data.List.DropRight
import Mathlib.Data.List.Infix
import Mathlib.Data.List.TakeWhile

/-!
# Substitution in texts

Replacing all occurrences of a word in a text, from left to right and without overlaps. The
occurrences in two texts that follow each other are those of the one and those of the other, as
long as none of them lies across the boundary. Then the two texts are changed independently of
each other.

## Main definitions

* `Substitute.Apart` — no occurrence of a word lies across a boundary
* `Substitute.strip` — the text without its margins
* `Substitute.substitute` — the text with all occurrences replaced
* `Substitute.rsplit` — the text before and after the last occurrence

## Main results

* `Substitute.substitute_induction` — texts by their occurrences of a word
* `Substitute.getLast?_substitute` — the end of a text
* `Substitute.substitute_append` — two parts of a text
* `Substitute.substitute_intercalate` — the lines of a text
-/

set_option autoImplicit false

namespace SagePTE.Substitute

variable {α : Type*}

/-! ### Words across a boundary -/

/-- No occurrence of a word begins in the first text and ends in the second one. -/
def Apart (word first second : List α) : Prop :=
  ∀ left right, word = left ++ right → left ≠ [] → right ≠ [] → left <:+ first →
    ¬right <+: second

namespace Apart

variable {word first first' second : List α}

theorem of_suffix (h : Apart word first second) (hsuffix : first' <:+ first) :
    Apart word first' second := by
  intro left right hword hleft hright hends
  exact h left right hword hleft hright (hends.trans hsuffix)

/-- The second text begins with a symbol that the word does not have. -/
theorem of_head {a : α} (ha : a ∉ word) (first rest : List α) :
    Apart word first (a :: rest) := by
  rintro left right rfl hleft hright hends ⟨t, ht⟩
  cases right with
  | nil => exact hright rfl
  | cons b right =>
    obtain ⟨rfl, -⟩ := List.cons.inj ht
    exact ha (List.mem_append_right left List.mem_cons_self)

/-- The first text is a symbol that the word does not have. -/
theorem of_singleton {a : α} (ha : a ∉ word) (second : List α) : Apart word [a] second := by
  rintro left right rfl hleft hright hends -
  have hmem : a ∈ left := by
    rcases List.suffix_cons_iff.1 hends with rfl | hnil
    · exact List.mem_cons_self
    · exact absurd (List.suffix_nil.1 hnil) hleft
  exact ha (List.mem_append_left right hmem)

/-- The word cannot begin with a nonempty text and extend beyond it. -/
theorem isPrefix_of_append (h : Apart word first second) (hfirst : first ≠ [])
    (hword : word <+: first ++ second) : word <+: first := by
  obtain ⟨rest, hrest⟩ := hword
  rcases List.append_eq_append_iff.1 hrest with ⟨inside, hinside, -⟩ | ⟨beyond, hbeyond, hsecond⟩
  · exact ⟨inside, hinside.symm⟩
  · by_cases hnil : beyond = []
    · rw [hbeyond, hnil, List.append_nil]
    · exact absurd ⟨rest, hsecond.symm⟩ (h first beyond hbeyond hfirst hnil List.suffix_rfl)

/-- A word without a certain symbol occurs on one side of it. -/
theorem infix_or_infix {a : α} (ha : a ∉ word) (h : word <:+: first ++ a :: second) :
    word <:+: first ∨ word <:+: second := by
  induction first with
  | nil =>
    rcases List.infix_cons_iff.1 h with hbegins | hwithin
    · cases word with
      | nil => exact Or.inl (List.nil_infix)
      | cons b word =>
        obtain ⟨rfl, -⟩ := List.cons_prefix_cons.1 hbegins
        exact absurd List.mem_cons_self ha
    · exact Or.inr hwithin
  | cons b first ih =>
    rcases List.infix_cons_iff.1 h with hbegins | hwithin
    · exact Or.inl ((of_head ha _ _).isPrefix_of_append (List.cons_ne_nil b first) hbegins).isInfix
    · exact (ih hwithin).imp_left fun hfirst => hfirst.trans (List.suffix_cons b first).isInfix

/-- A word without the separator occurs in one of the parts. -/
theorem exists_infix_of_infix_intercalate {sep : α} (hsep : sep ∉ word) (hword : word ≠ [])
    {parts : List (List α)} (h : word <:+: [sep].intercalate parts) :
    ∃ part ∈ parts, word <:+: part := by
  induction parts with
  | nil => exact absurd (List.infix_nil.1 h) hword
  | cons part parts ih =>
    cases parts with
    | nil =>
      rw [List.intercalate_singleton] at h
      exact ⟨part, List.mem_cons_self, h⟩
    | cons part' parts =>
      rw [List.intercalate_cons_cons, List.append_assoc, List.singleton_append] at h
      rcases infix_or_infix hsep h with hpart | hrest
      · exact ⟨part, List.mem_cons_self, hpart⟩
      · obtain ⟨other, hmem, hother⟩ := ih hrest
        exact ⟨other, List.mem_cons_of_mem part hmem, hother⟩

end Apart

/-! ### Margins -/

/-- The text without the symbols of a kind at its beginning and its end. -/
def strip (p : α → Bool) (text : List α) : List α := (text.dropWhile p).rdropWhile p

theorem margins_append_strip (p : α → Bool) (text : List α) :
    text.takeWhile p ++ strip p text ++ (text.dropWhile p).rtakeWhile p = text := by
  rw [List.append_assoc, strip, List.rdropWhile_append_rtakeWhile,
    List.takeWhile_append_dropWhile]

theorem strip_isInfix (p : α → Bool) (text : List α) : strip p text <:+: text :=
  ⟨_, _, margins_append_strip p text⟩

theorem getLast_strip (p : α → Bool) (text : List α) (h : strip p text ≠ []) :
    p ((strip p text).getLast h) = false :=
  Bool.eq_false_iff.2 (List.rdropWhile_last_not p _ h)

/-! ### Substitution -/

variable [DecidableEq α]

/-- The text from a position on, with all occurrences of a nonempty word replaced; as many
symbols as given belong to an occurrence that has already been replaced. -/
def substituteFrom (old new : List α) : ℕ → List α → List α
  | _, [] => []
  | skip + 1, _ :: text => substituteFrom old new skip text
  | 0, a :: text =>
    if old <+: a :: text then new ++ substituteFrom old new (old.length - 1) text
    else a :: substituteFrom old new 0 text

/-- The text with all occurrences of a nonempty word replaced. -/
def substitute (old new text : List α) : List α := substituteFrom old new 0 text

theorem substituteFrom_eq_drop (old new : List α) (n : ℕ) (text : List α) :
    substituteFrom old new n text = substitute old new (text.drop n) := by
  induction n generalizing text with
  | zero => rfl
  | succ n ih =>
    cases text with
    | nil => rfl
    | cons a text => exact ih text

@[simp] theorem substitute_nil (old new : List α) : substitute old new [] = [] := rfl

theorem substitute_cons {old : List α} (new : List α) {a : α} {text : List α}
    (h : ¬old <+: a :: text) :
    substitute old new (a :: text) = a :: substitute old new text :=
  if_neg h

/-- An occurrence at the beginning. -/
theorem substitute_append_self {old : List α} (hold : old ≠ []) (new text : List α) :
    substitute old new (old ++ text) = new ++ substitute old new text := by
  cases old with
  | nil => exact absurd rfl hold
  | cons a old =>
    have hfirst : a :: old <+: a :: (old ++ text) := ⟨text, rfl⟩
    rw [List.cons_append, substitute, substituteFrom, if_pos hfirst, substituteFrom_eq_drop,
      List.length_cons, Nat.add_sub_cancel, List.drop_left]

theorem substitute_self {old : List α} (hold : old ≠ []) (new : List α) :
    substitute old new old = new := by
  have h := substitute_append_self hold new []
  rwa [List.append_nil, substitute_nil, List.append_nil] at h

theorem length_substituteFrom {old new : List α} (hold : old ≠ [])
    (hlength : new.length = old.length) (n : ℕ) (text : List α) :
    (substituteFrom old new n text).length = text.length - n := by
  induction text generalizing n with
  | nil =>
    rw [substituteFrom]
    exact (Nat.zero_sub n).symm
  | cons a text ih =>
    cases n with
    | succ n =>
      rw [substituteFrom, ih, List.length_cons]
      omega
    | zero =>
      rw [substituteFrom]
      split_ifs with hfirst
      · have hpos := List.length_pos_iff.2 hold
        have hle := hfirst.length_le
        rw [List.length_append, ih, List.length_cons]
        rw [List.length_cons] at hle
        omega
      · rw [List.length_cons, ih, List.length_cons]
        omega

/-- A word of the same length does not move anything. -/
theorem length_substitute {old new : List α} (hold : old ≠ [])
    (hlength : new.length = old.length) (text : List α) :
    (substitute old new text).length = text.length :=
  length_substituteFrom hold hlength 0 text

/-- A text is empty, or has an occurrence at its beginning, or has none there. -/
@[elab_as_elim]
theorem substitute_induction {old : List α} (hold : old ≠ []) {motive : List α → Prop}
    (nil : motive [])
    (cons : ∀ a text, ¬old <+: a :: text → motive text → motive (a :: text))
    (append : ∀ text, motive text → motive (old ++ text)) (text : List α) : motive text := by
  induction hn : text.length using Nat.strong_induction_on generalizing text with
  | _ n ih =>
    cases text with
    | nil => exact nil
    | cons a text =>
      by_cases hoccurs : old <+: a :: text
      · obtain ⟨rest, hrest⟩ := hoccurs
        have hpos := List.length_pos_iff.2 hold
        have hsum := congrArg List.length hrest
        rw [List.length_append] at hsum
        rw [← hrest]
        exact append rest (ih rest.length (by omega) rest rfl)
      · refine cons a text hoccurs (ih text.length ?_ text rfl)
        rw [← hn]
        exact Nat.lt_succ_self _

/-- A text in which the word does not occur. -/
theorem substitute_of_not_infix {old : List α} (new : List α) {text : List α}
    (h : ¬old <:+: text) : substitute old new text = text := by
  induction text with
  | nil => rfl
  | cons a text ih =>
    rw [substitute_cons new fun hfirst => h hfirst.isInfix,
      ih fun hlater => h (hlater.trans (List.suffix_cons a text).isInfix)]

/-- A word in place of itself. -/
theorem substitute_same {old : List α} (hold : old ≠ []) (text : List α) :
    substitute old old text = text := by
  induction text using substitute_induction hold with
  | nil => rfl
  | cons a text hnot ih => rw [substitute_cons old hnot, ih]
  | append text ih => rw [substitute_append_self hold, ih]

/-- A word that is not shorter does not make the text shorter. -/
theorem length_le_length_substitute {old new : List α} (hold : old ≠ [])
    (hlength : old.length ≤ new.length) (text : List α) :
    text.length ≤ (substitute old new text).length := by
  induction text using substitute_induction hold with
  | nil => rfl
  | cons a text hnot ih =>
    rw [substitute_cons new hnot, List.length_cons, List.length_cons]
    exact Nat.succ_le_succ ih
  | append text ih =>
    rw [substitute_append_self hold, List.length_append, List.length_append]
    exact Nat.add_le_add hlength ih

theorem mem_or_mem_of_mem_substitute {old : List α} (hold : old ≠ []) {new text : List α} {a : α}
    (h : a ∈ substitute old new text) : a ∈ new ∨ a ∈ text := by
  induction text using substitute_induction hold with
  | nil => exact Or.inr h
  | cons b text hnot ih =>
    rw [substitute_cons new hnot] at h
    rcases List.mem_cons.1 h with rfl | h
    · exact Or.inr List.mem_cons_self
    · exact (ih h).imp id (List.mem_cons_of_mem b)
  | append text ih =>
    rw [substitute_append_self hold] at h
    rcases List.mem_append.1 h with h | h
    · exact Or.inl h
    · exact (ih h).imp id (List.mem_append_right old)

/-- The last symbol stays, if the word and what replaces it end alike. -/
theorem getLast?_substitute {old new text : List α} (hold : old ≠ [])
    (h : old.getLast? = text.getLast? → new.getLast? = text.getLast?) :
    (substitute old new text).getLast? = text.getLast? := by
  induction text using substitute_induction hold with
  | nil => rfl
  | cons a text hnot ih =>
    rw [substitute_cons new hnot]
    cases text with
    | nil => rfl
    | cons b text =>
      rw [List.getLast?_cons_cons] at h ⊢
      rw [List.getLast?_cons, ih h]
      rfl
  | append text ih =>
    rw [substitute_append_self hold]
    cases text with
    | nil =>
      rw [List.append_nil] at h ⊢
      rw [substitute_nil, List.append_nil]
      exact h rfl
    | cons b text =>
      have hlast : (old ++ b :: text).getLast? = (b :: text).getLast? := by
        rw [List.getLast?_append, List.getLast?_cons]
        rfl
      rw [hlast] at h ⊢
      rw [List.getLast?_append, ih h]
      rfl

/-- Where no occurrence lies across the boundary, the parts are changed independently. -/
theorem substitute_append {old : List α} (hold : old ≠ []) (new : List α)
    {first second : List α} (h : Apart old first second) :
    substitute old new (first ++ second) =
      substitute old new first ++ substitute old new second := by
  induction first using substitute_induction hold with
  | nil => rfl
  | cons a first hnot ih =>
    have hacross : ¬old <+: a :: (first ++ second) := fun hword =>
      hnot (h.isPrefix_of_append (List.cons_ne_nil a first) hword)
    rw [List.cons_append, substitute_cons new hacross, substitute_cons new hnot,
      ih (h.of_suffix (List.suffix_cons a first)), List.cons_append]
  | append first ih =>
    rw [List.append_assoc, substitute_append_self hold, substitute_append_self hold,
      List.append_assoc, ih (h.of_suffix (List.suffix_append old first))]

/-- The lines of a text are changed independently, if the word is part of a line. -/
theorem substitute_intercalate {old : List α} (hold : old ≠ []) (new : List α) {sep : α}
    (hsep : sep ∉ old) (lines : List (List α)) :
    substitute old new ([sep].intercalate lines) =
      [sep].intercalate (lines.map (substitute old new)) := by
  have hkeep : substitute old new [sep] = [sep] := by
    apply substitute_of_not_infix
    intro hwithin
    obtain ⟨a, ha⟩ := List.exists_mem_of_ne_nil old hold
    exact hsep (List.mem_singleton.1 (hwithin.subset ha) ▸ ha)
  induction lines with
  | nil => rfl
  | cons line lines ih =>
    cases lines with
    | nil => simp
    | cons line' lines =>
      have hend : Apart old line ([sep] ++ [sep].intercalate (line' :: lines)) :=
        Apart.of_head hsep _ _
      rw [List.intercalate_cons_cons, List.append_assoc, substitute_append hold new hend,
        substitute_append hold new (Apart.of_singleton hsep _), hkeep, ih, List.map_cons,
        List.map_cons, List.map_cons, List.intercalate_cons_cons, List.append_assoc]

/-! ### The last field -/

/-- The text before and after the last occurrence of a nonempty separator. -/
def rsplit (sep : List α) : List α → Option (List α × List α)
  | [] => none
  | a :: text =>
    match rsplit sep text with
    | some (before, after) => some (a :: before, after)
    | none => if sep <+: a :: text then some ([], (a :: text).drop sep.length) else none

theorem rsplit_eq_none_iff {sep : List α} (hsep : sep ≠ []) {text : List α} :
    rsplit sep text = none ↔ ¬sep <:+: text := by
  induction text with
  | nil => simp [rsplit, hsep]
  | cons a text ih =>
    rw [List.infix_cons_iff, not_or, ← ih, rsplit]
    cases rsplit sep text with
    | some parts => simp
    | none => simp

theorem rsplit_eq_some {sep : List α} (hsep : sep ≠ []) {text before after : List α}
    (h : rsplit sep text = some (before, after)) :
    text = before ++ sep ++ after ∧ ¬sep <:+: after := by
  induction text generalizing before with
  | nil => cases h
  | cons a text ih =>
    rw [rsplit] at h
    cases hlater : rsplit sep text with
    | some parts =>
      obtain ⟨before', after'⟩ := parts
      rw [hlater] at h
      obtain ⟨rfl, rfl⟩ := Prod.mk.inj (Option.some.inj h)
      obtain ⟨htext, hnot⟩ := ih hlater
      exact ⟨congrArg (a :: ·) htext, hnot⟩
    | none =>
      rw [hlater] at h
      have hnot := (rsplit_eq_none_iff hsep).1 hlater
      by_cases hfirst : sep <+: a :: text
      · simp only [if_pos hfirst] at h
        obtain ⟨rfl, rfl⟩ := Prod.mk.inj (Option.some.inj h)
        refine ⟨List.prefix_append_drop hfirst, fun hwithin => hnot (hwithin.trans ?_)⟩
        -- the occurrence is not empty, so that its end is in the tail
        have hpos := List.length_pos_iff.2 hsep
        rw [← Nat.sub_add_cancel hpos, List.drop_succ_cons]
        exact (List.drop_suffix _ _).isInfix
      · simp only [if_neg hfirst] at h
        cases h

end SagePTE.Substitute
