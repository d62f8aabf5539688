import Mathlib.Data.List.Basic

/-!
# Lines of a text that arrives in pieces

A text over any alphabet, with one letter that ends a line. A reader that gets the
text in pieces keeps what follows the last complete line and puts it before the
next piece. `cut` returns the complete lines and that remainder, and `cut_append`
says that cutting piece by piece gives the lines of the whole text.

## Main definitions

* `Lines.splitFirst`, `Lines.splitLast` — the text around the first or last separator
* `Lines.cut` — the complete lines of a text, and the rest
* `Lines.unlines` — lines written one after the other, each with its separator
* `Lines.pieces` — a text read line by line into a buffer of fixed size
* `Lines.fromLast` — a list from its last element of a kind on

## Main results

* `Lines.unlines_cut`, `Lines.cut_unlines_append` — `cut` and `unlines` are inverse
* `Lines.cut_append` — cutting in pieces
* `Lines.cut_of_splitLast` — looking for the last separator first
* `Lines.pieces_append_sep_cases` — a line that fits the buffer
-/

set_option autoImplicit false

namespace SagePTE.Lines

variable {α : Type*} (sep : α)

/-- Lines written one after the other, each followed by the separator. -/
def unlines (lines : List (List α)) : List α := lines.flatMap (· ++ [sep])

variable [DecidableEq α]

/-- The text before and after the first separator. -/
def splitFirst : List α → Option (List α × List α)
  | [] => none
  | c :: text =>
    if c = sep then some ([], text)
    else (splitFirst text).map fun p => (c :: p.1, p.2)

/-- The text before and after the last separator. -/
def splitLast : List α → Option (List α × List α)
  | [] => none
  | c :: text =>
    match splitLast text with
    | some (before, after) => some (c :: before, after)
    | none => if c = sep then some ([], text) else none

/-- The complete lines, without their separators, and what follows the last one. -/
def cut : List α → List (List α) × List α
  | [] => ([], [])
  | c :: text =>
    if c = sep then ([] :: (cut text).1, (cut text).2)
    else
      match cut text with
      | ([], rest) => ([], c :: rest)
      | (line :: lines, rest) => ((c :: line) :: lines, rest)

variable {sep}

omit [DecidableEq α] in
@[simp] theorem unlines_nil : unlines sep [] = [] := rfl

omit [DecidableEq α] in
@[simp] theorem unlines_cons (line : List α) (lines : List (List α)) :
    unlines sep (line :: lines) = line ++ sep :: unlines sep lines := by
  simp [unlines]

omit [DecidableEq α] in
@[simp] theorem unlines_append (xs ys : List (List α)) :
    unlines sep (xs ++ ys) = unlines sep xs ++ unlines sep ys := by
  simp [unlines]

/-! ### Splitting at a separator -/

theorem splitFirst_append {before : List α} (hbefore : sep ∉ before) (after : List α) :
    splitFirst sep (before ++ sep :: after) = some (before, after) := by
  induction before with
  | nil => simp [splitFirst]
  | cons c before ih =>
    obtain ⟨hc, hbefore⟩ := List.ne_and_not_mem_of_not_mem_cons hbefore
    simp [splitFirst, Ne.symm hc, ih hbefore]

theorem splitFirst_eq_none {text : List α} (h : sep ∉ text) : splitFirst sep text = none := by
  induction text with
  | nil => rfl
  | cons c text ih =>
    obtain ⟨hc, htext⟩ := List.ne_and_not_mem_of_not_mem_cons h
    simp [splitFirst, Ne.symm hc, ih htext]

theorem splitLast_eq_none_iff {text : List α} : splitLast sep text = none ↔ sep ∉ text := by
  induction text with
  | nil => simp [splitLast]
  | cons c text ih =>
    cases h : splitLast sep text with
    | none =>
      have htext := ih.mp h
      by_cases hc : c = sep
      · simp [splitLast, h, hc]
      · simp [splitLast, h, hc, htext, Ne.symm hc]
    | some p =>
      -- a separator further on
      have htext : sep ∈ text := by
        by_contra hne
        rw [ih.mpr hne] at h
        cases h
      simp [splitLast, h, htext]

theorem splitLast_eq_some {text before after : List α}
    (h : splitLast sep text = some (before, after)) :
    text = before ++ sep :: after ∧ sep ∉ after := by
  induction text generalizing before with
  | nil => cases h
  | cons c text ih =>
    cases hrest : splitLast sep text with
    | none =>
      by_cases hc : c = sep
      · simp only [splitLast, hrest, hc, if_true, Option.some.injEq, Prod.mk.injEq] at h
        obtain ⟨rfl, rfl⟩ := h
        exact ⟨by rw [hc]; rfl, splitLast_eq_none_iff.mp hrest⟩
      · simp [splitLast, hrest, hc] at h
    | some p =>
      obtain ⟨before', after'⟩ := p
      simp only [splitLast, hrest, Option.some.injEq, Prod.mk.injEq] at h
      obtain ⟨rfl, rfl⟩ := h
      obtain ⟨rfl, hafter⟩ := ih hrest
      exact ⟨rfl, hafter⟩

theorem splitLast_append {after : List α} (hafter : sep ∉ after) (before : List α) :
    splitLast sep (before ++ sep :: after) = some (before, after) := by
  induction before with
  | nil => simp [splitLast, splitLast_eq_none_iff.mpr hafter]
  | cons c before ih => simp [splitLast, ih]

/-! ### Cutting into lines -/

theorem cut_of_not_mem {text : List α} (h : sep ∉ text) : cut sep text = ([], text) := by
  induction text with
  | nil => rfl
  | cons c text ih =>
    obtain ⟨hc, htext⟩ := List.ne_and_not_mem_of_not_mem_cons h
    simp [cut, Ne.symm hc, ih htext]

theorem cut_append_sep {line : List α} (hline : sep ∉ line) (text : List α) :
    cut sep (line ++ sep :: text) = (line :: (cut sep text).1, (cut sep text).2) := by
  induction line with
  | nil => simp [cut]
  | cons c line ih =>
    obtain ⟨hc, hline⟩ := List.ne_and_not_mem_of_not_mem_cons hline
    simp [cut, Ne.symm hc, ih hline]

theorem cut_unlines_append {lines : List (List α)} (hlines : ∀ line ∈ lines, sep ∉ line)
    {rest : List α} (hrest : sep ∉ rest) :
    cut sep (unlines sep lines ++ rest) = (lines, rest) := by
  induction lines with
  | nil => exact cut_of_not_mem hrest
  | cons line lines ih =>
    rw [unlines_cons, List.append_assoc, List.cons_append,
      cut_append_sep (hlines line (by simp)), ih fun l hl => hlines l (by simp [hl])]

variable (sep) in
/-- The lines of a text and its remainder make up the text, and hold no separator. -/
theorem unlines_cut (text : List α) :
    unlines sep (cut sep text).1 ++ (cut sep text).2 = text ∧
      (∀ line ∈ (cut sep text).1, sep ∉ line) ∧ sep ∉ (cut sep text).2 := by
  induction text with
  | nil => simp [cut]
  | cons c text ih =>
    obtain ⟨hjoin, hlines, hrest⟩ := ih
    by_cases hc : c = sep
    · subst hc
      simp only [cut, if_true]
      refine ⟨by simpa using hjoin, ?_, hrest⟩
      intro line hline
      rcases List.mem_cons.mp hline with rfl | hline
      · simp
      · exact hlines line hline
    · cases hcut : cut sep text with
      | mk lines rest =>
        rw [hcut] at hjoin hlines hrest
        -- a character goes to the first line if there is one, and to the remainder else
        cases lines with
        | nil => simp_all [cut, Ne.symm hc]
        | cons line lines =>
          simp only [cut, hc, if_false, hcut]
          refine ⟨by simpa using hjoin, ?_, hrest⟩
          intro l hl
          rcases List.mem_cons.mp hl with rfl | hl
          · simpa [Ne.symm hc] using hlines line (by simp)
          · exact hlines l (by simp [hl])

variable (sep) in
/-- Cutting a text that arrives in two pieces: the remainder of the first piece is
put before the second. -/
theorem cut_append (x y : List α) :
    cut sep (x ++ y) =
      ((cut sep x).1 ++ (cut sep ((cut sep x).2 ++ y)).1, (cut sep ((cut sep x).2 ++ y)).2) := by
  obtain ⟨hx, hxlines, -⟩ := unlines_cut sep x
  obtain ⟨hy, hylines, hrest⟩ := unlines_cut sep ((cut sep x).2 ++ y)
  have hjoin : x ++ y = unlines sep ((cut sep x).1 ++ (cut sep ((cut sep x).2 ++ y)).1)
      ++ (cut sep ((cut sep x).2 ++ y)).2 := by
    rw [unlines_append, List.append_assoc, hy, ← List.append_assoc, hx]
  have hlines : ∀ line ∈ (cut sep x).1 ++ (cut sep ((cut sep x).2 ++ y)).1, sep ∉ line := by
    intro line hline
    rcases List.mem_append.mp hline with hline | hline
    · exact hxlines line hline
    · exact hylines line hline
  conv_lhs => rw [hjoin]
  exact cut_unlines_append hlines hrest

/-- A reader may look for the last separator first and cut only what stands before
it: the lines are the same, and the remainder is what follows. -/
theorem cut_of_splitLast {text before after : List α}
    (h : splitLast sep text = some (before, after)) :
    cut sep text = ((cut sep (before ++ [sep])).1, after) := by
  obtain ⟨rfl, hafter⟩ := splitLast_eq_some h
  obtain ⟨hjoin, hlines, hrest⟩ := unlines_cut sep (before ++ [sep])
  have hend : (cut sep (before ++ [sep])).2 = [] := by
    rcases List.eq_nil_or_concat (cut sep (before ++ [sep])).2 with hnil | ⟨rest, c, hc⟩
    · exact hnil
    · -- the text ends with the separator, the remainder has none
      rw [hc, List.concat_eq_append, ← List.append_assoc] at hjoin
      obtain ⟨-, hlast⟩ := List.append_inj' hjoin rfl
      rw [List.singleton_inj.mp hlast] at hc
      exact absurd (by rw [hc]; simp) hrest
  rw [hend, List.append_nil] at hjoin
  have happ : before ++ sep :: after = unlines sep (cut sep (before ++ [sep])).1 ++ after := by
    rw [hjoin]; simp
  rw [happ]
  exact cut_unlines_append hlines hafter

/-! ### Reading into a buffer -/

variable (sep) in
/-- The text read line by line into a buffer of `size` letters: a piece ends with a
separator, or where the buffer is full. The first piece has room for `room` letters. -/
def pieces (size : ℕ) : ℕ → List α → List (List α)
  | _, [] => []
  | room, c :: text =>
    if c = sep ∨ room ≤ 1 then [c] :: pieces size size text
    else
      match pieces size (room - 1) text with
      | [] => [[c]]
      | piece :: rest => (c :: piece) :: rest

theorem pieces_ne_nil {size room : ℕ} {text : List α} (h : text ≠ []) :
    pieces sep size room text ≠ [] := by
  obtain ⟨c, text, rfl⟩ := List.exists_cons_of_ne_nil h
  rw [pieces]
  split
  · simp
  · split <;> simp

theorem pieces_append_sep (size : ℕ) {room : ℕ} {line : List α} (hline : sep ∉ line)
    (hroom : line.length < room) (text : List α) :
    pieces sep size room (line ++ sep :: text) = (line ++ [sep]) :: pieces sep size size text := by
  induction line generalizing room with
  | nil => simp [pieces]
  | cons c line ih =>
    obtain ⟨hc, hline⟩ := List.ne_and_not_mem_of_not_mem_cons hline
    rw [List.length_cons] at hroom
    have hfits : ¬(c = sep ∨ room ≤ 1) := by
      rintro (rfl | hle)
      · exact hc rfl
      · omega
    simp only [List.cons_append, pieces, if_neg hfits, ih hline (by omega : line.length < room - 1)]

/-- A line that need not fit is read in pieces of its own. -/
theorem exists_pieces_append_sep (size room : ℕ) {line : List α} (hline : sep ∉ line)
    (text : List α) :
    ∃ first rest, pieces sep size room (line ++ sep :: text) =
        first :: rest ++ pieces sep size size text ∧
      ∀ piece ∈ first :: rest, ∀ c ∈ piece, c = sep ∨ c ∈ line := by
  induction line generalizing room with
  | nil => exact ⟨[sep], [], by simp [pieces], by simp⟩
  | cons c line ih =>
    obtain ⟨hc, hline⟩ := List.ne_and_not_mem_of_not_mem_cons hline
    by_cases hroom : room ≤ 1
    · -- the buffer is full with this letter
      obtain ⟨first, rest, heq, hmem⟩ := ih size hline
      refine ⟨[c], first :: rest, by simp [pieces, hroom, heq], fun piece hpiece d hd => ?_⟩
      rcases List.mem_cons.mp hpiece with rfl | hpiece
      · exact .inr (by simp_all)
      · exact (hmem piece hpiece d hd).imp_right (List.mem_cons_of_mem c)
    · obtain ⟨first, rest, heq, hmem⟩ := ih (room - 1) hline
      refine ⟨c :: first, rest, by simp [pieces, hroom, Ne.symm hc, heq],
        fun piece hpiece d hd => ?_⟩
      rcases List.mem_cons.mp hpiece with rfl | hpiece
      · rcases List.mem_cons.mp hd with rfl | hd
        · exact .inr (by simp)
        · exact (hmem first (by simp) d hd).imp_right (List.mem_cons_of_mem c)
      · exact (hmem piece (by simp [hpiece]) d hd).imp_right (List.mem_cons_of_mem c)

/-- A text that fills the buffer without a separator is a piece of its own. -/
theorem pieces_append_of_length (size : ℕ) {room : ℕ} {line : List α} (hline : sep ∉ line)
    (hroom : line.length = room) (hne : line ≠ []) (text : List α) :
    pieces sep size room (line ++ text) = line :: pieces sep size size text := by
  induction line generalizing room with
  | nil => exact absurd rfl hne
  | cons c line ih =>
    obtain ⟨hc, hline⟩ := List.ne_and_not_mem_of_not_mem_cons hline
    rw [List.length_cons] at hroom
    cases line with
    | nil => simp [pieces, show room ≤ 1 by simp at hroom; omega]
    | cons d line =>
      have hroom' : ¬(c = sep ∨ room ≤ 1) := by
        rw [List.length_cons] at hroom
        rintro (rfl | hle)
        · exact hc rfl
        · omega
      rw [List.cons_append, pieces, if_neg hroom', ih hline (by omega) (by simp)]

/-- A line that fits the buffer without its separator, which may be left for a piece of its
own. -/
theorem pieces_append_sep_cases {size : ℕ} {line : List α} (hline : sep ∉ line)
    (hle : line.length ≤ size) (text : List α) :
    pieces sep size size (line ++ sep :: text) = (line ++ [sep]) :: pieces sep size size text ∨
      pieces sep size size (line ++ sep :: text) = line :: [sep] :: pieces sep size size text := by
  rcases Nat.eq_or_lt_of_le hle with heq | hlt
  · by_cases hnil : line = []
    · left
      simp [hnil, pieces]
    · right
      rw [pieces_append_of_length size hline heq hnil, pieces, if_pos (.inl rfl)]
  · exact .inl (pieces_append_sep size hline hlt text)

/-- The end of a text, where a separator may be missing. -/
theorem pieces_of_length_le {size room : ℕ} {line : List α} (hline : sep ∉ line)
    (hle : line.length ≤ room) :
    pieces sep size room line = if line = [] then [] else [line] := by
  induction line generalizing room with
  | nil => rfl
  | cons c line ih =>
    obtain ⟨hc, hline⟩ := List.ne_and_not_mem_of_not_mem_cons hline
    rw [List.length_cons] at hle
    rw [if_neg (by simp), pieces]
    by_cases hnil : line = []
    · simp [hnil, pieces]
    · have hlen := List.length_pos_of_ne_nil hnil
      rw [if_neg (by rintro (rfl | hroom); exacts [hc rfl, by omega]), ih hline (by omega),
        if_neg hnil]

/-- Pieces are parts of the text. -/
theorem mem_of_mem_pieces {size room : ℕ} {text piece : List α}
    (hpiece : piece ∈ pieces sep size room text) {c : α} (hc : c ∈ piece) : c ∈ text := by
  induction text generalizing room piece with
  | nil => cases hpiece
  | cons d text ih =>
    rw [pieces] at hpiece
    split at hpiece
    · rcases List.mem_cons.mp hpiece with rfl | hpiece
      · simp [List.mem_singleton.mp hc]
      · exact List.mem_cons_of_mem d (ih hpiece hc)
    · cases hrest : pieces sep size (room - 1) text with
      | nil =>
        rw [hrest, List.mem_singleton] at hpiece
        rw [hpiece, List.mem_singleton] at hc
        simp [hc]
      | cons first rest =>
        rw [hrest] at hpiece
        rcases List.mem_cons.mp hpiece with rfl | hpiece
        · rcases List.mem_cons.mp hc with rfl | hc
          · simp
          · exact List.mem_cons_of_mem d (ih (by rw [hrest]; simp) hc)
        · exact List.mem_cons_of_mem d (ih (by rw [hrest]; simp [hpiece]) hc)

omit [DecidableEq α] in
/-- Lines that all end with the separator, with separators between them. -/
theorem unlines_eq_intercalate (lines : List (List α)) :
    unlines sep lines = [sep].intercalate (lines ++ [[]]) := by
  induction lines with
  | nil => rfl
  | cons line lines ih =>
    obtain ⟨first, rest, heq⟩ := List.exists_cons_of_ne_nil
      (by simp : lines ++ [[]] ≠ ([] : List (List α)))
    rw [unlines_cons, ih, List.cons_append, heq, List.intercalate_cons_cons]
    simp

/-- A file of lines, split into them. Behind the last separator is an empty line. -/
theorem splitOn_unlines {lines : List (List α)} (h : ∀ line ∈ lines, sep ∉ line) :
    (unlines sep lines).splitOn sep = lines ++ [[]] := by
  rw [unlines_eq_intercalate]
  refine List.splitOn_intercalate sep (fun line hline => ?_) (by simp)
  rcases List.mem_append.mp hline with hline | hline
  · exact h line hline
  · simp [List.mem_singleton.mp hline]

omit [DecidableEq α] in
/-- The same for a reader that takes more letters than the separator as the end of a line. -/
theorem splitOnP_unlines {p : α → Bool} (hsep : p sep = true) {lines : List (List α)}
    (h : ∀ line ∈ lines, ∀ c ∈ line, p c = false) :
    (unlines sep lines).splitOnP p = lines ++ [[]] := by
  induction lines with
  | nil => rfl
  | cons line lines ih =>
    rw [List.forall_mem_cons] at h
    rw [unlines_cons, List.splitOnP_append_cons_of_forall_mem h.1 sep hsep, ih h.2]
    rfl

omit [DecidableEq α] in
/-- The parts of a text have letters of the text only. -/
theorem subset_of_mem_splitOnP {p : α → Bool} {text part : List α} (h : part ∈ text.splitOnP p) :
    part ⊆ text := by
  induction text generalizing part with
  | nil => simpa [List.splitOnP_nil] using h
  | cons c text ih =>
    rw [List.splitOnP_cons_eq_if_modifyHead] at h
    split at h
    · rcases List.mem_cons.mp h with rfl | h
      · exact List.nil_subset _
      · exact List.subset_cons_of_subset c (ih h)
    · obtain ⟨first, rest, heq⟩ := List.exists_cons_of_ne_nil (List.splitOnP_ne_nil p text)
      rw [heq, List.modifyHead_cons] at h
      rcases List.mem_cons.mp h with rfl | h
      · exact List.cons_subset_cons c (ih (heq ▸ List.mem_cons_self))
      · exact List.subset_cons_of_subset c (ih (heq ▸ List.mem_cons_of_mem first h))

/-- No part of a text that is split has the separator. -/
theorem not_mem_of_mem_splitOn {text part : List α} (h : part ∈ text.splitOn sep) :
    sep ∉ part := by
  induction text generalizing part with
  | nil =>
    rw [List.splitOn_nil, List.mem_singleton] at h
    simp [h]
  | cons c text ih =>
    rw [List.splitOn_cons_eq_if_modifyHead] at h
    split at h
    · rcases List.mem_cons.mp h with rfl | h
      · simp
      · exact ih h
    · next hc =>
      obtain ⟨first, rest, heq⟩ := List.exists_cons_of_ne_nil (List.splitOn_ne_nil sep text)
      rw [heq, List.modifyHead_cons] at h
      rcases List.mem_cons.mp h with rfl | h
      · have hfirst : sep ∉ first := ih (by rw [heq]; simp)
        simp only [List.mem_cons, not_or]
        exact ⟨fun hsep => hc (by simp [hsep]), hfirst⟩
      · exact ih (by rw [heq]; simp [h])

omit [DecidableEq α] in
theorem isInfix_intercalate {part : List α} {parts : List (List α)} (hpart : part ∈ parts) :
    part <:+: [sep].intercalate parts := by
  induction parts with
  | nil => cases hpart
  | cons first rest ih =>
    cases rest with
    | nil => simp [List.mem_singleton.mp hpart]
    | cons second rest =>
      rw [List.intercalate_cons_cons, List.append_assoc]
      rcases List.mem_cons.mp hpart with rfl | hpart
      · exact (List.prefix_append part _).isInfix
      · refine (ih hpart).trans ?_
        rw [← List.append_assoc]
        exact (List.suffix_append (first ++ [sep]) _).isInfix

omit [DecidableEq α] in
theorem intercalate_append {xs ys : List (List α)} (hxs : xs ≠ []) (hys : ys ≠ []) :
    [sep].intercalate (xs ++ ys) = [sep].intercalate xs ++ sep :: [sep].intercalate ys := by
  induction xs with
  | nil => exact absurd rfl hxs
  | cons x xs ih =>
    cases xs with
    | nil =>
      rw [List.singleton_append, List.intercalate_cons_of_ne_nil hys, List.intercalate_singleton,
        List.append_assoc, List.singleton_append]
    | cons x' xs =>
      rw [List.cons_append, List.cons_append, List.intercalate_cons_cons,
        List.intercalate_cons_cons, ← List.cons_append, ih (List.cons_ne_nil x' xs)]
      simp only [List.append_assoc]

omit [DecidableEq α] in
/-- The text ends as its last part does. -/
theorem getLast?_intercalate {parts : List (List α)} {part : List α} (hpart : part ≠ []) :
    ([sep].intercalate (parts ++ [part])).getLast? = part.getLast? := by
  cases parts with
  | nil => simp
  | cons first rest =>
    rw [intercalate_append (List.cons_ne_nil first rest) (List.cons_ne_nil part []),
      List.intercalate_singleton, List.append_cons, List.getLast?_append,
      List.getLast?_eq_some_getLast hpart]
    rfl

/-- The parts of a text that is split occur in the text. -/
theorem isInfix_of_mem_splitOn {text part : List α} (h : part ∈ text.splitOn sep) :
    part <:+: text := by
  have hwithin : part <:+: [sep].intercalate (text.splitOn sep) := isInfix_intercalate h
  rwa [List.intercalate_splitOn] at hwithin

/-- The parts of a text that is split are parts of the text. -/
theorem mem_of_mem_splitOn {text part : List α} (h : part ∈ text.splitOn sep) {c : α}
    (hc : c ∈ part) : c ∈ text :=
  (isInfix_of_mem_splitOn h).subset hc

/-! ### The last line of a kind -/

/-- The list from its last element with a property on. -/
def fromLast (p : α → Bool) : List α → Option (List α)
  | [] => none
  | a :: l => (fromLast p l).or (if p a then some (a :: l) else none)

omit [DecidableEq α] in
theorem fromLast_eq_none {p : α → Bool} {l : List α} (h : ∀ a ∈ l, p a = false) :
    fromLast p l = none := by
  induction l with
  | nil => rfl
  | cons a l ih =>
    rw [List.forall_mem_cons] at h
    simp [fromLast, ih h.2, h.1]

omit [DecidableEq α] in
theorem fromLast_append {p : α → Bool} {a : α} (ha : p a = true) {after : List α}
    (hafter : ∀ b ∈ after, p b = false) (before : List α) :
    fromLast p (before ++ a :: after) = some (a :: after) := by
  induction before with
  | nil => simp [fromLast, fromLast_eq_none hafter, ha]
  | cons b before ih => simp [fromLast, ih]

end SagePTE.Lines
