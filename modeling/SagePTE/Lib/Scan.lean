import Mathlib.Data.BitVec
import SagePTE.Lib.Numerals

/-!
# Reading numbers from a text

The conversions of the two C libraries that read hexadecimal and decimal numbers:
`%lx` of the kernel's `sscanf`, `%llx` and `%d` of the C library's `fscanf`,
`kstrtoint` and `strtoull`. They differ in the spaces they skip, in the signs they
take and in what they do with a number that does not fit. On a plain numeral that
fits all of them return its value.

A conversion returns what it assigns, if anything, and the text it leaves.

## Main definitions

* `Scan.kernelHex`, `Scan.libcHex`, `Scan.libcInt`, `Scan.kstrtoint`, `Scan.strtoullHex`
* `Scan.commaFields` — a format of conversions with commas between them

## Main results

* `Scan.Reads` — a conversion reads this text as this number, whatever ends the field
* `Scan.kernelHex_reads`, `Scan.libcHex_reads`, `Scan.libcInt_append` — plain numerals
* `Scan.commaFields_commaLine` — a line of fields
-/

set_option autoImplicit false

namespace SagePTE.Scan

open Numerals

/-! ### The conversions -/

/-- `isspace` in the C locale. -/
def isSpace (c : Char) : Bool := c = ' ' ∨ 9 ≤ c.toNat ∧ c.toNat ≤ 13

/-- `isspace` of the kernel, where the no-break space counts. -/
def isKernelSpace (c : Char) : Bool := isSpace c ∨ c.toNat = 160

/-- The text after `0x`, where a hexadecimal number may start with it. -/
def dropHexMark : List Char → List Char
  | '0' :: 'x' :: text => text
  | '0' :: 'X' :: text => text
  | text => text

/-- The sign of a number, and the text after it. -/
def takeSign : List Char → Bool × List Char
  | '-' :: text => (true, text)
  | '+' :: text => (false, text)
  | text => (false, text)

/-- `%lx` of the kernel: no sign, and the value wraps around. -/
def kernelHex (text : List Char) : Option (BitVec 64) × List Char :=
  let start := text.dropWhile isKernelSpace
  if start.head?.any (isDigit 16) then
    let digits := dropHexMark start
    (some (BitVec.ofNat 64 (value 16 (digits.takeWhile (isDigit 16)))),
      digits.dropWhile (isDigit 16))
  else (none, start)

/-- The value `strtoull` gives to a number: the largest one if it does not fit. -/
def unsignedValue (negative : Bool) (n : ℕ) : BitVec 64 :=
  if 2 ^ 64 ≤ n then BitVec.allOnes 64
  else if negative then -BitVec.ofNat 64 n
  else BitVec.ofNat 64 n

/-- `%llx` of the C library. -/
def libcHex (text : List Char) : Option (BitVec 64) × List Char :=
  let (negative, start) := takeSign (text.dropWhile isSpace)
  if start.head?.any (isDigit 16) then
    let digits := dropHexMark start
    (some (unsignedValue negative (value 16 (digits.takeWhile (isDigit 16)))),
      digits.dropWhile (isDigit 16))
  else (none, start)

/-- `strtoull(text, NULL, 16)`, which is zero where no number starts. -/
def strtoullHex (text : List Char) : BitVec 64 := (libcHex text).1.getD 0

/-- The value of `strtol`, cut to an `int`. -/
def intValue (n : ℤ) : ℤ := Int.bmod (max (-2 ^ 63) (min n (2 ^ 63 - 1))) (2 ^ 32)

/-- `%d` of the C library. -/
def libcInt (text : List Char) : Option ℤ × List Char :=
  let (negative, start) := takeSign (text.dropWhile isSpace)
  let digits := start.takeWhile (isDigit 10)
  if digits.isEmpty then (none, start)
  else
    let n : ℤ := if negative then -value 10 digits else value 10 digits
    (some (intValue n), start.dropWhile (isDigit 10))

/-- `kstrtoint(text, 10, ·)`: the whole text is one number that fits, up to a final
newline. -/
def kstrtoint (text : List Char) : Option ℤ :=
  let (negative, start) := takeSign text
  let digits := start.takeWhile (isDigit 10)
  let rest := start.dropWhile (isDigit 10)
  if digits = [] ∨ (rest ≠ [] ∧ rest ≠ ['\n']) then none
  else
    let n : ℤ := if negative then -value 10 digits else value 10 digits
    if -2 ^ 31 ≤ n ∧ n < 2 ^ 31 then some n else none

/-- Conversions with commas between them. The values assigned before the first
mismatch, and the text that is left. -/
def commaFields (field : List Char → Option (BitVec 64) × List Char) :
    ℕ → List Char → List (BitVec 64) × List Char
  | 0, text => ([], text)
  | k + 1, text =>
    match field text with
    | (none, rest) => ([], rest)
    | (some v, rest) =>
      if k = 0 then ([v], rest)
      else
        match rest with
        | ',' :: rest =>
          let (vs, rest) := commaFields field k rest
          (v :: vs, rest)
        | rest => ([v], rest)

/-! ### Plain numerals -/

/-- A character that may follow a field: the comma, or the end of the line. -/
def EndsField (rest : List Char) : Prop := ∀ c ∈ rest.head?, c = ',' ∨ c = '\n'

/-- The conversion reads the text as the number, whatever ends the field. -/
def Reads (field : List Char → Option (BitVec 64) × List Char) (text : List Char)
    (v : BitVec 64) : Prop :=
  ∀ rest, EndsField rest → field (text ++ rest) = (some v, rest)

theorem EndsField.not_isDigit {rest : List Char} (h : EndsField rest) (b : ℕ) :
    ∀ c ∈ rest.head?, isDigit b c = false := by
  intro c hc
  rcases h c hc with rfl | rfl <;> exact not_isDigit_of_digitVal rfl

theorem endsField_nil : EndsField [] := by simp [EndsField]

theorem endsField_comma (rest : List Char) : EndsField (',' :: rest) := by simp [EndsField]

theorem endsField_newline (rest : List Char) : EndsField ('\n' :: rest) := by simp [EndsField]

/-- A digit is neither a space nor a sign. -/
theorem not_space_of_isDigit {b : ℕ} {c : Char} (h : isDigit b c = true) :
    isKernelSpace c = false ∧ isSpace c = false ∧ c ≠ '-' ∧ c ≠ '+' ∧ c ≠ 'x' ∧ c ≠ 'X' := by
  have hne : ∀ d : Char, digitVal d = none → c ≠ d := by
    rintro d hd rfl
    rw [not_isDigit_of_digitVal hd] at h
    cases h
  have hval : digitVal c ≠ none := fun hc => hne c hc rfl
  have hspace : isSpace c = false := by
    simp only [isSpace, decide_eq_false_iff_not, not_or]
    refine ⟨hne ' ' rfl, fun hc => hval ?_⟩
    simp [digitVal, show ¬48 ≤ c.toNat by omega, show ¬97 ≤ c.toNat by omega,
      show ¬65 ≤ c.toNat by omega]
  refine ⟨?_, hspace, hne '-' rfl, hne '+' rfl, hne 'x' rfl, hne 'X' rfl⟩
  simp only [isKernelSpace, hspace, Bool.false_eq_true, false_or, decide_eq_false_iff_not]
  intro hc
  exact hval (by simp [digitVal, hc])

/-- A numeral has no `0x` in front. -/
theorem dropHexMark_append {text rest : List Char} (h : IsNumeral 16 text)
    (hrest : EndsField rest) : dropHexMark (text ++ rest) = text ++ rest := by
  obtain ⟨c, cs, rfl, -⟩ := h.exists_cons
  -- the second character is a digit of the numeral or what follows it
  have hsecond : ∀ d ∈ (cs ++ rest).head?, d ≠ 'x' ∧ d ≠ 'X' := by
    intro d hd
    cases cs with
    | nil => rcases hrest d hd with rfl | rfl <;> decide
    | cons d' cs =>
      obtain rfl : d' = d := by simpa using hd
      exact (not_space_of_isDigit (h.digits d' (by simp))).2.2.2.2
  rw [List.cons_append]
  unfold dropHexMark
  split
  · next heq => exact absurd rfl (hsecond 'x' (by simp [(List.cons.inj heq).2])).1
  · next heq => exact absurd rfl (hsecond 'X' (by simp [(List.cons.inj heq).2])).2
  · rfl

theorem takeSign_append {b : ℕ} {text : List Char} (h : IsNumeral b text) (rest : List Char) :
    takeSign (text ++ rest) = (false, text ++ rest) := by
  obtain ⟨c, cs, rfl, hc⟩ := h.exists_cons
  obtain ⟨-, -, hminus, hplus, -⟩ := not_space_of_isDigit hc
  rw [List.cons_append]
  unfold takeSign
  split
  · next heq => exact absurd (List.cons.inj heq).1 hminus
  · next heq => exact absurd (List.cons.inj heq).1 hplus
  · rfl

theorem dropWhile_space_append {b : ℕ} {text : List Char} (h : IsNumeral b text)
    (rest : List Char) :
    (text ++ rest).dropWhile isKernelSpace = text ++ rest ∧
      (text ++ rest).dropWhile isSpace = text ++ rest := by
  obtain ⟨c, cs, rfl, hc⟩ := h.exists_cons
  obtain ⟨hkernel, hspace, -⟩ := not_space_of_isDigit hc
  simp [hkernel, hspace]

theorem head?_append_any {b : ℕ} {text : List Char} (h : IsNumeral b text) (rest : List Char) :
    (text ++ rest).head?.any (isDigit b) = true := by
  obtain ⟨c, cs, rfl, hc⟩ := h.exists_cons
  simp [hc]

theorem kernelHex_reads {text : List Char} (h : IsNumeral 16 text) :
    Reads kernelHex text (BitVec.ofNat 64 (value 16 text)) := by
  intro rest hrest
  simp only [kernelHex, (dropWhile_space_append h rest).1, head?_append_any h rest, if_true,
    dropHexMark_append h hrest, takeWhile_isDigit_append h (hrest.not_isDigit 16),
    dropWhile_isDigit_append h (hrest.not_isDigit 16)]

theorem libcHex_reads {text : List Char} (h : IsNumeral 16 text) :
    Reads libcHex text (unsignedValue false (value 16 text)) := by
  intro rest hrest
  simp only [libcHex, (dropWhile_space_append h rest).2, takeSign_append h rest,
    head?_append_any h rest, if_true, dropHexMark_append h hrest,
    takeWhile_isDigit_append h (hrest.not_isDigit 16),
    dropWhile_isDigit_append h (hrest.not_isDigit 16)]

theorem unsignedValue_of_lt {n : ℕ} (h : n < 2 ^ 64) :
    unsignedValue false n = BitVec.ofNat 64 n := by
  simp only [unsignedValue, Nat.not_le.mpr h, if_false, Bool.false_eq_true]

theorem libcInt_append {text rest : List Char} (h : IsNumeral 10 text) (hrest : EndsField rest) :
    libcInt (text ++ rest) = (some (intValue (value 10 text)), rest) := by
  have hdigits := takeWhile_isDigit_append h (hrest.not_isDigit 10)
  have hne : text.isEmpty = false := by simpa using h.ne_nil
  simp only [libcInt, (dropWhile_space_append h rest).2, takeSign_append h rest, hdigits, hne,
    dropWhile_isDigit_append h (hrest.not_isDigit 10), Bool.false_eq_true, if_false]

theorem intValue_of_lt {n : ℕ} (h : n < 2 ^ 31) : intValue n = n := by
  -- a count below `2 ^ 31` passes both cuts
  have hclamp : max (-2 ^ 63) (min (n : ℤ) (2 ^ 63 - 1)) = n := by omega
  rw [intValue, hclamp]
  exact Int.bmod_eq_of_le (by omega) (by omega)

/-- Cutting a count to an `int` does not make it larger. -/
theorem toNat_intValue_le (n : ℕ) : (intValue n).toNat ≤ n := by
  rw [intValue, Int.bmod_def]
  split <;> omega

/-! ### Lines of fields -/

/-- A line of fields with commas between them. -/
def commaLine (fields : List (List Char)) : List Char := [','].intercalate fields

theorem commaLine_cons_cons (field field' : List Char) (fields : List (List Char)) :
    commaLine (field :: field' :: fields) = field ++ ',' :: commaLine (field' :: fields) := by
  simp only [commaLine, List.intercalate_cons_cons, List.append_assoc, List.singleton_append]

theorem not_mem_intercalate {c sep : Char} (hsep : c ≠ sep) {fields : List (List Char)}
    (hfields : ∀ field ∈ fields, c ∉ field) : c ∉ [sep].intercalate fields := by
  induction fields with
  | nil => simp
  | cons field fields ih =>
    have hrest := ih fun f hf => hfields f (by simp [hf])
    have hfirst := hfields field (by simp)
    cases fields with
    | nil => simpa using hfirst
    | cons field' fields =>
      rw [List.intercalate_cons_cons]
      simp only [List.mem_append, List.mem_singleton, not_or]
      exact ⟨⟨hfirst, hsep⟩, hrest⟩

theorem length_commaLine_le {n : ℕ} {fields : List (List Char)}
    (hfields : ∀ field ∈ fields, field.length ≤ n) :
    (commaLine fields).length ≤ fields.length * (n + 1) := by
  induction fields with
  | nil => simp [commaLine]
  | cons field fields ih =>
    have hfirst := hfields field (by simp)
    have hrest := ih fun f hf => hfields f (by simp [hf])
    cases fields with
    | nil =>
      simp only [commaLine, List.intercalate_singleton, List.length_cons, List.length_nil]
      omega
    | cons field' fields =>
      rw [commaLine_cons_cons, List.length_append, List.length_cons, List.length_cons,
        Nat.add_mul]
      omega

/-- A line whose fields are read one by one. -/
theorem commaFields_commaLine {field : List Char → Option (BitVec 64) × List Char}
    {texts : List (List Char)} {vs : List (BitVec 64)} (h : List.Forall₂ (Reads field) texts vs)
    {rest : List Char} (hrest : EndsField rest) :
    commaFields field texts.length (commaLine texts ++ rest) = (vs, rest) := by
  induction h with
  | nil => rfl
  | @cons text v texts vs hread hreads ih =>
    cases texts with
    | nil =>
      cases hreads
      simp [commaFields, commaLine, hread rest hrest]
    | cons text' texts =>
      have hfirst := hread (',' :: (commaLine (text' :: texts) ++ rest)) (endsField_comma _)
      rw [commaLine_cons_cons, List.append_assoc, List.cons_append, List.length_cons, commaFields,
        hfirst]
      simp only [List.length_cons] at ih ⊢
      simp [ih]

end SagePTE.Scan
