import Mathlib.Data.Nat.Init
import Mathlib.Data.List.Basic
import Mathlib.Tactic.IntervalCases

/-!
# Numerals

Numbers as texts in a base up to sixteen. The digits above nine may be written in
either case, and a numeral may start with zeros; `Nat.toDigits` writes the
shortest numeral with small letters, which is what the `%lx` and `%d` conversions
print. A reader takes the longest run of digits that a text starts with.

## Main definitions

* `Numerals.value` — the number a run of digits stands for
* `Numerals.IsNumeral` — a text that is a run of digits and not empty
* `Numerals.padLeft` — a printed number filled up to a width

## Main results

* `Numerals.value_toDigits`, `Numerals.isNumeral_toDigits` — printed numbers
* `Numerals.takeWhile_isDigit_append`, `Numerals.dropWhile_isDigit_append` — a numeral
  in front of a text that does not go on with a digit
-/

set_option autoImplicit false

namespace SagePTE.Numerals

/-! ### Digits -/

/-- The value of a digit. -/
def digitVal (c : Char) : Option ℕ :=
  if 48 ≤ c.toNat ∧ c.toNat ≤ 57 then some (c.toNat - 48)
  else if 97 ≤ c.toNat ∧ c.toNat ≤ 102 then some (c.toNat - 87)
  else if 65 ≤ c.toNat ∧ c.toNat ≤ 70 then some (c.toNat - 55)
  else none

/-- The digits of a base. -/
def isDigit (b : ℕ) (c : Char) : Bool := (digitVal c).any (· < b)

/-- The number a run of digits stands for. -/
def value (b : ℕ) (text : List Char) : ℕ :=
  text.foldl (fun acc c => b * acc + (digitVal c).getD 0) 0

/-- A run of digits that is not empty. -/
structure IsNumeral (b : ℕ) (text : List Char) : Prop where
  ne_nil : text ≠ []
  digits : ∀ c ∈ text, isDigit b c = true

/-- A printed field filled up from the left. -/
def padLeft (width : ℕ) (fill : Char) (text : List Char) : List Char :=
  List.replicate (width - text.length) fill ++ text

theorem digitVal_digitChar {d : ℕ} (h : d < 16) : digitVal d.digitChar = some d := by
  interval_cases d <;> rfl

theorem isDigit_digitChar {b d : ℕ} (hb : b ≤ 16) (h : d < b) :
    isDigit b d.digitChar = true := by
  simp [isDigit, digitVal_digitChar (h.trans_le hb), h]

theorem not_isDigit_of_digitVal {b : ℕ} {c : Char} (h : digitVal c = none) :
    isDigit b c = false := by
  simp [isDigit, h]

theorem value_append (b : ℕ) (text : List Char) (c : Char) :
    value b (text ++ [c]) = b * value b text + (digitVal c).getD 0 := by
  simp [value]

/-- Zeros in front of a numeral do not change its value. -/
theorem value_zeros_append (b k : ℕ) (text : List Char) :
    value b (List.replicate k '0' ++ text) = value b text := by
  have hzeros : value b (List.replicate k '0') = 0 := by
    induction k with
    | zero => rfl
    | succ k ih => rw [List.replicate_succ', value_append, ih]; simp [digitVal]
  simp only [value, List.foldl_append] at hzeros ⊢
  rw [hzeros]

/-! ### Printed numbers -/

section

variable {b : ℕ} (hb : 1 < b) (hb' : b ≤ 16)

include hb hb'

theorem value_toDigits (n : ℕ) : value b (Nat.toDigits b n) = n := by
  induction n using Nat.strongRecOn with
  | ind n ih =>
    rcases lt_or_ge n b with hn | hn
    · rw [Nat.toDigits_of_lt_base hn]
      simp [value, digitVal_digitChar (hn.trans_le hb')]
    · -- all digits but the last one are those of the quotient
      have hlast : n % b < 16 := (Nat.mod_lt n (by omega)).trans_le hb'
      rw [Nat.toDigits_of_base_le hb hn, value_append,
        ih (n / b) (Nat.div_lt_self (by omega) hb), digitVal_digitChar hlast, Option.getD_some,
        Nat.div_add_mod]

theorem isNumeral_toDigits (n : ℕ) : IsNumeral b (Nat.toDigits b n) := by
  refine ⟨Nat.toDigits_ne_nil, ?_⟩
  induction n using Nat.strongRecOn with
  | ind n ih =>
    rcases lt_or_ge n b with hn | hn
    · rw [Nat.toDigits_of_lt_base hn]
      simp [isDigit_digitChar hb' hn]
    · rw [Nat.toDigits_of_base_le hb hn]
      intro c hc
      rcases List.mem_append.mp hc with hc | hc
      · exact ih (n / b) (Nat.div_lt_self (by omega) hb) c hc
      · rw [List.mem_singleton.mp hc]
        exact isDigit_digitChar hb' (Nat.mod_lt n (by omega))

end

theorem value_decimal (n : ℕ) : value 10 (Nat.toDigits 10 n) = n :=
  value_toDigits (by omega) (by omega) n

theorem isNumeral_decimal (n : ℕ) : IsNumeral 10 (Nat.toDigits 10 n) :=
  isNumeral_toDigits (by omega) (by omega) n

/-- A number printed with leading zeros is a numeral of the same value. -/
theorem isNumeral_padLeft {b : ℕ} (hb : 0 < b) {text : List Char} (h : IsNumeral b text)
    (width : ℕ) : IsNumeral b (padLeft width '0' text) := by
  refine ⟨by simp [padLeft, h.ne_nil], fun c hc => ?_⟩
  rcases List.mem_append.mp hc with hc | hc
  · rw [List.eq_of_mem_replicate hc]
    simp [isDigit, digitVal, hb]
  · exact h.digits c hc

theorem value_padLeft (b width : ℕ) (text : List Char) :
    value b (padLeft width '0' text) = value b text :=
  value_zeros_append b _ text

/-! ### Reading a numeral -/

section

variable {b : ℕ} {text : List Char} (h : IsNumeral b text) {rest : List Char}
  (hrest : ∀ c ∈ rest.head?, isDigit b c = false)

include h hrest

theorem takeWhile_isDigit_append : (text ++ rest).takeWhile (isDigit b) = text := by
  rw [List.takeWhile_append_of_pos h.digits]
  cases rest with
  | nil => simp
  | cons c rest => simp [hrest c rfl]

theorem dropWhile_isDigit_append : (text ++ rest).dropWhile (isDigit b) = rest := by
  rw [List.dropWhile_append_of_pos h.digits]
  cases rest with
  | nil => simp
  | cons c rest => simp [hrest c rfl]

end

theorem IsNumeral.exists_cons {b : ℕ} {text : List Char} (h : IsNumeral b text) :
    ∃ c cs, text = c :: cs ∧ isDigit b c = true := by
  obtain ⟨c, cs, rfl⟩ := List.exists_cons_of_ne_nil h.ne_nil
  exact ⟨c, cs, rfl, h.digits c (by simp)⟩

theorem IsNumeral.not_mem {b : ℕ} {text : List Char} (h : IsNumeral b text) {c : Char}
    (hc : digitVal c = none) : c ∉ text := by
  intro hmem
  have hdigit := h.digits c hmem
  rw [not_isDigit_of_digitVal hc] at hdigit
  cases hdigit

end SagePTE.Numerals
