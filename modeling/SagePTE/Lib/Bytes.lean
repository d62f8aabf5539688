import Mathlib.Algebra.Order.Ring.Nat
import Mathlib.Data.List.Basic

/-!
# Records of bytes

Numbers written with their lowest byte first, files that are read record by
record, and texts in UTF-8.

## Main definitions

* `Bytes.toLe`, `Bytes.fromLe` — a number as bytes
* `Bytes.records` — the complete records of a file
* `Bytes.validUtf8` — the bytes are a text in UTF-8

## Main results

* `Bytes.fromLe_toLe` — a number that fits is read back
* `Bytes.records_flatten` — a file of records
* `Bytes.validUtf8_append_cons` — a text around a one-byte character
-/

set_option autoImplicit false

namespace SagePTE.Bytes

abbrev Byte := BitVec 8

/-- The low bytes of a number, lowest first. -/
def toLe : ℕ → ℕ → List Byte
  | 0, _ => []
  | k + 1, n => BitVec.ofNat 8 n :: toLe k (n / 256)

/-- The number that bytes stand for. -/
def fromLe : List Byte → ℕ
  | [] => 0
  | b :: bytes => b.toNat + 256 * fromLe bytes

@[simp] theorem length_toLe (k n : ℕ) : (toLe k n).length = k := by
  induction k generalizing n with
  | zero => rfl
  | succ k ih => simp [toLe, ih]

theorem fromLe_toLe {k n : ℕ} (h : n < 256 ^ k) : fromLe (toLe k n) = n := by
  induction k generalizing n with
  | zero =>
    rw [pow_zero, Nat.lt_one_iff] at h
    rw [h]
    rfl
  | succ k ih =>
    rw [pow_succ, mul_comm] at h
    rw [toLe, fromLe, ih (Nat.div_lt_of_lt_mul h), BitVec.toNat_ofNat]
    exact Nat.mod_add_div n 256

/-! ### Files of records -/

/-- The complete records of a file, at most as many as asked for. -/
def takeRecords (size : ℕ) : ℕ → List Byte → List (List Byte)
  | 0, _ => []
  | n + 1, bytes =>
    if size ≤ bytes.length then bytes.take size :: takeRecords size n (bytes.drop size) else []

/-- All complete records of a file. -/
def records (size : ℕ) (bytes : List Byte) : List (List Byte) :=
  takeRecords size bytes.length bytes

theorem takeRecords_flatten {size n : ℕ} (hsize : 0 < size) {rs : List (List Byte)}
    (hrs : ∀ r ∈ rs, r.length = size) (hn : rs.length ≤ n) :
    takeRecords size n rs.flatten = rs := by
  induction rs generalizing n with
  | nil =>
    cases n with
    | zero => rfl
    | succ n => simp [takeRecords, hsize.ne']
  | cons r rs ih =>
    rw [List.forall_mem_cons] at hrs
    obtain ⟨n, rfl⟩ : ∃ m, n = m + 1 := ⟨n - 1, by rw [List.length_cons] at hn; omega⟩
    rw [List.length_cons] at hn
    simp [takeRecords, hrs.1, ih hrs.2 (Nat.le_of_succ_le_succ hn)]

theorem length_le_length_flatten {size : ℕ} (hsize : 0 < size) {rs : List (List Byte)}
    (hrs : ∀ r ∈ rs, r.length = size) : rs.length ≤ rs.flatten.length := by
  induction rs with
  | nil => simp
  | cons r rs ih =>
    rw [List.forall_mem_cons] at hrs
    have hrest := ih hrs.2
    rw [List.flatten_cons, List.length_append, List.length_cons, hrs.1]
    omega

theorem records_flatten {size : ℕ} (hsize : 0 < size) {rs : List (List Byte)}
    (hrs : ∀ r ∈ rs, r.length = size) : records size rs.flatten = rs :=
  takeRecords_flatten hsize hrs (length_le_length_flatten hsize hrs)

/-- A file of records from one of them on. -/
theorem drop_flatten_of_length {size : ℕ} {rs : List (List Byte)} (hrs : ∀ r ∈ rs, r.length = size)
    (k : ℕ) : rs.flatten.drop (size * k) = (rs.drop k).flatten := by
  induction rs generalizing k with
  | nil => simp
  | cons r rs ih =>
    rw [List.forall_mem_cons] at hrs
    cases k with
    | zero => rfl
    | succ k =>
      rw [List.flatten_cons, List.drop_succ_cons, Nat.mul_succ, Nat.add_comm, ← List.drop_drop,
        List.drop_left' hrs.1, ih hrs.2]

theorem length_flatten_of_length {size : ℕ} {rs : List (List Byte)}
    (hrs : ∀ r ∈ rs, r.length = size) : rs.flatten.length = size * rs.length := by
  rw [List.length_flatten, List.map_congr_left hrs, List.map_const', List.sum_replicate_nat,
    Nat.mul_comm]

/-- Two bytes stand for a small number. -/
theorem fromLe_pair_eq_iff {b₀ b₁ : Byte} {n : ℕ} (hn : n < 256) :
    fromLe [b₀, b₁] = n ↔ b₀ = BitVec.ofNat 8 n ∧ b₁ = 0 := by
  have h₀ := b₀.isLt
  have h₁ := b₁.isLt
  have hzero : (0 : Byte).toNat = 0 := rfl
  simp only [fromLe, ← BitVec.toNat_inj, BitVec.toNat_ofNat, hzero]
  omega

/-- The first record of a file that is long enough. -/
theorem exists_records_eq_cons {size : ℕ} (hsize : 0 < size) {bytes : List Byte}
    (h : size ≤ bytes.length) : ∃ rest, records size bytes = bytes.take size :: rest := by
  obtain ⟨n, hn⟩ : ∃ n, bytes.length = n + 1 := ⟨bytes.length - 1, by omega⟩
  exact ⟨takeRecords size n (bytes.drop size), by rw [records, hn, takeRecords, if_pos h]⟩

/-! ### UTF-8 -/

/-- The ranges of the bytes that follow the first byte of a character. -/
def utf8Lead (b : Byte) : Option (List (ℕ × ℕ)) :=
  if b.toNat < 0x80 then some []
  else if b.toNat < 0xC2 then none
  else if b.toNat < 0xE0 then some [(0x80, 0xBF)]
  -- no overlong forms
  else if b.toNat = 0xE0 then some [(0xA0, 0xBF), (0x80, 0xBF)]
  -- no surrogates
  else if b.toNat = 0xED then some [(0x80, 0x9F), (0x80, 0xBF)]
  else if b.toNat < 0xF0 then some [(0x80, 0xBF), (0x80, 0xBF)]
  else if b.toNat = 0xF0 then some [(0x90, 0xBF), (0x80, 0xBF), (0x80, 0xBF)]
  else if b.toNat < 0xF4 then some [(0x80, 0xBF), (0x80, 0xBF), (0x80, 0xBF)]
  -- up to the last code point
  else if b.toNat = 0xF4 then some [(0x80, 0x8F), (0x80, 0xBF), (0x80, 0xBF)]
  else none

/-- One byte, with the ranges of the bytes the present character still lacks. -/
def utf8Step : List (ℕ × ℕ) → Byte → Option (List (ℕ × ℕ))
  | [], b => utf8Lead b
  | (low, high) :: pending, b =>
    if low ≤ b.toNat ∧ b.toNat ≤ high then some pending else none

/-- The bytes are a sequence of complete characters. -/
def validUtf8 (bytes : List Byte) : Bool := bytes.foldlM utf8Step [] = some []

theorem le_of_utf8Step {pending pending' : List (ℕ × ℕ)} {b : Byte}
    (hpending : ∀ range ∈ pending, 0x80 ≤ range.1) (h : utf8Step pending b = some pending') :
    ∀ range ∈ pending', 0x80 ≤ range.1 := by
  cases pending with
  | nil =>
    rw [utf8Step, utf8Lead] at h
    split_ifs at h <;> obtain rfl := Option.some.inj h <;> decide
  | cons range pending =>
    rw [utf8Step] at h
    split_ifs at h with hrange
    obtain rfl := Option.some.inj h
    exact fun later hlater => hpending later (List.mem_cons_of_mem range hlater)

theorem le_of_foldlM_utf8Step {pending pending' : List (ℕ × ℕ)} {bytes : List Byte}
    (hpending : ∀ range ∈ pending, 0x80 ≤ range.1)
    (h : bytes.foldlM utf8Step pending = some pending') :
    ∀ range ∈ pending', 0x80 ≤ range.1 := by
  induction bytes generalizing pending with
  | nil =>
    obtain rfl := Option.some.inj h
    exact hpending
  | cons b bytes ih =>
    rw [List.foldlM_cons] at h
    obtain ⟨next, hnext, hrest⟩ := Option.bind_eq_some_iff.1 h
    exact ih (le_of_utf8Step hpending hnext) hrest

/-- A one-byte character is a character of its own wherever it stands. -/
theorem validUtf8_append_cons {b : Byte} (hb : b.toNat < 0x80) (x y : List Byte) :
    validUtf8 (x ++ b :: y) = (validUtf8 x && validUtf8 y) := by
  rw [Bool.eq_iff_iff, Bool.and_eq_true, validUtf8, validUtf8, validUtf8, decide_eq_true_iff,
    decide_eq_true_iff, decide_eq_true_iff, List.foldlM_append]
  cases hx : x.foldlM utf8Step [] with
  | none => simp
  | some pending =>
    cases pending with
    | nil =>
      have hlead : utf8Lead b = some [] := if_pos hb
      simp [utf8Step, hlead]
    | cons range pending =>
      have hlow := le_of_foldlM_utf8Step (fun _ h => absurd h List.not_mem_nil) hx range
        List.mem_cons_self
      have hstep : utf8Step (range :: pending) b = none := if_neg (by omega)
      simp [hstep]

end SagePTE.Bytes
