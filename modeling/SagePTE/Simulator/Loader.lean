import SagePTE.Lib.Lines
import SagePTE.Lib.Scan
import SagePTE.Simulator.Walk

/-!
# Loading page tables

The constructor of the cache simulator reads the guest table and the host table with
`fscanf`: a record count, and then as many records of six hexadecimal numbers. The
results of the calls are not looked at. Where a record does not parse, the fields that
were not assigned keep what `tmp` had before, which for `VA` and `PA` is whatever
the memory held, and the record is inserted all the same.

## Main definitions

* `loadPageTable` — one file

## Main results

* `loadPageTable_unlines`, `loadPageTable_all` — a file of records that all parse
-/

set_option autoImplicit false

namespace SagePTE.Simulator

open Numerals Scan Lines

/-- The fields that the constructor of `page_table_info_t` leaves unset. -/
structure Unset where
  va : BitVec 64
  pa : BitVec 64

/-- One round of the loop: the key and the record to insert, and the rest of the file.
The newline of the format skips spaces, after all six conversions. -/
def readRecord (unset : Unset) (text : List Char) : (BitVec 64 × PageTableInfo) × List Char :=
  let (vs, rest) := commaFields libcHex 6 text
  ((vs.getD 0 unset.va,
      ⟨vs.getD 1 0, vs.getD 2 0, vs.getD 3 0, vs.getD 4 0, vs.getD 5 unset.pa⟩),
    if vs.length = 6 then rest.dropWhile isSpace else rest)

/-- The loop, with the number of rounds left. -/
def readRecords (unset : ℕ → Unset) : ℕ → List Char → List (BitVec 64 × PageTableInfo)
  | 0, _ => []
  | n + 1, text =>
    let (record, rest) := readRecord (unset n) text
    record :: readRecords unset n rest

/-- The loading of one file. A count that cannot be read stays zero. -/
def loadPageTable (unset : ℕ → Unset) (text : List Char) : PageTable :=
  match libcInt text with
  | (none, rest) => .ofList (readRecords unset 0 rest)
  | (some count, rest) => .ofList (readRecords unset count.toNat (rest.dropWhile isSpace))

/-! ### Files of records that parse -/

/-- A record line that parses: six numerals. -/
structure IsRecord (fields : List (List Char)) : Prop where
  length : fields.length = 6
  numeral : ∀ field ∈ fields, IsNumeral 16 field

/-- The value of a field of a record line. -/
def fieldValue (fields : List (List Char)) (i : ℕ) : BitVec 64 :=
  unsignedValue false (value 16 (fields.getD i []))

/-- The key and the record of a line that parses. -/
def lineRecord (fields : List (List Char)) : BitVec 64 × PageTableInfo :=
  (fieldValue fields 0, ⟨fieldValue fields 1, fieldValue fields 2, fieldValue fields 3,
    fieldValue fields 4, fieldValue fields 5⟩)

theorem IsRecord.head_not_space {fields : List (List Char)} (h : IsRecord fields)
    (rest : List Char) :
    (commaLine fields ++ rest).dropWhile isSpace = commaLine fields ++ rest := by
  obtain ⟨field, fields, rfl⟩ := List.exists_cons_of_ne_nil
    (List.ne_nil_of_length_eq_add_one h.length)
  have hfield := h.numeral field (by simp)
  cases fields with
  | nil => simpa [commaLine] using (dropWhile_space_append hfield rest).2
  | cons field' fields =>
    rw [commaLine_cons_cons, List.append_assoc]
    exact (dropWhile_space_append hfield _).2

theorem dropWhile_isSpace_unlines {rows : List (List (List Char))}
    (hrows : ∀ fields ∈ rows, IsRecord fields) :
    (unlines '\n' (rows.map commaLine)).dropWhile isSpace =
      unlines '\n' (rows.map commaLine) := by
  cases rows with
  | nil => rfl
  | cons fields rows =>
    rw [List.map_cons, unlines_cons]
    exact (hrows fields (by simp)).head_not_space _

/-- One round on a line that parses. -/
theorem readRecord_append (unset : Unset) {fields : List (List Char)} (h : IsRecord fields)
    (rest : List Char) :
    readRecord unset (commaLine fields ++ '\n' :: rest) =
      (lineRecord fields, rest.dropWhile isSpace) := by
  have hreads : List.Forall₂ (Reads libcHex) fields
      (fields.map fun field => unsignedValue false (value 16 field)) := by
    rw [List.forall₂_map_right_iff, List.forall₂_same]
    exact fun field hfield => libcHex_reads (h.numeral field hfield)
  have hfields := commaFields_commaLine hreads (endsField_newline rest)
  rw [h.length] at hfields
  have hspace : ('\n' :: rest).dropWhile isSpace = rest.dropWhile isSpace := rfl
  match fields, h.length with
  | [f0, f1, f2, f3, f4, f5], _ =>
    simp only [readRecord, hfields, List.length_map, List.length_cons,
      List.length_nil, hspace]
    rfl

theorem readRecords_unlines (unset : ℕ → Unset) {rows : List (List (List Char))}
    (hrows : ∀ fields ∈ rows, IsRecord fields) {n : ℕ} (hn : n ≤ rows.length) :
    readRecords unset n (unlines '\n' (rows.map commaLine)) = (rows.take n).map lineRecord := by
  induction n generalizing rows with
  | zero => rfl
  | succ n ih =>
    obtain ⟨fields, rows, rfl⟩ := List.exists_cons_of_ne_nil
      (List.ne_nil_of_length_pos (by omega : 0 < rows.length))
    have hrest : ∀ f ∈ rows, IsRecord f := fun f hf => hrows f (by simp [hf])
    -- the newline of the format takes the one of the line, and no more
    rw [List.length_cons] at hn
    rw [List.map_cons, unlines_cons, readRecords, readRecord_append _ (hrows fields (by simp)),
      dropWhile_isSpace_unlines hrest]
    simp only [List.take_succ_cons, List.map_cons]
    rw [ih hrest (by omega)]

/-- A file whose header is a number of records that the file has. -/
theorem loadPageTable_unlines (unset : ℕ → Unset) {header : List Char}
    {rows : List (List (List Char))} (hheader : IsNumeral 10 header)
    (hrows : ∀ fields ∈ rows, IsRecord fields) (hcount : value 10 header ≤ rows.length) :
    loadPageTable unset (unlines '\n' (header :: rows.map commaLine)) =
      .ofList ((rows.take (intValue (value 10 header)).toNat).map lineRecord) := by
  have hspace : ('\n' :: unlines '\n' (rows.map commaLine)).dropWhile isSpace =
      (unlines '\n' (rows.map commaLine)).dropWhile isSpace := rfl
  rw [unlines_cons, loadPageTable, libcInt_append hheader (endsField_newline _)]
  simp only [hspace, dropWhile_isSpace_unlines hrows]
  rw [readRecords_unlines unset hrows ((toNat_intValue_le _).trans hcount)]

/-- A file whose header is the number of its records. -/
theorem loadPageTable_all (unset : ℕ → Unset) {rows : List (List (List Char))}
    (hrows : ∀ fields ∈ rows, IsRecord fields) (hlt : rows.length < 2 ^ 31) :
    loadPageTable unset (unlines '\n' (Nat.toDigits 10 rows.length :: rows.map commaLine)) =
      .ofList (rows.map lineRecord) := by
  have hcount := value_decimal rows.length
  rw [loadPageTable_unlines unset (isNumeral_decimal _) hrows hcount.le, hcount,
    intValue_of_lt hlt, Int.toNat_natCast, List.take_length]

end SagePTE.Simulator
