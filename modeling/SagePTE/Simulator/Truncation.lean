import SagePTE.Simulator.TraceFile

/-!
# Truncated trace files

An interrupted conversion leaves a part of a trace file. Both `file_reader_t::is_complete`
and `trace_is_complete` of the conversion script look for the type of the footer 20 bytes
before the end of the file. A file that is cut at the end of a record is told apart from a
complete one. Where the cut is inside a record, the two bytes are from the middle of the
record before.

## Main definitions

* `isComplete`, `traceIsComplete` — the two checks
* `CompleteFile` — a header, records and the only footer

## Main results

* `traceIsComplete_eq` — the checks agree
* `CompleteFile.isComplete_take_of_dvd` — cuts between records
* `CompleteFile.truncation_detected_iff` — all cuts
-/

set_option autoImplicit false

namespace SagePTE.Simulator

open Bytes

/-! ### The checks -/

/-- `TRACE_TYPE_FOOTER`. -/
def footerType : ℕ := TraceType.footer.ctorIdx

/-- `file_reader_t::is_complete` for a file that is open. The seek fails in a file that is
shorter than a record, and the read after it. -/
def isComplete (bytes : List Byte) : Bool :=
  if bytes.length < entrySize then false
  else fromLe ((bytes.drop (bytes.length - entrySize)).take 2) == footerType

/-- `trace_is_complete` of the script, which compares what `od` prints. -/
def traceIsComplete (bytes : List Byte) : Bool :=
  if bytes = [] then false
  else if bytes.length < entrySize then false
  else
    let last := bytes.drop (bytes.length - entrySize)
    Nat.toDigits 10 (fromLe (last.take 2)) == ['5', '6']

/-- The text that the script compares with is the type of the footer. -/
theorem toDigits_eq_footer_iff (n : ℕ) : Nat.toDigits 10 n = ['5', '6'] ↔ n = footerType := by
  constructor
  · intro h
    have hn := congrArg (Nat.ofDigitChars 10 · 0) h
    rw [Nat.ofDigitChars_toDigits (by decide) (by decide)] at hn
    exact hn
  · rintro rfl
    decide

theorem traceIsComplete_eq (bytes : List Byte) : traceIsComplete bytes = isComplete bytes := by
  rw [traceIsComplete, isComplete]
  by_cases hnil : bytes = []
  · rw [if_pos hnil, hnil]
    rfl
  · rw [if_neg hnil, Bool.eq_iff_iff]
    by_cases hlen : bytes.length < entrySize
    · rw [if_pos hlen, if_pos hlen]
    · rw [if_neg hlen, if_neg hlen, beq_iff_eq, beq_iff_eq]
      exact toDigits_eq_footer_iff _

/-! ### Prefixes -/

/-- The two bytes of the footer's type at a position of a file. -/
def FooterAt (bytes : List Byte) (p : ℕ) : Prop :=
  bytes[p]? = some 0x38 ∧ bytes[p + 1]? = some 0

instance (bytes : List Byte) (p : ℕ) : Decidable (FooterAt bytes p) :=
  inferInstanceAs (Decidable (_ ∧ _))

theorem fromLe_eq_footer_iff {bytes : List Byte} {p : ℕ} (hp : p + 1 < bytes.length) :
    fromLe ((bytes.drop p).take 2) = footerType ↔ FooterAt bytes p := by
  have hpair : (bytes.drop p).take 2 = [bytes[p], bytes[p + 1]] := by
    rw [List.drop_eq_getElem_cons (by omega), List.drop_eq_getElem_cons hp]
    rfl
  rw [hpair, fromLe_pair_eq_iff (by decide), FooterAt, List.getElem?_eq_getElem (by omega),
    List.getElem?_eq_getElem hp, Option.some_inj, Option.some_inj]
  exact Iff.rfl

/-- The first bytes of a file are taken for a complete one. -/
theorem isComplete_take_iff {bytes : List Byte} {n : ℕ} (hn : n ≤ bytes.length) :
    isComplete (bytes.take n) = true ↔ ∃ p, n = p + entrySize ∧ FooterAt bytes p := by
  have hlen : (bytes.take n).length = n := List.length_take_of_le hn
  rw [isComplete, hlen]
  by_cases hshort : n < entrySize
  · rw [if_pos hshort]
    refine ⟨fun h => absurd h Bool.false_ne_true, ?_⟩
    rintro ⟨p, rfl, -⟩
    omega
  · obtain ⟨p, rfl⟩ : ∃ p, n = p + entrySize := ⟨n - entrySize, by omega⟩
    have hentry : entrySize = 20 := rfl
    rw [if_neg hshort, beq_iff_eq, Nat.add_sub_cancel, List.drop_take, List.take_take,
      Nat.min_eq_left (by omega), fromLe_eq_footer_iff (by omega)]
    refine ⟨fun h => ⟨p, rfl, h⟩, ?_⟩
    rintro ⟨q, hq, h⟩
    rwa [Nat.add_right_cancel hq]

/-! ### Complete files -/

/-- The type field of a record. -/
def entryType (record : List Byte) : ℕ := fromLe (record.take 2)

/-- A complete file: a header, any records but a footer, and a footer. -/
structure CompleteFile where
  header : List Byte
  body : List (List Byte)
  footer : List Byte
  length_record : ∀ r ∈ header :: (body ++ [footer]), r.length = entrySize
  type_header : entryType header = TraceType.header.ctorIdx
  type_body : ∀ r ∈ body, entryType r ≠ footerType
  type_footer : entryType footer = footerType

namespace CompleteFile

variable (f : CompleteFile)

def entries : List (List Byte) := f.header :: (f.body ++ [f.footer])

def bytes : List Byte := f.entries.flatten

theorem length_bytes : f.bytes.length = 20 * (f.body.length + 2) := by
  rw [bytes, entries, length_flatten_of_length f.length_record]
  simp [entrySize]

/-- A complete file is taken for one. -/
theorem isComplete_bytes : isComplete f.bytes = true := by
  have hfooter : f.bytes.drop (f.bytes.length - entrySize) = f.footer := by
    have hsub : f.bytes.length - entrySize = entrySize * (f.body.length + 1) := by
      rw [f.length_bytes, entrySize, Nat.mul_succ 20 (f.body.length + 1), Nat.add_sub_cancel]
    rw [hsub, bytes, entries, drop_flatten_of_length f.length_record]
    simp
  rw [isComplete, if_neg, hfooter, beq_iff_eq]
  · exact f.type_footer
  · rw [f.length_bytes, entrySize]
    omega

/-- No record but the last starts with the footer's type. -/
theorem not_footerAt_of_dvd {p : ℕ} (hdvd : entrySize ∣ p) (hp : p + entrySize < f.bytes.length) :
    ¬ FooterAt f.bytes p := by
  obtain ⟨k, rfl⟩ := hdvd
  rw [f.length_bytes, entrySize] at hp
  have hk : k < (f.header :: f.body).length := by
    rw [List.length_cons]
    omega
  have hmem : (f.header :: f.body)[k] ∈ f.header :: f.body := List.getElem_mem hk
  have hrec : ((f.bytes.drop (entrySize * k)).take 2) = ((f.header :: f.body)[k]).take 2 := by
    have hlen : ((f.header :: f.body)[k]).length = 20 :=
      f.length_record _ (List.mem_append_left [f.footer] hmem)
    rw [bytes, entries, drop_flatten_of_length f.length_record, ← List.cons_append,
      List.drop_append_of_le_length hk.le, List.drop_eq_getElem_cons hk, List.cons_append,
      List.flatten_cons, List.take_append_of_le_length (by omega)]
  rw [← fromLe_eq_footer_iff (by rw [f.length_bytes, entrySize]; omega), hrec]
  rcases List.mem_cons.1 hmem with hheader | hbody
  · rw [hheader]
    intro htype
    exact absurd (f.type_header.symm.trans htype) (by decide)
  · exact f.type_body _ hbody

/-- A file that is cut between two records is not taken for a complete one. -/
theorem isComplete_take_of_dvd {n : ℕ} (hdvd : entrySize ∣ n) (hn : n < f.bytes.length) :
    isComplete (f.bytes.take n) = false := by
  rw [← Bool.not_eq_true, isComplete_take_iff hn.le]
  rintro ⟨p, rfl, hfooter⟩
  exact f.not_footerAt_of_dvd ((Nat.dvd_add_left (dvd_refl entrySize)).1 hdvd) hn hfooter

/-- Cut files are told apart from the complete one where no record has the two bytes of the
footer's type inside, or at its border with the next. -/
theorem truncation_detected_iff (f : CompleteFile) :
    (∀ n < f.bytes.length,
        isComplete (f.bytes.take n) = false ∧ traceIsComplete (f.bytes.take n) = false) ↔
      ∀ p, ¬ entrySize ∣ p → p + entrySize < f.bytes.length → ¬ FooterAt f.bytes p := by
  simp only [traceIsComplete_eq, and_self]
  constructor
  · intro hdetected p _ hp hfooter
    have hcut := hdetected (p + entrySize) hp
    rw [← Bool.not_eq_true, isComplete_take_iff hp.le] at hcut
    exact hcut ⟨p, rfl, hfooter⟩
  · intro hnone n hn
    rw [← Bool.not_eq_true, isComplete_take_iff hn.le]
    rintro ⟨p, rfl, hfooter⟩
    by_cases hdvd : entrySize ∣ p
    · exact f.not_footerAt_of_dvd hdvd hn hfooter
    · exact hnone p hdvd hn hfooter

/-- Two reads, of which the first is at an address that ends in `0x0038`. -/
def twoReads : CompleteFile where
  header := simulatorRecord ⟨.header, 0, traceEntryVersion⟩ 0
  body :=
    [simulatorRecord ⟨.read, 8, 0x7f5a00010038⟩ 0, simulatorRecord ⟨.read, 8, 0x7f5a00020040⟩ 0]
  footer := simulatorRecord ⟨.footer, 0, 0⟩ 0
  length_record := by decide
  type_header := by decide
  type_body := by decide
  type_footer := by decide

/-- The second read is cut off after its size, and the address of the first is taken for the
type of a footer. -/
theorem truncated_twoReads_accepted :
    44 < twoReads.bytes.length ∧ isComplete (twoReads.bytes.take 44) = true ∧
      traceIsComplete (twoReads.bytes.take 44) = true := by
  decide +kernel

end CompleteFile

end SagePTE.Simulator
