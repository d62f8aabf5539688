import Mathlib.Data.Nat.Digits.Defs
import SagePTE.PageTables.Translator

/-!
# The text of the translator's output file

The output file prints a header and then one line for each entry of the array. However
it is read, the text is the same.

## Main definitions

* `Translator.outputText` — the header and the lines of the entries

## Main results

* `not_mem_fields` — the separators are in no field
* `Translator.output_delivers` — the file comes to its end, with this text
* `Translator.output_reading` — every way of reading it
-/

set_option autoImplicit false

namespace SagePTE.PageTables

open Numerals Scan Lines SeqFile

/-! ### Printed numbers -/

theorem isNumeral_hexText (v : BitVec 64) : IsNumeral 16 (hexText v) :=
  isNumeral_toDigits (by omega) (by omega) v.toNat

@[simp] theorem value_hexText (v : BitVec 64) : value 16 (hexText v) = v.toNat :=
  value_toDigits (by omega) (by omega) v.toNat

/-- A printed number is read as it was printed. -/
theorem unsignedValue_hexText (v : BitVec 64) : unsignedValue false (value 16 (hexText v)) = v := by
  rw [value_hexText, unsignedValue_of_lt v.isLt, BitVec.ofNat_toNat, BitVec.setWidth_eq]

theorem hexText_injective {a b : BitVec 64} (h : hexText a = hexText b) : a = b := by
  apply BitVec.eq_of_toNat_eq
  rw [← value_hexText a, ← value_hexText b, h]

theorem length_hexText_le (v : BitVec 64) : (hexText v).length ≤ 16 :=
  (Nat.length_toDigits_le_iff (by omega) (by omega)).mpr v.isLt

theorem not_mem_intText {c : Char} (hc : digitVal c = none) (hminus : c ≠ '-') (n : ℤ) :
    c ∉ intText n := by
  have hdigits := (isNumeral_decimal n.natAbs).not_mem hc
  unfold intText
  split
  · simp [hminus, hdigits]
  · exact hdigits

theorem intText_injective {m n : ℤ} (h : intText m = intText n) : m = n := by
  have hdigits : ∀ {a b : ℕ}, Nat.toDigits 10 a = Nat.toDigits 10 b → a = b := fun {a b} hab => by
    rw [← value_decimal a, ← value_decimal b, hab]
  have hminus : ∀ a : ℕ, '-' ∉ Nat.toDigits 10 a := fun a => (isNumeral_decimal a).not_mem rfl
  unfold intText at h
  split at h <;> split at h
  · have := hdigits (List.cons.inj h).2
    omega
  · exact absurd (h ▸ List.mem_cons_self) (hminus n.natAbs)
  · exact absurd (h.symm ▸ List.mem_cons_self) (hminus m.natAbs)
  · have := hdigits h
    omega

theorem intText_natCast (n : ℕ) : intText n = Nat.toDigits 10 n := by
  rw [intText, if_neg (by omega), Int.natAbs_natCast]

/-! ### Fields -/

theorem pfnText_cases (pfn : BitVec 64) :
    pfnText pfn = ['N', 'A', 'N'] ∨ pfnText pfn = hexText pfn := by
  unfold pfnText
  split
  · exact .inl rfl
  · exact .inr rfl

/-- A field is a number, or `NAN` after the first one. -/
theorem mem_fields {e : Translation} {field : List Char} (h : field ∈ e.fields) :
    field = ['N', 'A', 'N'] ∨ ∃ v, field = hexText v := by
  simp only [Translation.fields, List.mem_cons, List.not_mem_nil, or_false] at h
  rcases h with rfl | rfl | rfl | rfl | rfl | rfl
  · exact .inr ⟨_, rfl⟩
  all_goals exact (pfnText_cases _).imp_right fun h => ⟨_, h⟩

theorem not_mem_fields {c : Char} (hc : digitVal c = none) (hN : c ≠ 'N') (e : Translation) :
    ∀ field ∈ e.fields, c ∉ field := by
  intro field hfield
  have hA : c ≠ 'A' := by
    rintro rfl
    cases hc
  rcases mem_fields hfield with rfl | ⟨v, rfl⟩
  · simp [hN, hA]
  · exact (isNumeral_hexText v).not_mem hc

theorem length_fields_le {e : Translation} {field : List Char} (h : field ∈ e.fields) :
    field.length ≤ 16 := by
  rcases mem_fields h with rfl | ⟨v, rfl⟩
  · decide
  · exact length_hexText_le v

/-! ### The file -/

namespace Translator

variable {t : Translator}

/-- The header and the lines of the entries. -/
def outputText (t : Translator) : List Char :=
  unlines '\n' (intText t.guestPid :: t.entries.map fun e => commaLine e.fields)

theorem outputShow_entry (e : Translation) :
    t.outputShow (.entry e) = unlines '\n' [commaLine e.fields] := by
  simp [outputShow, commaLine]

theorem outputNext_index (v : OutputItem) (pos : ℕ) : (t.outputNext v pos).2 = pos + 1 := by
  cases v <;> simp only [outputNext] <;> split_ifs <;> rfl

/-- The cursor is found again from the index. -/
theorem output_restartable (t : Translator) : t.outputOps.Restartable := by
  intro pos v hv
  show t.outputStart (t.outputNext v pos).2 = (t.outputNext v pos).1
  change t.outputStart pos = some v at hv
  rw [outputNext_index]
  cases pos with
  | zero =>
    -- behind the header
    obtain rfl : .pid = v := Option.some.inj hv
    by_cases hnone : t.translationEntries = none ∨ t.entryCount = 0
    · simp [outputStart, outputNext, hnone]
    · have hcount : ¬t.entryCount ≤ 0 := fun hle => hnone (.inr (Nat.le_zero.mp hle))
      simp [outputStart, outputNext, hnone, hcount]
  | succ pos =>
    simp only [outputStart, Nat.succ_ne_zero, if_false] at hv
    split_ifs at hv with hnone hlast
    obtain rfl := Option.some.inj hv
    by_cases hend : t.entryCount ≤ pos + 1 <;> simp [outputStart, outputNext, hnone, hend]

/-- The entries from the `i`-th on. -/
theorem output_delivers_from (hlen : (t.translationEntries.getD []).length = t.entryCount)
    (n : ℕ) {i : ℕ} (hi : i + n = t.entryCount) :
    Delivers t.outputOps (i + 1) n
      (unlines '\n' ((t.entries.drop i).map fun e => commaLine e.fields)) := by
  have hentries : t.entries = t.translationEntries.getD [] := by
    rw [entries, ← hlen, List.take_length]
  induction n generalizing i with
  | zero =>
    have hdrop : t.entries.drop i = [] := by
      rw [hentries]
      exact List.drop_of_length_le (by omega)
    rw [hdrop]
    refine .nil ?_
    simp only [outputOps, outputStart]
    split_ifs <;> first | rfl | omega
  | succ n ih =>
    -- the cursor at `i + 1` stands for the entry `i`, because position 0 is the header
    have hlt : i < (t.translationEntries.getD []).length := by omega
    have hsome : ¬(t.translationEntries = none ∨ t.entryCount = 0) := by
      rintro (hnone | hzero)
      · simp [hnone] at hlt
      · omega
    have hget : (t.translationEntries.getD []).getD i .zero = (t.translationEntries.getD [])[i] :=
      (List.getElem_eq_getD _).symm
    have hdrop : t.entries.drop i =
        (t.translationEntries.getD [])[i] :: t.entries.drop (i + 1) := by
      rw [hentries]
      exact List.drop_eq_getElem_cons hlt
    have hadvance : t.outputOps.advance (i + 1) =
        some (unlines '\n' [commaLine (t.translationEntries.getD [])[i].fields], i + 1 + 1) := by
      have hstart : t.outputOps.start (i + 1) =
          some (.entry (t.translationEntries.getD [])[i]) := by
        simp only [outputOps, outputStart, hsome, if_false, Nat.add_sub_cancel, hget,
          Nat.succ_ne_zero, if_neg (by omega : ¬t.entryCount ≤ i)]
      rw [SeqOps.advance, hstart, Option.map_some]
      simp only [outputOps, outputShow_entry, outputNext_index]
    have hall := Delivers.cons hadvance (ih (i := i + 1) (by omega))
    rw [← unlines_append, List.singleton_append] at hall
    rw [hdrop, List.map_cons]
    exact hall

theorem advance_header : t.outputOps.advance 0 = some (intText t.guestPid ++ ['\n'], 1) := by
  simp only [SeqOps.advance, outputOps, outputStart, if_true, Option.map_some, outputShow,
    outputNext_index]

/-- The output file is the header and one line for each entry. -/
theorem output_delivers (hlen : (t.translationEntries.getD []).length = t.entryCount) :
    Delivers t.outputOps 0 (t.entryCount + 1) t.outputText := by
  have hall := Delivers.cons advance_header
    (output_delivers_from hlen t.entryCount (Nat.zero_add _))
  rwa [List.drop_zero, List.append_assoc, List.singleton_append, ← unlines_cons] at hall

/-- Without an array only the header is printed, whatever `entry_count` says. -/
theorem output_delivers_of_slots
    (hslots : ∀ slots, t.translationEntries = some slots → slots.length = t.entryCount) :
    Delivers t.outputOps 0 (t.entries.length + 1) t.outputText := by
  cases hnone : t.translationEntries with
  | some slots =>
    have hlen : (t.translationEntries.getD []).length = t.entryCount := by
      rw [hnone]
      exact hslots slots hnone
    have hcount : t.entries.length = t.entryCount := by
      rw [entries, ← hlen, List.take_length]
    rw [hcount]
    exact output_delivers hlen
  | none =>
    have hentries : t.entries = [] := by simp [entries, hnone]
    have hend : t.outputOps.start 1 = none := by simp [outputOps, outputStart, hnone]
    have hall := Delivers.cons advance_header (Delivers.nil hend)
    rw [hentries, outputText, hentries]
    simpa using hall

/-- What has been read when the output file ends. -/
theorem output_reading (hlen : (t.translationEntries.getD []).length = t.entryCount) {r k : ℕ}
    {out : List Char} {c : Cursor ℕ OutputItem} (hread : Reading t.outputOps 0 r k out c)
    (hend : t.outputOps.start c.index = none) : out = t.outputText :=
  ((output_delivers hlen).reading t.output_restartable hread).2.2.2 hend

end Translator

end SagePTE.PageTables
