import SagePTE.PageTables.OutputText
import SagePTE.PageTables.StoreInvariant
import SagePTE.Simulator.Loader

/-!
# The header of the translator's output file

The loader of the simulator reads as many records as the header of a file says. The
header that `output_show` prints is `guest_pid`, the number in the first line of the
dump that was written. It is the number of the entries only by chance: where it is
smaller the loader takes only the first entries.

The augmentor replaces the header, so that a table which went through it is loaded
completely.

## Main definitions

* `Chain.Found`, `Translation.record` — an entry without gaps, and its record

## Main results

* `Translator.served_delivers` — the text of the output file after any requests
* `Translator.output_count_iff` — its header, and what the loader makes of it
-/

set_option autoImplicit false

namespace SagePTE.PageTables

open Numerals Scan Lines SeqFile Simulator

/-! ### Entries without gaps -/

/-- The walk got to all levels. -/
def Chain.Found (c : Chain) : Prop :=
  c.pfn1 ≠ invalidPfn ∧ c.pfn2 ≠ invalidPfn ∧ c.pfn3 ≠ invalidPfn ∧ c.pfn4 ≠ invalidPfn ∧
    c.pfn5 ≠ invalidPfn

/-- The record that the loader is to make of an entry. -/
def Translation.record (e : Translation) : BitVec 64 × PageTableInfo :=
  (e.gpaPfn <<< 12, ⟨e.chain.pfn1, e.chain.pfn2, e.chain.pfn3, e.chain.pfn4, e.chain.pfn5⟩)

theorem Translation.fields_of_found {e : Translation} (he : e.chain.Found) :
    e.fields = [e.gpaPfn <<< 12, e.chain.pfn1, e.chain.pfn2, e.chain.pfn3, e.chain.pfn4,
      e.chain.pfn5].map hexText := by
  obtain ⟨h1, h2, h3, h4, h5⟩ := he
  simp only [fields, pfnText, h1, h2, h3, h4, h5, if_false, List.map_cons, List.map_nil]

theorem Translation.isRecord_fields {e : Translation} (he : e.chain.Found) :
    IsRecord e.fields where
  length := rfl
  numeral field hfield := by
    rw [fields_of_found he] at hfield
    obtain ⟨v, -, rfl⟩ := List.mem_map.mp hfield
    exact isNumeral_hexText v

theorem Translation.lineRecord_fields {e : Translation} (he : e.chain.Found) :
    lineRecord e.fields = e.record := by
  simp only [lineRecord, fieldValue, fields_of_found he, List.map_cons, List.getD_cons_zero,
    List.getD_cons_succ, unsignedValue_hexText]
  rfl

namespace Translator

/-! ### The file after any requests -/

/-- The output file has one line for each entry, through any failures. -/
theorem served_delivers (h : Host) (rs : List (Host × Request)) :
    Delivers (served h rs).outputOps 0 ((served h rs).entries.length + 1)
      (served h rs).outputText :=
  output_delivers_of_slots (served_ledger h rs).length

/-- The header of the output file is the number of its records only if `guest_pid` is. -/
theorem outputText_eq_iff (t : Translator) :
    t.outputText = unlines '\n' (intText t.entries.length ::
        t.entries.map fun e => commaLine e.fields) ↔ t.guestPid = t.entries.length := by
  constructor
  · intro heq
    rw [outputText, unlines_cons, unlines_cons] at heq
    exact intText_injective (List.append_cancel_right heq)
  · intro hpid
    rw [outputText, hpid]

/-- The loader takes as many entries as `guest_pid` says. -/
theorem loadPageTable_outputText {t : Translator} (unset : ℕ → Unset) {n : ℕ}
    (hpid : t.guestPid = n) (hle : n ≤ t.entries.length) (hlt : n < 2 ^ 31)
    (hfound : ∀ e ∈ t.entries, e.chain.Found) :
    loadPageTable unset t.outputText = .ofList ((t.entries.take n).map Translation.record) := by
  have hrows : ∀ fields ∈ t.entries.map Translation.fields, IsRecord fields := by
    intro fields hfields
    obtain ⟨e, he, rfl⟩ := List.mem_map.mp hfields
    exact Translation.isRecord_fields (hfound e he)
  have hlines : (t.entries.map fun e => commaLine e.fields) =
      (t.entries.map Translation.fields).map commaLine := by
    rw [List.map_map]
    rfl
  have hvalue := value_decimal n
  rw [outputText, hpid, intText_natCast, hlines, loadPageTable_unlines unset
    (isNumeral_decimal n) hrows (by rw [hvalue, List.length_map]; exact hle), hvalue,
    intValue_of_lt hlt, Int.toNat_natCast, ← List.map_take, List.map_map]
  refine congrArg PageTable.ofList (List.map_congr_left fun e he => ?_)
  exact Translation.lineRecord_fields (hfound e (List.mem_of_mem_take he))

/-- **The header of the output file.** After any requests, and in whatever pieces the file is
read, its text is `guest_pid` and one line for each entry in the order of the array. The
header is the number of the records exactly if `guest_pid` is that number. A loader that
reads as many records as the header says gets the first entries only, and all of them where
the header is right. -/
theorem output_count_iff (h : Host) (rs : List (Host × Request)) {r k : ℕ} {out : List Char}
    {c : Cursor ℕ OutputItem} (hread : Reading (served h rs).outputOps 0 r k out c)
    (hend : (served h rs).outputOps.start c.index = none) :
    let t := served h rs
    out = unlines '\n' (intText t.guestPid :: t.entries.map fun e => commaLine e.fields) ∧
      (out = unlines '\n' (intText t.entries.length ::
          t.entries.map fun e => commaLine e.fields) ↔ t.guestPid = t.entries.length) ∧
      ∀ (unset : ℕ → Unset) (n : ℕ), t.guestPid = n → n ≤ t.entries.length → n < 2 ^ 31 →
        (∀ e ∈ t.entries, e.chain.Found) →
          loadPageTable unset out = .ofList ((t.entries.take n).map Translation.record) := by
  intro t
  have hout : out = t.outputText :=
    ((served_delivers h rs).reading t.output_restartable hread).2.2.2 hend
  subst hout
  exact ⟨rfl, t.outputText_eq_iff, fun unset _ hpid hle hlt hfound =>
    loadPageTable_outputText unset hpid hle hlt hfound⟩

/-! ### A small table -/

/-- A host with memory whose processes have the given tables and 256 MiB of guest memory. -/
def ramHost (mm : Mm) : Host where
  process _ := some ⟨mm, [⟨0x40000000, 0x50000000, false, true, true⟩]⟩
  alloc _ := true

/-- A module that has been configured, after a dump with the given header. -/
def servedDump (header : List Char) : Translator :=
  served (ramHost loopMm) [(ramHost loopMm, .config false ['1']),
    (ramHost loopMm, .input false (unlines '\n' [header, sampleRecord]) 0)]

/-- A dump whose header happens to be right. -/
theorem output_count_of_header_four :
    ∃ r k out c, Reading (servedDump ['4']).outputOps 0 r k out c ∧
      ∀ unset, loadPageTable unset out =
        .ofList ((servedDump ['4']).entries.map Translation.record) := by
  obtain ⟨p, hread, hend⟩ := (served_delivers (ramHost loopMm) _).exists_reading
  have hcount : (servedDump ['4']).entries.length = 4 := by decide +kernel
  have hpid : (servedDump ['4']).guestPid = 4 := by decide +kernel
  have hfound : ∀ e ∈ (servedDump ['4']).entries, e.chain.Found := by
    simp only [Chain.Found]
    decide +kernel
  refine ⟨_, _, _, .closed p, hread, fun unset => ?_⟩
  have hload := (output_count_iff (ramHost loopMm) _ hread hend).2.2 unset 4 hpid hcount.ge
    (by decide) hfound
  have hall := List.take_of_length_le hcount.le
  exact hload.trans (congrArg (fun l => PageTable.ofList (l.map Translation.record)) hall)

/-- One record, with four frames. The header that is read says one, and the loader takes
one. -/
theorem header_one_of_four :
    let t := servedDump ['1']
    (∃ r k c, Reading t.outputOps 0 r k t.outputText c ∧ t.outputOps.start c.index = none) ∧
      t.entries.map Translation.gpaPfn = [0xA, 0xB, 0xC, 0xD] ∧
      t.outputText.take 2 = ['1', '\n'] ∧
      (loadPageTable (fun _ => ⟨0, 0⟩) t.outputText 0xA000).isSome ∧
      loadPageTable (fun _ => ⟨0, 0⟩) t.outputText 0xB000 = none := by
  obtain ⟨p, hread, hend⟩ := (served_delivers (ramHost loopMm) _).exists_reading
  exact ⟨⟨_, _, _, hread, hend⟩, by decide +kernel⟩

end Translator

end SagePTE.PageTables
