import SagePTE.Lib.Pointwise
import SagePTE.PageTables.GuestText
import SagePTE.PageTables.Ownership
import SagePTE.Simulator.TableObjects
import SagePTE.Simulator.WalkFormat

/-!
# The page-table pipeline

A guest dump is written to the host translator; what the translator prints is passed
through the augmentor; and the dump and the augmented file are loaded by the cache
simulator. The guest frames of the dump are the keys by which the simulator looks up the
host table: each of them is found, as none gets lost on the way.

A frame is a field of a dump line, then the frame of an entry of the translator, then
the first field of an output line, shifted by the size of a page, and at last a key of
the loaded table.

## Main definitions

* `GuestDump` — a dump in the format the simulator loads
* `PipelineRun` — a dump on its way through the stages

## Main results

* `GuestDump.exists_of_describesPages` — the guest dumper prints such dumps
* `PipelineRun.hostTable_eq` — the table that is loaded at the end
* `PipelineRun.lookups_found` — every frame of the guest table is found in it
* `PipelineRun.covered` — the walks of a simulator with these tables
-/

set_option autoImplicit false

namespace SagePTE

open Numerals Scan Lines SeqFile PageTables Simulator

/-! ### Guest dumps -/

/-- A guest dump in the form the simulator loads: a record count, and lines of six
hexadecimal numbers, an address and five frames that are not zero. -/
structure GuestDump where
  count : List Char
  rows : List (List (List Char))
  count_numeral : IsNumeral 10 count
  count_le : value 10 count ≤ rows.length
  isRecord : ∀ fields ∈ rows, IsRecord fields
  frames : ∀ fields ∈ rows, ∀ field ∈ fields.tail, value 16 field ≠ 0 ∧ value 16 field < 2 ^ 52

namespace GuestDump

variable (d : GuestDump)

/-- The file. -/
def text : List Char := unlines '\n' (d.count :: d.rows.map commaLine)

/-- The frames of the records, line by line. -/
def pfns : List (BitVec 64) :=
  d.rows.flatMap fun fields => fields.tail.map fun field => BitVec.ofNat 64 (value 16 field)

/-- The translator reads the five frames of a record line. -/
theorem lineFrames_commaLine {fields : List (List Char)} (h : IsRecord fields) :
    lineFrames (commaLine fields) =
      fields.tail.map fun field => BitVec.ofNat 64 (value 16 field) := by
  match fields, h with
  | [va, f1, f2, f3, f4, f5], h =>
    have hva : ',' ∉ va := (h.numeral va (by simp)).not_mem rfl
    have hreads : List.Forall₂ (Reads kernelHex) [f1, f2, f3, f4, f5]
        ([f1, f2, f3, f4, f5].map fun field => BitVec.ofNat 64 (value 16 field)) := by
      rw [List.forall₂_map_right_iff, List.forall₂_same]
      exact fun field hfield => kernelHex_reads (h.numeral field (List.mem_cons_of_mem va hfield))
    have hfields : commaFields kernelHex 5 (commaLine [f1, f2, f3, f4, f5]) =
        ([f1, f2, f3, f4, f5].map fun field => BitVec.ofNat 64 (value 16 field), []) := by
      have hall := commaFields_commaLine hreads endsField_nil
      rw [List.append_nil] at hall
      exact hall
    simp only [lineFrames, Translator.linePfns, commaLine_cons_cons va, splitFirst_append hva,
      hfields]
    rfl

theorem flatMap_lineFrames : (d.rows.map commaLine).flatMap lineFrames = d.pfns := by
  rw [List.flatMap_map, pfns]
  exact List.flatMap_congr fun fields hfields => lineFrames_commaLine (d.isRecord fields hfields)

theorem not_mem_line {c : Char} (hc : digitVal c = none) (hcomma : c ≠ ',') :
    ∀ line ∈ d.count :: d.rows.map commaLine, c ∉ line := by
  intro line hline
  rcases List.mem_cons.mp hline with rfl | hline
  · exact d.count_numeral.not_mem hc
  · obtain ⟨fields, hfields, rfl⟩ := List.mem_map.mp hline
    exact not_mem_intercalate hcomma fun field hfield =>
      ((d.isRecord fields hfields).numeral field hfield).not_mem hc

/-- A record of the loaded guest table is that of a line, and its fields are frames of the
dump. -/
theorem mem_pfns {unset : ℕ → Unset} {va : BitVec 64} {info : PageTableInfo}
    (h : loadPageTable unset d.text va = some info) (i : Fin 5) :
    info.all i ∈ d.pfns ∧ info.all i ≠ 0 := by
  rw [text, loadPageTable_unlines unset d.count_numeral d.isRecord d.count_le] at h
  obtain ⟨fields, hfields, hrecord⟩ := List.mem_map.mp (PageTable.mem_of_ofList h)
  have hrow := List.mem_of_mem_take hfields
  -- each of the five fields is the value of a field after the address
  have hfield : ∃ field ∈ fields.tail, info.all i = unsignedValue false (value 16 field) := by
    match fields, d.isRecord fields hrow with
    | [va, f1, f2, f3, f4, f5], _ =>
      obtain rfl := (Prod.mk.inj hrecord).2
      fin_cases i
      · exact ⟨f5, by simp, rfl⟩
      · exact ⟨f1, by simp, rfl⟩
      · exact ⟨f2, by simp, rfl⟩
      · exact ⟨f3, by simp, rfl⟩
      · exact ⟨f4, by simp, rfl⟩
  obtain ⟨field, hmem, heq⟩ := hfield
  obtain ⟨hne, hlt⟩ := d.frames fields hrow field hmem
  have hfits : value 16 field < 2 ^ 64 := hlt.trans (by decide)
  rw [unsignedValue_of_lt hfits] at heq
  refine ⟨List.mem_flatMap.mpr ⟨fields, hrow, List.mem_map.mpr ⟨field, hmem, heq.symm⟩⟩, ?_⟩
  intro hzero
  rw [heq] at hzero
  have hval := congrArg BitVec.toNat hzero
  rw [BitVec.toNat_ofNat, Nat.mod_eq_of_lt hfits] at hval
  exact hne hval

/-! ### Dumps of the guest dumper -/

/-- The fields that the dumper prints for a page. -/
def pageFields (root : BitVec 64) (p : BitVec 64 × Mapping) : List (List Char) :=
  padLeft 16 '0' (hexText p.1) :: (p.2.dumpFields root p.1).map hexText

/-- The record of a page. -/
def pageRecord (root : BitVec 64) (p : BitVec 64 × Mapping) : PageTableInfo :=
  let frame i := (p.2.dumpFields root p.1).getD i 0
  ⟨frame 0, frame 1, frame 2, frame 3, frame 4⟩

theorem pageFields_eq (root : BitVec 64) (p : BitVec 64 × Mapping) :
    pageFields root p = recordFields (p.1, pageRecord root p) := by
  obtain ⟨va, m⟩ := p
  cases m <;> rfl

/-- What the guest dumper prints has this form once its header is replaced by the number of
the records, if all tables and pages lie in frames that are not zero. The table that is
loaded has a record for each page, with the frames that the dumper found. -/
theorem exists_of_describesPages {mm : Mm} {header text : List Char}
    (h : DescribesPages mm header text)
    (hframes : ∀ va m, mm.mapping va = some m → ∀ frame ∈ m.dumpFields mm.pgd va,
      frame ≠ 0 ∧ frame.toNat < 2 ^ 52) :
    ∃ d : GuestDump, value 10 d.count = d.rows.length ∧
      text = header ++ unlines '\n' (d.rows.map commaLine) ∧
      (d.rows.length < 2 ^ 31 → ∀ unset va m, va.toNat % 4096 = 0 → va < mm.taskSizeMax →
        mm.mapping va = some m → m.frame ≠ 0 →
          loadPageTable unset d.text va = some (pageRecord mm.pgd (va, m))) := by
  -- the rows are the pages in the order of the dump
  obtain ⟨pages, hsorted, hpages, rfl⟩ := h
  have hcount := value_decimal (pages.map (pageFields mm.pgd)).length
  have hrecord : ∀ fields ∈ pages.map (pageFields mm.pgd), IsRecord fields := by
    intro fields hfields
    obtain ⟨p, -, rfl⟩ := List.mem_map.mp hfields
    rw [pageFields_eq]
    exact isRecord_recordFields _
  refine ⟨⟨_, _, isNumeral_decimal _, hcount.le, hrecord, ?_⟩, hcount, ?_, ?_⟩
  · intro fields hfields field hfield
    obtain ⟨p, hp, rfl⟩ := List.mem_map.mp hfields
    obtain ⟨frame, hframe, rfl⟩ := List.mem_map.mp hfield
    obtain ⟨hne, hlt⟩ := hframes p.1 p.2 ((hpages p.1 p.2).mp hp).2.2.1 frame hframe
    rw [value_hexText]
    exact ⟨fun hzero => hne (BitVec.eq_of_toNat_eq hzero), hlt⟩
  · rw [List.map_map, unlines, List.flatMap_map]
    rfl
  · intro hlt unset va m halign htask hm hframe
    have hmem := (hpages va m).mpr ⟨halign, htask, hm, hframe⟩
    rw [text, loadPageTable_all unset hrecord hlt, List.map_map]
    have htable : pages.map (lineRecord ∘ pageFields mm.pgd) =
        pages.map fun p => (p.1, pageRecord mm.pgd p) :=
      List.map_congr_left fun p _ => by
        rw [Function.comp_apply, pageFields_eq, lineRecord_recordFields]
    -- no address occurs twice, so that no record hides another one
    have hkeys : (pages.map fun p => (p.1, pageRecord mm.pgd p)).Pairwise
        fun r r' => r.1 ≠ r'.1 := by
      rw [List.pairwise_map]
      exact hsorted.imp fun {p q} (hpq : p.1 < q.1) => (BitVec.ne_of_lt hpq : p.1 ≠ q.1)
    rw [htable]
    exact PageTable.ofList_of_mem hkeys
      (List.mem_map.mpr ⟨(va, m), hmem, rfl⟩ : (va, pageRecord mm.pgd (va, m)) ∈ _)

end GuestDump

/-! ### The stages -/

/-- A dump on its way through the stages. It is written to the translator in any pieces,
with QEMU running and no allocation failing. The output is read to its end, and the
augmentor finds at least as many unallocated frames as it has to fill in. -/
structure PipelineRun where
  dump : GuestDump
  host : Host
  translator : Translator
  qemu : Process
  chunks : List (List Char)
  reads : ℕ
  kept : ℕ
  raw : List Char
  cursor : Cursor ℕ Translator.OutputItem
  memory : Augmentor.Memory
  report : Augmentor.Report
  alloc : ∀ n, host.alloc n = true
  process : translator.getQemuProcess host = some qemu
  chunks_ne : ∀ chunk ∈ chunks, chunk ≠ []
  chunks_flatten : chunks.flatten = dump.text
  reading : Reading (translator.session host chunks).outputOps 0 reads kept raw cursor
  reading_end : (translator.session host chunks).outputOps.start cursor.index = none
  written : Augmentor.main memory (some raw) true = .written report
  enough : report.nanCount ≤ report.unallocCount

namespace PipelineRun

variable (R : PipelineRun)

/-- The records of the translator, one for each distinct frame of the dump. -/
def records : List Translation :=
  (Translator.distinctFrames R.dump.pfns).map
    (translation R.translator.guestRamBase (some R.qemu.mm))

/-- The translator's array after the dump has been written. -/
theorem stores : (R.translator.session R.host R.chunks).Stores R.translator.guestRamBase
    (some R.qemu.mm) R.dump.pfns := by
  rw [← R.dump.flatMap_lineFrames]
  refine Translator.session_stores R.host R.alloc R.process R.dump.count_numeral.ne_nil
    (R.dump.count_numeral.not_mem rfl) (fun line hline => ?_) R.chunks R.chunks_ne R.chunks_flatten
  exact ⟨R.dump.not_mem_line rfl (by decide) line hline,
    R.dump.not_mem_line rfl (by decide) line hline⟩

/-- The raw host dump. -/
theorem raw_eq : ∃ pid : ℤ,
    R.raw = unlines '\n' (intText pid :: (R.records.map Translation.fields).map commaLine) := by
  have hlen : ((R.translator.session R.host R.chunks).translationEntries.getD []).length =
      (R.translator.session R.host R.chunks).entryCount := by
    rw [R.stores.slots, R.stores.count, List.length_map]
  refine ⟨(R.translator.session R.host R.chunks).guestPid, ?_⟩
  rw [Translator.output_reading hlen R.reading R.reading_end, Translator.outputText,
    R.stores.entries_eq, records]
  simp only [List.map_map]
  rfl

/-- A record of the augmented file has numbers in all its fields, and the first one is the
address of the guest frame. -/
theorem isRecord_of_filledRow {e : Translation} {fields : List (List Char)}
    (h : Augmentor.FilledRow e.fields fields) :
    IsRecord fields ∧ fieldValue fields 0 = e.gpaPfn <<< 12 := by
  obtain ⟨va, pfnFields, rfl⟩ : ∃ va pfnFields, fields = va :: pfnFields := by
    cases fields with
    | nil => cases h.virtualAddr
    | cons va pfnFields => exact ⟨va, pfnFields, rfl⟩
  obtain rfl : va = hexText (e.gpaPfn <<< 12) := Option.some.inj h.virtualAddr
  refine ⟨⟨?_, ?_⟩, ?_⟩
  · exact congrArg (· + 1) h.pfnFields.length_eq.symm
  · intro field hfield
    rcases List.mem_cons.mp hfield with rfl | hfield
    · exact isNumeral_hexText _
    · obtain ⟨field₀, hfield₀, hfilled⟩ := Pointwise.exists_of_mem_right h.pfnFields hfield
      -- `NAN` is the only field that is no number, and it has been filled
      rcases hfilled with ⟨hnan, rfl⟩ | ⟨-, pfn, rfl⟩
      · rcases mem_fields (List.mem_of_mem_tail hfield₀) with heq | ⟨v, rfl⟩
        · exact absurd heq hnan
        · exact isNumeral_hexText v
      · exact isNumeral_hexText pfn
  · exact unsignedValue_hexText _

/-- The table that is loaded from the augmented file has a record for each record of the
translator. -/
theorem hostTable_eq (unset : ℕ → Unset) :
    ∃ rows, List.Forall₂ (fun e fields => Augmentor.FilledRow e.fields fields) R.records rows ∧
      loadPageTable unset R.report.output = .ofList (rows.map lineRecord) := by
  obtain ⟨pid, hraw⟩ := R.raw_eq
  have hwritten := R.written
  rw [hraw] at hwritten
  have hrow : ∀ fields ∈ R.records.map Translation.fields, Augmentor.IsRow fields := by
    intro fields hfields
    obtain ⟨e, -, rfl⟩ := List.mem_map.mp hfields
    exact isRow_fields e
  obtain ⟨rows, hfilled, hlt, hout⟩ := Augmentor.main_rows (not_mem_intText rfl (by decide) pid)
    (not_mem_intText rfl (by decide) pid) hrow hwritten R.enough
  rw [List.forall₂_map_left_iff] at hfilled
  refine ⟨rows, hfilled, ?_⟩
  have hrecord : ∀ fields ∈ rows, IsRecord fields := by
    intro fields hfields
    obtain ⟨e, -, he⟩ := Pointwise.exists_of_mem_right hfilled hfields
    exact (isRecord_of_filledRow he).1
  -- the header is the number of the records, and it is read as such
  rw [hout, intText_natCast]
  exact loadPageTable_all unset hrecord hlt

/-- Each frame of the dump is found in the table. -/
theorem isSome_of_mem (unset : ℕ → Unset) {pfn : BitVec 64} (hmem : pfn ∈ R.dump.pfns)
    (hne : pfn ≠ 0) : (loadPageTable unset R.report.output (pfn <<< 12)).isSome := by
  obtain ⟨rows, hfilled, htable⟩ := R.hostTable_eq unset
  have hrecord : translation R.translator.guestRamBase (some R.qemu.mm) pfn ∈ R.records :=
    List.mem_map_of_mem (Translator.mem_distinctFrames.mpr ⟨hmem, hne⟩)
  obtain ⟨fields, hfields, hrow⟩ := Pointwise.exists_of_mem_right hfilled.flip hrecord
  have hkey := (isRecord_of_filledRow hrow).2
  rw [Translator.gpaPfn_translation] at hkey
  have hsome := PageTable.isSome_ofList (List.mem_map_of_mem (f := lineRecord) hfields)
  rw [htable, ← hkey]
  exact hsome

/-- A walk of the host table for a frame of the dump goes on to record its five results:
`one_pw_at_host` does not return at once. -/
theorem length_onePwAtHost {knobs : CacheKnobs} {W : Walker} (hH : knobs.hierarchy = some W.H)
    {unset : ℕ → Unset} (hhost : W.hostPageTable = loadPageTable unset R.report.output)
    {pfn : BitVec 64} (hmem : pfn ∈ R.dump.pfns) (hne : pfn ≠ 0) (core : ℕ) (w : WalkState)
    (offset : BitVec 64) (levelGuest : ℕ) :
    (W.onePwAtHost core w (pfn <<< 12) offset levelGuest).pageWalkRes.length =
      w.pageWalkRes.length + 5 := by
  obtain ⟨hostIt, hfound⟩ := Option.isSome_iff_exists.mp (R.isSome_of_mem unset hmem hne)
  rw [← hhost, ← shiftLeft_shiftRight_shiftLeft] at hfound
  obtain ⟨m, -, rs, es, hemits, hgroup, -⟩ := W.onePwAtHost_emits hH core w (pfn <<< 12) offset
    levelGuest hfound
  rw [hemits.res, List.length_append, hgroup.length_eq]

/-- Every field of every record of the guest table is found in the host table, and every
walk of the host table that starts from it records its results. -/
theorem lookups_found (guestUnset hostUnset : ℕ → Unset) {va : BitVec 64} {info : PageTableInfo}
    (hinfo : loadPageTable guestUnset R.dump.text va = some info) (i : Fin 5) :
    (loadPageTable hostUnset R.report.output (info.all i <<< 12)).isSome ∧
      ∀ (knobs : CacheKnobs) (W : Walker), knobs.hierarchy = some W.H →
        W.hostPageTable = loadPageTable hostUnset R.report.output →
        ∀ core w offset levelGuest,
          (W.onePwAtHost core w (info.all i <<< 12) offset levelGuest).pageWalkRes.length =
            w.pageWalkRes.length + 5 := by
  obtain ⟨hmem, hne⟩ := R.dump.mem_pfns hinfo i
  exact ⟨R.isSome_of_mem hostUnset hmem hne,
    fun _ _ hH hhost => R.length_onePwAtHost hH hhost hmem hne⟩

/-- A simulator that loads the two files has all frames of the guest tables in its host
table. -/
theorem covered {C : SimConfig} {guestUnset hostUnset : ℕ → Unset}
    (hguest : C.pageTable = loadPageTable guestUnset R.dump.text)
    (hhost : C.hostPageTable = loadPageTable hostUnset R.report.output) : C.Covered := by
  intro page r hr level _
  rw [hguest] at hr
  obtain ⟨hmem, hne⟩ := R.dump.mem_pfns hr level
  rw [hhost]
  exact R.isSome_of_mem hostUnset hmem hne

end PipelineRun

/-! ### A small run -/

/-- A host that maps no page: the walk ends at the `pmd` table, frame 5. -/
def shortMm : Mm where
  fiveLevel := false
  pgd := 1
  table := fun frame _ =>
    if frame = 1 then tableEntry 2
    else if frame = 2 then tableEntry 5
    else { tableEntry 0 with isNone := true }

/-- A dump of one record, all of whose frames are the same. -/
def sampleGuestDump : GuestDump where
  count := ['1']
  rows := [[['7'], ['a'], ['a'], ['a'], ['a'], ['a']]]
  count_numeral := ⟨by decide, List.all_eq_true.mp rfl⟩
  count_le := by decide
  isRecord := by
    simp only [List.mem_singleton, forall_eq]
    have hdigits : ([['7'], ['a'], ['a'], ['a'], ['a'], ['a']] : List (List Char)).all
        (·.all (isDigit 16)) = true := rfl
    refine ⟨rfl, fun field hfield => ⟨by revert field; decide, ?_⟩⟩
    exact List.all_eq_true.mp (List.all_eq_true.mp hdigits field hfield)
  frames := by decide

/-- The two levels that the walk does not get to are filled with the frames 3 and 4. -/
def sampleReport : Augmentor.Report where
  nanCount := 2
  unallocCount := 2
  output := unlines '\n' [['1'], "a000,2,2,5,3,4".toList]

theorem lookups_found_sampleReport : ∃ R : PipelineRun, R.report = sampleReport ∧
    ∀ unset, (loadPageTable unset R.report.output (0xA#64 <<< 12)).isSome := by
  let t := Translator.sampleTranslator.session (Translator.hostWith shortMm) [sampleGuestDump.text]
  have hlen : (t.translationEntries.getD []).length = t.entryCount := by decide +kernel
  -- any reading to the end does; this one takes a record at a time
  obtain ⟨p, hread, hend⟩ := (Translator.output_delivers hlen).exists_reading
  let R : PipelineRun :=
    { dump := sampleGuestDump
      host := Translator.hostWith shortMm
      translator := Translator.sampleTranslator
      qemu := ⟨shortMm, []⟩
      chunks := [sampleGuestDump.text]
      reads := _
      kept := _
      raw := t.outputText
      cursor := .closed p
      memory := Augmentor.ampleMemory
      report := sampleReport
      alloc := fun _ => rfl
      process := rfl
      chunks_ne := by decide
      chunks_flatten := by decide
      reading := hread
      reading_end := hend
      written := by decide +kernel
      enough := by decide }
  have hguest : loadPageTable (fun _ => ⟨0, 0⟩) sampleGuestDump.text 7 =
      some ⟨10, 10, 10, 10, 10⟩ := by
    decide +kernel
  exact ⟨R, rfl, fun unset => (R.lookups_found _ unset hguest 0).1⟩

end SagePTE
