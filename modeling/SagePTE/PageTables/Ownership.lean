import SagePTE.PageTables.AugmentorDump
import SagePTE.PageTables.Levels

/-!
# Frames that are in use

The augmentor fills the `NAN` fields of the translator's output with frames that the file
does not have, as if they were free. But the file names only the first frame of a huge leaf.
The other 511 frames of a 2 MiB leaf, or 262143 of a 1 GiB one, belong to the leaf too, and
the augmentor can take them for its own.

## Main definitions

* `Mapping.Covers` — the frames of a leaf
* `Owned` — the frames of the leaves and tables that the translator found

## Main results

* `Translator.isRawDump_outputText` — the translator's output is a raw host dump
* `Translator.mem_rowPfns_iff` — the frames that the augmentor sees
* `Translator.substituted_not_owned_iff` — when no frame in use is substituted
-/

set_option autoImplicit false

namespace SagePTE.PageTables

open Numerals Scan Lines SeqFile Augmentor

/-! ### Frames of leaves and tables -/

/-- The number of 4 KiB frames in a leaf. -/
def Mapping.frameCount : Mapping → ℕ
  | .page .. => 1
  | .huge2M .. => 512
  | .huge1G .. => 262144

/-- The frame is one of the leaf's. -/
def Mapping.Covers (m : Mapping) (pfn : BitVec 64) : Prop :=
  m.leafFrame.toNat ≤ pfn.toNat ∧ pfn.toNat < m.leafFrame.toNat + m.frameCount

instance (m : Mapping) (pfn : BitVec 64) : Decidable (m.Covers pfn) :=
  inferInstanceAs (Decidable (_ ∧ _))

/-- The leaf that the walk for a record came to. -/
def Resolves (base : BitVec 64) (mm : Mm) (e : Translation) (m : Mapping) : Prop :=
  base ≠ 0 ∧ mm.mapping (base + e.gpaPfn <<< 12) = some m

instance (base : BitVec 64) (mm : Mm) (e : Translation) (m : Mapping) :
    Decidable (Resolves base mm e m) :=
  inferInstanceAs (Decidable (_ ∧ _))

/-- The frames of a chain. -/
def Chain.frames (c : Chain) : List (BitVec 64) := [c.pfn1, c.pfn2, c.pfn3, c.pfn4, c.pfn5]

/-- The tables of a chain. The last field is the leaf. -/
def Chain.tables (c : Chain) : List (BitVec 64) :=
  [c.pfn1, c.pfn2, c.pfn3, c.pfn4].filter (· ≠ invalidPfn)

/-- The frame is one of a leaf that was resolved, or that of a table in a record. -/
def Owned (base : BitVec 64) (mm : Mm) (entries : List Translation) (pfn : BitVec 64) : Prop :=
  ∃ e ∈ entries, (∃ m, Resolves base mm e m ∧ m.Covers pfn) ∨ pfn ∈ e.chain.tables

/-- A 4 KiB page has no frame but its own. -/
theorem Mapping.eq_leafFrame_of_covers_page {pud pmd pte frame pfn : BitVec 64}
    (h : (Mapping.page pud pmd pte frame).Covers pfn) :
    pfn = (Mapping.page pud pmd pte frame).leafFrame := by
  obtain ⟨hle, hlt⟩ := h
  rw [frameCount] at hlt
  exact BitVec.eq_of_toNat_eq (by omega)

/-! ### Printed frames -/

theorem Translation.fields_eq (e : Translation) :
    e.fields = hexText (e.gpaPfn <<< 12) :: e.chain.frames.map pfnText := rfl

theorem parseHex_pfnText (pfn : BitVec 64) : parseHex (pfnText pfn) = pfn := by
  unfold pfnText
  split
  · next hinvalid => exact hinvalid.symm
  · have hread := libcHex_reads (isNumeral_hexText pfn) [] endsField_nil
    rw [List.append_nil, unsignedValue_hexText] at hread
    rw [parseHex, if_neg (hexText_ne_nan pfn), strtoullHex, hread]
    rfl

theorem fieldPfns_fields (e : Translation) :
    fieldPfns e.fields.tail = e.chain.frames.filter (· ≠ invalidPfn) := by
  rw [fieldPfns, e.fields_eq, List.tail_cons, List.map_map]
  simp only [Function.comp_def, parseHex_pfnText, List.map_id']
  rfl

/-- An output line of the translator fits the augmentor's buffer. -/
theorem isRow_fields (e : Translation) : IsRow e.fields where
  two_le := by simp [Translation.fields]
  length_le := by simp [Translation.fields, maxFields]
  isField field hfield :=
    { ne_nil := by
        rcases mem_fields hfield with rfl | ⟨v, rfl⟩
        · decide
        · exact (isNumeral_hexText v).ne_nil
      comma := not_mem_fields rfl (by decide) e field hfield
      newline := not_mem_fields rfl (by decide) e field hfield
      nul := not_mem_fields rfl (by decide) e field hfield }
  line_le := by
    have hlen := length_commaLine_le (fun _ h => length_fields_le h : ∀ f ∈ e.fields, f.length ≤ 16)
    exact hlen.trans (by simp [Translation.fields, maxLine])

namespace Translator

variable (h : Host)

theorem outputText_eq_unlines (t : Translator) :
    t.outputText =
      unlines '\n' (intText t.guestPid :: (t.entries.map Translation.fields).map commaLine) := by
  rw [outputText, List.map_map]
  rfl

theorem fileRows_outputText (t : Translator) :
    fileRows t.outputText = t.entries.map Translation.fields := by
  rw [t.outputText_eq_unlines]
  refine fileRows_unlines (not_mem_intText rfl (by decide) _) ?_ ?_ <;>
    simp only [List.forall_mem_map]
  · exact fun e _ => (isRow_fields e).two_le
  · exact fun e _ field hfield =>
      ⟨not_mem_fields rfl (by decide) e field hfield, not_mem_fields rfl (by decide) e field hfield⟩

/-- What the translator prints is a raw host dump. -/
theorem isRawDump_outputText (t : Translator) : IsRawDump t.outputText where
  ne_nil := by simp [outputText, unlines_cons]
  header line hline := by
    have hnewline : ∀ line ∈ intText t.guestPid :: t.entries.map fun e => commaLine e.fields,
        '\n' ∉ line := by
      simp only [List.mem_cons, List.mem_map]
      rintro line (rfl | ⟨e, -, rfl⟩)
      · exact not_mem_intText rfl (by decide) _
      · exact (isRow_fields e).newline_not_mem
    rw [outputText, splitOn_unlines hnewline] at hline
    obtain rfl : intText t.guestPid = line := Option.some.inj hline
    exact .inl (not_mem_intText rfl (by decide) _)
  rows := by
    rw [fileRows_outputText, List.forall_mem_map]
    exact fun e _ => isRow_fields e

/-- The frames that the augmentor finds in the translator's output. -/
theorem mem_rowPfns_iff (t : Translator) {pfn : BitVec 64} :
    pfn ∈ rowPfns (fileRows t.outputText) ↔
      pfn ≠ invalidPfn ∧ ∃ e ∈ t.entries, pfn ∈ e.chain.frames := by
  simp only [rowPfns, fileRows_outputText, List.flatMap_map, List.mem_flatMap, fieldPfns_fields,
    List.mem_filter, decide_eq_true_eq]
  constructor
  · rintro ⟨e, he, hmem, hvalid⟩
    exact ⟨hvalid, e, he, hmem⟩
  · rintro ⟨hvalid, e, he, hmem⟩
    exact ⟨e, he, hmem, hvalid⟩

/-! ### Frames that are substituted -/

section Substituted

variable {h} {P : Process} {chunks : List (List Char)} (hchunks : chunks ≠ [])
  {t : Translator} (hP : t.getQemuProcess h = some P)

include hchunks hP

/-- The first frame of a leaf is printed, and so are the tables. -/
theorem mem_rowPfns_of_owned {e : Translation} (he : e ∈ (t.session h chunks).entries)
    {pfn : BitVec 64}
    (hpfn : pfn ∈ e.chain.tables ∨ ∃ m, Resolves t.guestRamBase P.mm e m ∧ pfn = m.leafFrame) :
    pfn ∈ rowPfns (fileRows (t.session h chunks).outputText) := by
  rw [mem_rowPfns_iff]
  rcases hpfn with htable | ⟨m, ⟨hbase, hm⟩, rfl⟩
  · obtain ⟨hmem, hvalid⟩ := List.mem_filter.mp htable
    refine ⟨by simpa using hvalid, e, he, ?_⟩
    simp only [List.mem_cons, List.not_mem_nil, or_false] at hmem
    rcases hmem with rfl | rfl | rfl | rfl <;> simp [Chain.frames]
  · obtain ⟨-, heq⟩ := session_translated h hchunks hP he
    have hchain := congrArg Translation.chain (heq.trans (translation_of_mapping hbase hm))
    have hlast : e.chain.pfn5 = m.leafFrame := by rw [hchain, m.chain_pfn5]
    refine ⟨?_, e, he, by simp [Chain.frames, ← hlast]⟩
    intro hinvalid
    have hlt := leafFrame_lt hm
    rw [hinvalid] at hlt
    revert hlt
    decide

/-- **Frames in use.** The translator's output is read and augmented. No frame that is
substituted for a `NAN` is in use exactly if no array is granted, or none of the first frames in
the small gaps between the printed frames, as many as there are `NAN` fields, lies in a resolved
leaf behind its first frame. Tables, 4 KiB pages and the first frames of huge leaves are never
taken. So none is in use where all leaves are pages. -/
theorem substituted_not_owned_iff {reads kept : ℕ} {raw : List Char}
    {cursor : Cursor ℕ OutputItem}
    (hread : Reading (t.session h chunks).outputOps 0 reads kept raw cursor)
    (hend : (t.session h chunks).outputOps.start cursor.index = none)
    {mem : Memory} {outputOpens : Bool} {report : Report}
    (hmain : main mem (some raw) outputOpens = .written report) :
    ((∀ pfn, Substituted raw report.output pfn →
        ¬Owned t.guestRamBase P.mm (t.session h chunks).entries pfn) ↔
      (mem.grants .unallocated 1048576 = true →
        ∀ e ∈ (t.session h chunks).entries, ∀ m, Resolves t.guestRamBase P.mm e m →
          ∀ pfn, m.Covers pfn → pfn ≠ m.leafFrame →
            pfn ∉ (Between.gaps gapPfns (sortedPfns (rowPfns (fileRows raw)))).take
              ((fileRows raw).map rowNans).sum)) ∧
    ((∀ e ∈ (t.session h chunks).entries, ∀ m, Resolves t.guestRamBase P.mm e m →
        ∃ pud pmd pte frame, m = .page pud pmd pte frame) →
      ∀ pfn, Substituted raw report.output pfn →
        ¬Owned t.guestRamBase P.mm (t.session h chunks).entries pfn) := by
  have htrans := writes_translated h chunks 0 hP (.inl ⟨rfl, hchunks⟩)
  obtain rfl : raw = (t.session h chunks).outputText := output_reading htrans.length hread hend
  have hdump := isRawDump_outputText (t.session h chunks)
  simp only [substituted_iff hdump hmain]
  have hfree {pfn : BitVec 64}
      (hmem : pfn ∈ (foundPfns mem (rowPfns (fileRows (t.session h chunks).outputText))).take
        ((fileRows (t.session h chunks).outputText).map rowNans).sum)
      (hbehind : ∀ e ∈ (t.session h chunks).entries, ∀ m, Resolves t.guestRamBase P.mm e m →
        m.Covers pfn → pfn = m.leafFrame) :
      ¬Owned t.guestRamBase P.mm (t.session h chunks).entries pfn := by
    rintro ⟨e, he, howned⟩
    -- a printed frame is not among those that `find_gaps` returns
    apply not_mem_of_mem_foundPfns (List.mem_of_mem_take hmem)
    apply mem_rowPfns_of_owned hchunks hP he
    rcases howned with ⟨m, hm, hcovers⟩ | htable
    · exact .inr ⟨m, hm, hbehind e he m hm hcovers⟩
    · exact .inl htable
  refine ⟨⟨fun hall hgrants e he m hm pfn hcovers _ hmem => ?_, fun hbehind pfn hmem => ?_⟩,
    fun hpages pfn hmem => ?_⟩
  · exact hall pfn ((mem_take_foundPfns_iff hdump hmain).mpr ⟨hgrants, hmem⟩)
      ⟨e, he, .inl ⟨m, hm, hcovers⟩⟩
  · obtain ⟨hgrants, hgap⟩ := (mem_take_foundPfns_iff hdump hmain).mp hmem
    refine hfree hmem fun e he m hm hcovers => ?_
    by_contra hne
    exact hbehind hgrants e he m hm pfn hcovers hne hgap
  · refine hfree hmem fun e he m hm hcovers => ?_
    obtain ⟨pud, pmd, pte, frame, rfl⟩ := hpages e he m hm
    exact Mapping.eq_leafFrame_of_covers_page hcovers

end Substituted

/-! ### Small tables -/

/-- A dump with guest frames of two regions of 2 MiB. -/
def regionsDump : List Char := unlines '\n' [['1'], "7,a,200,a,a,a".toList]

/-- Tables that map the first region by a page in frame 9 and the second one not at all. -/
def pageMm : Mm where
  fiveLevel := false
  pgd := 1
  table := fun frame index =>
    if frame = 1 then tableEntry 2
    else if frame = 2 then tableEntry 3
    else if frame = 3 then
      if index = 0 then tableEntry 6
      else { tableEntry 0 with isNone := true }
    else tableEntry 9

/-- Tables in the frames `0x1ff` and `0x400` that map the first region by a 2 MiB leaf,
which has the frames between them, and the second one not at all. -/
def leafMm : Mm where
  fiveLevel := false
  pgd := 1
  table := fun frame index =>
    if frame = 1 then tableEntry 0x1FF
    else if frame = 0x1FF then tableEntry 0x400
    else if index = 0 then { tableEntry 0x200 with isLeaf := true }
    else { tableEntry 0 with isNone := true }

theorem entryCount_session {mm : Mm} (chunk : List Char) :
    let t := sampleTranslator.session (hostWith mm) [chunk]
    (t.translationEntries.getD []).length = t.entryCount :=
  (writes_translated (hostWith mm) [chunk] 0 (P := ⟨mm, []⟩) rfl (.inl ⟨rfl, by simp⟩)).length

theorem pageMm_substituted_not_owned :
    let t := sampleTranslator.session (hostWith pageMm) [regionsDump]
    ∃ report, main ampleMemory (some t.outputText) true = .written report ∧
      (∃ pfn, Substituted t.outputText report.output pfn) ∧
      ∀ pfn, Substituted t.outputText report.output pfn →
        ¬Owned sampleTranslator.guestRamBase pageMm t.entries pfn := by
  intro t
  obtain ⟨p, hread, hend⟩ := (output_delivers (entryCount_session regionsDump)).exists_reading
  have hmain : main ampleMemory (some t.outputText) true =
      .written ⟨2, 4, "2\na000,2,2,3,6,9\n200000,2,2,3,4,5\n".toList⟩ := by decide +kernel
  refine ⟨_, hmain, ⟨4, ?_⟩, ?_⟩
  · exact (substituted_iff (isRawDump_outputText t) hmain).mpr (by decide +kernel)
  · apply (substituted_not_owned_iff (P := ⟨pageMm, []⟩) (by simp) rfl hread hend hmain).2
    -- the only leaf is a page
    intro e he m hm
    have hall : ∀ e ∈ t.entries, pageMm.mapping (sampleTranslator.guestRamBase +
        e.gpaPfn <<< 12) ∈ [none, some (.page 2 3 6 9)] := by decide +kernel
    exact ⟨2, 3, 6, 9, by simpa [hm.2] using hall e he⟩

/-- The two fields that the walk for the second region has not filled get the frames `0x201`
and `0x202`, which are those of the leaf that maps the first region. -/
theorem leafMm_substituted_owned :
    let t := sampleTranslator.session (hostWith leafMm) [regionsDump]
    ∃ reads kept raw cursor report, Reading t.outputOps 0 reads kept raw cursor ∧
      t.outputOps.start cursor.index = none ∧
      main ampleMemory (some raw) true = .written report ∧
      Substituted raw report.output 0x201 ∧
      Owned sampleTranslator.guestRamBase leafMm t.entries 0x201 := by
  intro t
  obtain ⟨p, hread, hend⟩ := (output_delivers (entryCount_session regionsDump)).exists_reading
  -- the 511 frames of the gap fit the array
  have hfound : foundPfns ampleMemory (rowPfns (fileRows t.outputText)) =
      Between.gaps gapPfns (sortedPfns (rowPfns (fileRows t.outputText))) :=
    foundPfns_of_length_le (by decide) (by decide +kernel)
  have hdump := isRawDump_outputText t
  obtain ⟨report, hmain⟩ := exists_written_of_isRawDump hdump (by decide +kernel) ampleMemory_grants
    (by rw [hfound]; decide +kernel)
  refine ⟨_, _, _, _, report, hread, hend, hmain, ?_, ?_⟩
  · rw [substituted_iff hdump hmain, hfound]
    decide +kernel
  · exact ⟨translation sampleTranslator.guestRamBase (some leafMm) 0xA, by decide +kernel,
      .inl ⟨.huge2M 0x1FF 0x400 0x20A, by decide +kernel⟩⟩

end Translator

end SagePTE.PageTables
