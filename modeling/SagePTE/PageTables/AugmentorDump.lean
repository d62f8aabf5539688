import SagePTE.PageTables.AugmentorText

/-!
# Raw host dumps

A raw host dump is a header and records. Where `find_gaps` returns enough frames, the
augmentor writes the number of the records and then the records in their order, with
frames for the `NAN` fields that are distinct and not in the dump. Otherwise it writes the
file all the same, and some `NAN` fields stay in it.

## Main definitions

* `Augmentor.fileRows` — the records of a file
* `Augmentor.IsRawDump` — records that fit the augmentor's buffers
* `Augmentor.Substituted` — a frame that replaces a `NAN`

## Main results

* `Augmentor.main_of_isRawDump` — the file that is written for a raw host dump
* `Augmentor.main_no_nan_iff` — when the file has no `NAN`
* `Augmentor.substituted_iff` — the frames that are substituted
-/

set_option autoImplicit false

namespace SagePTE.PageTables.Augmentor

open Numerals Scan Lines

variable {mem : Memory}

/-! ### Records of a file -/

/-- The records of a file: the fields of the lines after the first, without empty lines. -/
def fileRows (text : List Char) : List (List (List Char)) :=
  ((text.splitOn '\n').tail.filter (· ≠ [])).map (·.splitOn ',')

/-- The frames in the fields of records. -/
def rowPfns (rows : List (List (List Char))) : List (BitVec 64) :=
  rows.flatMap fun fields => fieldPfns fields.tail

/-- A file that is not empty and whose lines fit the buffer. The header, which is a number,
may be longer; it has no comma. -/
structure IsRawDump (text : List Char) : Prop where
  ne_nil : text ≠ []
  header : ∀ line ∈ (text.splitOn '\n').head?, ',' ∉ line ∨ line.length ≤ maxLine
  rows : ∀ fields ∈ fileRows text, IsRow fields

theorem commaLine_splitOn (line : List Char) : commaLine (line.splitOn ',') = line :=
  List.intercalate_splitOn ','

/-- The entries of a raw host dump are those of its records. -/
theorem IsRawDump.fileEntries_eq {text : List Char} (h : IsRawDump text) :
    fileEntries text = (fileRows text).filterMap Entry.ofFields := by
  obtain ⟨header, lines, hsplit⟩ := List.exists_cons_of_ne_nil (List.splitOn_ne_nil '\n' text)
  have hnewline : ∀ line ∈ header :: lines, '\n' ∉ line := by
    intro line hline
    rw [← hsplit] at hline
    exact not_mem_of_mem_splitOn hline
  have hrows : fileRows text = (lines.filter (· ≠ [])).map (·.splitOn ',') := by
    rw [fileRows, hsplit, List.tail_cons]
  -- a line is empty, or it is the line of a record
  have hrow : ∀ line ∈ lines, line ≠ [] → IsRow (line.splitOn ',') := by
    intro line hline hne
    refine h.rows _ ?_
    rw [hrows]
    exact List.mem_map_of_mem (List.mem_filter.mpr ⟨hline, by simpa using hne⟩)
  have hlines : ∀ line ∈ lines, '\n' ∉ line ∧ line.length ≤ maxLine := by
    intro line hline
    refine ⟨hnewline line (by simp [hline]), ?_⟩
    by_cases hnil : line = []
    · simp [hnil]
    · have hle := (hrow line hline hnil).line_le
      rwa [commaLine_splitOn] at hle
  have hheader := h.header header (by rw [hsplit]; rfl)
  calc fileEntries text
      = fileEntries (['\n'].intercalate (header :: lines)) := by
        rw [← hsplit, List.intercalate_splitOn]
    _ = lines.filterMap lineEntry :=
        fileEntries_intercalate (hnewline header (by simp)) hheader hlines
    _ = (lines.filter (· ≠ [])).filterMap lineEntry := by
        rw [List.filterMap_filter]
        refine List.filterMap_congr fun line _ => ?_
        by_cases hnil : line = []
        · simp [hnil, lineEntry_of_empty (rfl : lineText [] = [])]
        · simp [hnil]
    _ = (fileRows text).filterMap Entry.ofFields := by
        rw [hrows, List.filterMap_map]
        refine List.filterMap_congr fun line hline => ?_
        obtain ⟨hmem, hne⟩ := List.mem_filter.mp hline
        have hentry := lineEntry_commaLine (hrow line hmem (by simpa using hne))
        rwa [commaLine_splitOn] at hentry

theorem IsRawDump.map_fields {text : List Char} (h : IsRawDump text) :
    (fileEntries text).map Entry.fields = fileRows text := by
  rw [h.fileEntries_eq]
  exact map_fields_filterMap_ofFields fun fields hfields => (h.rows fields hfields).two_le

theorem rowPfns_map_fields (entries : List Entry) :
    rowPfns (entries.map Entry.fields) = collectedPfns entries := by
  simp only [rowPfns, List.flatMap_map, Entry.fields, List.tail_cons, collectedPfns]

theorem sum_length_map_fields (entries : List Entry) :
    ((entries.map Entry.fields).map fun fields => fields.tail.length).sum = fieldCount entries := by
  simp [fieldCount, Entry.fields, Function.comp_def]

theorem parseHex_mem_rowPfns {rows : List (List (List Char))} {fields : List (List Char)}
    (hfields : fields ∈ rows) {field : List Char} (hfield : field ∈ fields.tail) :
    parseHex field = BitVec.allOnes 64 ∨ parseHex field ∈ rowPfns rows := by
  by_cases hinvalid : parseHex field = BitVec.allOnes 64
  · exact .inl hinvalid
  · refine .inr (List.mem_flatMap.mpr ⟨fields, hfields, List.mem_filter.mpr ⟨?_, ?_⟩⟩)
    · exact List.mem_map_of_mem hfield
    · simpa using hinvalid

/-! ### Enough frames -/

/-- The records with frames for their `NAN` fields, by the numbers of record and field. -/
def substitute (new : ℕ → ℕ → BitVec 64) (rows : List (List (List Char))) :
    List (List (List Char)) :=
  rows.mapIdx fun i fields => fields.mapIdx fun j field =>
    if j ≠ 0 ∧ field = nan then hexText (new i j) else field

theorem fillRows_eq_substitute {rows : List (List (List Char))} {pfns : List (BitVec 64)}
    (henough : (rows.map rowNans).sum ≤ pfns.length) :
    fillRows rows pfns = substitute (fun i j => pfns.getD (nansBefore rows i j) 0) rows := by
  refine List.ext_getElem (by simp [fillRows, substitute]) fun i hi _ => ?_
  have hi : i < rows.length := by simpa [fillRows] using hi
  simp only [fillRows, substitute, List.getElem_mapIdx]
  refine List.ext_getElem (by simp) fun j hj _ => ?_
  have hj : j < rows[i].length := by simpa using hj
  simp only [List.getElem_mapIdx]
  by_cases hzero : j = 0
  · simp [hzero]
  · by_cases hnan : rows[i][j] = nan
    · have hfield : rows[i].tail[j - 1]? = some nan := by
        rw [List.getElem?_tail, Nat.sub_add_cancel (Nat.pos_of_ne_zero hzero),
          List.getElem?_eq_getElem hj, hnan]
      have hlt := nansBefore_lt ⟨_, List.getElem?_eq_getElem hi, hfield, hzero⟩
      simp only [hzero, hnan, filledField_of_lt (hlt.trans_le henough), if_false, ne_eq,
        not_false_eq_true, and_self, if_true]
    · simp only [hzero, hnan, filledField_of_ne _ _ hnan, if_false, and_false]

/-- The frame that the field `j` of the record `i` is filled with. -/
def newPfn (mem : Memory) (rows : List (List (List Char))) (i j : ℕ) : BitVec 64 :=
  (foundPfns mem (rowPfns rows)).getD (nansBefore rows i j) 0

section NewPfn

variable {rows : List (List (List Char))}
  (henough : (rows.map rowNans).sum ≤ (foundPfns mem (rowPfns rows)).length)

include henough

theorem newPfn_eq_get {i j : ℕ} (hnan : IsNan rows i j) :
    newPfn mem rows i j = (foundPfns mem (rowPfns rows)).get
      ⟨nansBefore rows i j, (nansBefore_lt hnan).trans_le henough⟩ :=
  (List.getElem_eq_getD _).symm

theorem newPfn_mem {i j : ℕ} (hnan : IsNan rows i j) :
    newPfn mem rows i j ∈ foundPfns mem (rowPfns rows) := by
  rw [newPfn_eq_get henough hnan]
  exact List.get_mem _ _

/-- No frame is found twice, and no two fields have the same number before them. -/
theorem newPfn_injective {i j i' j' : ℕ} (hnan : IsNan rows i j) (hnan' : IsNan rows i' j')
    (heq : newPfn mem rows i j = newPfn mem rows i' j') : i = i' ∧ j = j' := by
  rw [newPfn_eq_get henough hnan, newPfn_eq_get henough hnan'] at heq
  have hindex := (nodup_foundPfns mem _).get_inj_iff.mp heq
  exact nansBefore_injective hnan hnan' (Fin.mk.inj hindex)

theorem newPfn_ne_parseHex {i j : ℕ} (hnan : IsNan rows i j) {fields : List (List Char)}
    (hfields : fields ∈ rows) {field : List Char} (hfield : field ∈ fields.tail) :
    newPfn mem rows i j ≠ parseHex field := by
  have hmem := newPfn_mem henough hnan
  intro heq
  rcases parseHex_mem_rowPfns hfields hfield with hinvalid | hvalid
  · exact ne_allOnes_of_mem_foundPfns hmem (heq.trans hinvalid)
  · exact not_mem_of_mem_foundPfns hmem (heq ▸ hvalid)

end NewPfn

theorem map_fields_fillEntries_eq {text : List Char} (hdump : IsRawDump text)
    (henough : ((fileRows text).map rowNans).sum ≤
      (foundPfns mem (rowPfns (fileRows text))).length) :
    (fillEntries (fileEntries text) (foundPfns mem (collectedPfns (fileEntries text)))).map
      Entry.fields = substitute (newPfn mem (fileRows text)) (fileRows text) := by
  rw [map_fields_fillEntries, ← rowPfns_map_fields, hdump.map_fields,
    fillRows_eq_substitute henough]
  rfl

theorem exists_written_of_isRawDump {text : List Char} (hdump : IsRawDump text)
    (hfields : ((fileRows text).map fun fields => fields.tail.length).sum < 2 ^ 30)
    (hgrants : ∀ c ≤ 2 ^ 30, mem.grants .entries c = true ∧ mem.grants .allPfns c = true)
    (henough : ((fileRows text).map rowNans).sum ≤
      (foundPfns mem (rowPfns (fileRows text))).length) :
    ∃ report, main mem (some text) true = .written report := by
  rw [← hdump.map_fields] at hfields henough
  rw [sum_length_map_fields] at hfields
  rw [rowPfns_map_fields, ← nanCount_eq_sum_rowNans] at henough
  exact exists_main_written hgrants hdump.ne_nil hfields henough

/-- **The augmented file of a raw host dump.** If the fields are fewer than `2 ^ 30`, memory
is granted to that extent, and `find_gaps` returns at least as many frames as there are
`NAN` fields, then the file is written. It has the number of the records and the records
with the `NAN` fields replaced. The values are distinct, and none is that of another field. -/
theorem main_of_isRawDump {text : List Char} (hdump : IsRawDump text)
    (hfields : ((fileRows text).map fun fields => fields.tail.length).sum < 2 ^ 30)
    (hgrants : ∀ c ≤ 2 ^ 30, mem.grants .entries c = true ∧ mem.grants .allPfns c = true)
    (henough : ((fileRows text).map rowNans).sum ≤
      (foundPfns mem (rowPfns (fileRows text))).length) :
    ∃ report new, main mem (some text) true = .written report ∧
      report.output = unlines '\n' (intText (fileRows text).length ::
        (substitute new (fileRows text)).map commaLine) ∧
      (∀ i j i' j', IsNan (fileRows text) i j → IsNan (fileRows text) i' j' →
        new i j = new i' j' → i = i' ∧ j = j') ∧
      ∀ i j, IsNan (fileRows text) i j → ∀ fields ∈ fileRows text, ∀ field ∈ fields.tail,
        field ≠ nan → new i j ≠ parseHex field := by
  obtain ⟨report, hwritten⟩ := exists_written_of_isRawDump hdump hfields hgrants henough
  obtain ⟨-, hout, -⟩ := main_written hwritten
  refine ⟨report, newPfn mem (fileRows text), hwritten, ?_, ?_, ?_⟩
  · rw [hout, outputText_eq, ← List.length_map Entry.fields,
      map_fields_fillEntries_eq hdump henough]
    simp [substitute]
  · intro i j i' j' hnan hnan' heq
    exact newPfn_injective henough hnan hnan' heq
  · intro i j hnan fields hfs field hfield _
    exact newPfn_ne_parseHex henough hnan hfs hfield

/-- Memory for everything the address space can hold. -/
def ampleMemory : Memory where
  grants _ capacity := capacity < 2 ^ 31
  grants_lt h := of_decide_eq_true h

theorem ampleMemory_grants : ∀ c ≤ 2 ^ 30,
    ampleMemory.grants .entries c = true ∧ ampleMemory.grants .allPfns c = true :=
  fun _ hc => ⟨decide_eq_true (by omega), decide_eq_true (by omega)⟩

/-- A dump of one record with two frames between those it has. -/
def sampleRawDump : List Char := "7\na000,2,2,5,NAN,NAN\n".toList

theorem isRow_of_forall {fields : List (List Char)} (htwo : 2 ≤ fields.length)
    (hlength : fields.length ≤ maxFields)
    (hfields : ∀ field ∈ fields, field ≠ [] ∧ ∀ c ∈ [',', '\n', '\x00'], c ∉ field)
    (hline : (commaLine fields).length ≤ maxLine) : IsRow fields := by
  refine ⟨htwo, hlength, fun field hfield => ?_, hline⟩
  obtain ⟨hne, hsep⟩ := hfields field hfield
  exact ⟨hne, hsep ',' (by simp), hsep '\n' (by simp), hsep '\x00' (by simp)⟩

theorem isRawDump_sampleRawDump : IsRawDump sampleRawDump := by
  refine ⟨by decide, by decide, ?_⟩
  have hrows : fileRows sampleRawDump =
      [[['a', '0', '0', '0'], ['2'], ['2'], ['5'], nan, nan]] := by decide
  rw [hrows, List.forall_mem_singleton]
  exact isRow_of_forall (by decide) (by decide) (by simp [nan]) (by decide)

theorem main_of_isRawDump_sampleRawDump :
    ∃ report new, main ampleMemory (some sampleRawDump) true = .written report ∧
      report.output = unlines '\n' (intText 1 ::
        (substitute new (fileRows sampleRawDump)).map commaLine) ∧ new 0 4 ≠ new 0 5 := by
  obtain ⟨report, new, hmain, hout, hinj, -⟩ := main_of_isRawDump
    isRawDump_sampleRawDump (by decide) ampleMemory_grants (by decide +kernel)
  have hnan (j : ℕ) (hj : (fileRows sampleRawDump)[0]?.map (·.tail[j - 1]?) = some (some nan))
      (hne : j ≠ 0) : IsNan (fileRows sampleRawDump) 0 j := by
    obtain ⟨fields, hrow, hfield⟩ := Option.map_eq_some_iff.mp hj
    exact ⟨fields, hrow, hfield, hne⟩
  refine ⟨report, new, hmain, hout, fun heq => ?_⟩
  have hsame := hinj 0 4 0 5 (hnan 4 (by decide) (by decide)) (hnan 5 (by decide) (by decide)) heq
  exact absurd hsame.2 (by decide)

/-! ### Fields that are left -/

/-- A record of the file has a field that is `NAN`. -/
def HasNan (text : List Char) : Prop := ∃ line ∈ (text.splitOn '\n').tail, nan ∈ line.splitOn ','

theorem ofFields_fields {fields : List (List Char)} {e : Entry}
    (h : Entry.ofFields fields = some e) : e.fields = fields := by
  unfold Entry.ofFields at h
  split at h
  · obtain rfl := Option.some.inj h
    rw [Entry.fields, Entry.pfnFields, List.dropLast_append_getLast]
  · cases h

/-- The fields of an entry have no separators. -/
theorem not_mem_of_mem_fileEntries {text : List Char} {e : Entry} (he : e ∈ fileEntries text)
    {field : List Char} (hfield : field ∈ e.fields) : ',' ∉ field ∧ '\n' ∉ field := by
  obtain ⟨piece, -, hentry⟩ := List.mem_filterMap.mp he
  rw [ofFields_fields hentry] at hfield
  have hpart : field ∈ (lineText piece).splitOn ',' :=
    List.mem_of_mem_filter (List.mem_of_mem_take hfield)
  refine ⟨not_mem_of_mem_splitOn hpart, fun hc => ?_⟩
  have hline := List.mem_takeWhile_imp (mem_of_mem_splitOn hpart hc)
  simp at hline

/-- The fields of the records that are written are found again. -/
theorem hasNan_outputText_iff {entries : List Entry}
    (hfields : ∀ e ∈ entries, ∀ field ∈ e.fields, ',' ∉ field ∧ '\n' ∉ field) :
    HasNan (outputText entries) ↔ ∃ e ∈ entries, nan ∈ e.fields := by
  have hnewline : ∀ line ∈ intText entries.length ::
      (entries.map Entry.fields).map commaLine, '\n' ∉ line := by
    simp only [List.mem_cons, List.mem_map]
    rintro line (rfl | ⟨fields, ⟨e, he, rfl⟩, rfl⟩)
    · exact not_mem_intText rfl (by decide) _
    · exact not_mem_intercalate (by decide) fun field hfield => (hfields e he field hfield).2
  have hsplit : ((outputText entries).splitOn '\n').tail =
      (entries.map Entry.fields).map commaLine ++ [[]] := by
    rw [outputText_eq, splitOn_unlines hnewline]
    rfl
  have hcommas : ∀ e ∈ entries, (commaLine e.fields).splitOn ',' = e.fields := fun e he =>
    List.splitOn_intercalate ',' (fun field hfield => (hfields e he field hfield).1)
      (List.cons_ne_nil _ _)
  rw [HasNan, hsplit]
  simp only [List.mem_append, List.mem_map, List.mem_singleton]
  constructor
  · rintro ⟨line, ⟨fields, ⟨e, he, rfl⟩, rfl⟩ | rfl, hmem⟩
    · exact ⟨e, he, hcommas e he ▸ hmem⟩
    · simp [List.splitOn_nil, nan] at hmem
  · rintro ⟨e, he, hmem⟩
    exact ⟨_, .inl ⟨_, ⟨e, he, rfl⟩, rfl⟩, (hcommas e he).symm ▸ hmem⟩

/-- Whether the frames that are found are enough, for a file that is written. -/
theorem nanCount_le_foundPfns_iff {text : List Char} {outputOpens : Bool} {report : Report}
    (h : main mem (some text) outputOpens = .written report) :
    nanCount (fileEntries text) ≤ (foundPfns mem (collectedPfns (fileEntries text))).length ↔
      nanCount (fileEntries text) = 0 ∨ mem.grants .unallocated 1048576 = true ∧
        nanCount (fileEntries text) ≤
          (Between.gaps gapPfns (sortedPfns (collectedPfns (fileEntries text)))).length := by
  obtain ⟨-, -, -, hsuff⟩ := main_written h
  rcases Nat.eq_zero_or_pos (nanCount (fileEntries text)) with hzero | hpos
  · simp [hzero]
  · rw [foundPfns_of_suffices (hsuff hpos)]
    cases mem.grants .unallocated 1048576 with
    | false => simp
    | true => simp [hpos.ne']

/-- **`NAN` fields in the file.** A file that is written, for any input, has no `NAN` field
exactly if there was none to fill, or an array was granted and the small gaps between the frames
of the file have as many frames as there were fields to fill; and if no address is `NAN`. -/
theorem main_no_nan_iff {text : List Char} {outputOpens : Bool} {report : Report}
    (h : main mem (some text) outputOpens = .written report) :
    ¬HasNan report.output ↔
      (nanCount (fileEntries text) = 0 ∨ mem.grants .unallocated 1048576 = true ∧
        nanCount (fileEntries text) ≤
          (Between.gaps gapPfns (sortedPfns (collectedPfns (fileEntries text)))).length) ∧
        ∀ e ∈ fileEntries text, e.virtualAddr ≠ nan := by
  obtain ⟨-, hout, -⟩ := main_written h
  rw [← nanCount_le_foundPfns_iff h]
  generalize hpfns : foundPfns mem (collectedPfns (fileEntries text)) = pfns at hout ⊢
  have hfields : ∀ e ∈ fillEntries (fileEntries text) pfns, ∀ field ∈ e.fields,
      ',' ∉ field ∧ '\n' ∉ field := by
    intro e he field hfield
    have hrow : e.fields ∈ fillRows ((fileEntries text).map Entry.fields) pfns := by
      rw [← map_fields_fillEntries]
      exact List.mem_map_of_mem he
    rcases mem_fillRows hrow hfield with ⟨fields, hmem, hsame⟩ | rfl | ⟨pfn, rfl⟩
    · obtain ⟨e', he', rfl⟩ := List.mem_map.mp hmem
      exact not_mem_of_mem_fileEntries he' hsame
    · decide
    · exact ⟨(isNumeral_hexText pfn).not_mem rfl, (isNumeral_hexText pfn).not_mem rfl⟩
  have haddr : (∀ e ∈ fillEntries (fileEntries text) pfns, e.virtualAddr ≠ nan) ↔
      ∀ e ∈ fileEntries text, e.virtualAddr ≠ nan := by
    rw [← List.forall_mem_map (f := Entry.virtualAddr) (P := (· ≠ nan)),
      map_virtualAddr_fillEntries, List.forall_mem_map]
  have hcount : nanCount (fillEntries (fileEntries text) pfns) = 0 ↔
      nanCount (fileEntries text) ≤ pfns.length := by
    rw [nanCount_fillEntries]
    omega
  rw [hout, hasNan_outputText_iff hfields, ← hcount, nanCount_eq_zero_iff, ← haddr]
  simp only [Entry.fields, List.mem_cons, not_exists, not_and, not_or, ne_eq, eq_comm (a := nan)]
  exact ⟨fun h => ⟨fun e he => (h e he).2, fun e he => (h e he).1⟩,
    fun h e he => ⟨h.2 e he, h.1 e he⟩⟩

theorem sampleRawDump_no_nan :
    main ampleMemory (some sampleRawDump) true =
        .written ⟨2, 2, "1\na000,2,2,5,3,4\n".toList⟩ ∧
      ¬HasNan "1\na000,2,2,5,3,4\n".toList := by
  have hmain : main ampleMemory (some sampleRawDump) true =
      .written ⟨2, 2, "1\na000,2,2,5,3,4\n".toList⟩ := by decide +kernel
  exact ⟨hmain, (main_no_nan_iff hmain).mpr ⟨.inr (by decide +kernel), by decide +kernel⟩⟩

/-- A dump of a walk that ended at the second level. All its frames are the same, and there
is nothing between them. -/
def shortRawDump : List Char := "7\na000,2,2,NAN,NAN,NAN\n".toList

/-- The program ends with exit code 0, and the file has `NAN` fields. -/
theorem shortRawDump_has_nan :
    main ampleMemory (some shortRawDump) true =
        .written ⟨3, 0, "1\na000,2,2,NAN,NAN,NAN\n".toList⟩ ∧
      HasNan "1\na000,2,2,NAN,NAN,NAN\n".toList := by
  refine ⟨by decide +kernel, "a000,2,2,NAN,NAN,NAN".toList, by decide, by decide⟩

/-! ### Frames that are substituted -/

/-- The records of a file of records. -/
theorem fileRows_unlines {header : List Char} (hheader : '\n' ∉ header)
    {rows : List (List (List Char))} (htwo : ∀ fields ∈ rows, 2 ≤ fields.length)
    (hsep : ∀ fields ∈ rows, ∀ field ∈ fields, ',' ∉ field ∧ '\n' ∉ field) :
    fileRows (unlines '\n' (header :: rows.map commaLine)) = rows := by
  have hnewline : ∀ line ∈ header :: rows.map commaLine, '\n' ∉ line := by
    simp only [List.mem_cons, List.mem_map]
    rintro line (rfl | ⟨fields, hfields, rfl⟩)
    · exact hheader
    · exact not_mem_intercalate (by decide) fun field hfield => (hsep fields hfields field hfield).2
  have hne : ∀ line ∈ rows.map commaLine, line ≠ [] := by
    intro line hline
    obtain ⟨fields, hfields, rfl⟩ := List.mem_map.mp hline
    match fields, htwo fields hfields with
    | a :: b :: rest, _ =>
      rw [commaLine_cons_cons]
      simp
  have hfilter : (rows.map commaLine ++ [[]]).filter (· ≠ []) = rows.map commaLine := by
    rw [List.filter_append, List.filter_eq_self.mpr fun line hline => by simpa using hne line hline]
    simp
  rw [fileRows, splitOn_unlines hnewline, List.cons_append, List.tail_cons, hfilter, List.map_map]
  refine (List.map_congr_left fun fields hfields => ?_).trans (List.map_id rows)
  exact List.splitOn_intercalate ',' (fun field hfield => (hsep fields hfields field hfield).1)
    (List.ne_nil_of_length_pos (by have := htwo fields hfields; omega))

theorem length_of_mem_fillRows {rows : List (List (List Char))} {pfns : List (BitVec 64)}
    {fields : List (List Char)} (hfields : fields ∈ fillRows rows pfns) :
    ∃ fields' ∈ rows, fields.length = fields'.length := by
  rw [fillRows, List.mem_mapIdx] at hfields
  obtain ⟨i, hi, rfl⟩ := hfields
  exact ⟨rows[i], List.getElem_mem hi, List.length_mapIdx⟩

/-- The records of the file that is written. -/
theorem fileRows_output {text : List Char} (hdump : IsRawDump text) {outputOpens : Bool}
    {report : Report} (h : main mem (some text) outputOpens = .written report) :
    fileRows report.output =
      fillRows (fileRows text) (foundPfns mem (rowPfns (fileRows text))) := by
  obtain ⟨-, hout, -⟩ := main_written h
  rw [hout, outputText_eq, map_fields_fillEntries, ← rowPfns_map_fields, hdump.map_fields]
  refine fileRows_unlines (not_mem_intText rfl (by decide) _) ?_ ?_
  · intro fields hfields
    obtain ⟨fields', hmem, hlen⟩ := length_of_mem_fillRows hfields
    exact hlen ▸ (hdump.rows fields' hmem).two_le
  · intro fields hfields field hfield
    rcases mem_fillRows hfields hfield with ⟨fields', hmem, hsame⟩ | rfl | ⟨pfn, rfl⟩
    · have hvalid := (hdump.rows fields' hmem).isField field hsame
      exact ⟨hvalid.comma, hvalid.newline⟩
    · decide
    · exact ⟨(isNumeral_hexText pfn).not_mem rfl, (isNumeral_hexText pfn).not_mem rfl⟩

/-- The frame stands in the output where the input has a `NAN`. -/
def Substituted (input output : List Char) (pfn : BitVec 64) : Prop :=
  ∃ i j, IsNan (fileRows input) i j ∧
    (fileRows output)[i]?.bind (·[j]?) = some (hexText pfn)

theorem getElem?_fillRows_of_isNan {rows : List (List (List Char))} {pfns : List (BitVec 64)}
    {i j : ℕ} (h : IsNan rows i j) :
    (fillRows rows pfns)[i]?.bind (·[j]?) =
      some (pfns[nansBefore rows i j]?.elim nan hexText) := by
  obtain ⟨fields, hrow, hfield, hj⟩ := h
  rw [List.getElem?_tail, Nat.sub_add_cancel (Nat.pos_of_ne_zero hj)] at hfield
  simp [fillRows, List.getElem?_mapIdx, hrow, hfield, hj, filledField]

/-- The frames that are substituted are the first ones that `find_gaps` returns. -/
theorem substituted_iff {text : List Char} (hdump : IsRawDump text) {outputOpens : Bool}
    {report : Report} (h : main mem (some text) outputOpens = .written report)
    {pfn : BitVec 64} : Substituted text report.output pfn ↔
      pfn ∈ (foundPfns mem (rowPfns (fileRows text))).take ((fileRows text).map rowNans).sum := by
  rw [Substituted, fileRows_output hdump h]
  generalize foundPfns mem (rowPfns (fileRows text)) = pfns
  rw [List.mem_iff_getElem?]
  constructor
  · rintro ⟨i, j, hnan, hfield⟩
    refine ⟨nansBefore (fileRows text) i j, ?_⟩
    rw [getElem?_fillRows_of_isNan hnan] at hfield
    rw [List.getElem?_take_of_lt (nansBefore_lt hnan)]
    cases hget : pfns[nansBefore (fileRows text) i j]? with
    | none =>
      rw [hget] at hfield
      exact absurd (Option.some.inj hfield).symm (hexText_ne_nan pfn)
    | some pfn' =>
      rw [hget] at hfield
      rw [hexText_injective (Option.some.inj hfield)]
  · rintro ⟨k, hk⟩
    obtain ⟨hlt, hget⟩ : k < ((fileRows text).map rowNans).sum ∧ pfns[k]? = some pfn := by
      rw [List.getElem?_take] at hk
      split_ifs at hk with hlt
      exact ⟨hlt, hk⟩
    obtain ⟨i, j, hnan, rfl⟩ := exists_nansBefore_eq hlt
    refine ⟨i, j, hnan, ?_⟩
    rw [getElem?_fillRows_of_isNan hnan, hget]
    rfl

/-- These are the first ones of the small gaps between the frames of the dump, if an array is
granted. -/
theorem mem_take_foundPfns_iff {text : List Char} (hdump : IsRawDump text) {outputOpens : Bool}
    {report : Report} (h : main mem (some text) outputOpens = .written report)
    {pfn : BitVec 64} :
    pfn ∈ (foundPfns mem (rowPfns (fileRows text))).take ((fileRows text).map rowNans).sum ↔
      mem.grants .unallocated 1048576 = true ∧
        pfn ∈ (Between.gaps gapPfns (sortedPfns (rowPfns (fileRows text)))).take
          ((fileRows text).map rowNans).sum := by
  obtain ⟨-, -, -, hsuff⟩ := main_written h
  rw [nanCount_eq_sum_rowNans, ← rowPfns_map_fields, hdump.map_fields] at hsuff
  rcases Nat.eq_zero_or_pos ((fileRows text).map rowNans).sum with hzero | hpos
  · simp [hzero]
  · rw [foundPfns_of_suffices (hsuff hpos)]
    cases mem.grants .unallocated 1048576 with
    | false => simp
    | true => simp

end SagePTE.PageTables.Augmentor
