import Mathlib.Data.List.TakeWhile
import SagePTE.PageTables.AugmentorFill
import SagePTE.PageTables.GapArray

/-!
# What the augmentor writes

The entries that the augmentor reads are those of its lines, in their order, and it
collects the frames of their fields. The file that is written has a line for each entry,
filled with the frames that were found between the collected ones. Where these are at
least as many as the `NAN` fields, each of these fields is filled.

## Main definitions

* `Augmentor.fileEntries` — the entries of a file
* `Augmentor.collectedPfns` — the frames of their fields

## Main results

* `Augmentor.foldlM_readLine` — the loop over lines
* `Augmentor.exists_foldlM_readLine` — enough memory for the loop
* `Augmentor.finish_eq_written_iff`, `Augmentor.main_written` — the file that is written
* `Augmentor.fileEntries_unlines` — the entries of a file of records
* `Augmentor.main_rows` — the file that is written for it
-/

set_option autoImplicit false

namespace SagePTE.PageTables.Augmentor

open Numerals Scan Lines

variable {mem : Memory}

/-! ### The loop over lines -/

/-- The frames that are collected from fields. -/
def fieldPfns (fields : List (List Char)) : List (BitVec 64) :=
  (fields.map parseHex).filter (· ≠ BitVec.allOnes 64)

/-- The frames that are collected from entries. -/
def collectedPfns (entries : List Entry) : List (BitVec 64) :=
  entries.flatMap fun e => fieldPfns e.pfnFields

theorem Memory.makeRoom_lt {array : GrowingArray} {initial count capacity capacity' : ℕ}
    (h : mem.makeRoom array initial count capacity = some capacity') (hcap : capacity < 2 ^ 31) :
    capacity' < 2 ^ 31 := by
  unfold Memory.makeRoom at h
  split at h
  · exact Option.some.inj h ▸ hcap
  · obtain ⟨hgrant, heq⟩ := Option.ite_none_right_eq_some.mp h
    exact Option.some.inj heq ▸ mem.grants_lt hgrant

theorem Memory.lt_of_makeRoom {array : GrowingArray} {initial count capacity capacity' : ℕ}
    (h : mem.makeRoom array initial count capacity = some capacity') (hcount : count ≤ capacity)
    (hinitial : 0 < initial) : count < capacity' := by
  unfold Memory.makeRoom at h
  split at h
  · next hlt => exact Option.some.inj h ▸ hlt
  · next hfull =>
    obtain ⟨-, heq⟩ := Option.ite_none_right_eq_some.mp h
    have heq := Option.some.inj heq
    -- the doubled or initial capacity has a free slot
    split at heq <;> omega

/-- The entries have slots, and the number of slots fits an `int`. -/
structure Reader.Fits (r : Reader) : Prop where
  count_le : r.entries.length ≤ r.capacity
  capacity_lt : r.capacity < 2 ^ 31

theorem collectPfn_eq_some {field : List Char} {r r' : Reader}
    (h : collectPfn mem r field = some r') :
    r'.entries = r.entries ∧ r'.capacity = r.capacity ∧
      r'.allPfns = r.allPfns ++ fieldPfns [field] := by
  simp only [collectPfn] at h
  split at h
  · next hinvalid =>
    obtain rfl := Option.some.inj h
    exact ⟨rfl, rfl, by simp [fieldPfns, hinvalid]⟩
  · next hvalid =>
    obtain ⟨capacity, -, heq⟩ := Option.bind_eq_some_iff.mp h
    obtain rfl := Option.some.inj heq
    refine ⟨rfl, rfl, ?_⟩
    rw [fieldPfns, List.map_singleton, List.filter_cons_of_pos (by simpa using hvalid),
      List.filter_nil]

/-- Collecting frames leaves the entries as they are. -/
theorem foldlM_collectPfn {fields : List (List Char)} {r r' : Reader}
    (h : fields.foldlM (collectPfn mem) r = some r') :
    r'.entries = r.entries ∧ r'.capacity = r.capacity ∧
      r'.allPfns = r.allPfns ++ fieldPfns fields := by
  induction fields generalizing r with
  | nil =>
    obtain rfl := Option.some.inj h
    exact ⟨rfl, rfl, by simp [fieldPfns]⟩
  | cons field fields ih =>
    rw [List.foldlM_cons] at h
    obtain ⟨r₁, hfield, hrest⟩ := Option.bind_eq_some_iff.mp h
    obtain ⟨hentries, hcapacity, hpfns⟩ := ih hrest
    obtain ⟨hentries₁, hcapacity₁, hpfns₁⟩ := collectPfn_eq_some hfield
    refine ⟨hentries.trans hentries₁, hcapacity.trans hcapacity₁, ?_⟩
    rw [hpfns, hpfns₁, List.append_assoc, fieldPfns, fieldPfns, ← List.filter_append,
      ← List.map_append, List.singleton_append]
    rfl

/-- An empty line has no entry. -/
theorem lineEntry_of_empty {piece : List Char} (h : lineText piece = []) :
    lineEntry piece = none := by
  rw [lineEntry, h]
  rfl

/-- One round adds the entry of its line, if the line has one. -/
theorem readLine_entries {piece : List Char} {r r' : Reader} (h : readLine mem r piece = some r')
    (hr : r.Fits) :
    r'.entries = r.entries ++ (lineEntry piece).toList ∧
      r'.allPfns = r.allPfns ++ collectedPfns (lineEntry piece).toList ∧ r'.Fits := by
  unfold readLine at h
  split at h
  · next hempty =>
    obtain rfl := Option.some.inj h
    exact ⟨by simp [lineEntry_of_empty hempty], by simp [lineEntry_of_empty hempty, collectedPfns],
      hr⟩
  · obtain ⟨capacity, hroom, h⟩ := Option.bind_eq_some_iff.mp h
    -- room is made before the line is known to have an entry
    have hlt := Memory.makeRoom_lt hroom hr.capacity_lt
    have hcount := Memory.lt_of_makeRoom hroom hr.count_le (by decide)
    cases hentry : lineEntry piece with
    | none =>
      rw [hentry] at h
      obtain rfl := Option.some.inj h
      exact ⟨by simp, by simp [collectedPfns], hcount.le, hlt⟩
    | some e =>
      rw [hentry] at h
      obtain ⟨hentries, hcapacity, hpfns⟩ := foldlM_collectPfn h
      refine ⟨by simpa using hentries, by simpa [collectedPfns] using hpfns, ?_, ?_⟩
      · rw [hentries, hcapacity, List.length_append]
        exact hcount
      · rwa [hcapacity]

/-- The loop adds the entries of its lines in their order. -/
theorem foldlM_readLine {lines : List (List Char)} {r r' : Reader}
    (h : lines.foldlM (readLine mem) r = some r') (hr : r.Fits) :
    r'.entries = r.entries ++ lines.filterMap lineEntry ∧
      r'.allPfns = r.allPfns ++ collectedPfns (lines.filterMap lineEntry) ∧ r'.Fits := by
  induction lines generalizing r with
  | nil =>
    obtain rfl := Option.some.inj h
    exact ⟨by simp, by simp [collectedPfns], hr⟩
  | cons piece lines ih =>
    rw [List.foldlM_cons] at h
    obtain ⟨r₁, hline, hrest⟩ := Option.bind_eq_some_iff.mp h
    obtain ⟨hentries₁, hpfns₁, hr₁⟩ := readLine_entries hline hr
    obtain ⟨hentries, hpfns, hr'⟩ := ih hrest hr₁
    have happ : (piece :: lines).filterMap lineEntry =
        (lineEntry piece).toList ++ lines.filterMap lineEntry := by
      cases hentry : lineEntry piece <;> simp [hentry]
    refine ⟨?_, ?_, hr'⟩
    · rw [hentries, hentries₁, List.append_assoc, happ]
    · rw [hpfns, hpfns₁, List.append_assoc, happ, collectedPfns, collectedPfns, collectedPfns,
        List.flatMap_append]

/-! ### Enough memory for the loop -/

/-- A capacity that doubling leads to. -/
def IsCapacity (capacity : ℕ) : Prop := capacity = 0 ∨ ∃ k, capacity = 2 ^ k

theorem Memory.exists_makeRoom {array : GrowingArray} {k count capacity : ℕ}
    (hgrants : ∀ c ≤ 2 ^ 30, mem.grants array c = true) (hk : k ≤ 30)
    (hcapacity : IsCapacity capacity) (hle : count ≤ capacity) (hlt : count < 2 ^ 30) :
    ∃ capacity', mem.makeRoom array (2 ^ k) count capacity = some capacity' ∧
      IsCapacity capacity' ∧ count < capacity' := by
  unfold Memory.makeRoom
  split
  · next hfree => exact ⟨capacity, rfl, hcapacity, hfree⟩
  · next hfull =>
    have heq : capacity = count := by omega
    have hpos : 0 < 2 ^ k := Nat.two_pow_pos k
    rcases hcapacity with rfl | ⟨n, rfl⟩
    · refine ⟨2 ^ k, ?_, .inr ⟨k, rfl⟩, by omega⟩
      rw [if_pos rfl, if_pos (hgrants _ (Nat.pow_le_pow_right (by decide) hk))]
    · -- a power of two below `2 ^ 30` may be doubled
      have hn : n < 30 := (Nat.pow_lt_pow_iff_right (by decide)).mp (heq ▸ hlt)
      have hdouble : 2 ^ n * 2 = 2 ^ (n + 1) := (Nat.pow_succ 2 n).symm
      have hnpos : 0 < 2 ^ n := Nat.two_pow_pos n
      refine ⟨2 ^ n * 2, ?_, .inr ⟨n + 1, hdouble⟩, by omega⟩
      rw [if_neg hnpos.ne', if_pos]
      exact hgrants _ (hdouble ▸ Nat.pow_le_pow_right (by decide) hn)

/-- Both arrays have room for what they hold. -/
structure Reader.Roomy (r : Reader) : Prop where
  entries_le : r.entries.length ≤ r.capacity
  isCapacity : IsCapacity r.capacity
  allPfns_le : r.allPfns.length ≤ r.allPfnCapacity
  isPfnCapacity : IsCapacity r.allPfnCapacity

theorem Reader.roomy_initial : ({} : Reader).Roomy := ⟨le_rfl, .inl rfl, le_rfl, .inl rfl⟩

theorem exists_foldlM_collectPfn (hgrants : ∀ c ≤ 2 ^ 30, mem.grants .allPfns c = true)
    {fields : List (List Char)} {r : Reader} (hr : r.Roomy)
    (hlt : r.allPfns.length + fields.length ≤ 2 ^ 30) :
    ∃ r', fields.foldlM (collectPfn mem) r = some r' ∧ r'.Roomy := by
  induction fields generalizing r with
  | nil => exact ⟨r, rfl, hr⟩
  | cons field fields ih =>
    rw [List.length_cons] at hlt
    have hone : ∃ r₁, collectPfn mem r field = some r₁ ∧ r₁.Roomy := by
      simp only [collectPfn]
      split
      · exact ⟨r, rfl, hr⟩
      · obtain ⟨capacity, hroom, hcap, hfree⟩ := Memory.exists_makeRoom (k := 16) hgrants
          (by decide) hr.isPfnCapacity hr.allPfns_le (by omega)
        refine ⟨_, Option.bind_eq_some_iff.mpr ⟨capacity, hroom, rfl⟩, hr.entries_le,
          hr.isCapacity, ?_, hcap⟩
        rw [List.length_append, List.length_singleton]
        exact hfree
    obtain ⟨r₁, hfirst, hr₁⟩ := hone
    have hcount : r₁.allPfns.length ≤ r.allPfns.length + 1 := by
      rw [(collectPfn_eq_some hfirst).2.2, List.length_append]
      exact Nat.add_le_add_left (List.length_filter_le _ _) _
    obtain ⟨r', hrest, hr'⟩ := ih hr₁ (by omega)
    exact ⟨r', by rw [List.foldlM_cons]; exact Option.bind_eq_some_iff.mpr ⟨r₁, hfirst, hrest⟩,
      hr'⟩

/-- The number of fields of entries, the addresses not counted. -/
def fieldCount (entries : List Entry) : ℕ := (entries.map fun e => e.pfnFields.length).sum

theorem fieldCount_toList_append (piece : List Char) (entries : List Entry) :
    fieldCount ((lineEntry piece).toList ++ entries) =
      fieldCount (lineEntry piece).toList + fieldCount entries := by
  simp [fieldCount]

/-- The loop ends with all lines read if the fields are fewer than `2 ^ 30` and each array
may grow that far. -/
theorem exists_foldlM_readLine
    (hgrants : ∀ c ≤ 2 ^ 30, mem.grants .entries c = true ∧ mem.grants .allPfns c = true)
    {lines : List (List Char)} {r : Reader} (hr : r.Roomy)
    (hentries : r.entries.length + fieldCount (lines.filterMap lineEntry) < 2 ^ 30)
    (hpfns : r.allPfns.length + fieldCount (lines.filterMap lineEntry) < 2 ^ 30) :
    ∃ r', lines.foldlM (readLine mem) r = some r' := by
  induction lines generalizing r with
  | nil => exact ⟨r, rfl⟩
  | cons piece lines ih =>
    have happ : (piece :: lines).filterMap lineEntry =
        (lineEntry piece).toList ++ lines.filterMap lineEntry := by
      cases hentry : lineEntry piece <;> simp [hentry]
    rw [happ, fieldCount_toList_append] at hentries hpfns
    suffices hone : ∃ r₁, readLine mem r piece = some r₁ ∧ r₁.Roomy ∧
        r₁.entries.length ≤ r.entries.length + fieldCount (lineEntry piece).toList ∧
        r₁.allPfns.length ≤ r.allPfns.length + fieldCount (lineEntry piece).toList by
      obtain ⟨r₁, hline, hr₁, hle, hle'⟩ := hone
      obtain ⟨r', hrest⟩ := ih hr₁ (by omega) (by omega)
      exact ⟨r', by rw [List.foldlM_cons]; exact Option.bind_eq_some_iff.mpr ⟨r₁, hline, hrest⟩⟩
    unfold readLine
    split
    · exact ⟨r, rfl, hr, by omega, by omega⟩
    · obtain ⟨capacity, hroom, hcap, hfree⟩ := Memory.exists_makeRoom (k := 10)
        (fun c hc => (hgrants c hc).1) (by decide) hr.isCapacity hr.entries_le
        (by omega : r.entries.length < 2 ^ 30)
      cases hentry : lineEntry piece with
      | none =>
        refine ⟨_, Option.bind_eq_some_iff.mpr ⟨capacity, hroom, rfl⟩,
          ⟨hfree.le, hcap, hr.allPfns_le, hr.isPfnCapacity⟩, ?_, ?_⟩ <;> simp
      | some e =>
        have hfields : fieldCount (some e).toList = e.pfnFields.length := by simp [fieldCount]
        rw [hentry, hfields] at hpfns
        have hroomy : ({ r with entries := r.entries ++ [e], capacity } : Reader).Roomy := by
          refine ⟨?_, hcap, hr.allPfns_le, hr.isPfnCapacity⟩
          rw [List.length_append, List.length_singleton]
          exact hfree
        obtain ⟨r₁, hcollect, hr₁⟩ := exists_foldlM_collectPfn (fun c hc => (hgrants c hc).2)
          hroomy (by omega : r.allPfns.length + e.pfnFields.length ≤ 2 ^ 30)
        obtain ⟨hentries₁, -, hpfns₁⟩ := foldlM_collectPfn hcollect
        refine ⟨r₁, Option.bind_eq_some_iff.mpr ⟨capacity, hroom, hcollect⟩, hr₁, ?_, ?_⟩
        · rw [hentries₁, hfields, Entry.pfnFields, List.length_append, List.length_append]
          simp only [List.length_singleton]
          omega
        · rw [hpfns₁, hfields, List.length_append]
          refine Nat.add_le_add_left ((List.length_filter_le _ _).trans ?_) _
          rw [List.length_map]

/-! ### The file that is written -/

/-- The entries of a file. -/
def fileEntries (text : List Char) : List Entry :=
  (pieces '\n' maxLine maxLine text).tail.filterMap lineEntry

/-- The end of the program: it writes the file unless it follows the null pointer, or the
output does not open. -/
theorem finish_eq_written_iff {outputOpens : Bool} {r : Reader} {report : Report} :
    finish mem outputOpens r = .written report ↔
      ¬((findGaps mem (sortedPfns r.allPfns)).1 = none ∧
          0 < (findGaps mem (sortedPfns r.allPfns)).2 ∧ 0 < nanCount r.entries) ∧
        outputOpens = true ∧
        ⟨nanCount r.entries, (findGaps mem (sortedPfns r.allPfns)).2,
          outputText (fillEntries r.entries (foundPfns mem r.allPfns))⟩ = report := by
  have heq : finish mem outputOpens r =
      if (findGaps mem (sortedPfns r.allPfns)).1 = none ∧
          0 < (findGaps mem (sortedPfns r.allPfns)).2 ∧ 0 < nanCount r.entries then .crashed
      else if !outputOpens then .failed "Failed to open output file"
      else .written ⟨nanCount r.entries, (findGaps mem (sortedPfns r.allPfns)).2,
        outputText (fillEntries r.entries (foundPfns mem r.allPfns))⟩ := rfl
  rw [heq]
  split_ifs with hcrash hopens
  · simp [hcrash]
  · simp_all
  · simp_all

/-- What is written for any input: the entries of the file, filled with the frames that were
found. The count that is reported says whether they are enough. If there is a field to fill, the
array was enlarged whenever there was need. -/
theorem main_written {text : List Char} {outputOpens : Bool} {report : Report}
    (h : main mem (some text) outputOpens = .written report) :
    (fileEntries text).length < 2 ^ 31 ∧
      report.output = outputText (fillEntries (fileEntries text)
        (foundPfns mem (collectedPfns (fileEntries text)))) ∧
      (report.nanCount ≤ report.unallocCount ↔ nanCount (fileEntries text) ≤
        (foundPfns mem (collectedPfns (fileEntries text))).length) ∧
      (0 < nanCount (fileEntries text) →
        ArraySuffices mem (sortedPfns (collectedPfns (fileEntries text)))) := by
  -- of the outcomes only `written` is left, at the end of `finish`
  simp only [main] at h
  split at h
  · cases h
  next first lines hpieces =>
  split at h
  · cases h
  next r hread =>
  obtain ⟨hentries, hpfns, hfits⟩ := foldlM_readLine hread ⟨Nat.le_refl 0, by decide⟩
  have hfile : fileEntries text = r.entries := by
    rw [fileEntries, hpieces]
    exact hentries.symm
  have hall : collectedPfns (fileEntries text) = r.allPfns := by
    rw [fileEntries, hpieces]
    exact hpfns.symm
  obtain ⟨hnocrash, -, rfl⟩ := finish_eq_written_iff.mp h
  rw [hall, hfile]
  refine ⟨hfits.count_le.trans_lt hfits.capacity_lt, rfl, ?_, fun hpos => ?_⟩
  · rcases findGaps_cases mem (sortedPfns r.allPfns) with hnone | hsome
    · -- without an array the count is zero, or there is nothing to fill
      have hfound : foundPfns mem r.allPfns = [] := by rw [foundPfns, hnone, Option.getD_none]
      rw [hfound, List.length_nil]
      have hcount : ¬(0 < (findGaps mem (sortedPfns r.allPfns)).2 ∧ 0 < nanCount r.entries) :=
        fun hpos => hnocrash ⟨hnone, hpos⟩
      simp only
      omega
    · rw [foundPfns, hsome, Option.getD_some]
  · by_contra hsuff
    obtain ⟨hnone, hcount⟩ := findGaps_error_iff.mpr hsuff
    exact hnocrash ⟨hnone, hcount, hpos⟩

/-- The program comes to its end if there is memory for its arrays and `find_gaps` returns
enough frames. -/
theorem exists_main_written
    (hgrants : ∀ c ≤ 2 ^ 30, mem.grants .entries c = true ∧ mem.grants .allPfns c = true)
    {text : List Char} (hne : text ≠ []) (hcount : fieldCount (fileEntries text) < 2 ^ 30)
    (henough : nanCount (fileEntries text) ≤
      (foundPfns mem (collectedPfns (fileEntries text))).length) :
    ∃ report, main mem (some text) true = .written report := by
  have hsome : pieces '\n' maxLine maxLine text ≠ [] := pieces_ne_nil hne
  obtain ⟨first, lines, hpieces⟩ := List.exists_cons_of_ne_nil hsome
  have hfile : fileEntries text = lines.filterMap lineEntry := by rw [fileEntries, hpieces]; rfl
  rw [hfile] at hcount henough
  obtain ⟨r, hread⟩ : ∃ r, lines.foldlM (readLine mem) {} = some r :=
    exists_foldlM_readLine hgrants Reader.roomy_initial (by simpa using hcount)
      (by simpa using hcount)
  obtain ⟨hentries, hpfns, -⟩ := foldlM_readLine hread ⟨Nat.le_refl 0, by decide⟩
  rw [List.nil_append] at hentries hpfns
  rw [← hpfns, ← hentries] at henough
  have hnocrash : ¬((findGaps mem (sortedPfns r.allPfns)).1 = none ∧
      0 < (findGaps mem (sortedPfns r.allPfns)).2 ∧ 0 < nanCount r.entries) := by
    rintro ⟨hnone, -, hpos⟩
    rw [foundPfns, hnone, Option.getD_none, List.length_nil] at henough
    omega
  have hfinish := finish_eq_written_iff.mpr ⟨hnocrash, rfl, rfl⟩
  exact ⟨_, by simp only [main, hpieces, hread]; exact hfinish⟩

/-! ### Files of records -/

/-- A field that is found again in its line. -/
structure IsField (field : List Char) : Prop where
  ne_nil : field ≠ []
  comma : ',' ∉ field
  newline : '\n' ∉ field
  nul : '\x00' ∉ field

/-- A record whose fields and whose line are not too many or too long. -/
structure IsRow (fields : List (List Char)) : Prop where
  two_le : 2 ≤ fields.length
  length_le : fields.length ≤ maxFields
  isField : ∀ field ∈ fields, IsField field
  line_le : (commaLine fields).length ≤ maxLine

/-- A field before and after filling. -/
def FilledField (field field' : List Char) : Prop :=
  (field ≠ nan ∧ field' = field) ∨ (field = nan ∧ ∃ pfn, field' = hexText pfn)

/-- A record before and after filling. -/
structure FilledRow (fields fields' : List (List Char)) : Prop where
  virtualAddr : fields'.head? = fields.head?
  pfnFields : List.Forall₂ FilledField fields.tail fields'.tail

theorem IsRow.newline_not_mem {fields : List (List Char)} (h : IsRow fields) :
    '\n' ∉ commaLine fields :=
  not_mem_intercalate (by decide) fun f hf => (h.isField f hf).newline

/-- What stands in the buffer without its newline. -/
theorem lineText_of_not_mem {line : List Char} (hnewline : '\n' ∉ line) (hnul : '\x00' ∉ line) :
    lineText line = line := by
  refine List.takeWhile_eq_self_iff.mpr fun c hc => ?_
  simp only [ne_eq, decide_eq_true_eq]
  exact ⟨fun h => hnewline (h ▸ hc), fun h => hnul (h ▸ hc)⟩

theorem lineText_append_newline (line : List Char) :
    lineText (line ++ ['\n']) = lineText line := by
  induction line with
  | nil => rfl
  | cons c line ih =>
    simp only [lineText] at ih
    simp only [lineText, List.cons_append, List.takeWhile_cons, ih]

theorem lineEntry_append_newline (line : List Char) :
    lineEntry (line ++ ['\n']) = lineEntry line := by
  rw [lineEntry, lineText_append_newline, lineEntry]

theorem tokens_commaLine {fields : List (List Char)} (hne : fields ≠ [])
    (hfields : ∀ field ∈ fields, IsField field) : tokens (commaLine fields) = fields := by
  rw [tokens, commaLine, List.splitOn_intercalate ',' (fun f hf => (hfields f hf).comma) hne]
  refine List.filter_eq_self.mpr fun field hfield => ?_
  simpa using (hfields field hfield).ne_nil

theorem lineEntry_commaLine {fields : List (List Char)} (h : IsRow fields) :
    lineEntry (commaLine fields) = Entry.ofFields fields := by
  have hne : fields ≠ [] := List.ne_nil_of_length_pos (by have := h.two_le; omega)
  have htext : lineText (commaLine fields) = commaLine fields :=
    lineText_of_not_mem h.newline_not_mem
      (not_mem_intercalate (by decide) fun f hf => (h.isField f hf).nul)
  rw [lineEntry, htext, tokens_commaLine hne h.isField, List.take_of_length_le h.length_le]

/-- A line without a comma has one field at most. -/
theorem lineEntry_of_not_mem {piece : List Char} (h : ',' ∉ piece) : lineEntry piece = none := by
  have hline : ',' ∉ lineText piece := fun hmem => h ((List.takeWhile_sublist _).subset hmem)
  have hsplit : (lineText piece).splitOn ',' = [lineText piece] := by
    have hone : ([','].intercalate [lineText piece]).splitOn ',' = [lineText piece] :=
      List.splitOn_intercalate ',' (by simpa using hline) (by simp)
    simpa using hone
  rw [lineEntry, tokens, hsplit]
  by_cases hempty : lineText piece = []
  · simp [hempty, Entry.ofFields]
  · simp [hempty, maxFields, Entry.ofFields]

theorem ofFields_eq_some {fields : List (List Char)} (h : 2 ≤ fields.length) :
    ∃ e, Entry.ofFields fields = some e ∧ e.fields = fields := by
  match fields, h with
  | virtualAddr :: field :: fields, _ =>
    refine ⟨_, rfl, ?_⟩
    rw [Entry.fields, Entry.pfnFields, List.dropLast_append_getLast]

/-- The records of a file are those of its entries. -/
theorem map_fields_filterMap_ofFields {rows : List (List (List Char))}
    (hrows : ∀ fields ∈ rows, 2 ≤ fields.length) :
    (rows.filterMap Entry.ofFields).map Entry.fields = rows := by
  induction rows with
  | nil => rfl
  | cons fields rows ih =>
    obtain ⟨e, he, heq⟩ := ofFields_eq_some (hrows fields (by simp))
    rw [List.filterMap_cons_some he, List.map_cons, heq, ih fun f hf => hrows f (by simp [hf])]

/-- The entries of lines that fit the buffer. -/
theorem filterMap_lineEntry_pieces {lines : List (List Char)}
    (hlines : ∀ line ∈ lines, '\n' ∉ line ∧ line.length ≤ maxLine) :
    (pieces '\n' maxLine maxLine (['\n'].intercalate lines)).filterMap lineEntry =
      lines.filterMap lineEntry := by
  induction lines with
  | nil => rfl
  | cons line lines ih =>
    obtain ⟨hnewline, hle⟩ := hlines line (by simp)
    cases lines with
    | nil =>
      rw [List.intercalate_singleton, pieces_of_length_le hnewline hle]
      split_ifs with hnil
      · rw [hnil]
        rfl
      · rfl
    | cons line' lines =>
      have hrest := ih fun l hl => hlines l (by simp [hl])
      rw [List.intercalate_cons_cons, List.append_assoc, List.singleton_append]
      rcases pieces_append_sep_cases hnewline hle (['\n'].intercalate (line' :: lines)) with
        heq | heq
      · rw [heq, List.filterMap_cons, lineEntry_append_newline, hrest]
        rfl
      · -- the newline is read as an empty line
        rw [heq, List.filterMap_cons, List.filterMap_cons_none (lineEntry_of_empty rfl), hrest]
        rfl

/-- The entries of a file whose lines fit the buffer. The header may be longer if it has no
comma. -/
theorem fileEntries_intercalate {header : List Char} (hnewline : '\n' ∉ header)
    (hheader : ',' ∉ header ∨ header.length ≤ maxLine) {lines : List (List Char)}
    (hlines : ∀ line ∈ lines, '\n' ∉ line ∧ line.length ≤ maxLine) :
    fileEntries (['\n'].intercalate (header :: lines)) = lines.filterMap lineEntry := by
  have hnone {ps : List (List Char)} (hps : ∀ p ∈ ps, ',' ∉ p) : ps.filterMap lineEntry = [] :=
    List.filterMap_eq_nil_iff.mpr fun p hp => lineEntry_of_not_mem (hps p hp)
  unfold fileEntries
  cases lines with
  | nil =>
    rw [List.intercalate_singleton]
    rcases hheader with hcomma | hle
    · exact hnone fun p hp hc => hcomma (mem_of_mem_pieces (List.mem_of_mem_tail hp) hc)
    · rw [pieces_of_length_le hnewline hle]
      split_ifs <;> rfl
  | cons line lines =>
    have hrest := filterMap_lineEntry_pieces hlines
    rw [List.intercalate_cons_cons, List.append_assoc, List.singleton_append]
    rcases hheader with hcomma | hle
    · -- what is left of the header has no fields
      obtain ⟨first, rest, heq, hmem⟩ := exists_pieces_append_sep maxLine maxLine hnewline
        (['\n'].intercalate (line :: lines))
      rw [heq, List.cons_append, List.tail_cons, List.filterMap_append, hrest, hnone,
        List.nil_append]
      intro p hp hc
      rcases hmem p (by simp [hp]) ',' hc with heq | hc
      · exact absurd heq (by decide)
      · exact hcomma hc
    · rcases pieces_append_sep_cases hnewline hle (['\n'].intercalate (line :: lines)) with
        heq | heq
      · rw [heq, List.tail_cons, hrest]
      · rw [heq, List.tail_cons, List.filterMap_cons_none (lineEntry_of_empty rfl), hrest]

/-- The entries of a file of records. -/
theorem fileEntries_unlines {header : List Char} (hnewline : '\n' ∉ header)
    (hcomma : ',' ∉ header) {rows : List (List (List Char))}
    (hrows : ∀ fields ∈ rows, IsRow fields) :
    fileEntries (unlines '\n' (header :: rows.map commaLine)) = rows.filterMap Entry.ofFields := by
  have hlines : ∀ line ∈ rows.map commaLine ++ [[]], '\n' ∉ line ∧ line.length ≤ maxLine := by
    intro line hline
    rcases List.mem_append.mp hline with hline | hline
    · obtain ⟨fields, hfields, rfl⟩ := List.mem_map.mp hline
      exact ⟨(hrows fields hfields).newline_not_mem, (hrows fields hfields).line_le⟩
    · rw [List.mem_singleton.mp hline]
      simp
  rw [unlines_eq_intercalate, List.cons_append,
    fileEntries_intercalate hnewline (.inl hcomma) hlines, List.filterMap_append,
    List.filterMap_cons_none (lineEntry_of_empty rfl), List.filterMap_nil, List.append_nil,
    List.filterMap_map]
  exact List.filterMap_congr fun fields hfields => lineEntry_commaLine (hrows fields hfields)

/-! ### Enough frames -/

theorem filledField_of_lt {pfns : List (BitVec 64)} {n : ℕ} (hn : n < pfns.length) :
    filledField pfns n nan = hexText (pfns.getD n 0) := by
  simp [filledField, hn]

theorem filledField_of_ne (pfns : List (BitVec 64)) (n : ℕ) {field : List Char}
    (hne : field ≠ nan) : filledField pfns n field = field := if_neg hne

theorem forall₂_mapIdx {α β : Type} {R : α → β → Prop} {f : ℕ → α → β} {l : List α}
    (h : ∀ i a, l[i]? = some a → R a (f i a)) : List.Forall₂ R l (l.mapIdx f) := by
  induction l generalizing f with
  | nil => exact .nil
  | cons a l ih =>
    rw [List.mapIdx_cons]
    exact .cons (h 0 a rfl) (ih fun i b hb => h (i + 1) b hb)

/-- With enough frames every `NAN` is filled. -/
theorem forall₂_fillRows {rows : List (List (List Char))} {pfns : List (BitVec 64)}
    (henough : (rows.map rowNans).sum ≤ pfns.length) :
    List.Forall₂ FilledRow rows (fillRows rows pfns) := by
  refine forall₂_mapIdx fun i fields hrow => ?_
  cases fields with
  | nil => exact ⟨rfl, .nil⟩
  | cons va fields =>
    rw [List.mapIdx_cons]
    refine ⟨rfl, forall₂_mapIdx fun j field hfield => ?_⟩
    rw [if_neg (Nat.succ_ne_zero j)]
    by_cases hnan : field = nan
    · have hisNan : IsNan rows i (j + 1) :=
        ⟨va :: fields, hrow, hnan ▸ hfield, Nat.succ_ne_zero j⟩
      have hlt := nansBefore_lt hisNan
      rw [hnan, filledField_of_lt (hlt.trans_le henough)]
      exact .inr ⟨rfl, _, rfl⟩
    · rw [filledField_of_ne _ _ hnan]
      exact .inl ⟨hnan, rfl⟩

theorem nanCount_eq_sum_rowNans (entries : List Entry) :
    nanCount entries = ((entries.map Entry.fields).map rowNans).sum := by
  simp only [nanCount, List.map_map, Function.comp_def, rowNans_fields]

theorem outputText_eq (entries : List Entry) :
    outputText entries = unlines '\n' (intText entries.length ::
      (entries.map Entry.fields).map commaLine) := by
  rw [outputText, List.map_map]
  rfl

/-- A file of records, written with enough unallocated frames: the number of records, and
then each record with its `NAN` fields filled. -/
theorem main_rows {header : List Char} (hnewline : '\n' ∉ header) (hcomma : ',' ∉ header)
    {rows : List (List (List Char))} (hrows : ∀ fields ∈ rows, IsRow fields) {outputOpens : Bool}
    {report : Report}
    (h : main mem (some (unlines '\n' (header :: rows.map commaLine))) outputOpens =
      .written report)
    (henough : report.nanCount ≤ report.unallocCount) :
    ∃ rows', List.Forall₂ FilledRow rows rows' ∧ rows'.length < 2 ^ 31 ∧
      report.output = unlines '\n' (intText rows'.length :: rows'.map commaLine) := by
  obtain ⟨hlt, hout, hiff, -⟩ := main_written h
  have hfields := map_fields_filterMap_ofFields fun fields hf => (hrows fields hf).two_le
  have hcount := hiff.mp henough
  rw [nanCount_eq_sum_rowNans] at hcount
  rw [fileEntries_unlines hnewline hcomma hrows] at hlt hout hcount
  rw [hfields] at hcount
  refine ⟨_, forall₂_fillRows hcount, ?_, ?_⟩
  · rw [← (forall₂_fillRows hcount).length_eq, ← hfields, List.length_map]
    exact hlt
  · rw [hout, outputText_eq, map_fields_fillEntries, hfields,
      ← List.length_map Entry.fields, map_fields_fillEntries, hfields]

end SagePTE.PageTables.Augmentor
