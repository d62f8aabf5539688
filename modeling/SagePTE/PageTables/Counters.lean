import Mathlib.Data.List.Infix
import SagePTE.PageTables.Session

/-!
# The counters of the host translator

`translated_count` is raised for every frame that is new, and the counters are raised once
more at the end of every write that gets to its lines: both `translated_count` and
`total_lines_processed` by `processed`. That variable is itself a running total, which is
reset only when a session is opened, so that the lines of a write are counted again at the
end of every later one.

The writes of a session may find other processes, and reading the user's buffer may fail.

## Main definitions

* `Write`, `Progress` — the writes of a session, with the record lines of each
* `parsedLines`, `runningTotal` — the lines that parse, and the sum of the running totals

## Main results

* `Progress.session_counts` — the counters after every write
* `Progress.counters_exact_iff` — when they are exact
-/

set_option autoImplicit false

namespace SagePTE.PageTables

open Lines

namespace Translator

variable {h : Host} (mm : Option Mm)

/-! ### One frame -/

/-- The variables that are counted, and the keys of the hash table. -/
structure Counts where
  keys : List (BitVec 64)
  translated : ℕ
  processed : ℕ
  total : ℕ

def counts (t : Translator) : Counts where
  keys := t.hash.map Translation.gpaPfn
  translated := t.translatedCount
  processed := t.processed
  total := t.totalLinesProcessed

theorem counts_addTranslationEntry (e : Translation) (t : Translator) :
    (t.addTranslationEntry h e).counts = t.counts := by
  unfold addTranslationEntry
  split
  · dsimp only [alloc]
    split <;> rfl
  · rfl

theorem counts_countOutcome (outcome : Except Errno (BitVec 64)) (t : Translator) :
    (t.countOutcome outcome).counts = t.counts := by
  cases outcome <;> rfl

/-- A new frame is one more key, and is counted once. -/
theorem counts_processPfn_of_new (halloc : ∀ n, h.alloc n = true) {t : Translator}
    {pfn : BitVec 64} (hne : pfn ≠ 0) (hnew : ¬t.Known pfn) :
    (t.processPfn h mm pfn).counts =
      { t.counts with keys := pfn :: t.counts.keys, translated := t.counts.translated + 1 } := by
  have hfind := find?_eq_none_iff.mpr hnew
  have hcounts := counts_countOutcome (translateGpaToHpa t.guestRamBase mm (pfn <<< 12)).1
    { t with allocs := t.allocs + 1 }
  simp only [counts, Counts.mk.injEq] at hcounts
  simp only [processPfn, getOrTranslatePfn, if_neg hne, hfind, alloc, halloc, Bool.not_true,
    Bool.false_eq_true, if_false, counts_addTranslationEntry]
  simp only [counts, List.map_cons, gpaPfn_translation, hcounts]

/-! ### Lines -/

/-- The keys are the distinct frames fed so far, and each was counted once. -/
def KeysCounted (translated total : ℕ) (pfns : List (BitVec 64)) (t : Translator) : Prop :=
  t.counts.keys = (distinctFrames pfns).reverse ∧
    t.counts.translated = (distinctFrames pfns).length + translated ∧ t.counts.total = total

theorem lineInvariant_keysCounted (halloc : ∀ n, h.alloc n = true) (translated total : ℕ) :
    LineInvariant h mm (KeysCounted translated total) where
  setPid _ ht := ht
  setProcessed _ ht := ht
  step {pfns t} pfn ht := by
    obtain ⟨hkeys, htrans, htotal⟩ := ht
    have hknown : t.Known pfn ↔ pfn ∈ distinctFrames pfns := by
      rw [← List.mem_reverse, ← hkeys, counts, List.mem_map]
      rfl
    by_cases hpfn : pfn = 0 ∨ t.Known pfn
    · rw [processPfn_of_known h mm hpfn]
      rw [KeysCounted, distinctFrames_concat, if_pos (hpfn.imp_right hknown.mp)]
      exact ⟨hkeys, htrans, htotal⟩
    · obtain ⟨hne, hnew⟩ := not_or.mp hpfn
      rw [KeysCounted, distinctFrames_concat, if_neg (by rwa [← hknown]),
        counts_processPfn_of_new mm halloc hne hnew]
      refine ⟨?_, ?_, htotal⟩
      · rw [List.reverse_append, hkeys]
        rfl
      · rw [List.length_append, List.length_singleton]
        show t.counts.translated + 1 = _
        omega

/-- The number of lines that parse. -/
def parsedLines (lines : List (List Char)) : ℕ := lines.countP fun line => (linePfns line).isSome

theorem parsedLines_cons (line : List Char) (lines : List (List Char)) :
    parsedLines (line :: lines) = parsedLines lines + if (linePfns line).isSome then 1 else 0 :=
  List.countP_cons

theorem processed_foldl_processPfn (halloc : ∀ n, h.alloc n = true) (frames : List (BitVec 64))
    (t : Translator) : (frames.foldl (processPfn h mm) t).processed = t.processed := by
  refine List.foldlRecOn (motive := fun t' : Translator => t'.processed = t.processed) frames _ rfl
    fun t' ht' pfn _ => ?_
  by_cases hpfn : pfn = 0 ∨ t'.Known pfn
  · rw [processPfn_of_known h mm hpfn]
    exact ht'
  · obtain ⟨hne, hnew⟩ := not_or.mp hpfn
    have hcounts := counts_processPfn_of_new mm halloc hne hnew
    exact (congrArg Counts.processed hcounts).trans ht'

/-- `parse_and_translate` succeeds on a line of the loop if the line has its five fields. -/
theorem parseAndTranslate_eq_ok_iff {line : List Char} (hne : line ≠ []) (hline : '\n' ∉ line)
    (t : Translator) :
    (t.parseAndTranslate h mm line).1 = .ok () ↔ (linePfns line).isSome = true := by
  have hend : ¬(line = [] ∨ line.head? = some '\n') := by
    rintro (hnil | hhead)
    · exact hne hnil
    · exact hline (List.mem_of_mem_head? hhead)
  rw [parseAndTranslate, if_neg hend]
  cases hframes : linePfns line with
  | none => simp
  | some frames =>
    obtain ⟨pfn1, pfn2, pfn3, pfn4, pfn5, rfl⟩ := exists_five_of_linePfns hframes
    simp

/-- A line after the header. -/
theorem processed_processLine (halloc : ∀ n, h.alloc n = true) {line : List Char}
    (hline : '\n' ∉ line) (t : Translator) :
    (processLine h mm (false, t) line).1 = false ∧
      (processLine h mm (false, t) line).2.processed =
        t.processed + if (linePfns line).isSome then 1 else 0 := by
  by_cases hnil : line = []
  · rw [hnil]
    exact ⟨rfl, rfl⟩
  · have hframe : (t.parseAndTranslate h mm line).2.processed = t.processed := by
      rw [parseAndTranslate_eq_foldl h mm hline]
      exact processed_foldl_processPfn mm halloc _ t
    have hok := parseAndTranslate_eq_ok_iff (h := h) mm hnil hline t
    simp only [processLine, if_neg hnil, Bool.false_eq_true, if_false]
    split
    · next t' heq =>
      rw [heq] at hframe hok
      rw [if_pos (hok.1 rfl)]
      exact ⟨rfl, congrArg (· + 1) hframe⟩
    · next errno t' heq =>
      rw [heq] at hframe hok
      rw [if_neg fun hsome => by cases hok.2 hsome]
      exact ⟨rfl, hframe⟩

theorem processed_foldl_records (halloc : ∀ n, h.alloc n = true) {lines : List (List Char)}
    (hlines : ∀ line ∈ lines, '\n' ∉ line) (t : Translator) :
    (lines.foldl (processLine h mm) (false, t)).2.processed = t.processed + parsedLines lines := by
  induction lines generalizing t with
  | nil => rfl
  | cons line lines ih =>
    rw [List.forall_mem_cons] at hlines
    obtain ⟨hflag, hprocessed⟩ := processed_processLine mm halloc hlines.1 t
    have hstep : processLine h mm (false, t) line =
        (false, (processLine h mm (false, t) line).2) := Prod.ext hflag rfl
    rw [List.foldl_cons, hstep, ih hlines.2, hprocessed, parsedLines_cons]
    omega

/-- The loop over lines counts the record lines that parse. -/
theorem processed_foldl_processLine (halloc : ∀ n, h.alloc n = true) (firstLine : Bool)
    {lines : List (List Char)} (hlines : ∀ line ∈ lines, '\n' ∉ line) (t : Translator) :
    (lines.foldl (processLine h mm) (firstLine, t)).2.processed =
      t.processed + parsedLines (recordLines firstLine lines) := by
  cases firstLine with
  | false => exact processed_foldl_records mm halloc hlines t
  | true =>
    induction lines with
    | nil => rfl
    | cons line lines ih =>
      rw [List.forall_mem_cons] at hlines
      cases line with
      | nil => exact ih hlines.2
      -- the first line that is not empty is the header
      | cons c cs => exact processed_foldl_records mm halloc hlines.2 _

/-! ### One write -/

theorem counts_keepRemaining (remaining : List Char) (t : Translator) :
    (t.keepRemaining h remaining).counts = t.counts := by
  unfold keepRemaining
  split
  · rfl
  · dsimp only [alloc]
    split <;> rfl

/-- A write that gets to its lines. -/
theorem inputWrite_of_loopEntry {copyFaults : Bool} {buffer : List Char} {ppos : ℕ}
    {t t₀ : Translator} {P : Process} {lines : List (List Char)}
    (hentry : t.loopEntry h copyFaults buffer ppos = some (P, lines, t₀)) :
    (t.inputWrite h copyFaults buffer ppos).2.2 = t₀.translateLines h P.mm (ppos = 0) lines ∧
      (∀ line ∈ lines, '\n' ∉ line) ∧ t₀.counts = (t.openSession ppos).counts := by
  simp only [loopEntry] at hentry
  split_ifs at hentry with hbuffers
  rw [Bool.and_eq_true, Bool.and_eq_true, Bool.not_eq_true'] at hbuffers
  obtain ⟨⟨hkbuf, rfl⟩, hfull⟩ := hbuffers
  rw [inputWrite_of_buffers h buffer hkbuf hfull]
  cases hsplit : splitLast '\n' (cString ((t.openSession ppos).partialLine ++ buffer)) with
  | none => simp [hsplit] at hentry
  | some p =>
    obtain ⟨complete, remaining⟩ := p
    cases hP : t.getQemuProcess h with
    | none => simp [hsplit, hP] at hentry
    | some P' =>
      simp only [hsplit, hP, Option.some.injEq, Prod.mk.injEq] at hentry
      obtain ⟨rfl, rfl, rfl⟩ := hentry
      exact ⟨rfl, (unlines_cut '\n' (complete ++ ['\n'])).2.1, counts_keepRemaining remaining _⟩

/-- A write that does not. -/
theorem counts_inputWrite_of_none {copyFaults : Bool} {buffer : List Char} {ppos : ℕ}
    {t : Translator} (hentry : t.loopEntry h copyFaults buffer ppos = none) :
    (t.inputWrite h copyFaults buffer ppos).2.2.counts = (t.openSession ppos).counts := by
  cases hkbuf : h.alloc (t.openSession ppos).allocs with
  | false =>
    simp only [inputWrite, alloc, hkbuf, Bool.not_false, if_true]
    rfl
  | true =>
    cases copyFaults with
    | true =>
      simp only [inputWrite, alloc, hkbuf, Bool.not_true, Bool.false_eq_true, if_false, if_true]
      rfl
    | false =>
      cases hfull : h.alloc ((t.openSession ppos).allocs + 1) with
      | false =>
        simp only [inputWrite, alloc, hkbuf, hfull, Bool.not_true, Bool.not_false,
          Bool.false_eq_true, if_false, if_true]
        rfl
      | true =>
        rw [inputWrite_of_buffers h buffer hkbuf hfull]
        simp only [loopEntry, hkbuf, hfull, Bool.not_false, Bool.and_true, if_true] at hentry
        cases hsplit : splitLast '\n' (cString ((t.openSession ppos).partialLine ++ buffer)) with
        | none => rfl
        | some p =>
          cases hP : t.getQemuProcess h with
          | none => exact counts_keepRemaining p.2 _
          | some P => simp [hsplit, hP] at hentry

end Translator

/-! ### Sessions -/

open Translator

/-- A write to the input file, to a host with memory. -/
structure Write where
  host : Host
  copyFaults : Bool
  buffer : List Char
  memory : ∀ n, host.alloc n = true

/-- A session so far: the offset, the module, and the record lines of each write that got to
its lines. -/
structure Progress where
  ppos : ℕ
  module : Translator
  batches : List (List (List Char))

/-- The sum of the running totals of the lines that parse. -/
def runningTotal (batches : List (List (List Char))) : ℕ :=
  (batches.inits.map fun bs => parsedLines bs.flatten).sum

theorem parsedLines_append (xs ys : List (List Char)) :
    parsedLines (xs ++ ys) = parsedLines xs + parsedLines ys :=
  List.countP_append

theorem runningTotal_concat (batches : List (List (List Char))) (b : List (List Char)) :
    runningTotal (batches ++ [b]) =
      runningTotal batches + parsedLines (batches ++ [b]).flatten := by
  rw [runningTotal, runningTotal, List.inits_append]
  simp

theorem runningTotal_eq_zero_iff (batches : List (List (List Char))) :
    runningTotal batches = 0 ↔ parsedLines batches.flatten = 0 := by
  induction batches using List.reverseRecOn with
  | nil => simp [runningTotal]
  | append_singleton batches b ih =>
    rw [runningTotal_concat, Nat.add_eq_zero_iff, ih, List.flatten_concat, parsedLines_append]
    omega

namespace Progress

/-- One more write. The write at offset zero opens a session. -/
def write (s : Progress) (w : Write) : Progress :=
  let r := s.module.inputWrite w.host w.copyFaults w.buffer s.ppos
  let fed := s.module.loopEntry w.host w.copyFaults w.buffer s.ppos
  { ppos := r.2.1
    module := r.2.2
    batches := (if s.ppos = 0 then [] else s.batches) ++
      (fed.map fun p => recordLines (s.ppos = 0) p.2.1).toList }

/-- The writes of a session, from a module in any state. -/
def session (t : Translator) (ws : List Write) : Progress := ws.foldl write ⟨0, t, []⟩

/-- The record lines so far. -/
def records (s : Progress) : List (List Char) := s.batches.flatten

/-- The distinct frames of the record lines, without zero. -/
def frames (s : Progress) : List (BitVec 64) := distinctFrames (s.records.flatMap lineFrames)

/-- The counters of a module that has been fed. -/
structure Counted (batches : List (List (List Char))) (t : Translator) : Prop where
  keys : KeysCounted (runningTotal batches) (runningTotal batches)
    (batches.flatten.flatMap lineFrames) t
  processed : t.processed = parsedLines batches.flatten

theorem counted_openSession (t : Translator) : Counted [] (t.openSession 0) :=
  ⟨⟨rfl, rfl, rfl⟩, rfl⟩

theorem Counted.congr {batches : List (List (List Char))} {t t' : Translator}
    (ht : Counted batches t) (h : t'.counts = t.counts) : Counted batches t' :=
  ⟨by rw [KeysCounted, h]; exact ht.keys, (congrArg Counts.processed h).trans ht.processed⟩

/-- The lines of one more write. -/
theorem Counted.translateLines {h : Host} (halloc : ∀ n, h.alloc n = true)
    {batches : List (List (List Char))} {t : Translator} (ht : Counted batches t) (mm : Mm)
    (firstLine : Bool) {lines : List (List Char)} (hlines : ∀ line ∈ lines, '\n' ∉ line) :
    Counted (batches ++ [recordLines firstLine lines]) (t.translateLines h mm firstLine lines) := by
  have hprocessed := processed_foldl_processLine (some mm) halloc firstLine hlines t
  have hkeys := (lineInvariant_keysCounted (some mm) halloc _ _).foldl_processLine firstLine
    hlines _ ht.keys
  obtain ⟨hkeys, htranslated, htotal⟩ := hkeys
  rw [ht.processed, ← parsedLines_append, ← List.flatten_concat] at hprocessed
  have hframes : (batches ++ [recordLines firstLine lines]).flatten.flatMap lineFrames =
      batches.flatten.flatMap lineFrames ++ (recordLines firstLine lines).flatMap lineFrames := by
    rw [List.flatten_concat, List.flatMap_append]
  refine ⟨?_, hprocessed⟩
  rw [KeysCounted, hframes, runningTotal_concat, ← hprocessed]
  refine ⟨hkeys, ?_, ?_⟩
  · rw [← Nat.add_assoc, ← htranslated]
    rfl
  · rw [← htotal]
    rfl

/-- One write: from a module that has been counted, or at the start of a session. -/
theorem counted_write {s : Progress} (hs : s.ppos = 0 ∨ Counted s.batches s.module) (w : Write) :
    Counted (s.write w).batches (s.write w).module := by
  have hopen : Counted (if s.ppos = 0 then [] else s.batches) (s.module.openSession s.ppos) := by
    by_cases hpos : s.ppos = 0
    · rw [if_pos hpos, hpos]
      exact counted_openSession s.module
    · rw [if_neg hpos, openSession, if_neg hpos]
      exact hs.resolve_left hpos
  cases hentry : s.module.loopEntry w.host w.copyFaults w.buffer s.ppos with
  | none =>
    simp only [write, hentry, Option.map_none, Option.toList_none, List.append_nil]
    exact hopen.congr (counts_inputWrite_of_none hentry)
  | some p =>
    obtain ⟨P, lines, t₀⟩ := p
    obtain ⟨hmodule, hlines, hcounts⟩ := inputWrite_of_loopEntry hentry
    simp only [write, hentry, hmodule, Option.map_some, Option.toList_some]
    exact (hopen.congr hcounts).translateLines w.memory P.mm (decide (s.ppos = 0)) hlines

/-- A session with at least one write. -/
theorem counted_session (t : Translator) (w : Write) (ws : List Write) :
    Counted (session t (w :: ws)).batches (session t (w :: ws)).module :=
  List.foldlRecOn (motive := fun s : Progress => Counted s.batches s.module) ws write
    (counted_write (.inl rfl) w) fun _ hs w _ => counted_write (.inr hs) w

/-- **The counters.** `total_lines_processed` is the sum of the running totals, and
`translated_count` exceeds the number of distinct frames by the same sum. -/
theorem session_counts (t : Translator) (w : Write) (ws : List Write) :
    let s := session t (w :: ws)
    s.module.totalLinesProcessed = runningTotal s.batches ∧
      s.module.translatedCount = s.frames.length + runningTotal s.batches := by
  intro s
  obtain ⟨⟨-, htranslated, htotal⟩, -⟩ := counted_session t w ws
  exact ⟨htotal, htranslated⟩

/-- `total_lines_processed` counts the lines of the last write once. -/
theorem totalLinesProcessed_exact_iff (t : Translator) (w : Write) (ws : List Write) :
    let s := session t (w :: ws)
    s.module.totalLinesProcessed = parsedLines s.records ↔
      parsedLines s.batches.dropLast.flatten = 0 := by
  intro s
  have htotal : s.module.totalLinesProcessed = runningTotal s.batches := (session_counts t w ws).1
  rw [htotal, records]
  rcases List.eq_nil_or_concat s.batches with hnil | ⟨batches, b, hconcat⟩
  · rw [hnil]
    exact iff_of_true rfl rfl
  · rw [hconcat, List.concat_eq_append, runningTotal_concat, List.dropLast_concat,
      ← runningTotal_eq_zero_iff]
    omega

/-- **Exact counters.** After any write of a session both counters are exact only as long as no
record line has parsed. `total_lines_processed` alone is exact as long as none has parsed in an
earlier write. -/
theorem counters_exact_iff (t : Translator) (w : Write) (ws : List Write) :
    let s := session t (w :: ws)
    (s.module.totalLinesProcessed = parsedLines s.records ∧
        s.module.translatedCount = s.frames.length ↔ parsedLines s.records = 0) ∧
      (s.module.totalLinesProcessed = parsedLines s.records ↔
        parsedLines s.batches.dropLast.flatten = 0) := by
  intro s
  refine ⟨?_, totalLinesProcessed_exact_iff t w ws⟩
  obtain ⟨htotal, htranslated⟩ := session_counts t w ws
  have hzero : runningTotal s.batches = 0 ↔ parsedLines s.records = 0 :=
    runningTotal_eq_zero_iff s.batches
  have htotal' : s.module.totalLinesProcessed = runningTotal s.batches := htotal
  have htranslated' : s.module.translatedCount = s.frames.length + runningTotal s.batches :=
    htranslated
  rw [htotal', htranslated']
  omega

/-- A write to a host on which every process has the tables of `loopMm`. -/
def loopWrite (buffer : List Char) : Write := ⟨hostWith loopMm, false, buffer, fun _ => rfl⟩

/-- A dump with one record, and one more write of the same record: four distinct frames and two
record lines, which are counted as seven and three. -/
theorem repeated_record_counts :
    let s := session sampleTranslator [loopWrite sampleDump]
    let s' := session sampleTranslator [loopWrite sampleDump, loopWrite (sampleRecord ++ ['\n'])]
    (s.frames.length = 4 ∧ parsedLines s.records = 1 ∧
        s.module.translatedCount = 5 ∧ s.module.totalLinesProcessed = 1) ∧
      s'.frames.length = 4 ∧ parsedLines s'.records = 2 ∧
        s'.module.translatedCount = 7 ∧ s'.module.totalLinesProcessed = 3 := by
  decide +kernel

end Progress

end SagePTE.PageTables
