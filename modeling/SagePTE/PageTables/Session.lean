import Mathlib.Data.List.TakeWhile
import SagePTE.PageTables.Store

/-!
# Sessions of the host translator

A guest dump is written to the translator in pieces that need not end at the end of
a line. The remainder of a piece is kept and put before the next one, so that the
module sees the lines of the whole text. The header is taken for a record line if
the first piece ends inside of it, but a line without a comma feeds no frames.

## Main results

* `Translator.session_translated` — in every session each entry is the translation of
  its frame
* `Translator.session_stores` — the store after a session without failures
* `Translator.session_chunks` — the pieces do not matter
-/

set_option autoImplicit false

namespace SagePTE.PageTables

open Lines

namespace Translator

variable (h : Host)

/-! ### One write -/

theorem openSession_frame (ppos : ℕ) (t : Translator) :
    (t.openSession ppos).qemuPid = t.qemuPid ∧
      (t.openSession ppos).guestRamBase = t.guestRamBase := by
  unfold openSession
  split <;> exact ⟨rfl, rfl⟩

theorem getQemuProcess_congr {t t' : Translator} (hpid : t'.qemuPid = t.qemuPid) :
    t'.getQemuProcess h = t.getQemuProcess h := by
  simp only [getQemuProcess, hpid]

theorem lineInvariant_frame (mm : Option Mm) (line : List Char) (pid : ℤ) :
    LineInvariant h mm fun _ t => t.partialLine = line ∧ t.qemuPid = pid where
  setPid _ ht := ht
  setProcessed _ ht := ht
  step {_ t} pfn ht := by
    obtain ⟨hline, hpid, -⟩ := processPfn_frame h mm t pfn
    exact ⟨hline.trans ht.1, hpid.trans ht.2⟩

theorem store_keepRemaining (remaining : List Char) (t : Translator) :
    (t.keepRemaining h remaining).store = t.store ∧
      (t.keepRemaining h remaining).outcomes = t.outcomes := by
  unfold keepRemaining
  split
  · exact ⟨rfl, rfl⟩
  · cases halloc : h.alloc t.allocs <;> simp only [alloc, halloc] <;> exact ⟨rfl, rfl⟩

/-- The module when the buffers of a write have been set up. -/
def buffered (ppos : ℕ) (t : Translator) : Translator :=
  { t.openSession ppos with allocs := (t.openSession ppos).allocs + 2, partialLine := [] }

/-- A write that is given its buffers. -/
theorem inputWrite_of_buffers (buffer : List Char) {ppos : ℕ} {t : Translator}
    (hkbuf : h.alloc (t.openSession ppos).allocs = true)
    (hfull : h.alloc ((t.openSession ppos).allocs + 1) = true) :
    t.inputWrite h false buffer ppos =
      match splitLast '\n' (cString ((t.openSession ppos).partialLine ++ buffer)) with
      | none => (.ok buffer.length, ppos + buffer.length,
          { t.buffered ppos with
            partialLine := cString ((t.openSession ppos).partialLine ++ buffer) })
      | some (complete, remaining) =>
        match t.getQemuProcess h with
        | none => (.error .esrch, ppos, (t.buffered ppos).keepRemaining h remaining)
        | some P => (.ok buffer.length, ppos + buffer.length,
            ((t.buffered ppos).keepRemaining h remaining).translateLines h P.mm (ppos = 0)
              (cut '\n' (complete ++ ['\n'])).1) := by
  have hproc : ∀ remaining, ((t.buffered ppos).keepRemaining h remaining).getQemuProcess h =
      t.getQemuProcess h := by
    intro remaining
    refine getQemuProcess_congr h ?_
    rw [(store_eq_iff.mp (store_keepRemaining h remaining _).1).1]
    exact (openSession_frame ppos t).1
  simp only [inputWrite, alloc, hkbuf, hfull, Bool.not_true, Bool.false_eq_true, if_false]
  cases splitLast '\n' (cString ((t.openSession ppos).partialLine ++ buffer)) with
  | none => rfl
  | some p =>
    obtain ⟨complete, remaining⟩ := p
    simp only [buffered] at hproc ⊢
    cases hqemu : t.getQemuProcess h <;> simp only [hproc remaining, hqemu]

/-- The loop over complete lines, if a write gets to it: the process, the lines, and the
module in front of the loop. -/
def loopEntry (copyFaults : Bool) (buffer : List Char) (ppos : ℕ) (t : Translator) :
    Option (Process × List (List Char) × Translator) :=
  let s := t.openSession ppos
  if h.alloc s.allocs && !copyFaults && h.alloc (s.allocs + 1) then
    match splitLast '\n' (cString (s.partialLine ++ buffer)), t.getQemuProcess h with
    | some (complete, remaining), some P =>
      some (P, (cut '\n' (complete ++ ['\n'])).1, (t.buffered ppos).keepRemaining h remaining)
    | _, _ => none
  else none

/-- A write changes the store by the lines it completes, if it gets that far. -/
theorem inputWrite_cases (copyFaults : Bool) (buffer : List Char) (ppos : ℕ) (t : Translator) :
    let t' := (t.inputWrite h copyFaults buffer ppos).2.2
    (t.loopEntry h copyFaults buffer ppos = none ∧ t'.store = (t.openSession ppos).store ∧
        t'.outcomes = (t.openSession ppos).outcomes) ∨
      ∃ (P : Process) (lines : List (List Char)) (t₀ : Translator),
        t.loopEntry h copyFaults buffer ppos = some (P, lines, t₀) ∧
        t.getQemuProcess h = some P ∧ (∀ line ∈ lines, '\n' ∉ line) ∧
        t₀.store = (t.openSession ppos).store ∧ t₀.outcomes = (t.openSession ppos).outcomes ∧
        t'.store = (lines.foldl (processLine h (some P.mm)) (decide (ppos = 0), t₀)).2.store ∧
        t'.outcomes =
          (lines.foldl (processLine h (some P.mm)) (decide (ppos = 0), t₀)).2.outcomes := by
  intro t'
  -- every early return leaves the store as the session was opened
  by_cases hkbuf : h.alloc (t.openSession ppos).allocs = true
  · cases copyFaults with
    | true => exact .inl (by simp [t', inputWrite, loopEntry, alloc, hkbuf, store, outcomes])
    | false =>
      by_cases hfull : h.alloc ((t.openSession ppos).allocs + 1) = true
      · simp only [t', inputWrite_of_buffers h buffer hkbuf hfull, loopEntry, hkbuf, hfull,
          Bool.not_false, Bool.and_true, if_true]
        cases splitLast '\n' (cString ((t.openSession ppos).partialLine ++ buffer)) with
        | none => exact .inl ⟨rfl, rfl, rfl⟩
        | some p =>
          obtain ⟨complete, remaining⟩ := p
          have hkeep := store_keepRemaining h remaining (t.buffered ppos)
          cases hP : t.getQemuProcess h with
          | none => exact .inl ⟨rfl, hkeep⟩
          | some P =>
            exact .inr ⟨P, _, _, rfl, rfl, (unlines_cut '\n' (complete ++ ['\n'])).2.1, hkeep.1,
              hkeep.2, rfl, rfl⟩
      · exact .inl (by simp [t', inputWrite, loopEntry, alloc, hkbuf, hfull, store, outcomes])
  · exact .inl (by simp [t', inputWrite, loopEntry, alloc, hkbuf, store, outcomes])

/-! ### Sessions -/

theorem translated_openSession (base : BitVec 64) (mm : Option Mm) {ppos : ℕ} {t : Translator}
    (hbase : t.guestRamBase = base) (ht : ppos = 0 ∨ t.Translated base mm) :
    (t.openSession ppos).Translated base mm := by
  by_cases hpos : ppos = 0
  · rw [openSession, if_pos hpos]
    exact ⟨hbase, rfl, by simp [clearTranslations]⟩
  · rw [openSession, if_neg hpos]
    exact ht.resolve_left hpos

/-- A write keeps the entries translations of their frames. -/
theorem inputWrite_translated {P : Process} {t : Translator} (hP : t.getQemuProcess h = some P)
    (copyFaults : Bool) (buffer : List Char) {ppos : ℕ}
    (ht : ppos = 0 ∨ t.Translated t.guestRamBase (some P.mm)) :
    (t.inputWrite h copyFaults buffer ppos).2.2.Translated t.guestRamBase (some P.mm) ∧
      (t.inputWrite h copyFaults buffer ppos).2.2.qemuPid = t.qemuPid := by
  have hopen := translated_openSession t.guestRamBase (some P.mm) rfl ht
  have hpid := (openSession_frame ppos t).1
  rcases inputWrite_cases h copyFaults buffer ppos t with ⟨-, hsame, -⟩ | ⟨P', lines, t₀, -, hP',
      hlines, hstart, -, hend, -⟩
  · exact ⟨hopen.congr hsame.symm, (store_eq_iff.mp hsame).1.trans hpid⟩
  · obtain rfl : P = P' := Option.some.inj (hP.symm.trans hP')
    have hI := lineInvariant_translated h (some P.mm) t.guestRamBase
    have hF := lineInvariant_frame h (some P.mm) t₀.partialLine t₀.qemuPid
    have ht₀ := hopen.congr hstart.symm
    have hframe := hF.foldl_processLine (decide (ppos = 0)) hlines [] ⟨rfl, rfl⟩
    have htrans := hI.foldl_processLine (decide (ppos = 0)) hlines [] ht₀
    exact ⟨htrans.congr hend.symm,
      (store_eq_iff.mp hend).1.trans (hframe.2.trans ((store_eq_iff.mp hstart).1.trans hpid))⟩

theorem writes_translated {P : Process} (chunks : List (List Char)) (ppos : ℕ) {t : Translator}
    (hP : t.getQemuProcess h = some P)
    (ht : (ppos = 0 ∧ chunks ≠ []) ∨ t.Translated t.guestRamBase (some P.mm)) :
    (t.writes h chunks ppos).2.Translated t.guestRamBase (some P.mm) := by
  induction chunks generalizing ppos t with
  | nil => exact ht.resolve_left (by simp)
  | cons chunk chunks ih =>
    -- the process and the base stay those of the start
    obtain ⟨htrans, hpid⟩ := inputWrite_translated h hP false chunk (ht.imp_left And.left)
    have hbase := htrans.ramBase
    have hrest := ih (t.inputWrite h false chunk ppos).2.1
      ((getQemuProcess_congr h hpid).trans hP) (.inr (hbase ▸ htrans))
    rwa [hbase] at hrest

/-- In every session each entry of the array is the translation of its own frame. -/
theorem session_translated {P : Process} {chunks : List (List Char)} (hchunks : chunks ≠ [])
    {t : Translator} (hP : t.getQemuProcess h = some P) {e : Translation}
    (he : e ∈ (t.session h chunks).entries) :
    e.gpaPfn ≠ 0 ∧ e = translation t.guestRamBase (some P.mm) e.gpaPfn :=
  (writes_translated h chunks 0 hP (.inl ⟨rfl, hchunks⟩)).slots e (List.mem_of_mem_take he)

/-! ### Sessions without failures -/

theorem cString_of_not_mem {text : List Char} (h : '\x00' ∉ text) : cString text = text := by
  refine List.takeWhile_eq_self_iff.mpr fun c hc => ?_
  simp only [ne_eq, decide_eq_true_eq]
  rintro rfl
  exact h hc

/-- A write without failures completes the lines of the remainder and the new text,
and keeps the new remainder. -/
theorem inputWrite_of_alloc (halloc : ∀ n, h.alloc n = true) {P : Process} {t : Translator}
    (hP : t.getQemuProcess h = some P) {buffer : List Char} {ppos : ℕ}
    (hnul : '\x00' ∉ (t.openSession ppos).partialLine ++ buffer) :
    let text := cut '\n' ((t.openSession ppos).partialLine ++ buffer)
    ∃ t₀ t', t.inputWrite h false buffer ppos =
        (.ok buffer.length, ppos + buffer.length, t') ∧
      t₀.store = (t.openSession ppos).store ∧
      t'.store = (text.1.foldl (processLine h (some P.mm)) (decide (ppos = 0), t₀)).2.store ∧
      t'.partialLine = text.2 := by
  intro text
  have hstart := inputWrite_of_buffers h buffer (halloc _)
    (halloc ((t.openSession ppos).allocs + 1))
  rw [cString_of_not_mem hnul] at hstart
  cases hsplit : splitLast '\n' ((t.openSession ppos).partialLine ++ buffer) with
  | none =>
    -- no line is complete
    have htext : text = ([], (t.openSession ppos).partialLine ++ buffer) :=
      cut_of_not_mem (splitLast_eq_none_iff.mp hsplit)
    rw [hsplit] at hstart
    refine ⟨t.buffered ppos, _, hstart, rfl, ?_, ?_⟩
    · rw [htext]
      rfl
    · rw [htext]
  | some p =>
    obtain ⟨complete, remaining⟩ := p
    have htext : text = ((cut '\n' (complete ++ ['\n'])).1, remaining) :=
      cut_of_splitLast hsplit
    rw [hsplit, hP] at hstart
    have hkeep : ((t.buffered ppos).keepRemaining h remaining).partialLine = remaining := by
      by_cases hrem : remaining = []
      · rw [keepRemaining, if_pos hrem, hrem]
        rfl
      · simp [keepRemaining, hrem, alloc, halloc]
    -- the loop over lines does not touch the remainder
    have hframe := (lineInvariant_frame h (some P.mm) remaining
      ((t.buffered ppos).keepRemaining h remaining).qemuPid).foldl_processLine
        (decide (ppos = 0)) (unlines_cut '\n' (complete ++ ['\n'])).2.1 [] ⟨hkeep, rfl⟩
    refine ⟨(t.buffered ppos).keepRemaining h remaining, _, hstart,
      (store_keepRemaining h remaining _).1, ?_, ?_⟩
    · rw [htext]
      rfl
    · rw [htext]
      exact hframe.1

theorem lineFrames_of_not_mem {line : List Char} (hline : ',' ∉ line) : lineFrames line = [] := by
  simp [lineFrames, linePfns, splitFirst_eq_none hline]

/-- The first line that is not empty has no comma. -/
def HasHeader (lines : List (List Char)) : Prop :=
  ∀ line ∈ (lines.dropWhile List.isEmpty).head?, ',' ∉ line

theorem HasHeader.of_append {xs ys : List (List Char)} (h : HasHeader (xs ++ ys)) :
    HasHeader xs := by
  induction xs with
  | nil => simp [HasHeader]
  | cons line xs ih =>
    cases hempty : line.isEmpty <;> simp_all [HasHeader]

/-- A header feeds no frames, whether it is taken for a record or not. -/
theorem flatMap_recordLines (firstLine : Bool) {lines : List (List Char)}
    (hheader : HasHeader lines) :
    (recordLines firstLine lines).flatMap lineFrames = lines.flatMap lineFrames := by
  cases firstLine with
  | false => rfl
  | true =>
    induction lines with
    | nil => rfl
    | cons line lines ih =>
      cases hempty : line.isEmpty with
      | true =>
        have hnone : lineFrames line = [] := by
          rw [List.isEmpty_iff.mp hempty]
          rfl
        simp only [HasHeader, recordLines, hempty, List.dropWhile_cons, if_true,
          List.flatMap_cons, hnone, List.nil_append] at hheader ih ⊢
        exact ih hheader
      | false =>
        have hcomma : ',' ∉ line := hheader line (by simp [hempty])
        simp [recordLines, hempty, lineFrames_of_not_mem hcomma]

/-- The module after `text` has been written: the offset, the remainder and the
store. At offset zero they are those that the next write starts with. -/
structure SessionAt (P : Process) (base : BitVec 64) (text : List Char) (ppos : ℕ)
    (t : Translator) : Prop where
  pos : ppos = text.length
  process : t.getQemuProcess h = some P
  rest : (t.openSession ppos).partialLine = (cut '\n' text).2
  stores : (t.openSession ppos).Stores base (some P.mm) ((cut '\n' text).1.flatMap lineFrames)

theorem sessionAt_nil {P : Process} {t : Translator} (hP : t.getQemuProcess h = some P) :
    SessionAt h P t.guestRamBase [] 0 t :=
  ⟨rfl, hP, rfl, rfl, rfl, rfl, rfl⟩

/-- One more piece. -/
theorem SessionAt.inputWrite (halloc : ∀ n, h.alloc n = true) {P : Process} {base : BitVec 64}
    {text : List Char} {ppos : ℕ} {t : Translator} (hs : SessionAt h P base text ppos t)
    {chunk : List Char} (hchunk : chunk ≠ []) (hnul : '\x00' ∉ text ++ chunk)
    (hheader : HasHeader (cut '\n' (text ++ chunk)).1) :
    SessionAt h P base (text ++ chunk) (t.inputWrite h false chunk ppos).2.1
      (t.inputWrite h false chunk ppos).2.2 := by
  have happ := cut_append '\n' text chunk
  -- the remainder is part of the text
  have hnul' : '\x00' ∉ (t.openSession ppos).partialLine ++ chunk := by
    rw [hs.rest]
    intro hmem
    refine hnul ?_
    rcases List.mem_append.mp hmem with hmem | hmem
    · rw [← (unlines_cut '\n' text).1]
      simp [hmem]
    · simp [hmem]
  obtain ⟨t₀, t', hwrite, hstart, hend, hrest⟩ := inputWrite_of_alloc h halloc hs.process hnul'
  rw [hs.rest] at hend hrest
  have hlines := (unlines_cut '\n' ((cut '\n' text).2 ++ chunk)).2.1
  have hstores := (lineInvariant_stores h (some P.mm) halloc base).foldl_processLine
    (decide (ppos = 0)) hlines _ (hs.stores.congr hstart.symm)
  have hpid : t'.qemuPid = t.qemuPid := by
    have hframe := (lineInvariant_frame h (some P.mm) t₀.partialLine t₀.qemuPid).foldl_processLine
      (decide (ppos = 0)) hlines [] ⟨rfl, rfl⟩
    rw [(store_eq_iff.mp hend).1, hframe.2, (store_eq_iff.mp hstart).1]
    exact (openSession_frame ppos t).1
  -- later pieces have no header, and in the first it feeds nothing
  have hframes : (recordLines (decide (ppos = 0)) (cut '\n' ((cut '\n' text).2 ++ chunk)).1).flatMap
      lineFrames = (cut '\n' ((cut '\n' text).2 ++ chunk)).1.flatMap lineFrames := by
    by_cases hpos : ppos = 0
    · -- the first piece: nothing has been kept
      obtain rfl : text = [] := List.length_eq_zero_iff.mp (hs.pos ▸ hpos)
      exact flatMap_recordLines _ hheader
    · simp [recordLines, hpos]
  have hpos' : ppos + chunk.length ≠ 0 := by
    have := List.length_pos_of_ne_nil hchunk
    omega
  have hopen : t'.openSession (ppos + chunk.length) = t' := by rw [openSession, if_neg hpos']
  rw [hwrite]
  refine ⟨by rw [hs.pos, List.length_append], ?_, ?_, ?_⟩
  · exact (getQemuProcess_congr h hpid).trans hs.process
  · rw [hopen, hrest, happ]
  · rw [hopen, happ, List.flatMap_append, ← hframes]
    exact hstores.congr hend.symm

/-- All pieces of a text. -/
theorem SessionAt.writes (halloc : ∀ n, h.alloc n = true) {P : Process} {base : BitVec 64}
    (chunks : List (List Char)) {text : List Char} {ppos : ℕ} {t : Translator}
    (hs : SessionAt h P base text ppos t) (hchunks : ∀ chunk ∈ chunks, chunk ≠ [])
    (hnul : '\x00' ∉ text ++ chunks.flatten)
    (hheader : HasHeader (cut '\n' (text ++ chunks.flatten)).1) :
    SessionAt h P base (text ++ chunks.flatten) (t.writes h chunks ppos).1
      (t.writes h chunks ppos).2 := by
  induction chunks generalizing text ppos t with
  | nil => simpa [Translator.writes] using hs
  | cons chunk chunks ih =>
    rw [List.flatten_cons, ← List.append_assoc] at hnul hheader ⊢
    -- the lines completed so far are the first lines of the text
    have hheader' : HasHeader (cut '\n' (text ++ chunk)).1 := by
      rw [cut_append] at hheader
      exact hheader.of_append
    have hstep := hs.inputWrite h halloc (hchunks chunk (by simp))
      (fun hmem => hnul (List.mem_append_left _ hmem)) hheader'
    exact ih hstep (fun c hc => hchunks c (by simp [hc])) hnul hheader

/-- The array after a dump has been written in any pieces. -/
theorem session_stores (halloc : ∀ n, h.alloc n = true) {P : Process} {t : Translator}
    (hP : t.getQemuProcess h = some P) {header : List Char} {records : List (List Char)}
    (hne : header ≠ []) (hcomma : ',' ∉ header)
    (hlines : ∀ line ∈ header :: records, '\n' ∉ line ∧ '\x00' ∉ line)
    (chunks : List (List Char)) (hchunks : ∀ chunk ∈ chunks, chunk ≠ [])
    (htext : chunks.flatten = unlines '\n' (header :: records)) :
    (t.session h chunks).Stores t.guestRamBase (some P.mm) (records.flatMap lineFrames) := by
  have hcut : cut '\n' chunks.flatten = (header :: records, []) := by
    rw [htext, ← List.append_nil (unlines _ _)]
    exact cut_unlines_append (fun line hline => (hlines line hline).1) (by simp)
  have hnul : '\x00' ∉ chunks.flatten := by
    rw [htext]
    intro hmem
    obtain ⟨line, hline, hmem⟩ := List.mem_flatMap.mp hmem
    rcases List.mem_append.mp hmem with hmem | hmem
    · exact (hlines line hline).2 hmem
    · simp at hmem
  have hempty : header.isEmpty = false := by simpa using hne
  have hheader : HasHeader (cut '\n' chunks.flatten).1 := by
    rw [hcut]
    simpa [HasHeader, hempty] using hcomma
  have hend := (sessionAt_nil h hP).writes h halloc chunks hchunks hnul hheader
  -- the session has left offset zero behind
  have hpos : (t.writes h chunks 0).1 ≠ 0 := by
    rw [hend.pos]
    simp [htext]
  have hstores := hend.stores
  rw [openSession, if_neg hpos, List.nil_append, hcut, List.flatMap_cons,
    lineFrames_of_not_mem hcomma] at hstores
  exact hstores

/-- A dump gives the same array in whatever pieces it is written: one entry for each
distinct frame other than zero in the record lines that parse, in order of first
occurrence. -/
theorem session_chunks (halloc : ∀ n, h.alloc n = true) {P : Process} {t : Translator}
    (hP : t.getQemuProcess h = some P) {header : List Char} {records : List (List Char)}
    (hne : header ≠ []) (hcomma : ',' ∉ header)
    (hlines : ∀ line ∈ header :: records, '\n' ∉ line ∧ '\x00' ∉ line)
    {chunks : List (List Char)} (hchunks : ∀ chunk ∈ chunks, chunk ≠ [])
    (htext : chunks.flatten = unlines '\n' (header :: records)) :
    (t.session h chunks).entries = (t.session h [unlines '\n' (header :: records)]).entries ∧
      (t.session h chunks).entries =
        (distinctFrames (records.flatMap lineFrames)).map
          (translation t.guestRamBase (some P.mm)) := by
  have hpieces := session_stores h halloc hP hne hcomma hlines chunks hchunks htext
  have hwhole := session_stores h halloc hP hne hcomma hlines
    [unlines '\n' (header :: records)] (by simp) (by simp)
  exact ⟨hpieces.entries_eq.trans hwhole.entries_eq.symm, hpieces.entries_eq⟩

/-! ### A small dump -/

/-- A host with memory on which every process has the given tables. -/
def hostWith (mm : Mm) : Host where
  process _ := some ⟨mm, []⟩
  alloc _ := true

/-- A module that has been configured. -/
def sampleTranslator : Translator := { qemuPid := 1, guestRamBase := 0x40000000#64 }

/-- The record of a dump. -/
def sampleRecord : List Char := ['7', ',', 'a', ',', 'b', ',', 'c', ',', 'd', ',', 'a']

/-- A dump with a header and one record. -/
def sampleDump : List Char := unlines '\n' [['1'], sampleRecord]

theorem session_chunks_sampleDump :
    (sampleTranslator.session (hostWith loopMm)
        [sampleDump.take 1, (sampleDump.drop 1).take 5, sampleDump.drop 6]).entries =
      [0xA, 0xB, 0xC, 0xD].map (translation sampleTranslator.guestRamBase (some loopMm)) := by
  have htext : [sampleDump.take 1, (sampleDump.drop 1).take 5, sampleDump.drop 6].flatten =
      unlines '\n' (['1'] :: [sampleRecord]) := by decide
  have hchunks := session_chunks (hostWith loopMm) (fun _ => rfl) (P := ⟨loopMm, []⟩)
    (t := sampleTranslator) rfl (by decide) (by decide) (by decide) (by decide) htext
  rw [hchunks.2]
  decide +kernel

end Translator

end SagePTE.PageTables
