import SagePTE.PageTables.Translator

/-!
# The translation store over the writes of a session

The input file feeds the frames of record lines to `process_entry` one by one.
Whatever that keeps true of the module's variables, the loop over lines keeps true
as well: `LineInvariant` states what has to be shown for one frame, and its rules
carry it over lines. The invariant may speak of the frames that were fed so far.

Two invariants of the store are derived. In every session each entry is the
translation of its own frame, even where allocations fail. Where none fails, the
array holds one entry for each distinct frame, in order of first occurrence, and the
hash table the same entries.

## Main definitions

* `LineInvariant` — a property that each frame keeps
* `Translator.Translated`, `Translator.Stores` — the two invariants

## Main results

* `LineInvariant.foldl_processLine` — the loop over lines
* `Translator.processPfn_of_known`, `Translator.processPfn_of_new` — what one frame does to
  the store
* `Translator.lineInvariant_translated`, `Translator.lineInvariant_stores` — the two
  invariants are kept
-/

set_option autoImplicit false

namespace SagePTE.PageTables

open Lines

/-! ### Invariants of the loop over lines -/

/-- A property of the module's variables and of the frames fed to it, which the
translation of one more frame keeps. -/
structure LineInvariant (h : Host) (mm : Option Mm)
    (I : List (BitVec 64) → Translator → Prop) : Prop where
  setPid : ∀ {pfns t} pid, I pfns t → I pfns { t with guestPid := pid }
  setProcessed : ∀ {pfns t} n, I pfns t → I pfns { t with processed := n }
  step : ∀ {pfns t} pfn, I pfns t → I (pfns ++ [pfn]) (t.processPfn h mm pfn)

/-- The frames that a line feeds to the store, none for a line that does not parse. -/
def lineFrames (line : List Char) : List (BitVec 64) := (Translator.linePfns line).getD []

/-- The lines the loop takes for records: in the first write all after the first line
that is not empty. -/
def recordLines (firstLine : Bool) (lines : List (List Char)) : List (List Char) :=
  if firstLine then (lines.dropWhile List.isEmpty).tail else lines

theorem exists_five_of_linePfns {line : List Char} {frames : List (BitVec 64)}
    (hline : Translator.linePfns line = some frames) :
    ∃ pfn1 pfn2 pfn3 pfn4 pfn5, frames = [pfn1, pfn2, pfn3, pfn4, pfn5] := by
  have hlen : frames.length = 5 := by
    unfold Translator.linePfns at hline
    split at hline
    · cases hline
    · obtain ⟨hlen, hframes⟩ := Option.ite_none_right_eq_some.mp hline
      exact Option.some.inj hframes ▸ hlen
  match frames, hlen with
  | [pfn1, pfn2, pfn3, pfn4, pfn5], _ => exact ⟨pfn1, pfn2, pfn3, pfn4, pfn5, rfl⟩

/-- A line that parses feeds its five frames, any other line none. -/
theorem Translator.parseAndTranslate_eq_foldl (h : Host) (mm : Option Mm) {line : List Char}
    (hline : '\n' ∉ line) (t : Translator) :
    (t.parseAndTranslate h mm line).2 = (lineFrames line).foldl (processPfn h mm) t := by
  unfold parseAndTranslate
  split
  · next hend =>
    -- a line of the loop has no newline, so it is empty
    rcases hend with rfl | hhead
    · rfl
    · exact absurd (List.mem_of_mem_head? hhead) hline
  · cases hframes : linePfns line with
    | none => simp [lineFrames, hframes]
    | some frames =>
      obtain ⟨pfn1, pfn2, pfn3, pfn4, pfn5, rfl⟩ := exists_five_of_linePfns hframes
      simp only [lineFrames, hframes, Option.getD_some]
      rfl

namespace LineInvariant

variable {h : Host} {mm : Option Mm} {I : List (BitVec 64) → Translator → Prop}

theorem foldl_processPfn (hI : LineInvariant h mm I) (frames : List (BitVec 64))
    {pfns : List (BitVec 64)} {t : Translator} (ht : I pfns t) :
    I (pfns ++ frames) (frames.foldl (Translator.processPfn h mm) t) := by
  induction frames generalizing pfns t with
  | nil => simpa using ht
  | cons pfn frames ih =>
    have := ih (hI.step pfn ht)
    simpa using this

theorem parseAndTranslate (hI : LineInvariant h mm I) {line : List Char} (hline : '\n' ∉ line)
    {pfns : List (BitVec 64)} {t : Translator} (ht : I pfns t) :
    I (pfns ++ lineFrames line) (t.parseAndTranslate h mm line).2 := by
  rw [Translator.parseAndTranslate_eq_foldl h mm hline]
  exact hI.foldl_processPfn (lineFrames line) ht

/-- One round of the loop: the header feeds nothing, and an empty line neither. -/
theorem processLine (hI : LineInvariant h mm I) {line : List Char} (hline : '\n' ∉ line)
    (firstLine : Bool) {pfns : List (BitVec 64)} {t : Translator} (ht : I pfns t) :
    I (pfns ++ if firstLine then [] else lineFrames line)
        (Translator.processLine h mm (firstLine, t) line).2 ∧
      (Translator.processLine h mm (firstLine, t) line).1 = (firstLine && line.isEmpty) := by
  -- only the header changes the flag
  cases line with
  | nil =>
    have hnone : lineFrames [] = [] := rfl
    simpa [Translator.processLine, hnone] using ht
  | cons c cs =>
    cases firstLine with
    | true =>
      refine ⟨?_, rfl⟩
      rw [if_pos rfl, List.append_nil]
      exact hI.setPid _ ht
    | false =>
      have hparse := hI.parseAndTranslate hline ht
      simp only [Translator.processLine, Bool.false_eq_true, if_false, reduceCtorEq]
      split
      · next t' heq =>
        rw [heq] at hparse
        exact ⟨hI.setProcessed _ hparse, by simp⟩
      · next t' heq =>
        rw [heq] at hparse
        exact ⟨hparse, by simp⟩

theorem foldl_processLine_records (hI : LineInvariant h mm I) {lines : List (List Char)}
    (hlines : ∀ line ∈ lines, '\n' ∉ line) {pfns : List (BitVec 64)} {t : Translator}
    (ht : I pfns t) :
    I (pfns ++ lines.flatMap lineFrames)
      (lines.foldl (Translator.processLine h mm) (false, t)).2 := by
  induction lines generalizing pfns t with
  | nil => simpa using ht
  | cons line lines ih =>
    obtain ⟨hI', hflag⟩ := hI.processLine (hlines line (by simp)) false ht
    simp only [Bool.false_eq_true, if_false, Bool.false_and] at hI' hflag
    have hstep : Translator.processLine h mm (false, t) line =
        (false, (Translator.processLine h mm (false, t) line).2) := Prod.ext hflag rfl
    rw [List.foldl_cons, hstep, List.flatMap_cons, ← List.append_assoc]
    exact ih (fun l hl => hlines l (by simp [hl])) hI'

/-- The loop over lines. Its rounds feed the frames of the record lines in turn. -/
theorem foldl_processLine (hI : LineInvariant h mm I) (firstLine : Bool)
    {lines : List (List Char)} (hlines : ∀ line ∈ lines, '\n' ∉ line)
    (pfns : List (BitVec 64)) {t : Translator} (ht : I pfns t) :
    I (pfns ++ (recordLines firstLine lines).flatMap lineFrames)
      (lines.foldl (Translator.processLine h mm) (firstLine, t)).2 := by
  cases firstLine with
  | false => exact hI.foldl_processLine_records hlines ht
  | true =>
    -- the flag stays up over empty lines, and the header takes it down
    induction lines generalizing t with
    | nil => simpa [recordLines] using ht
    | cons line lines ih =>
      obtain ⟨hI', hflag⟩ := hI.processLine (hlines line (by simp)) true ht
      simp only [if_true, List.append_nil, Bool.true_and] at hI' hflag
      have hstep : Translator.processLine h mm (true, t) line =
          (line.isEmpty, (Translator.processLine h mm (true, t) line).2) := Prod.ext hflag rfl
      have hrest : ∀ l ∈ lines, '\n' ∉ l := fun l hl => hlines l (by simp [hl])
      rw [List.foldl_cons, hstep]
      cases hempty : line.isEmpty with
      | true => simpa [recordLines, hempty] using ih hrest hI'
      | false => simpa [recordLines, hempty] using hI.foldl_processLine_records hrest hI'

end LineInvariant

namespace Translator

variable (h : Host) (mm : Option Mm)

/-! ### One frame -/

@[simp] theorem gpaPfn_translation (base : BitVec 64) (mm : Option Mm) (pfn : BitVec 64) :
    (translation base mm pfn).gpaPfn = pfn := by
  simp only [translation]
  split <;> rfl

theorem translation_setGpaPfn (base : BitVec 64) (mm : Option Mm) (pfn : BitVec 64) :
    { translation base mm pfn with gpaPfn := pfn } = translation base mm pfn := by
  simp only [translation]
  split <;> rfl

/-- The variables the store consists of, and those that say where frames are looked
up. -/
def store (t : Translator) :
    ℤ × BitVec 64 × List Translation × Option (List Translation) × ℕ × ℕ :=
  (t.qemuPid, t.guestRamBase, t.hash, t.translationEntries, t.translationCapacity, t.entryCount)

theorem store_eq_iff {t t' : Translator} :
    t.store = t'.store ↔ t.qemuPid = t'.qemuPid ∧ t.guestRamBase = t'.guestRamBase ∧
      t.hash = t'.hash ∧ t.translationEntries = t'.translationEntries ∧
        t.translationCapacity = t'.translationCapacity ∧ t.entryCount = t'.entryCount := by
  simp [store]

/-- A frame is known if the hash table has an entry for it. -/
def Known (t : Translator) (pfn : BitVec 64) : Prop := ∃ e ∈ t.hash, e.gpaPfn = pfn

theorem find?_eq_none_iff {t : Translator} {pfn : BitVec 64} :
    t.hash.find? (·.gpaPfn == pfn) = none ↔ ¬t.Known pfn := by
  simp [Known]

/-- The number of outcomes counted. -/
def outcomes (t : Translator) : ℕ := t.successfulTranslations + t.unsuccessfulTranslations

theorem store_countOutcome (outcome : Except Errno (BitVec 64)) (t : Translator) :
    (t.countOutcome outcome).store = t.store ∧ (t.countOutcome outcome).allocs = t.allocs ∧
      (t.countOutcome outcome).partialLine = t.partialLine ∧
      (t.countOutcome outcome).outcomes = t.outcomes + 1 := by
  cases outcome with
  | error _ => exact ⟨rfl, rfl, rfl, rfl⟩
  | ok _ => exact ⟨rfl, rfl, rfl, Nat.add_right_comm _ _ _⟩

/-- A frame that is zero or known changes nothing. -/
theorem processPfn_of_known {t : Translator} {pfn : BitVec 64} (hpfn : pfn = 0 ∨ t.Known pfn) :
    t.processPfn h mm pfn = t := by
  unfold processPfn
  split
  · rfl
  · next hne =>
    cases hfind : t.hash.find? (·.gpaPfn == pfn) with
    | none => exact absurd (hpfn.resolve_left hne) (find?_eq_none_iff.mp hfind)
    | some found => simp only [getOrTranslatePfn, if_neg hne, hfind]

/-- A new frame is put in the hash table if there is memory for its entry. -/
theorem getOrTranslatePfn_of_new {t : Translator} {pfn : BitVec 64} (hne : pfn ≠ 0)
    (hnew : ¬t.Known pfn) :
    (h.alloc t.allocs = false ∧ (t.getOrTranslatePfn h mm pfn).1 = none ∧
        (t.getOrTranslatePfn h mm pfn).2.store = t.store ∧
        (t.getOrTranslatePfn h mm pfn).2.partialLine = t.partialLine ∧
        (t.getOrTranslatePfn h mm pfn).2.outcomes = t.outcomes) ∨
      (h.alloc t.allocs = true ∧
        ∃ t', t.getOrTranslatePfn h mm pfn =
            (some (translation t.guestRamBase mm pfn, true), t') ∧
          t'.store = { t with hash := translation t.guestRamBase mm pfn :: t.hash }.store ∧
          t'.allocs = t.allocs + 1 ∧ t'.partialLine = t.partialLine ∧
          t'.outcomes = t.outcomes + 1) := by
  -- the allocation decides; the outcome is not part of the store
  have hfind := find?_eq_none_iff.mpr hnew
  cases halloc : h.alloc t.allocs with
  | false =>
    refine .inl ⟨rfl, ?_⟩
    simp only [getOrTranslatePfn, if_neg hne, hfind, alloc, halloc, Bool.not_false, if_true]
    exact ⟨trivial, rfl, trivial, rfl⟩
  | true =>
    refine .inr ⟨rfl, ?_⟩
    simp only [getOrTranslatePfn, hne, if_false, hfind, alloc, halloc, Bool.not_true,
      Bool.false_eq_true]
    refine ⟨_, rfl, ?_⟩
    obtain ⟨hstore, hallocs, hline, houtcomes⟩ := store_countOutcome
      (translateGpaToHpa t.guestRamBase mm (pfn <<< 12)).1 { t with allocs := t.allocs + 1 }
    simp only [store_eq_iff] at hstore ⊢
    refine ⟨?_, hallocs, hline, houtcomes⟩
    simp_all

/-- An entry is stored in the next slot if the array has room or can be made larger, and
then the array has room for it. -/
theorem addTranslationEntry_cases (e : Translation) (t : Translator) :
    let t' := t.addTranslationEntry h e
    t'.partialLine = t.partialLine ∧ t'.qemuPid = t.qemuPid ∧
      t'.guestRamBase = t.guestRamBase ∧ t'.hash = t.hash ∧ t'.outcomes = t.outcomes ∧
      (t.translationCapacity ≤ t.entryCount ∧ h.alloc t.allocs = false ∧ t'.store = t.store ∨
        (t.translationCapacity ≤ t.entryCount → h.alloc t.allocs = true) ∧
          t'.translationEntries = (t.putEntry e).translationEntries ∧
          t'.entryCount = t.entryCount + 1 ∧
          (t.entryCount ≤ t.translationCapacity → t'.entryCount ≤ t'.translationCapacity)) := by
  intro t'
  -- memory is asked for only when the array is full
  by_cases hfull : t.translationCapacity ≤ t.entryCount
  · cases halloc : h.alloc t.allocs with
    | false =>
      have ht' : t' = (t.alloc h).2 := by
        simp [t', addTranslationEntry, hfull, alloc, halloc]
      rw [ht']
      exact ⟨rfl, rfl, rfl, rfl, rfl, .inl ⟨hfull, rfl, rfl⟩⟩
    | true =>
      have ht' : t' = { (t.alloc h).2.putEntry e with
          translationCapacity :=
            if t.translationCapacity = 0 then 1024 else t.translationCapacity * 2 } := by
        simp [t', addTranslationEntry, hfull, alloc, halloc]
      rw [ht']
      refine ⟨rfl, rfl, rfl, rfl, rfl, .inr ⟨fun _ => rfl, rfl, rfl, fun hroom => ?_⟩⟩
      show t.entryCount + 1 ≤ if t.translationCapacity = 0 then 1024 else t.translationCapacity * 2
      split <;> omega
  · have ht' : t' = t.putEntry e := by simp [t', addTranslationEntry, hfull]
    rw [ht']
    exact ⟨rfl, rfl, rfl, rfl, rfl, .inr ⟨fun hle => absurd hle hfull, rfl, rfl,
      fun _ => Nat.not_le.mp hfull⟩⟩

/-- A new frame is put in the hash table and in the array, unless memory runs out
before the one or the other. -/
theorem processPfn_of_new {t : Translator} {pfn : BitVec 64} (hne : pfn ≠ 0)
    (hnew : ¬t.Known pfn) :
    let t' := t.processPfn h mm pfn
    let e := translation t.guestRamBase mm pfn
    t'.partialLine = t.partialLine ∧ t'.qemuPid = t.qemuPid ∧
      t'.guestRamBase = t.guestRamBase ∧
      (h.alloc t.allocs = false ∧ t'.store = t.store ∧ t'.outcomes = t.outcomes ∨
        h.alloc t.allocs = true ∧ t'.hash = e :: t.hash ∧ t'.outcomes = t.outcomes + 1 ∧
          (t.translationCapacity ≤ t.entryCount ∧ h.alloc (t.allocs + 1) = false ∧
              t'.translationEntries = t.translationEntries ∧ t'.entryCount = t.entryCount ∨
            (t.translationCapacity ≤ t.entryCount → h.alloc (t.allocs + 1) = true) ∧
              t'.translationEntries = (t.putEntry e).translationEntries ∧
              t'.entryCount = t.entryCount + 1 ∧
              (t.entryCount ≤ t.translationCapacity →
                t'.entryCount ≤ t'.translationCapacity))) := by
  intro t' e
  rcases getOrTranslatePfn_of_new h mm hne hnew with
    ⟨halloc, hres, hstore, hline, houtcomes⟩ |
      ⟨halloc, t₁, hres, hstore, hallocs, hline, houtcomes⟩
  · -- no memory for the entry of the hash table
    have ht' : t' = (t.getOrTranslatePfn h mm pfn).2 := by
      simp only [t', processPfn, if_neg hne]
      split
      · next heq => rw [heq] at hres; cases hres
      · next heq => rw [heq]
    rw [ht']
    have hvars := store_eq_iff.mp hstore
    exact ⟨hline, hvars.1, hvars.2.1, .inl ⟨halloc, hstore, houtcomes⟩⟩
  · have ht' : t' = t₁.addTranslationEntry h e := by
      simp only [t', processPfn, if_neg hne, hres]
      rw [translation_setGpaPfn]
    obtain ⟨hpid, hbase, hhash, hentries, hcap, hcount⟩ := store_eq_iff.mp hstore
    obtain ⟨hline', hpid', hbase', hhash', houtcomes', hslot⟩ := addTranslationEntry_cases h e t₁
    rw [hallocs, hcap, hcount] at hslot
    rw [ht']
    refine ⟨hline'.trans hline, hpid'.trans hpid, hbase'.trans hbase, .inr ⟨halloc,
      hhash'.trans hhash, houtcomes'.trans houtcomes, ?_⟩⟩
    rcases hslot with ⟨hfull, hfail, hsame⟩ | ⟨hgrow, hentries', hcount', hroom⟩
    · obtain ⟨-, -, -, hentries', -, hcount'⟩ := store_eq_iff.mp hsame
      exact .inl ⟨hfull, hfail, hentries'.trans hentries, hcount'.trans hcount⟩
    · refine .inr ⟨hgrow, hentries'.trans ?_, hcount', hroom⟩
      simp only [putEntry, hentries, hcount]

/-- A frame leaves everything outside of the store as it is. -/
theorem processPfn_frame (t : Translator) (pfn : BitVec 64) :
    (t.processPfn h mm pfn).partialLine = t.partialLine ∧
      (t.processPfn h mm pfn).qemuPid = t.qemuPid ∧
      (t.processPfn h mm pfn).guestRamBase = t.guestRamBase := by
  by_cases hpfn : pfn = 0 ∨ t.Known pfn
  · rw [processPfn_of_known h mm hpfn]
    exact ⟨rfl, rfl, rfl⟩
  · obtain ⟨hne, hnew⟩ := not_or.mp hpfn
    obtain ⟨hline, hpid, hbase, -⟩ := processPfn_of_new h mm hne hnew
    exact ⟨hline, hpid, hbase⟩

/-- Where the array's slots are as many as `entry_count` says, the next slot is the
one behind them. -/
theorem putEntry_of_length (e : Translation) {t : Translator}
    (hlen : (t.translationEntries.getD []).length = t.entryCount) :
    (t.putEntry e).translationEntries = some (t.translationEntries.getD [] ++ [e]) := by
  simp [putEntry, List.rightpad, ← hlen]

/-! ### Every entry is the translation of its frame -/

/-- Every slot holds the translation of its own frame, which is not zero. -/
structure Translated (base : BitVec 64) (mm : Option Mm) (t : Translator) : Prop where
  ramBase : t.guestRamBase = base
  length : (t.translationEntries.getD []).length = t.entryCount
  slots : ∀ e ∈ t.translationEntries.getD [],
    e.gpaPfn ≠ 0 ∧ e = translation base mm e.gpaPfn

theorem Translated.congr {base : BitVec 64} {mm : Option Mm} {t t' : Translator}
    (heq : t.store = t'.store) (ht : t.Translated base mm) : t'.Translated base mm := by
  obtain ⟨-, hbase, -, hentries, -, hcount⟩ := store_eq_iff.mp heq
  exact ⟨hbase ▸ ht.ramBase, by rw [← hentries, ← hcount]; exact ht.length,
    by rw [← hentries]; exact ht.slots⟩

theorem lineInvariant_translated (base : BitVec 64) :
    LineInvariant h mm fun _ t => t.Translated base mm where
  setPid _ ht := ht.congr (by rfl)
  setProcessed _ ht := ht.congr (by rfl)
  step {_ t} pfn ht := by
    by_cases hpfn : pfn = 0 ∨ t.Known pfn
    · rwa [processPfn_of_known h mm hpfn]
    obtain ⟨hne, hnew⟩ := not_or.mp hpfn
    obtain ⟨-, -, hbase, hcases⟩ := processPfn_of_new h mm hne hnew
    rcases hcases with ⟨-, hsame, -⟩ |
      ⟨-, -, -, ⟨-, -, hentries, hcount⟩ | ⟨-, hentries, hcount, -⟩⟩
    · exact ht.congr hsame.symm
    · -- the array could not grow, the entry is in the hash table only
      exact ⟨hbase.trans ht.ramBase, by rw [hentries, hcount]; exact ht.length,
        by rw [hentries]; exact ht.slots⟩
    · rw [putEntry_of_length _ ht.length, ht.ramBase] at hentries
      refine ⟨hbase.trans ht.ramBase, ?_, ?_⟩
      · rw [hentries, hcount]
        simp [ht.length]
      · intro e he
        rw [hentries, Option.getD_some] at he
        rcases List.mem_append.mp he with he | he
        · exact ht.slots e he
        · rw [List.mem_singleton.mp he, gpaPfn_translation]
          exact ⟨hne, rfl⟩

/-! ### Without failures the store holds each frame once -/

/-- The frames other than zero, each where it first occurs. -/
def distinctFrames (pfns : List (BitVec 64)) : List (BitVec 64) :=
  (pfns.filter (· ≠ 0)).eraseDups

theorem mem_distinctFrames {pfns : List (BitVec 64)} {pfn : BitVec 64} :
    pfn ∈ distinctFrames pfns ↔ pfn ∈ pfns ∧ pfn ≠ 0 := by
  simp [distinctFrames]

theorem distinctFrames_concat (pfns : List (BitVec 64)) (pfn : BitVec 64) :
    distinctFrames (pfns ++ [pfn]) =
      if pfn = 0 ∨ pfn ∈ distinctFrames pfns then distinctFrames pfns
      else distinctFrames pfns ++ [pfn] := by
  by_cases hzero : pfn = 0
  · simp [distinctFrames, hzero]
  · simp only [hzero, false_or, mem_distinctFrames, ne_eq, not_false_eq_true, and_true]
    have happ : (pfns ++ [pfn]).filter (· ≠ 0) = pfns.filter (· ≠ 0) ++ [pfn] := by
      simpa using hzero
    rw [distinctFrames, happ, List.eraseDups_append]
    have hnonzero : pfn ≠ 0#64 := hzero
    by_cases hmem : pfn ∈ pfns
    · simp [distinctFrames, hmem, List.removeAll, hnonzero]
    · simp [distinctFrames, hmem, List.removeAll, List.eraseDups_cons]

/-- The hash table and the array hold the translations of the distinct frames. -/
structure Stores (base : BitVec 64) (mm : Option Mm) (pfns : List (BitVec 64))
    (t : Translator) : Prop where
  ramBase : t.guestRamBase = base
  hash : t.hash = ((distinctFrames pfns).map (translation base mm)).reverse
  slots : t.translationEntries.getD [] = (distinctFrames pfns).map (translation base mm)
  count : t.entryCount = (distinctFrames pfns).length

theorem Stores.congr {base : BitVec 64} {mm : Option Mm} {pfns : List (BitVec 64)}
    {t t' : Translator} (heq : t.store = t'.store) (ht : t.Stores base mm pfns) :
    t'.Stores base mm pfns := by
  obtain ⟨-, hbase, hhash, hentries, -, hcount⟩ := store_eq_iff.mp heq
  exact ⟨hbase ▸ ht.ramBase, hhash ▸ ht.hash, hentries ▸ ht.slots, hcount ▸ ht.count⟩

theorem Stores.known_iff {base : BitVec 64} {mm : Option Mm} {pfns : List (BitVec 64)}
    {t : Translator} (ht : t.Stores base mm pfns) {pfn : BitVec 64} :
    t.Known pfn ↔ pfn ∈ distinctFrames pfns := by
  simp [Known, ht.hash]

theorem Stores.entries_eq {base : BitVec 64} {mm : Option Mm} {pfns : List (BitVec 64)}
    {t : Translator} (ht : t.Stores base mm pfns) :
    t.entries = (distinctFrames pfns).map (translation base mm) := by
  rw [entries, ht.slots, ht.count]
  exact List.take_of_length_le (by simp)

theorem lineInvariant_stores (halloc : ∀ n, h.alloc n = true) (base : BitVec 64) :
    LineInvariant h mm (Stores base mm) where
  setPid _ ht := ht.congr (by rfl)
  setProcessed _ ht := ht.congr (by rfl)
  step {pfns t} pfn ht := by
    by_cases hpfn : pfn = 0 ∨ t.Known pfn
    · have hsame : distinctFrames (pfns ++ [pfn]) = distinctFrames pfns := by
        rw [distinctFrames_concat, if_pos (hpfn.imp_right ht.known_iff.mp)]
      rw [processPfn_of_known h mm hpfn]
      exact ⟨ht.ramBase, hsame ▸ ht.hash, hsame ▸ ht.slots, hsame ▸ ht.count⟩
    obtain ⟨hne, hnew⟩ := not_or.mp hpfn
    have happ : distinctFrames (pfns ++ [pfn]) = distinctFrames pfns ++ [pfn] := by
      rw [distinctFrames_concat, if_neg (by rw [← ht.known_iff]; exact hpfn)]
    obtain ⟨-, -, hbase, hcases⟩ := processPfn_of_new h mm hne hnew
    -- neither allocation fails
    simp only [halloc, Bool.true_eq_false, false_and, and_false, false_or] at hcases
    obtain ⟨-, hhash, -, -, hentries, hcount, -⟩ := hcases
    have hlen : (t.translationEntries.getD []).length = t.entryCount := by
      rw [ht.slots, ht.count]
      simp
    refine ⟨hbase.trans ht.ramBase, ?_, ?_, ?_⟩
    · rw [hhash, happ, ht.hash, ht.ramBase]
      simp
    · rw [hentries, putEntry_of_length _ hlen, Option.getD_some, ht.slots, happ, ht.ramBase]
      simp
    · rw [hcount, ht.count, happ]
      simp

end Translator

end SagePTE.PageTables
