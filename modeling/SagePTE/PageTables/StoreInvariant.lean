import SagePTE.PageTables.Session

/-!
# The books of the translation store

The hash table, the array and the counters of the host translator are updated by
different functions, and an allocation may fail between the updates. The module's
requests are followed from its loading on, through any failures, in any order: writes
to the configuration and the input file, and reads.

The books agree exactly as long as no entry has got lost. An entry is lost when its
frame has been put in the hash table and the array cannot be made larger. The self-test
of `translator_init` loses its entries too: the hash table and the array are set up
after it, the counters are not. The write that opens a session clears all of them.

## Main definitions

* `Translator.StoreInvariant` — the books agree
* `Request`, `Translator.served` — the module's runs
* `Translator.growthFails`, `Translator.entriesLost` — where entries get lost
* `Translator.Ledger` — what every request keeps

## Main results

* `Translator.served_ledger` — the ledger after every run
* `Translator.storeInvariant_served_iff` — the books agree exactly if nothing is lost
* `Translator.storeInvariant_of_session` — with memory, a session makes them agree
-/

set_option autoImplicit false

namespace SagePTE.PageTables

open Lines

namespace Translator

variable (h : Host) (mm : Option Mm)

/-! ### The invariant -/

/-- The array has room for its entries and is there if it has any, its entries are for
distinct frames, which are the keys of the hash table, and each has been counted. -/
structure StoreInvariant (t : Translator) : Prop where
  capacity : t.entryCount ≤ t.translationCapacity
  allocated : 0 < t.entryCount → t.translationEntries.isSome
  distinct : (t.entries.map Translation.gpaPfn).Nodup
  keys : ∀ pfn, (∃ e ∈ t.entries, e.gpaPfn = pfn) ↔ t.Known pfn
  counted : t.outcomes = t.entryCount

/-! ### Lost entries -/

/-- Whether a frame's entry is lost: the frame is new, there is memory for the hash
table, and the array is full and cannot grow. -/
def growthFails (t : Translator) (pfn : BitVec 64) : Bool :=
  pfn ≠ 0 && (t.hash.find? (·.gpaPfn == pfn)).isNone && h.alloc t.allocs &&
    decide (t.translationCapacity ≤ t.entryCount) && !h.alloc (t.allocs + 1)

/-- Whether one of several frames loses its entry. -/
def framesLost : Translator → List (BitVec 64) → Bool
  | _, [] => false
  | t, pfn :: pfns => t.growthFails h pfn || framesLost (t.processPfn h mm pfn) pfns

/-- Whether the loop over complete lines loses an entry. -/
def linesLost : Bool × Translator → List (List Char) → Bool
  | _, [] => false
  | s, line :: lines =>
    !s.1 && framesLost h mm s.2 (lineFrames line) || linesLost (processLine h mm s line) lines

/-- Whether a write loses an entry. -/
def writeLost (copyFaults : Bool) (buffer : List Char) (ppos : ℕ) (t : Translator) : Bool :=
  match t.loopEntry h copyFaults buffer ppos with
  | none => false
  | some (P, lines, t₀) => linesLost h (some P.mm) (decide (ppos = 0), t₀) lines

/-! ### What every frame keeps -/

/-- Nothing is lost: the array lists the hash table, oldest first. -/
structure Complete (t : Translator) : Prop where
  slots : t.translationEntries.getD [] = t.hash.reverse
  count : t.entryCount = t.hash.length
  counted : t.outcomes = t.hash.length
  room : t.entryCount ≤ t.translationCapacity

/-- What is true of the store after every request. Where entries are lost, either more
outcomes have been counted than there are keys, or there are more keys than entries. -/
structure Ledger (lost : Bool) (t : Translator) : Prop where
  keys : (t.hash.map Translation.gpaPfn).Nodup
  length : ∀ slots, t.translationEntries = some slots → slots.length = t.entryCount
  counted : t.entryCount ≤ t.outcomes
  complete : lost = false → t.Complete
  lacking : lost = true → t.hash.length < t.outcomes ∨ t.entryCount < t.hash.length

variable {t t' : Translator} {lost : Bool}

theorem Complete.entries_eq (ht : t.Complete) : t.entries = t.hash.reverse := by
  rw [entries, ht.slots, ht.count]
  exact List.take_of_length_le (by simp)

theorem Ledger.length_entries (ht : t.Ledger lost)
    (halloc : 0 < t.entryCount → t.translationEntries.isSome) :
    t.entries.length = t.entryCount := by
  rcases Nat.eq_zero_or_pos t.entryCount with hzero | hpos
  · simp [entries, hzero]
  · obtain ⟨slots, hslots⟩ := Option.isSome_iff_exists.mp (halloc hpos)
    simp [entries, hslots, ht.length slots hslots]

/-- The books agree exactly if nothing is lost. -/
theorem Ledger.storeInvariant_iff (ht : t.Ledger lost) : t.StoreInvariant ↔ lost = false := by
  constructor
  · intro hinv
    -- the entries' frames and the keys are the same, both without repetition
    have hkeys : (t.entries.map Translation.gpaPfn).Perm (t.hash.map Translation.gpaPfn) := by
      refine (List.perm_ext_iff_of_nodup hinv.distinct ht.keys).mpr fun pfn => ?_
      rw [List.mem_map, List.mem_map]
      exact hinv.keys pfn
    have hlen := hkeys.length_eq
    rw [List.length_map, List.length_map, ht.length_entries hinv.allocated] at hlen
    by_contra hlost
    have hlack := ht.lacking (Bool.eq_true_of_not_eq_false hlost)
    have hcounted := hinv.counted
    omega
  · intro hlost
    have hc := ht.complete hlost
    have hentries := hc.entries_eq
    refine ⟨hc.room, ?_, ?_, ?_, hc.counted.trans hc.count.symm⟩
    · intro hpos
      cases hnone : t.translationEntries with
      | some slots => rfl
      | none =>
        have hslots := hc.slots
        rw [hnone, Option.getD_none, eq_comm, List.reverse_eq_nil_iff] at hslots
        rw [hc.count, hslots] at hpos
        exact absurd hpos (by simp)
    · rw [hentries, List.map_reverse]
      exact List.nodup_reverse.mpr ht.keys
    · intro pfn
      simp only [hentries, List.mem_reverse]
      rfl

/-- The variables that the books consist of. -/
def books (t : Translator) : List Translation × Option (List Translation) × ℕ × ℕ × ℕ :=
  (t.hash, t.translationEntries, t.translationCapacity, t.entryCount, t.outcomes)

theorem books_eq_of_store (hstore : t'.store = t.store) (houtcomes : t'.outcomes = t.outcomes) :
    t'.books = t.books := by
  obtain ⟨-, -, hhash, hentries, hcap, hcount⟩ := store_eq_iff.mp hstore
  simp only [books, hhash, hentries, hcap, hcount, houtcomes]

theorem Ledger.congr (ht : t.Ledger lost) (hbooks : t'.books = t.books) : t'.Ledger lost := by
  simp only [books, Prod.mk.injEq] at hbooks
  obtain ⟨hhash, hentries, hcap, hcount, houtcomes⟩ := hbooks
  refine ⟨?_, ?_, ?_, fun hlost => ?_, ?_⟩
  · exact hhash ▸ ht.keys
  · rw [hentries, hcount]
    exact ht.length
  · rw [hcount, houtcomes]
    exact ht.counted
  · obtain ⟨h1, h2, h3, h4⟩ := ht.complete hlost
    exact ⟨by rw [hentries, hhash]; exact h1, by rw [hcount, hhash]; exact h2,
      by rw [houtcomes, hhash]; exact h3, by rw [hcount, hcap]; exact h4⟩
  · rw [hhash, houtcomes, hcount]
    exact ht.lacking

/-! ### One frame -/

theorem growthFails_of_known {pfn : BitVec 64} (hpfn : pfn = 0 ∨ t.Known pfn) :
    t.growthFails h pfn = false := by
  rcases hpfn with rfl | hknown
  · simp [growthFails]
  · have hfind : t.hash.find? (·.gpaPfn == pfn) ≠ none :=
      fun hnone => find?_eq_none_iff.mp hnone hknown
    simp [growthFails, Option.isNone_eq_false_iff.mpr (Option.isSome_iff_ne_none.mpr hfind)]

theorem growthFails_of_new {pfn : BitVec 64} (hne : pfn ≠ 0) (hnew : ¬t.Known pfn) :
    t.growthFails h pfn = (h.alloc t.allocs &&
      decide (t.translationCapacity ≤ t.entryCount) && !h.alloc (t.allocs + 1)) := by
  have hzero : decide (pfn ≠ 0) = true := decide_eq_true hne
  rw [growthFails, hzero, find?_eq_none_iff.mpr hnew, Option.isNone_none, Bool.true_and,
    Bool.true_and]

theorem length_putEntry (e : Translation) (t : Translator) {slots : List Translation}
    (hslots : (t.putEntry e).translationEntries = some slots) :
    slots.length = t.entryCount + 1 := by
  obtain rfl := Option.some.inj hslots
  simp [List.rightpad]
  omega

theorem Complete.putEntry {e : Translation} (ht : t.Complete) (hhash : t'.hash = e :: t.hash)
    (houtcomes : t'.outcomes = t.outcomes + 1)
    (hentries : t'.translationEntries = (t.putEntry e).translationEntries)
    (hcount : t'.entryCount = t.entryCount + 1) (hroom : t'.entryCount ≤ t'.translationCapacity) :
    t'.Complete := by
  have hlen : (t.translationEntries.getD []).length = t.entryCount := by
    rw [ht.slots, List.length_reverse, ht.count]
  refine ⟨?_, ?_, ?_, hroom⟩
  · rw [hentries, putEntry_of_length e hlen, Option.getD_some, ht.slots, hhash, List.reverse_cons]
  · rw [hcount, ht.count, hhash, List.length_cons]
  · rw [houtcomes, ht.counted, hhash, List.length_cons]

/-- One frame. It is lost if the array cannot grow for it. -/
theorem Ledger.processPfn (ht : t.Ledger lost) (pfn : BitVec 64) :
    (t.processPfn h mm pfn).Ledger (lost || t.growthFails h pfn) := by
  by_cases hpfn : pfn = 0 ∨ t.Known pfn
  · rw [processPfn_of_known h mm hpfn, growthFails_of_known h hpfn, Bool.or_false]
    exact ht
  obtain ⟨hne, hnew⟩ := not_or.mp hpfn
  obtain ⟨-, -, -, hcases⟩ := processPfn_of_new h mm hne hnew
  rw [growthFails_of_new h hne hnew]
  rcases hcases with ⟨halloc, hstore, houtcomes⟩ | ⟨halloc, hhash, houtcomes, hcases⟩
  · rw [halloc, Bool.false_and, Bool.false_and, Bool.or_false]
    exact ht.congr (books_eq_of_store hstore houtcomes)
  have hkeys : ((t.processPfn h mm pfn).hash.map Translation.gpaPfn).Nodup := by
    rw [hhash, List.map_cons, gpaPfn_translation, List.nodup_cons, List.mem_map]
    exact ⟨hnew, ht.keys⟩
  have hcounted := ht.counted
  have hlen := congrArg List.length hhash
  rw [List.length_cons] at hlen
  rcases hcases with ⟨hfull, hfail, hentries, hcount⟩ | ⟨hgrow, hentries, hcount, hroom⟩
  · -- the frame has a key, and no slot
    rw [halloc, decide_eq_true hfull, hfail, Bool.not_false, Bool.and_true, Bool.and_true,
      Bool.or_true]
    refine ⟨hkeys, ?_, by omega, by simp, fun _ => ?_⟩
    · rw [hentries, hcount]
      exact ht.length
    · cases hlost : lost with
      | false =>
        have := (ht.complete hlost).count
        omega
      | true =>
        have := ht.lacking hlost
        omega
  · have hfine : (decide (t.translationCapacity ≤ t.entryCount) && !h.alloc (t.allocs + 1)) =
        false := by
      by_cases hfull : t.translationCapacity ≤ t.entryCount
      · simp [hgrow hfull]
      · simp [hfull]
    rw [Bool.and_assoc, hfine, Bool.and_false, Bool.or_false]
    refine ⟨hkeys, ?_, by omega, fun hlost => ?_, fun hlost => ?_⟩
    · intro slots hslots
      rw [hcount]
      exact length_putEntry _ t (hentries ▸ hslots)
    · have hc := ht.complete hlost
      exact hc.putEntry hhash houtcomes hentries hcount (hroom hc.room)
    · have := ht.lacking hlost
      omega

/-! ### One write -/

theorem Ledger.foldl_processPfn (ht : t.Ledger lost) (frames : List (BitVec 64)) :
    (frames.foldl (Translator.processPfn h mm) t).Ledger (lost || framesLost h mm t frames) := by
  induction frames generalizing t lost with
  | nil => simpa [framesLost] using ht
  | cons pfn frames ih =>
    rw [List.foldl_cons, framesLost, ← Bool.or_assoc]
    exact ih (ht.processPfn h mm pfn)

theorem Ledger.processLine (ht : t.Ledger lost) (firstLine : Bool) {line : List Char}
    (hline : '\n' ∉ line) :
    (Translator.processLine h mm (firstLine, t) line).2.Ledger
      (lost || (!firstLine && framesLost h mm t (lineFrames line))) := by
  cases line with
  | nil =>
    have hnone : framesLost h mm t (lineFrames []) = false := rfl
    rw [hnone, Bool.and_false, Bool.or_false]
    exact ht
  | cons c cs =>
    cases firstLine with
    | true =>
      rw [Bool.not_true, Bool.false_and, Bool.or_false]
      exact ht.congr rfl
    | false =>
      have hfold := ht.foldl_processPfn h mm (lineFrames (c :: cs))
      rw [← parseAndTranslate_eq_foldl h mm hline] at hfold
      simp only [Translator.processLine, Bool.false_eq_true, if_false, reduceCtorEq,
        Bool.not_false, Bool.true_and]
      split
      · next t' heq =>
        rw [heq] at hfold
        exact hfold.congr rfl
      · next t' heq =>
        rw [heq] at hfold
        exact hfold

theorem Ledger.foldl_processLine (ht : t.Ledger lost) (firstLine : Bool)
    {lines : List (List Char)} (hlines : ∀ line ∈ lines, '\n' ∉ line) :
    (lines.foldl (Translator.processLine h mm) (firstLine, t)).2.Ledger
      (lost || linesLost h mm (firstLine, t) lines) := by
  induction lines generalizing firstLine t lost with
  | nil => simpa [linesLost] using ht
  | cons line lines ih =>
    rw [List.foldl_cons, linesLost, ← Bool.or_assoc]
    exact ih (ht.processLine h mm firstLine (hlines line (by simp))) _
      fun l hl => hlines l (by simp [hl])

/-- The write at offset zero clears the books. -/
theorem Ledger.openSession (ht : t.Ledger lost) (ppos : ℕ) :
    (t.openSession ppos).Ledger (lost && !decide (ppos = 0)) := by
  by_cases hpos : ppos = 0
  · rw [Translator.openSession, if_pos hpos, decide_eq_true hpos, Bool.not_true, Bool.and_false]
    exact ⟨List.nodup_nil, by simp [clearTranslations], Nat.zero_le _,
      fun _ => ⟨rfl, rfl, rfl, Nat.zero_le _⟩, by simp⟩
  · rw [Translator.openSession, if_neg hpos, decide_eq_false hpos, Bool.not_false, Bool.and_true]
    exact ht

/-- One write. -/
theorem Ledger.inputWrite (ht : t.Ledger lost) (copyFaults : Bool) (buffer : List Char)
    (ppos : ℕ) :
    (t.inputWrite h copyFaults buffer ppos).2.2.Ledger
      ((lost && !decide (ppos = 0)) || t.writeLost h copyFaults buffer ppos) := by
  have hopen := ht.openSession ppos
  rcases inputWrite_cases h copyFaults buffer ppos t with ⟨hentry, hstore, houtcomes⟩ |
    ⟨P, lines, t₀, hentry, -, hlines, hstart, hstart', hend, hend'⟩
  · rw [writeLost, hentry, Bool.or_false]
    exact hopen.congr (books_eq_of_store hstore houtcomes)
  · have ht₀ := hopen.congr (books_eq_of_store hstart hstart')
    rw [writeLost, hentry]
    exact (ht₀.foldl_processLine h (some P.mm) (decide (ppos = 0)) hlines).congr
      (books_eq_of_store hend hend')

end Translator

/-! ### Runs of the module -/

/-- A request to the module: a write to one of its files, or a read. -/
inductive Request
  | config (copyFaults : Bool) (buffer : List Char)
  | input (copyFaults : Bool) (buffer : List Char) (ppos : ℕ)
  | read

/-- Whether the request opens a session. -/
def Request.opens : Request → Bool
  | .input _ _ ppos => decide (ppos = 0)
  | _ => false

namespace Translator

/-- A request, in the host as it is then. Reads leave the variables as they are. -/
def serve (t : Translator) (r : Host × Request) : Translator :=
  match r.2 with
  | .config copyFaults buffer => (t.configWrite r.1 buffer copyFaults).2
  | .input copyFaults buffer ppos => (t.inputWrite r.1 copyFaults buffer ppos).2.2
  | .read => t

/-- The module after requests, from its loading on. -/
def served (h : Host) (rs : List (Host × Request)) : Translator := rs.foldl serve (init h)

/-- Whether a request loses an entry. -/
def requestLost (t : Translator) (r : Host × Request) : Bool :=
  match r.2 with
  | .input copyFaults buffer ppos => t.writeLost r.1 copyFaults buffer ppos
  | _ => false

/-- Serves a request and notes whether entries are lost. -/
def watch (s : Bool × Translator) (r : Host × Request) : Bool × Translator :=
  (s.1 && !r.2.opens || s.2.requestLost r, s.2.serve r)

/-- Whether entries are lost: in the self-test or later, and no session opened since. -/
def entriesLost (h : Host) (rs : List (Host × Request)) : Bool :=
  (rs.foldl watch (decide (0 < (init h).outcomes), init h)).1

variable {t : Translator} {lost : Bool}

/-- The configuration is not part of the books. -/
theorem books_configWrite (h : Host) (buffer : List Char) (copyFaults : Bool) (t : Translator) :
    (t.configWrite h buffer copyFaults).2.books = t.books := by
  simp only [configWrite]
  split
  · rfl
  · split
    · rfl
    · split
      · rfl
      · split <;> rfl

/-- One request. -/
theorem Ledger.serve (ht : t.Ledger lost) (r : Host × Request) :
    (t.serve r).Ledger (lost && !r.2.opens || t.requestLost r) := by
  obtain ⟨h, req⟩ := r
  cases req with
  | config copyFaults buffer =>
    simpa [Translator.serve, requestLost, Request.opens] using
      ht.congr (books_configWrite h buffer copyFaults t)
  | input copyFaults buffer ppos => exact ht.inputWrite h copyFaults buffer ppos
  | read => simpa [Translator.serve, requestLost, Request.opens] using ht

/-- All requests. -/
theorem Ledger.foldl_watch (ht : t.Ledger lost) (rs : List (Host × Request)) :
    (rs.foldl watch (lost, t)).2.Ledger (rs.foldl watch (lost, t)).1 := by
  induction rs generalizing t lost with
  | nil => exact ht
  | cons r rs ih => exact ih (ht.serve r)

theorem foldl_watch_snd (s : Bool × Translator) (rs : List (Host × Request)) :
    (rs.foldl watch s).2 = rs.foldl serve s.2 :=
  (List.foldl_hom Prod.snd fun _ _ => rfl).symm

/-- The self-test starts with empty books. What it loses is counted. -/
theorem ledger_init (h : Host) : (init h).Ledger (decide (0 < (init h).outcomes)) := by
  have hempty : Ledger false {} :=
    ⟨List.nodup_nil, by simp, Nat.zero_le _, fun _ => ⟨rfl, rfl, rfl, Nat.zero_le _⟩, by simp⟩
  have htest := hempty.foldl_processPfn h none
    (lineFrames "00007f1396583000,15171e,215fb0,131b3a,107adc,34c1614".toList)
  rw [← parseAndTranslate_eq_foldl h none (by decide)] at htest
  have hcounted := htest.counted
  unfold init
  generalize parseAndTranslate h none
    "00007f1396583000,15171e,215fb0,131b3a,107adc,34c1614".toList {} = p at hcounted
  obtain ⟨_, s⟩ := p
  -- the counters are those of the self-test, and the rest is empty
  refine ⟨List.nodup_nil, fun _ hsome => absurd hsome (by simp), hcounted, fun hnone => ?_,
    fun hsome => .inl (of_decide_eq_true hsome)⟩
  have hzero : s.outcomes = 0 := Nat.eq_zero_of_not_pos (of_decide_eq_false hnone)
  have hcount : s.entryCount = 0 := Nat.eq_zero_of_le_zero (hzero ▸ hcounted)
  exact ⟨rfl, hcount, hzero, hcount.le⟩

/-- **The ledger of every run.** -/
theorem served_ledger (h : Host) (rs : List (Host × Request)) :
    (served h rs).Ledger (entriesLost h rs) := by
  have hrun := (ledger_init h).foldl_watch rs
  rwa [foldl_watch_snd] at hrun

/-- **The books of the store.** After any requests, through any failures, the books agree
exactly if no entry is lost. -/
theorem storeInvariant_served_iff (h : Host) (rs : List (Host × Request)) :
    (served h rs).StoreInvariant ↔ entriesLost h rs = false :=
  (served_ledger h rs).storeInvariant_iff

/-- The same host, except that one allocation fails. -/
def hostFailingAt (mm : Mm) (n : ℕ) : Host where
  process _ := some ⟨mm, []⟩
  alloc k := k ≠ n

/-- The self-test leaves five entries counted without an array. After a dump has been
written, with no memory for the array at its first frame, that frame has a key and no
entry. -/
theorem books_disagree :
    let h := hostFailingAt loopMm 9
    let loaded := served (hostWith loopMm) []
    let t := served h [(h, .config false ['1']), (h, .input false sampleDump 0)]
    (loaded.entryCount = 5 ∧ loaded.translationCapacity = 0 ∧ loaded.translationEntries = none) ∧
      (t.hash.map Translation.gpaPfn = [0xD, 0xC, 0xB, 0xA] ∧
        t.entries.map Translation.gpaPfn = [0xB, 0xC, 0xD] ∧ t.outcomes = 4 ∧ t.entryCount = 3) ∧
      ¬loaded.StoreInvariant ∧ ¬t.StoreInvariant := by
  intro h loaded t
  have hloaded : loaded.entryCount = 5 ∧ loaded.translationCapacity = 0 ∧
      loaded.translationEntries = none := by
    decide +kernel
  have ht : t.hash.map Translation.gpaPfn = [0xD, 0xC, 0xB, 0xA] ∧
      t.entries.map Translation.gpaPfn = [0xB, 0xC, 0xD] ∧ t.outcomes = 4 ∧ t.entryCount = 3 := by
    decide +kernel
  refine ⟨hloaded, ht, ?_, ?_⟩
  · intro hinv
    have := hinv.capacity
    omega
  · intro hinv
    have := hinv.counted
    omega

/-! ### Runs with memory -/

theorem framesLost_of_alloc {h : Host} (halloc : ∀ n, h.alloc n = true) (mm : Option Mm)
    (t : Translator) (frames : List (BitVec 64)) : framesLost h mm t frames = false := by
  induction frames generalizing t with
  | nil => rfl
  | cons pfn frames ih => simp [framesLost, ih, growthFails, halloc]

theorem linesLost_of_alloc {h : Host} (halloc : ∀ n, h.alloc n = true) (mm : Option Mm)
    (s : Bool × Translator) (lines : List (List Char)) : linesLost h mm s lines = false := by
  induction lines generalizing s with
  | nil => rfl
  | cons line lines ih => simp [linesLost, ih, framesLost_of_alloc halloc]

theorem requestLost_of_alloc {r : Host × Request} (halloc : ∀ n, r.1.alloc n = true)
    (t : Translator) : t.requestLost r = false := by
  obtain ⟨h, req⟩ := r
  cases req with
  | config _ _ => rfl
  | read => rfl
  | input copyFaults buffer ppos =>
    simp only [requestLost, writeLost, linesLost_of_alloc halloc]
    split <;> rfl

theorem foldl_watch_of_alloc {rs : List (Host × Request)}
    (halloc : ∀ r ∈ rs, ∀ n, r.1.alloc n = true) (s : Bool × Translator) :
    (rs.foldl watch s).1 = (s.1 && !rs.any fun r => r.2.opens) := by
  induction rs generalizing s with
  | nil => simp
  | cons r rs ih =>
    rw [List.foldl_cons, ih (fun r hr => halloc r (by simp [hr])), watch,
      requestLost_of_alloc (halloc r (by simp)), Bool.or_false, List.any_cons, Bool.not_or,
      Bool.and_assoc]

/-- With memory, the books agree from the first session on. -/
theorem storeInvariant_of_session (h : Host) {rs : List (Host × Request)}
    (halloc : ∀ r ∈ rs, ∀ n, r.1.alloc n = true) (hopen : ∃ r ∈ rs, r.2.opens = true) :
    (served h rs).StoreInvariant := by
  have hany : (rs.any fun r => r.2.opens) = true := List.any_eq_true.mpr hopen
  have hlost : entriesLost h rs = false := by
    rw [entriesLost, foldl_watch_of_alloc halloc, hany, Bool.not_true, Bool.and_false]
  exact (served_ledger h rs).storeInvariant_iff.mpr hlost

end Translator

end SagePTE.PageTables
