import SagePTE.Tracer.Convert

/-!
# Merging the raw files

`raw2trace_t` converts the raw files of all threads into one trace. Each buffer of a thread
starts with a timestamp. The loop reads one file up to its next timestamp, and then goes on
with the file whose timestamp is the smallest. A branch at the end of a buffer is held back and
written after the first markers of the thread's next buffer.

## Main definitions

* `Thread`, `Merge` — the state of the loop
* `Thread.readEntry` — one entry of a thread
* `Merge.selectThread`, `Merge.step` — one turn of the loop
* `mergeThreads` — the loop of `merge_and_process_thread_files`
* `doConversion` — the whole conversion

## Main results

* `nextThread_spec` — the thread that a scan chooses
* `mergeThreads_ne_none` — the loop ends
* `convertFiles_eq_ok_iff` — when a conversion succeeds
-/

set_option autoImplicit false

namespace SagePTE.Tracer

open Simulator

/-! ### Threads -/

/-- What the loop keeps for the file of a thread: the ids, whether the process was written,
the time of the next buffer or zero, the file, and the branch that is held back. -/
structure Thread where
  tid : BitVec 32
  pid : BitVec 32
  wrotePid : Bool := false
  time : ℕ := 0
  file : ThreadFile
  delayedBranch : List RawEntry := []
  deriving DecidableEq, Repr

/-- `write_tid`. -/
def writeTid (tid : BitVec 32) : RawEntry := entryOf .thread 4 (tid.signExtend 64)

/-- `write_pid`. -/
def writePid (pid : BitVec 32) : RawEntry := entryOf .pid 4 (pid.signExtend 64)

/-- `TRACE_MARKER_TYPE_TIMESTAMP`. -/
def markerTimestamp : BitVec 16 := 2

/-- `write_timestamp`. -/
def writeTimestamp (time : ℕ) : RawEntry := writeMarker markerTimestamp (BitVec.ofNat 64 time)

namespace Thread

variable (t : Thread)

/-- What the scan over the threads does with one of them: it reads the next timestamp, where
there is none and the file has not ended. -/
def scan : Except Failure Thread :=
  if t.time = 0 ∧ t.file.atEof = false then
    match t.file.read with
    | (none, _) => .error (.error "Failed to read from input file")
    | (some (.timestamp usec), file) => .ok { t with time := usec.toNat, file }
    | (some _, _) => .error (.error "Missing timestamp entry")
  else .ok t

/-- The entries at the start of a buffer. -/
def bufferHeader : List RawEntry :=
  writeTid t.tid :: ((if t.wrotePid then [] else [writePid t.pid]) ++ [writeTimestamp t.time])

/-- The thread after the start of a buffer was written. -/
def opened : Thread := { t with wrotePid := true, time := 0 }

/-- How the loop goes on after an entry of a thread: with the same thread, with a scan, or with
a scan because the thread has ended. -/
inductive Next | same | scan | ended
  deriving DecidableEq, Repr

/-- What an entry of a thread leads to. -/
structure Turn where
  shared : Shared
  thread : Thread
  out : List RawEntry := []
  next : Next

/-- The state in which an entry is converted. The branch that was held back has been written,
but not before a marker. -/
def conv (shared : Shared) (e : OfflineEntry) (file : ThreadFile) : Conv :=
  if e.isMarker then { shared, file, delayedBranch := t.delayedBranch }
  else { shared, file, out := t.delayedBranch }

@[simp] theorem shared_conv (shared : Shared) (e : OfflineEntry) (file : ThreadFile) :
    (t.conv shared e file).shared = shared := by
  unfold conv
  split <;> rfl

@[simp] theorem file_conv (shared : Shared) (e : OfflineEntry) (file : ThreadFile) :
    (t.conv shared e file).file = file := by
  unfold conv
  split <;> rfl

/-- The conversion of an entry that is no timestamp. -/
def convertEntry (b : Binary) (shared : Shared) (e : OfflineEntry) (file : ThreadFile) :
    Except Failure Turn := do
  let r ← processOfflineEntry b t.tid e (t.conv shared e file)
  .ok {
    shared := r.2.shared
    thread := { t with file := r.2.file, delayedBranch := r.2.delayedBranch }
    out := r.2.out
    next := if r.1 then .ended else .same }

/-- One entry of a thread. A file that ends without a footer is taken to have one. -/
def readEntry (b : Binary) (shared : Shared) : Except Failure Turn :=
  match t.file.read with
  | (none, file) => t.convertEntry b shared .footer file
  | (some (.timestamp usec), file) =>
    .ok { shared, thread := { t with time := usec.toNat, file }, next := .scan }
  | (some e, file) => t.convertEntry b shared e file

end Thread

/-- The index of the thread with the smallest time, among those that have one. The times that
the fold has seen are at least `best.1`, and `best.2` is the index to fall back to. -/
def nextThread (threads : List Thread) : ℕ :=
  (threads.zipIdx.foldl
    (fun best p => if p.1.time ≠ 0 ∧ p.1.time < best.1 then (p.1.time, p.2) else best)
    (2 ^ 64 - 1, 0)).2

/-! ### The loop -/

/-- The state of the loop. What is written is kept with the index of the file for which it is
written. -/
structure Merge where
  shared : Shared := {}
  threads : List Thread
  current : Option ℕ := none
  threadCount : ℕ
  out : List (ℕ × RawEntry) := []

namespace Merge

variable (b : Binary) (m : Merge)

/-- The thread to read from, after a scan if there is none. -/
def selectThread : Except Failure (ℕ × Merge) :=
  match m.current with
  | some i => .ok (i, m)
  | none => do
    let threads ← m.threads.mapM Thread.scan
    let i := nextThread threads
    match threads[i]? with
    | none => .error .undefined
    | some t =>
      if t.tid = 0 ∨ t.wrotePid = false ∧ t.pid = -1 then .error .abort
      else .ok (i, { m with
        threads := threads.set i t.opened
        current := some i
        out := m.out ++ t.bufferHeader.map (i, ·) })

/-- The state after an entry of the thread at an index. -/
def advance (i : ℕ) (turn : Thread.Turn) : Merge where
  shared := turn.shared
  threads := m.threads.set i turn.thread
  current := if turn.next = .same then some i else none
  threadCount := if turn.next = .ended then m.threadCount - 1 else m.threadCount
  out := m.out ++ turn.out.map (i, ·)

/-- One turn of the loop. -/
def step : Except Failure Merge := do
  let r ← m.selectThread
  match r.2.threads[r.1]? with
  | none => .error .undefined
  | some t =>
    let turn ← t.readEntry b r.2.shared
    .ok (r.2.advance r.1 turn)

/-- The number of entries that have not been read. -/
def unread : ℕ := (m.threads.map fun t => t.file.entries.length).sum

end Merge

/-- The state before the loop. -/
def initMerge (threads : List Thread) : Merge :=
  { threads, threadCount := threads.length }

/-- The loop ends when no thread is left. -/
def Merge.finished (m : Merge) : Bool := m.threadCount = 0

/-- The loop of `merge_and_process_thread_files`. Every turn reads an entry or ends a thread. -/
def mergeThreads (b : Binary) (threads : List Thread) : Except Failure (Option Merge) :=
  Fallible.loop (Merge.step b) Merge.finished ((initMerge threads).unread + threads.length)
    (initMerge threads)

/-! ### The conversion -/

/-- `check_thread_file`, with `is_thread_start`. -/
def checkThreadFile (entries : List OfflineEntry) : Except Failure (List OfflineEntry) :=
  match entries with
  | [] => .error (.error "Unable to read thread log file")
  | .extended valueA _ ext :: rest =>
    if ext ≠ OfflineEntry.extHeader then
      .error (.error "Thread log file is corrupted: missing version entry")
    else if valueA ≠ 2 then
      .error (.error ("Version mismatch: expect 2 vs " ++ toString (valueA.setWidth 32).toInt))
    else .ok rest
  | _ :: _ => .error (.error "Thread log file is corrupted: missing version entry")

/-- `read_header` after the timestamp that old files have first. -/
def readIds (time : ℕ) (entries : List OfflineEntry) : Except Failure Thread :=
  match entries with
  | .thread tid :: .pid pid :: rest =>
    .ok { tid := tid.setWidth 32, pid := pid.setWidth 32, time, file := { rest } }
  | [] | [.thread _] => .error (.error "Failed to read header from input file")
  | _ => .error .abort

/-- `read_header`. -/
def readHeader (entries : List OfflineEntry) : Except Failure Thread :=
  match entries with
  | .timestamp usec :: rest => readIds usec.toNat rest
  | _ => readIds 0 entries

/-- `TRACE_TYPE_HEADER` and `TRACE_TYPE_FOOTER` around a trace. -/
def wholeRawTrace (body : List RawEntry) : List RawEntry :=
  entryOf .header 0 traceEntryVersion :: (body ++ [entryOf .footer 0 0])

/-- The conversion of the raw files, given as words, up to the entries that are written with
the indices of their files. -/
def convertFiles (b : Binary) (files : List (List (BitVec 64))) :
    Except Failure (List (ℕ × RawEntry)) := do
  let files ← files.mapM fun words => checkThreadFile (words.map OfflineEntry.ofWord)
  if files = [] then .error (.error "No thread files found.")
  else do
    let threads ← files.mapM readHeader
    let r ← mergeThreads b threads
    match r with
    | none => .error .undefined
    | some m => .ok m.out

/-- `do_conversion`, without the reading of the modules. -/
def doConversion (b : Binary) (files : List (List (BitVec 64))) :
    Except Failure (List RawEntry) := do
  let out ← convertFiles b files
  .ok (wholeRawTrace (out.map Prod.snd))

/-! ### The next thread -/

/-- What the scan has found after some threads: the best one so far, or one of them that comes
before all others. -/
theorem nextThread_fold (threads : List Thread) (k : ℕ) (best : ℕ × ℕ) :
    let r := (threads.zipIdx k).foldl
      (fun best p => if p.1.time ≠ 0 ∧ p.1.time < best.1 then (p.1.time, p.2) else best) best
    (r = best ∧ ∀ t ∈ threads, t.time ≠ 0 → best.1 ≤ t.time) ∨
      ∃ i t, threads[i]? = some t ∧ r = (t.time, k + i) ∧ t.time ≠ 0 ∧ t.time < best.1 ∧
        ∀ j t', threads[j]? = some t' → t'.time ≠ 0 →
          t.time < t'.time ∨ t.time = t'.time ∧ i ≤ j := by
  induction threads generalizing k best with
  | nil => simp
  | cons t₀ threads ih =>
    simp only [List.zipIdx_cons, List.foldl_cons]
    split
    next hbetter =>
      right
      rcases ih (k + 1) (t₀.time, k) with ⟨hr, hle⟩ | ⟨i, t, ht, hr, hne, hlt, hfirst⟩
      · refine ⟨0, t₀, rfl, by simpa using hr, hbetter.1, hbetter.2, fun j t' ht' hne' => ?_⟩
        cases j with
        | zero =>
          obtain rfl : t₀ = t' := by simpa using ht'
          exact .inr ⟨rfl, Nat.le_refl 0⟩
        | succ j =>
          have := hle t' (List.mem_of_getElem? (by simpa using ht')) hne'
          dsimp only at this
          omega
      · refine ⟨i + 1, t, by simpa using ht, ?_, hne, hlt.trans hbetter.2, fun j t' ht' hne' => ?_⟩
        · rw [hr, Nat.add_right_comm, Nat.add_assoc]
        cases j with
        | zero =>
          obtain rfl : t₀ = t' := by simpa using ht'
          exact .inl hlt
        | succ j =>
          have := hfirst j t' (by simpa using ht') hne'
          omega
    next hworse =>
      rcases ih (k + 1) best with ⟨hr, hle⟩ | ⟨i, t, ht, hr, hne, hlt, hfirst⟩
      · refine .inl ⟨hr, List.forall_mem_cons.mpr ⟨fun hne => ?_, hle⟩⟩
        by_contra hlt
        exact hworse ⟨hne, by omega⟩
      · refine .inr ⟨i + 1, t, by simpa using ht, ?_, hne, hlt, fun j t' ht' hne' => ?_⟩
        · rw [hr, Nat.add_right_comm, Nat.add_assoc]
        cases j with
        | zero =>
          obtain rfl : t₀ = t' := by simpa using ht'
          have : ¬t₀.time < best.1 := fun h => hworse ⟨hne', h⟩
          omega
        | succ j =>
          have := hfirst j t' (by simpa using ht') hne'
          omega

/-- The scan finds the thread whose time is the smallest, and of several the first. -/
theorem nextThread_spec {threads : List Thread} (h : ∃ t ∈ threads, t.time ≠ 0)
    (hlt : ∀ t ∈ threads, t.time < 2 ^ 61) :
    ∃ t, threads[nextThread threads]? = some t ∧ t.time ≠ 0 ∧
      ∀ j t', threads[j]? = some t' → t'.time ≠ 0 →
        t.time < t'.time ∨ t.time = t'.time ∧ nextThread threads ≤ j := by
  obtain ⟨t₀, ht₀, hne₀⟩ := h
  rcases nextThread_fold threads 0 (2 ^ 64 - 1, 0) with ⟨-, hle⟩ | ⟨i, t, ht, hr, hne, -, hfirst⟩
  · have := hle t₀ ht₀ hne₀
    have := hlt t₀ ht₀
    dsimp only at *
    omega
  · have hi : nextThread threads = i := by
      rw [nextThread, hr]
      exact Nat.zero_add i
    rw [hi]
    exact ⟨t, ht, hne, hfirst⟩

/-! ### The loop ends -/

open Fallible ThreadFile

/-- An entry without a timestamp ends the thread only if it is a footer. -/
theorem Thread.next_convertEntry_footer {b : Binary} {t : Thread} {shared : Shared}
    {file : ThreadFile} {turn : Thread.Turn}
    (h : t.convertEntry b shared .footer file = .ok turn) : turn.next = .ended := by
  obtain ⟨r, hr, h⟩ := bind_eq_ok_iff.mp h
  obtain rfl := Except.ok.inj h
  have hended : r.1 = true := by
    unfold processOfflineEntry at hr
    simp only [OfflineEntry.footer, if_true] at hr
    split at hr
    · simp at hr
    · obtain ⟨c, -, hr⟩ := bind_eq_ok_iff.mp hr
      obtain rfl := Except.ok.inj hr
      rfl
  simp [hended]

theorem Thread.skips_convertEntry {b : Binary} {t : Thread} {shared : Shared}
    {e : OfflineEntry} {file : ThreadFile} {turn : Thread.Turn}
    (h : t.convertEntry b shared e file = .ok turn) : file.Skips turn.thread.file := by
  obtain ⟨r, hr, h⟩ := bind_eq_ok_iff.mp h
  obtain rfl := Except.ok.inj h
  simpa using skips_processOfflineEntry hr

/-- Every entry of a thread that is handled has been read, or the thread ends. -/
theorem Thread.gives_readEntry {b : Binary} {t : Thread} {shared : Shared} {turn : Thread.Turn}
    {es : List OfflineEntry} (h : t.readEntry b shared = .ok turn) (hes : t.file.Gives es) :
    ∃ es', turn.thread.file.Gives es' ∧ es' <:+ es ∧
      (es'.length < es.length ∨ turn.next = .ended) := by
  unfold Thread.readEntry at h
  split at h
  next file hread =>
    obtain ⟨rfl, hfile, -⟩ := hes.of_read_none hread
    obtain ⟨es', hes', hsuffix⟩ := (Thread.skips_convertEntry h).follows [] hfile
    exact ⟨es', hes', hsuffix, .inr (Thread.next_convertEntry_footer h)⟩
  next usec file hread =>
    obtain ⟨es', rfl, hfile, -⟩ := hes.of_read_some hread
    obtain rfl := Except.ok.inj h
    exact ⟨es', hfile, List.suffix_cons _ es', .inl (by simp)⟩
  next e file _ hread =>
    obtain ⟨es₁, rfl, hfile, -⟩ := hes.of_read_some hread
    obtain ⟨es', hes', hsuffix⟩ := (Thread.skips_convertEntry h).follows es₁ hfile
    refine ⟨es', hes', hsuffix.trans (List.suffix_cons e es₁), .inl ?_⟩
    have := hsuffix.length_le
    simp only [List.length_cons]
    omega

theorem Thread.follows_scan {t t' : Thread} (h : t.scan = .ok t') : t.file.Follows t'.file := by
  unfold Thread.scan at h
  split at h
  · split at h
    · simp at h
    next usec file hread =>
      obtain rfl := Except.ok.inj h
      exact .of_read hread
    · simp at h
  · obtain rfl := Except.ok.inj h
    exact .refl _

namespace Merge

variable {b : Binary} {m m' : Merge}

/-- One turn of the loop, taken apart. -/
theorem step_eq_ok_iff :
    m.step b = .ok m' ↔ ∃ i m₁ t turn, m.selectThread = .ok (i, m₁) ∧ m₁.threads[i]? = some t ∧
      t.readEntry b m₁.shared = .ok turn ∧ m' = m₁.advance i turn := by
  rw [step, bind_eq_ok_iff]
  constructor
  · rintro ⟨⟨i, m₁⟩, hselect, h⟩
    split at h
    · simp at h
    next t ht =>
      obtain ⟨turn, hturn, h⟩ := bind_eq_ok_iff.mp h
      exact ⟨i, m₁, t, turn, hselect, ht, hturn, (Except.ok.inj h).symm⟩
  · rintro ⟨i, m₁, t, turn, hselect, ht, hturn, rfl⟩
    refine ⟨(i, m₁), hselect, ?_⟩
    simp only [ht]
    exact bind_eq_ok_iff.mpr ⟨turn, hturn, rfl⟩

/-- A scan, taken apart. -/
theorem selectThread_eq_ok_of_none {i : ℕ} (hcurrent : m.current = none)
    (h : m.selectThread = .ok (i, m')) :
    ∃ threads t, List.Forall₂ (fun t t' => t.scan = .ok t') m.threads threads ∧
      i = nextThread threads ∧ threads[i]? = some t ∧ t.tid ≠ 0 ∧
      m' = { m with
        threads := threads.set i t.opened
        current := some i
        out := m.out ++ t.bufferHeader.map (i, ·) } := by
  unfold selectThread at h
  simp only [hcurrent] at h
  obtain ⟨threads, hscan, h⟩ := bind_eq_ok_iff.mp h
  split at h
  · simp at h
  next t ht =>
    split at h
    · simp at h
    next hids =>
      obtain ⟨rfl, rfl⟩ : nextThread threads = i ∧ _ = m' := by simpa using h
      exact ⟨threads, t, mapM_eq_ok_iff.mp hscan, rfl, ht, fun h0 => hids (.inl h0), rfl⟩

/-- The states whose files can be read. -/
def Reading (m : Merge) : Prop := ∀ t ∈ m.threads, ∃ es, t.file.Gives es

theorem unread_scan {threads threads' : List Thread}
    (h : List.Forall₂ (fun t t' => t.scan = .ok t') threads threads')
    (hreading : ∀ t ∈ threads, ∃ es, t.file.Gives es) :
    (∀ t ∈ threads', ∃ es, t.file.Gives es) ∧
      (threads'.map fun t => t.file.entries.length).sum ≤
        (threads.map fun t => t.file.entries.length).sum := by
  induction h with
  | nil => simp
  | cons hscan _ ih =>
    rw [List.forall_mem_cons] at hreading
    obtain ⟨⟨es, hes⟩, hrest⟩ := hreading
    obtain ⟨es', hes', hsuffix⟩ := Thread.follows_scan hscan es hes
    have hle := hsuffix.length_le
    rw [← hes.entries_eq, ← hes'.entries_eq] at hle
    refine ⟨List.forall_mem_cons.mpr ⟨⟨es', hes'⟩, (ih hrest).1⟩, ?_⟩
    simp only [List.map_cons, List.sum_cons]
    exact Nat.add_le_add hle (ih hrest).2

theorem Reading.set {threads : List Thread} (h : ∀ t ∈ threads, ∃ es, t.file.Gives es)
    {t : Thread} (ht : ∃ es, t.file.Gives es) (i : ℕ) :
    ∀ t' ∈ threads.set i t, ∃ es, t'.file.Gives es := by
  intro t' ht'
  rcases List.mem_or_eq_of_mem_set ht' with hmem | rfl
  · exact h t' hmem
  · exact ht

theorem Reading.selectThread {i : ℕ} (hm : m.Reading) (h : m.selectThread = .ok (i, m')) :
    m'.Reading ∧ m'.unread ≤ m.unread ∧ m'.threadCount = m.threadCount := by
  cases hcurrent : m.current with
  | some j =>
    obtain ⟨-, rfl⟩ : j = i ∧ m = m' := by simpa [Merge.selectThread, hcurrent] using h
    exact ⟨hm, Nat.le_refl _, rfl⟩
  | none =>
    obtain ⟨threads, t, hscan, -, ht, -, rfl⟩ := selectThread_eq_ok_of_none hcurrent h
    obtain ⟨hthreads, hle⟩ := unread_scan hscan hm
    have hset := Pointwise.sum_map_set (fun t => t.file.entries.length) ht t.opened
    refine ⟨Reading.set (t := t.opened) hthreads (hthreads t (List.mem_of_getElem? ht)) i, ?_, rfl⟩
    simp only [unread] at hle ⊢
    have hfile : t.opened.file = t.file := rfl
    simp only [hfile] at hset
    omega

/-- A turn reads an entry or ends a thread. -/
theorem Reading.step (hm : m.Reading) (hcount : 0 < m.threadCount) (h : m.step b = .ok m') :
    m'.Reading ∧ m'.unread + m'.threadCount < m.unread + m.threadCount := by
  obtain ⟨i, m₁, t, turn, hselect, ht, hturn, rfl⟩ := step_eq_ok_iff.mp h
  obtain ⟨hm₁, hle, hcount₁⟩ := hm.selectThread hselect
  obtain ⟨es, hes⟩ := hm₁ t (List.mem_of_getElem? ht)
  obtain ⟨es', hes', hsuffix, hturn⟩ := Thread.gives_readEntry hturn hes
  have hset := Pointwise.sum_map_set (fun t => t.file.entries.length) ht turn.thread
  have hsuffix := hsuffix.length_le
  simp only [hes.entries_eq, hes'.entries_eq] at hset
  refine ⟨Reading.set hm₁ ⟨es', hes'⟩ i, ?_⟩
  simp only [unread, advance] at hle ⊢
  rcases hturn with hlt | hended
  · split <;> omega
  · simp only [hended, if_true]
    omega

/-- The states from which the loop takes another turn. -/
def Running (m : Merge) : Prop := m.Reading ∧ 0 < m.threadCount

/-- What is left to do. -/
def left (m : Merge) : ℕ := m.unread + m.threadCount

theorem Running.left_pos (m : Merge) (hm : m.Running) : 0 < m.left := Nat.add_pos_right _ hm.2

theorem Running.step (m m' : Merge) (hm : m.Running) (hstep : m.step b = .ok m')
    (hstop : m'.finished = false) : m'.Running ∧ m'.left < m.left := by
  obtain ⟨hreading, hlt⟩ := hm.1.step hm.2 hstep
  exact ⟨⟨hreading, Nat.pos_of_ne_zero (by simpa [finished] using hstop)⟩, hlt⟩

end Merge

/-- Threads whose files have just been opened. -/
def Fresh (threads : List Thread) : Prop := ∀ t ∈ threads, t.file = { rest := t.file.rest }

theorem Fresh.running {threads : List Thread} (h : Fresh threads) (hne : threads ≠ []) :
    (initMerge threads).Running := by
  refine ⟨fun t ht => ?_, List.length_pos_iff.mpr hne⟩
  have hgives := gives_ofRest t.file.rest
  rw [← h t ht] at hgives
  exact ⟨_, hgives⟩

section Ends

variable {b : Binary} {threads : List Thread} (hfresh : Fresh threads) (hne : threads ≠ [])

include hfresh hne

/-- **The loop ends.** It fails, or it comes to a state in which no thread is left. -/
theorem mergeThreads_ne_none : mergeThreads b threads ≠ .ok none :=
  loop_ne_none Merge.Running.left_pos Merge.Running.step (hfresh.running hne) (Nat.le_refl _)

theorem mergeThreads_eq_some_iff {e : Merge} :
    mergeThreads b threads = .ok (some e) ↔
      Ends (Merge.step b) Merge.finished (initMerge threads) e :=
  loop_eq_some_iff Merge.Running.left_pos Merge.Running.step (hfresh.running hne) (Nat.le_refl _)

end Ends

/-! ### Files -/

/-- The thread of a raw file. -/
def openThreadFile (words : List (BitVec 64)) : Except Failure Thread := do
  let es ← checkThreadFile (words.map OfflineEntry.ofWord)
  readHeader es

/-- The entries that are read before the loop. -/
theorem readIds_eq_ok {time : ℕ} {es : List OfflineEntry} {t : Thread}
    (h : readIds time es = .ok t) :
    ∃ tid pid rest, es = .thread tid :: .pid pid :: rest ∧
      t = { tid := tid.setWidth 32, pid := pid.setWidth 32, time, file := { rest } } := by
  unfold readIds at h
  split at h
  next tid pid rest => exact ⟨tid, pid, rest, rfl, (Except.ok.inj h).symm⟩
  all_goals simp at h

theorem readHeader_eq_ok {es : List OfflineEntry} {t : Thread} (h : readHeader es = .ok t) :
    ∃ tid pid rest,
      (t.time = 0 ∧ es = .thread tid :: .pid pid :: rest ∨
        ∃ usec, t.time = usec.toNat ∧ es = .timestamp usec :: .thread tid :: .pid pid :: rest) ∧
      t = { tid := tid.setWidth 32, pid := pid.setWidth 32, time := t.time, file := { rest } } := by
  unfold readHeader at h
  split at h
  next usec es =>
    obtain ⟨tid, pid, rest, rfl, rfl⟩ := readIds_eq_ok h
    exact ⟨tid, pid, rest, .inr ⟨usec, rfl, rfl⟩, rfl⟩
  next =>
    obtain ⟨tid, pid, rest, rfl, rfl⟩ := readIds_eq_ok h
    exact ⟨tid, pid, rest, .inl ⟨rfl, rfl⟩, rfl⟩

/-- The first entry of a file is its version. -/
theorem checkThreadFile_eq_ok {es rest : List OfflineEntry} (h : checkThreadFile es = .ok rest) :
    ∃ valueB, es = .extended 2 valueB OfflineEntry.extHeader :: rest := by
  unfold checkThreadFile at h
  split at h
  · simp at h
  next valueA valueB ext rest' =>
    split_ifs at h with hext hversion
    obtain rfl := Except.ok.inj h
    obtain rfl : valueA = 2 := by simpa using hversion
    obtain rfl : ext = OfflineEntry.extHeader := by simpa using hext
    exact ⟨valueB, rfl⟩
  · simp at h

theorem fresh_of_openThreadFile {files : List (List (BitVec 64))} {threads : List Thread}
    (h : files.mapM openThreadFile = .ok threads) : Fresh threads := by
  intro t ht
  obtain ⟨words, -, hopen⟩ := exists_mem_of_mapM h ht
  obtain ⟨es, -, hheader⟩ := bind_eq_ok_iff.mp hopen
  obtain ⟨tid, pid, rest, -, heq⟩ := readHeader_eq_ok hheader
  rw [heq]

/-- When a conversion succeeds. -/
theorem convertFiles_eq_ok_iff {b : Binary} {files : List (List (BitVec 64))}
    {out : List (ℕ × RawEntry)} :
    convertFiles b files = .ok out ↔
      ∃ threads e, files.mapM openThreadFile = .ok threads ∧ threads ≠ [] ∧
        Ends (Merge.step b) Merge.finished (initMerge threads) e ∧ e.out = out := by
  rw [convertFiles, bind_eq_ok_iff]
  constructor
  · rintro ⟨es, hes, h⟩
    split at h
    · simp at h
    next hne =>
      obtain ⟨threads, hthreads, h⟩ := bind_eq_ok_iff.mp h
      obtain ⟨r, hr, h⟩ := bind_eq_ok_iff.mp h
      have hopen : files.mapM openThreadFile = .ok threads := exists_mapM_iff.mp ⟨es, hes, hthreads⟩
      have hlength := (mapM_eq_ok_iff.mp hthreads).length_eq
      have hne : threads ≠ [] := by
        rintro rfl
        exact hne (List.eq_nil_of_length_eq_zero hlength)
      split at h
      · simp at h
      next e =>
        have hends := (mergeThreads_eq_some_iff (fresh_of_openThreadFile hopen) hne).mp hr
        exact ⟨threads, e, hopen, hne, hends, Except.ok.inj h⟩
  · rintro ⟨threads, e, hopen, hne, hends, rfl⟩
    obtain ⟨es, hes, hthreads⟩ := exists_mapM_iff.mpr hopen
    have hlength := (mapM_eq_ok_iff.mp hthreads).length_eq
    have hes_ne : es ≠ [] := by
      rintro rfl
      exact hne (List.eq_nil_of_length_eq_zero hlength.symm)
    have hr := (mergeThreads_eq_some_iff (fresh_of_openThreadFile hopen) hne).mpr hends
    refine ⟨es, hes, ?_⟩
    rw [if_neg hes_ne]
    exact bind_eq_ok_iff.mpr ⟨threads, hthreads, bind_eq_ok_iff.mpr ⟨some e, hr, rfl⟩⟩

/-- When the conversion of a single file succeeds. -/
theorem convertFiles_singleton_eq_ok_iff {b : Binary} {words : List (BitVec 64)}
    {out : List (ℕ × RawEntry)} :
    convertFiles b [words] = .ok out ↔
      ∃ t e, openThreadFile words = .ok t ∧
        Ends (Merge.step b) Merge.finished (initMerge [t]) e ∧ e.out = out := by
  rw [convertFiles_eq_ok_iff]
  constructor
  · rintro ⟨threads, e, hopen, -, h⟩
    cases mapM_eq_ok_iff.mp hopen with
    | cons hhead htail =>
      cases htail
      exact ⟨_, e, hhead, h⟩
  · rintro ⟨t, e, hopen, h⟩
    exact ⟨[t], e, mapM_eq_ok_iff.mpr (.cons hopen .nil), by simp, h⟩

/-- The raw files of two threads that execute a block, the first of them twice. -/
def twoThreads : List (List (BitVec 64)) :=
  [[.extended 2 0 OfflineEntry.extHeader, .thread 1, .pid 9, .timestamp 5, .pc 16 0 2,
      .memref 0x1000, .timestamp 8, .pc 16 0 2, .memref 0x2000, .footer],
    [.extended 2 0 OfflineEntry.extHeader, .thread 2, .pid 9, .timestamp 7, .pc 16 0 2,
      .memref 0x3000, .footer]].map (List.map OfflineEntry.word)

/-- The loop ends for the threads of these files. -/
theorem mergeThreads_twoThreads_ne_none :
    ∃ threads, twoThreads.mapM openThreadFile = .ok threads ∧ threads ≠ [] ∧ Fresh threads ∧
      mergeThreads loadJump threads ≠ .ok none := by
  have hok : (twoThreads.mapM openThreadFile).toOption.elim false (· ≠ []) = true := by
    decide +kernel
  cases hopen : twoThreads.mapM openThreadFile with
  | error e => simp [hopen, Except.toOption] at hok
  | ok threads =>
    have hne : threads ≠ [] := by simpa [hopen, Except.toOption] using hok
    have hfresh := fresh_of_openThreadFile hopen
    exact ⟨threads, rfl, hne, hfresh, mergeThreads_ne_none hfresh hne⟩

end SagePTE.Tracer
