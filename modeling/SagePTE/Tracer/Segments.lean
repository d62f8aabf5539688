import SagePTE.Lib.Merging
import SagePTE.Tracer.ThreadOutput

/-!
# The order of the buffers

The converted trace is a sequence of segments, one for each buffer of a thread. A segment starts
with the thread, its process if it is the thread's first, and the time of the buffer.

## Main definitions

* `Segment`, `layout` — a trace made of segments
* `Before` — the order of the segments, by time and file
* `pending`, `queues` — the buffers that have not been opened

## Main results

* `convertFiles_segments` — the segments of a converted trace are the buffers of all files in
  the order of their times
-/

set_option autoImplicit false

namespace SagePTE.Tracer

open Simulator Fallible ThreadFile Merging

/-! ### Segments -/

/-- A buffer of the file at an index in the converted trace. -/
structure Segment where
  index : ℕ
  time : ℕ
  body : List RawEntry
  deriving DecidableEq, Repr

/-- The entries of a segment. -/
def Segment.entries (ids : ℕ → BitVec 32 × BitVec 32) (first : Bool) (s : Segment) :
    List RawEntry :=
  writeTid (ids s.index).1 ::
    ((if first then [writePid (ids s.index).2] else []) ++ writeTimestamp s.time :: s.body)

/-- The trace of some segments, after segments of the files in a list. -/
def layout (ids : ℕ → BitVec 32 × BitVec 32) : List ℕ → List Segment → List (ℕ × RawEntry)
  | _, [] => []
  | seen, s :: segs =>
    (s.entries ids (s.index ∉ seen)).map (s.index, ·) ++ layout ids (s.index :: seen) segs

theorem layout_concat (ids : ℕ → BitVec 32 × BitVec 32) (seen : List ℕ) (segs : List Segment)
    (s : Segment) :
    layout ids seen (segs ++ [s]) = layout ids seen segs ++
      (s.entries ids (s.index ∉ seen ∧ ∀ s' ∈ segs, s'.index ≠ s.index)).map (s.index, ·) := by
  induction segs generalizing seen with
  | nil => simp [layout]
  | cons s₀ segs ih =>
    rw [List.cons_append, layout, ih, layout, List.append_assoc]
    congr 4
    rw [decide_eq_decide, List.mem_cons, not_or, List.forall_mem_cons, ne_comm]
    tauto

/-- What is written to the last segment. -/
theorem layout_extend (ids : ℕ → BitVec 32 × BitVec 32) (segs : List Segment) (s : Segment)
    (es : List RawEntry) :
    layout ids [] (segs ++ [{ s with body := s.body ++ es }]) =
      layout ids [] (segs ++ [s]) ++ es.map (s.index, ·) := by
  simp [layout_concat, Segment.entries]

/-- The order of the segments: by time, and at the same time by file. -/
def Before (p q : ℕ × ℕ) : Prop := p.1 < q.1 ∨ p.1 = q.1 ∧ p.2 ≤ q.2

instance : DecidableRel Before := fun p q =>
  inferInstanceAs (Decidable (p.1 < q.1 ∨ p.1 = q.1 ∧ p.2 ≤ q.2))

instance : IsTrans (ℕ × ℕ) Before where
  trans p q r hpq hqr := by
    simp only [Before] at *
    omega

instance : Std.Antisymm Before where
  antisymm p q hpq hqp := by
    simp only [Before] at *
    ext <;> omega

instance : Std.Total Before where
  total p q := by
    simp only [Before]
    omega

theorem before_of_le {time time' i : ℕ} (h : time ≤ time') : Before (time, i) (time', i) := by
  simp only [Before]
  omega

/-! ### Buffers that have not been opened -/

/-- The times of some entries. -/
def timestamps (es : List OfflineEntry) : List ℕ := es.filterMap OfflineEntry.usec?

theorem timestamps_cons (e : OfflineEntry) (es : List OfflineEntry) :
    timestamps (e :: es) = e.usec?.toList ++ timestamps es := by
  rw [timestamps, List.filterMap_cons]
  cases e.usec? <;> rfl

theorem timestamps_append (es es' : List OfflineEntry) :
    timestamps (es ++ es') = timestamps es ++ timestamps es' :=
  List.filterMap_append

/-- The times of the buffers of a thread that have not been opened. -/
def pending (t : Thread) : List ℕ :=
  (if t.time = 0 then [] else [t.time]) ++ timestamps t.file.entries

/-- The buffers of all threads. -/
def queues (threads : List Thread) : List (List (ℕ × ℕ)) :=
  threads.zipIdx.map fun p => (pending p.1).map (·, p.2)

theorem getElem?_queues (threads : List Thread) (i : ℕ) :
    (queues threads)[i]? = threads[i]?.map fun t => (pending t).map (·, i) := by
  simp [queues, Function.comp_def]

theorem queues_set (threads : List Thread) (i : ℕ) (t : Thread) :
    queues (threads.set i t) = (queues threads).set i ((pending t).map (·, i)) := by
  apply List.ext_getElem?
  intro j
  rw [getElem?_queues]
  by_cases hij : i = j
  · subst hij
    rw [List.getElem?_set_self', List.getElem?_set_self', getElem?_queues]
    cases threads[i]? <;> rfl
  · rw [List.getElem?_set_ne hij, List.getElem?_set_ne hij, getElem?_queues]

/-- The entries that belong to an entry do not open a buffer. -/
theorem timestamps_skips {f f' : ThreadFile} {es : List OfflineEntry} (h : f.Skips f')
    (hes : f.Gives es) : timestamps f'.entries = timestamps es := by
  obtain ⟨skipped, es', rfl, hes', hnone⟩ := h es hes
  have hskipped : timestamps skipped = [] := List.filterMap_eq_nil_iff.mpr hnone
  rw [hes'.entries_eq, timestamps_append, hskipped, List.nil_append]

/-- Reading an entry does not change which buffers have not been opened. -/
theorem pending_readEntry {b : Binary} {t : Thread} {shared : Shared} {u : Thread.Turn}
    {es : List OfflineEntry} (h : t.readEntry b shared = .ok u) (hes : t.file.Gives es)
    (hframed : framed es = true) (htime : t.time = 0) : pending u.thread = pending t := by
  have hpending : pending t = timestamps es := by simp [pending, htime, hes.entries_eq]
  rw [hpending]
  have hconvert : ∀ e file es', file.Gives es' → timestamps es' = timestamps es →
      t.convertEntry b shared e file = .ok u → pending u.thread = timestamps es := by
    intro e file es' hfile htimes h
    have htime' : u.thread.time = 0 := by
      obtain ⟨r, -, h⟩ := bind_eq_ok_iff.mp h
      obtain rfl := Except.ok.inj h
      exact htime
    rw [pending, htime', if_pos rfl, List.nil_append,
      timestamps_skips (Thread.skips_convertEntry h) hfile, htimes]
  unfold Thread.readEntry at h
  split at h
  next file hread =>
    obtain ⟨rfl, hfile, -⟩ := hes.of_read_none hread
    exact hconvert _ file [] hfile rfl h
  next usec file hread =>
    obtain ⟨es', rfl, hfile, -⟩ := hes.of_read_some hread
    obtain rfl := Except.ok.inj h
    have hne := (framed_timestamp hframed).1
    simp [pending, hne, hfile.entries_eq, timestamps_cons, OfflineEntry.usec?]
  next e file hts hread =>
    obtain ⟨es', rfl, hfile, -⟩ := hes.of_read_some hread
    refine hconvert e file es' hfile ?_ h
    cases e with
    | timestamp usec => exact absurd rfl (hts usec)
    | _ => rfl

/-! ### One turn -/

/-- The ids of the threads. -/
def idsOf (threads : List Thread) (i : ℕ) : BitVec 32 × BitVec 32 :=
  (threads[i]?.map fun t => (t.tid, t.pid)).getD (0, 0)

/-- The state of the loop after some segments, which are the first of the buffers that there
were. The last segment is one of the current thread. -/
structure Segmented (threads : List Thread) (m : Merge) (segs : List Segment) : Prop where
  out : m.out = layout (idsOf threads) [] segs
  takes : Takes Before (queues threads) (segs.map fun s => (s.time, s.index)) (queues m.threads)
  ids : ∀ i t, m.threads[i]? = some t → idsOf threads i = (t.tid, t.pid) ∧
    (t.wrotePid = true ↔ ∃ s ∈ segs, s.index = i)
  last : ∀ i, m.current = some i → ∃ init s, segs = init ++ [s] ∧ s.index = i

variable {b : Binary} {threads : List Thread} {m : Merge} {as : List Merge} {segs : List Segment}

theorem Segmented.advance (h : Segmented threads m segs) {i : ℕ} {t : Thread} {u : Thread.Turn}
    {es : List OfflineEntry} (hcurrent : m.current = some i) (ht : m.threads[i]? = some t)
    (hes : t.file.Gives es) (hframed : framed es = true) (htime : t.time = 0)
    (hu : t.readEntry b m.shared = .ok u) :
    ∃ segs', Segmented threads (m.advance i u) segs' := by
  obtain ⟨init, s, rfl, rfl⟩ := h.last i hcurrent
  have hids : u.thread.tid = t.tid ∧ u.thread.pid = t.pid ∧ u.thread.wrotePid = t.wrotePid := by
    rcases Thread.readEntry_cases hu hes with ⟨_, _, _, _, _, hthread, _⟩ | ⟨_, hthread, _⟩
    · rw [hthread]
      exact ⟨rfl, rfl, rfl⟩
    · rw [hthread]
      exact ⟨rfl, rfl, rfl⟩
  refine ⟨init ++ [{ s with body := s.body ++ u.out }], ?_, ?_, ?_, ?_⟩
  · rw [layout_extend, ← h.out]
    rfl
  · have hself : (queues m.threads).set s.index ((pending t).map (·, s.index)) =
        queues m.threads := Pointwise.set_of_getElem? (by simp [getElem?_queues, ht])
    simp only [Merge.advance, queues_set, pending_readEntry hu hes hframed htime, hself]
    simpa using h.takes
  · intro j t' ht'
    have hindex : (∃ s' ∈ init ++ [{ s with body := s.body ++ u.out }], s'.index = j) ↔
        ∃ s' ∈ init ++ [s], s'.index = j := by simp
    rw [hindex]
    by_cases hj : s.index = j
    · subst hj
      have hi := (List.getElem?_eq_some_iff.mp ht).1
      obtain rfl : u.thread = t' := by simpa [Merge.advance, hi] using ht'
      rw [hids.1, hids.2.1, hids.2.2]
      exact h.ids _ t ht
    · simp only [Merge.advance, List.getElem?_set_ne hj] at ht'
      exact h.ids j t' ht'
  · intro j hj
    simp only [Merge.advance] at hj
    split at hj
    · exact ⟨init, _, rfl, Option.some.inj hj⟩
    · simp at hj

theorem map_pending {t : Thread} (i : ℕ) (hne : t.time ≠ 0) :
    (pending t).map (·, i) = (t.time, i) :: (timestamps t.file.entries).map (·, i) := by
  simp [pending, hne]

/-- A thread that has ended has no buffers left. -/
theorem pending_eq_nil {t : Thread} {es : List OfflineEntry} (hes : t.file.Gives es)
    (htime : t.time = 0) (heof : t.file.atEof = true) : pending t = [] := by
  obtain ⟨hpre, heof⟩ : t.file.preRead = [] ∧ t.file.eof = true := by simpa [atEof] using heof
  simp [pending, htime, entries, hpre, hes.rest_eq_nil_of_eof heof, timestamps]

/-- The times of the other threads are not before the time of the thread that a scan chooses. -/
theorem before_of_mem_queues (hinter : Interleaves b m as) (hcurrent : m.current = none)
    {p : ℕ × ℕ} (hfirst : ∀ j t, m.threads[j]? = some t → t.time ≠ 0 → Before p (t.time, j))
    {q : List (ℕ × ℕ)} (hq : q ∈ queues m.threads) {p' : ℕ × ℕ} (hp' : p' ∈ q.head?) :
    Before p p' := by
  obtain ⟨j, hj⟩ := List.mem_iff_getElem?.mp hq
  rw [getElem?_queues, Option.map_eq_some_iff] at hj
  obtain ⟨t, ht, rfl⟩ := hj
  obtain ⟨a, ha, hw | ⟨-, h0, heof⟩⟩ := hinter.waits_or_ended hcurrent ht
  · rw [map_pending j hw.time_ne_zero] at hp'
    obtain rfl : (t.time, j) = p' := by simpa using hp'
    exact hfirst j t ht hw.time_ne_zero
  · obtain ⟨es, hes, -⟩ := (hinter.mirror j t a ht ha).gives
    simp [pending_eq_nil hes h0 heof] at hp'

theorem Segmented.opened (h : Segmented threads m segs) (hinter : Interleaves b m as)
    (hcurrent : m.current = none) (hcount : 0 < m.threadCount) {i : ℕ} {m₁ : Merge}
    (hselect : m.selectThread = .ok (i, m₁)) : ∃ segs', Segmented threads m₁ segs' := by
  obtain ⟨threads', t, hscan, rfl, ht, -, rfl⟩ := Merge.selectThread_eq_ok_of_none hcurrent hselect
  obtain rfl : threads' = m.threads :=
    Except.ok.inj ((mapM_eq_ok_iff.mpr hscan).symm.trans (hinter.mapM_scan hcurrent))
  obtain ⟨t₁, a, ht₁, -, hwaits, hfirst⟩ := hinter.exists_waits hcurrent hcount
  obtain rfl : t₁ = t := Option.some.inj (ht₁.symm.trans ht)
  obtain ⟨hids, hwrote⟩ := h.ids _ t₁ ht
  generalize nextThread m.threads = i at *
  refine ⟨segs ++ [⟨i, t₁.time, []⟩], ?_, ?_, ?_, ?_⟩
  · have hentries : t₁.bufferHeader = Segment.entries (idsOf threads)
        (i ∉ ([] : List ℕ) ∧ ∀ s ∈ segs, s.index ≠ i) ⟨i, t₁.time, []⟩ := by
      cases hw : t₁.wrotePid <;> simp_all [Thread.bufferHeader, Segment.entries]
    rw [layout_concat, ← hentries, ← h.out]
  · have hqueue : (queues m.threads)[i]? =
        some ((t₁.time, i) :: (timestamps t₁.file.entries).map (·, i)) := by
      rw [getElem?_queues, ht, Option.map_some, map_pending i hwaits.time_ne_zero]
    have hopened : (pending t₁.opened).map (·, i) = (timestamps t₁.file.entries).map (·, i) := by
      simp [pending, Thread.opened]
    rw [List.map_append, queues_set, hopened]
    exact .concat h.takes hqueue fun q hq p hp =>
      before_of_mem_queues hinter hcurrent (p := (t₁.time, i)) hfirst hq hp
  · intro j t' ht'
    by_cases hij : i = j
    · subst hij
      have hi := (List.getElem?_eq_some_iff.mp ht).1
      obtain rfl : t₁.opened = t' := by simpa [hi] using ht'
      exact ⟨hids, by simp [Thread.opened]⟩
    · rw [List.getElem?_set_ne hij] at ht'
      obtain ⟨hids', hwrote'⟩ := h.ids j t' ht'
      refine ⟨hids', hwrote'.trans ?_⟩
      simp [hij]
  · intro j hj
    exact ⟨segs, _, rfl, Option.some.inj hj⟩

/-- **One turn.** A turn starts a segment, or it adds to the last one. -/
theorem Segmented.step (h : Segmented threads m segs) (hinter : Interleaves b m as)
    (hcount : 0 < m.threadCount) {m' : Merge} (hstep : m.step b = .ok m') :
    ∃ as' segs', Interleaves b m' as' ∧ Segmented threads m' segs' := by
  obtain ⟨i, m₁, t, u, hselect, ht, hu, rfl⟩ := Merge.step_eq_ok_iff.mp hstep
  obtain ⟨i', a, ha, -, hrel⟩ := hinter.selectThread hcount
  obtain ⟨r, -, rfl, -, hcurrent₁, hinter₁⟩ := hrel.of_ok_left hselect
  obtain ⟨segs₁, h₁⟩ : ∃ segs₁, Segmented threads m₁ segs₁ := by
    cases hcurrent : m.current with
    | none => exact h.opened hinter hcurrent hcount hselect
    | some j =>
      obtain ⟨-, rfl⟩ : j = i ∧ m = m₁ := by simpa [Merge.selectThread, hcurrent] using hselect
      exact ⟨segs, h⟩
  obtain ⟨t', a', t'', ht', ha', hthreads, -, -, hrel⟩ := hinter₁.advance hcurrent₁
  obtain rfl : t' = t := Option.some.inj (ht'.symm.trans ht)
  obtain ⟨u', -, hinter'⟩ := hrel.of_ok_left hu
  have hmirror := hinter₁.mirror i t' a' ht ha'
  obtain ⟨es, hes, hframed⟩ := hmirror.gives
  have htime : t'.time = 0 := by
    rcases hmirror.state with ⟨-, -, h0, -⟩ | ⟨-, hne, -⟩ | ⟨-, -, h0, -⟩
    · exact h0
    · exact absurd hcurrent₁ hne
    · exact h0
  obtain ⟨segs', h'⟩ := h₁.advance hcurrent₁ ht hes hframed htime hu
  exact ⟨_, segs', hinter', h'⟩

/-! ### Whole runs -/

/-- At the end all buffers have been opened. -/
theorem flatten_queues_eq_nil (hinter : Interleaves b m as) (hcount : m.threadCount = 0) :
    (queues m.threads).flatten = [] := by
  rw [List.flatten_eq_nil_iff]
  intro q hq
  obtain ⟨i, hi⟩ := List.mem_iff_getElem?.mp hq
  rw [getElem?_queues, Option.map_eq_some_iff] at hi
  obtain ⟨t, ht, rfl⟩ := hi
  obtain ⟨a, ha, hmirror⟩ := hinter.exists_mirror ht
  have hzero := hinter.threadCount_eq_zero hcount (List.mem_of_getElem? ha)
  obtain ⟨es, hes, -⟩ := hmirror.gives
  rcases hmirror.state with ⟨h1, -⟩ | ⟨h1, -⟩ | ⟨-, -, h0, heof⟩
  · omega
  · omega
  · simp [pending_eq_nil hes h0 heof]

/-- A loop that ends has opened all buffers in the order of their times. -/
theorem ends_segments {e : Merge} (hends : Ends (Merge.step b) Merge.finished m e)
    (hinter : Interleaves b m as) (h : Segmented threads m segs) (hcount : 0 < m.threadCount)
    (hsorted : ∀ q ∈ queues threads, q.Pairwise Before) :
    ∃ segs', e.out = layout (idsOf threads) [] segs' ∧
      (segs'.map fun s => (s.time, s.index)) =
        (queues threads).flatten.mergeSort (fun p q => decide (Before p q)) := by
  obtain ⟨m₁, ⟨hcount₁, as₁, segs₁, hinter₁, h₁⟩, hstep, hstop⟩ := hends.induction
    (I := fun m => 0 < m.threadCount ∧ ∃ as segs, Interleaves b m as ∧ Segmented threads m segs)
    ⟨hcount, as, segs, hinter, h⟩ (by
      rintro m m' ⟨hcount, as, segs, hinter, h⟩ hstep hstop
      obtain ⟨as', segs', hinter', h'⟩ := h.step hinter hcount hstep
      exact ⟨Nat.pos_of_ne_zero (by simpa [Merge.finished] using hstop), as', segs', hinter', h'⟩)
  obtain ⟨as', segs', hinter', h'⟩ := h₁.step hinter₁ hcount₁ hstep
  have hempty := flatten_queues_eq_nil hinter' (by simpa [Merge.finished] using hstop)
  exact ⟨segs', h'.out, h'.takes.eq_mergeSort hsorted hempty⟩

/-! ### Files -/

/-- The times of the buffers of a raw file. -/
def fileTimes (words : List (BitVec 64)) : List ℕ := timestamps (words.map OfflineEntry.ofWord)

/-- A scan does not change the ids, and not which buffers have not been opened. -/
theorem pending_scan {t t' : Thread} (h : t.Starts) (hscan : t.scan = .ok t') :
    pending t' = pending t ∧ t'.tid = t.tid ∧ t'.pid = t.pid ∧ t'.wrotePid = t.wrotePid := by
  have hgives : t.file.Gives t.file.rest := h.fresh ▸ gives_ofRest t.file.rest
  unfold Thread.scan at hscan
  split at hscan
  next hcond =>
    split at hscan
    · simp at hscan
    next usec file hread =>
      obtain rfl := Except.ok.inj hscan
      obtain ⟨es, hes, hfile, -⟩ := hgives.of_read_some hread
      have hne := (framed_timestamp (hes ▸ h.framed_rest)).1
      refine ⟨?_, rfl, rfl, rfl⟩
      simp [pending, hcond.1, hne, hfile.entries_eq, hgives.entries_eq, hes, timestamps_cons,
        OfflineEntry.usec?]
    · simp at hscan
  · obtain rfl := Except.ok.inj hscan
    exact ⟨rfl, rfl, rfl, rfl⟩

/-- The buffers of the thread of a file. -/
theorem pending_openThreadFile {words : List (BitVec 64)} {t : Thread}
    (h : openThreadFile words = .ok t) (hframed : framed (words.map OfflineEntry.ofWord) = true) :
    pending t = fileTimes words := by
  obtain ⟨es, hcheck, hheader⟩ := bind_eq_ok_iff.mp h
  obtain ⟨valueB, hes⟩ := checkThreadFile_eq_ok hcheck
  have hframed : framed es = true := framed_tail (hes ▸ hframed)
  have htimes : fileTimes words = timestamps es := by
    rw [fileTimes, hes]
    rfl
  rw [htimes]
  obtain ⟨tid, pid, rest, ⟨h0, rfl⟩ | ⟨usec, htime, rfl⟩, heq⟩ := readHeader_eq_ok hheader
  · rw [heq, h0]
    rfl
  · have hne := (framed_timestamp hframed).1
    rw [heq, htime]
    simp [pending, hne, entries, timestamps_cons, OfflineEntry.usec?]

section Files

variable {files : List (List (BitVec 64))}
  (hframed : ∀ words ∈ files, framed (words.map OfflineEntry.ofWord) = true)

include hframed

/-- After the first scan the threads have the ids and the buffers of the files. -/
theorem map_pending_of_files {threads' : List Thread}
    (hopen : files.mapM openThreadFile = .ok threads)
    (hscan : threads.mapM Thread.scan = .ok threads') :
    threads'.map pending = files.map fileTimes ∧ (∀ t ∈ threads', t.wrotePid = false) ∧
      (threads'.map fun t => (t.tid, t.pid)) = threads.map fun t => (t.tid, t.pid) := by
  have hstarts := starts_of_files hframed hopen
  refine ⟨?_, fun t' ht' => ?_, ?_⟩
  · calc threads'.map pending = threads.map pending :=
          map_eq_of_mapM hscan fun t ht t' h => (pending_scan (hstarts t ht) h).1
      _ = files.map fileTimes :=
          map_eq_of_mapM hopen fun words hwords t h =>
            pending_openThreadFile h (hframed words hwords)
  · obtain ⟨t, ht, h⟩ := exists_mem_of_mapM hscan ht'
    rw [(pending_scan (hstarts t ht) h).2.2.2, (hstarts t ht).wrotePid]
  · apply map_eq_of_mapM hscan
    intro t ht t' h
    obtain ⟨-, htid, hpid, -⟩ := pending_scan (hstarts t ht) h
    rw [htid, hpid]

end Files

end SagePTE.Tracer
