import Mathlib.Algebra.Order.BigOperators.Group.List
import Mathlib.Algebra.Order.Group.Nat
import SagePTE.Tracer.Independence

/-!
# What is written for a thread

The loop over all files takes the turns of the loops over the single files, one at a time.

## Main definitions

* `Mirror`, `Interleaves` — a state of the loop and the states of the loops over single files

## Main results

* `Interleaves.step` — one turn is one turn of one of them
* `exists_convertFiles_iff` — the conversion succeeds if and only if every file can be converted
* `convertFiles_thread` — what is written for a file
-/

set_option autoImplicit false

namespace SagePTE.Tracer

open Simulator Fallible ThreadFile

variable {b : Binary}

/-! ### One entry -/

theorem atEof_processOfflineEntry {tid : BitVec 32} {e : OfflineEntry} {c c' : Conv}
    (h : processOfflineEntry b tid e c = .ok (true, c')) : c'.file.atEof = true := by
  unfold processOfflineEntry at h
  cases e with
  | extended valueA valueB ext =>
    dsimp only at h
    split at h
    · split at h
      · simp at h
      · obtain ⟨d, hend, h⟩ := bind_eq_ok_iff.mp h
        obtain rfl := (Prod.mk.inj (Except.ok.inj h)).2
        unfold onThreadEnd at hend
        split at hend
        · simp at hend
        · split at hend
          next heof =>
            obtain rfl := Except.ok.inj hend
            exact heof
          · simp at hend
    · split at h <;> simp at h
  | memref value =>
    dsimp only at h
    split at h <;> simp at h
  | pc modoffs modidx count =>
    obtain ⟨d, -, h⟩ := bind_eq_ok_iff.mp h
    simp at h
  | iflush first =>
    dsimp only at h
    split at h <;> simp at h
  | thread _ | pid _ | timestamp _ => simp at h

/-- An entry of a thread, by what comes after it. -/
theorem Thread.readEntry_cases {t : Thread} {shared : Shared} {u : Thread.Turn}
    {es : List OfflineEntry} (h : t.readEntry b shared = .ok u) (hes : t.file.Gives es) :
    (∃ usec es', es = .timestamp usec :: es' ∧ u.next = .scan ∧ u.out = [] ∧
        u.thread = { t with time := usec.toNat, file := u.thread.file } ∧
        u.thread.file.Gives es') ∨
      u.next ≠ .scan ∧ u.thread = { t with
          file := u.thread.file, delayedBranch := u.thread.delayedBranch } ∧
        (u.next = .ended → u.thread.file.atEof = true) := by
  have hconvert : ∀ e file, t.convertEntry b shared e file = .ok u →
      u.next ≠ .scan ∧ u.thread = { t with
          file := u.thread.file, delayedBranch := u.thread.delayedBranch } ∧
        (u.next = .ended → u.thread.file.atEof = true) := by
    intro e file h
    obtain ⟨⟨ended, c⟩, hr, h⟩ := bind_eq_ok_iff.mp h
    obtain rfl := Except.ok.inj h
    cases ended with
    | false => exact ⟨by simp, rfl, by simp⟩
    | true => exact ⟨by simp, rfl, fun _ => atEof_processOfflineEntry hr⟩
  unfold Thread.readEntry at h
  split at h
  · exact .inr (hconvert _ _ h)
  next usec file hread =>
    obtain ⟨es', rfl, hfile, -⟩ := hes.of_read_some hread
    obtain rfl := Except.ok.inj h
    exact .inl ⟨usec, es', rfl, rfl, rfl, rfl, hfile⟩
  · exact .inr (hconvert _ _ h)

/-- A thread that has a time, or has ended, is not changed by a scan. -/
theorem Thread.scan_eq {t : Thread} (h : t.time ≠ 0 ∨ t.file.atEof = true) : t.scan = .ok t := by
  unfold Thread.scan
  rw [if_neg]
  rintro ⟨htime, heof⟩
  rcases h with h | h
  · exact h htime
  · simp [heof] at h

/-! ### The loop over all files and the loops over single files -/

/-- A thread that waits: it has a time, and a block comes before its next address. -/
structure Thread.Waits (t : Thread) : Prop where
  time_ne_zero : t.time ≠ 0
  time_lt : t.time < 2 ^ 61
  opens : ∃ es, t.file.Gives es ∧ opensBlock es = true

/-- The loop over all files, for the thread at an index, and the loop over the thread's file
alone. The thread is the current one, it waits, or it has ended. -/
structure Mirror (b : Binary) (m : Merge) (i : ℕ) (t : Thread) (a : Merge) : Prop where
  thread : ∃ t', a.threads = [t'] ∧ t.Alike t'
  current : a.current = if m.current = some i then some 0 else none
  out : ((m.out.filter (·.1 = i)).map fun p => asFetched p.2) = a.out.map fun p => asFetched p.2
  plain : a.shared.Plain b
  gives : ∃ es, t.file.Gives es ∧ framed es = true
  state : (a.threadCount = 1 ∧ m.current = some i ∧ t.time = 0 ∧ Agree m.shared a.shared t.file) ∨
    (a.threadCount = 1 ∧ m.current ≠ some i ∧ t.Waits) ∨
    (a.threadCount = 0 ∧ m.current ≠ some i ∧ t.time = 0 ∧ t.file.atEof = true)

/-- The loop over all files, and the loops over the single files. -/
structure Interleaves (b : Binary) (m : Merge) (as : List Merge) : Prop where
  length : as.length = m.threads.length
  mirror : ∀ i t a, m.threads[i]? = some t → as[i]? = some a → Mirror b m i t a
  plain : m.shared.Plain b
  count : m.threadCount = (as.map Merge.threadCount).sum
  current : ∀ i, m.current = some i → i < as.length

variable {m : Merge} {as : List Merge}

theorem Interleaves.exists_mirror (h : Interleaves b m as) {i : ℕ} {t : Thread}
    (ht : m.threads[i]? = some t) : ∃ a, as[i]? = some a ∧ Mirror b m i t a := by
  have hi := (List.getElem?_eq_some_iff.mp ht).1
  have ha := List.getElem?_eq_getElem (h.length ▸ hi : i < as.length)
  exact ⟨_, ha, h.mirror i t _ ht ha⟩

theorem Interleaves.threadCount_eq_zero (h : Interleaves b m as) (hcount : m.threadCount = 0)
    {a : Merge} (ha : a ∈ as) : a.threadCount = 0 := by
  rw [h.count, List.sum_eq_zero_iff, List.forall_mem_map] at hcount
  exact hcount a ha

/-- The state of the loop over the file of another thread is not touched. -/
theorem Mirror.of_ne {m' : Merge} {i j : ℕ} {t : Thread} {a : Merge} (h : Mirror b m j t a)
    (hij : i ≠ j) (hcurrent : m.current ≠ some j) (hcurrent' : m'.current ≠ some j)
    {es : List RawEntry} (hout : m'.out = m.out ++ es.map (i, ·)) : Mirror b m' j t a := by
  refine { h with current := ?_, out := ?_, state := ?_ }
  · simpa [hcurrent, hcurrent'] using h.current
  · rw [← h.out, hout]
    simp [List.filter_append, List.filter_map, Function.comp_def, hij]
  · rcases h.state with ⟨-, hc, -⟩ | ⟨h1, -, hw⟩ | ⟨h1, -, hw⟩
    · exact absurd hc hcurrent
    · exact .inr (.inl ⟨h1, hcurrent', hw⟩)
    · exact .inr (.inr ⟨h1, hcurrent', hw⟩)

/-- A change of one thread, in the loop over all files and in the loop over its file. -/
theorem Interleaves.set (h : Interleaves b m as) {i : ℕ} {t' : Thread} {a a' m' : Merge}
    (ha : as[i]? = some a) (hthreads : m'.threads = m.threads.set i t')
    (hcurrent : ∀ j, j ≠ i → m.current ≠ some j) (hcurrent' : ∀ j, j ≠ i → m'.current ≠ some j)
    {es : List RawEntry} (hout : m'.out = m.out ++ es.map (i, ·)) (hplain : m'.shared.Plain b)
    (hcount : m'.threadCount + a.threadCount = m.threadCount + a'.threadCount)
    (hmirror : Mirror b m' i t' a') : Interleaves b m' (as.set i a') := by
  have hi : i < as.length := (List.getElem?_eq_some_iff.mp ha).1
  refine ⟨by simp [h.length, hthreads], fun j t d ht hd => ?_, hplain, ?_, fun j hj => ?_⟩
  · by_cases hji : j = i
    · subst hji
      rw [hthreads, List.getElem?_set_self (h.length ▸ hi)] at ht
      rw [List.getElem?_set_self hi] at hd
      rwa [← Option.some.inj ht, ← Option.some.inj hd]
    · rw [hthreads, List.getElem?_set_ne (Ne.symm hji)] at ht
      rw [List.getElem?_set_ne (Ne.symm hji)] at hd
      exact (h.mirror j t d ht hd).of_ne (Ne.symm hji) (hcurrent j hji) (hcurrent' j hji) hout
  · have := Pointwise.sum_map_set Merge.threadCount ha a'
    have := h.count
    omega
  · rw [List.length_set]
    by_cases hji : j = i
    · exact hji ▸ hi
    · exact absurd hj (hcurrent' j hji)

theorem Mirror.threadCount_of_waits {i : ℕ} {t : Thread} {a : Merge} (h : Mirror b m i t a)
    (hwaits : t.Waits) : a.threadCount = 1 := by
  rcases h.state with ⟨h1, -⟩ | ⟨h1, -⟩ | ⟨-, -, h0, -⟩
  · exact h1
  · exact h1
  · exact absurd h0 hwaits.time_ne_zero

/-- The mirror of a thread whose buffer is opened. -/
theorem Mirror.opened {i : ℕ} {t t' : Thread} {a : Merge} (h : Mirror b m i t a)
    (hthreads : a.threads = [t']) (hwaits : t.Waits) :
    Mirror b
      { m with
        threads := m.threads.set i t.opened
        current := some i
        out := m.out ++ t.bufferHeader.map (i, ·) }
      i t.opened
      { a with
        threads := [t'.opened]
        current := some 0
        out := a.out ++ t'.bufferHeader.map (0, ·) } := by
  have halike : t.Alike t' := by
    obtain ⟨t'', h'', halike⟩ := h.thread
    obtain rfl : t' = t'' := by simpa [hthreads] using h''
    exact halike
  have hheader : t.bufferHeader = t'.bufferHeader := by
    simp only [Thread.bufferHeader, halike.tid, halike.pid, halike.wrotePid, halike.time]
  refine ⟨⟨_, rfl, { halike with time := rfl, wrotePid := rfl }⟩, by simp, ?_, h.plain, h.gives,
    .inl ⟨h.threadCount_of_waits hwaits, rfl, rfl, .inr hwaits.opens⟩⟩
  rw [hheader]
  simp only [List.filter_append, List.map_append, h.out]
  simp [List.filter_map, Function.comp_def]

/-- The mirror of a thread after one of its entries. -/
theorem Mirror.advance {i : ℕ} {t t' : Thread} {a : Merge} {u u' : Thread.Turn}
    (h : Mirror b m i t a) (hcurrent : m.current = some i) (hthreads : a.threads = [t'])
    (hu : t.readEntry b m.shared = .ok u) (halike : u.Alike b u') :
    Mirror b (m.advance i u) i u.thread (a.advance 0 u') := by
  obtain ⟨hcount, htime⟩ : a.threadCount = 1 ∧ t.time = 0 := by
    rcases h.state with ⟨h1, -, h0, -⟩ | ⟨-, hne, -⟩ | ⟨-, hne, -⟩
    · exact ⟨h1, h0⟩
    · exact absurd hcurrent hne
    · exact absurd hcurrent hne
  obtain ⟨es, hes, hframed⟩ := h.gives
  obtain ⟨es₁, hes₁, hsuffix, -⟩ := Thread.gives_readEntry hu hes
  refine ⟨⟨u'.thread, by simp [Merge.advance, hthreads], halike.thread⟩, ?_, ?_, halike.plain',
    ⟨es₁, hes₁, framed_of_suffix hframed hsuffix⟩, ?_⟩
  · simp only [Merge.advance, ← halike.next]
    split <;> simp
  · have hout := halike.out
    simp only [Merge.advance, List.filter_append, List.map_append, h.out]
    simpa [List.filter_map, Function.comp_def] using hout
  rcases Thread.readEntry_cases hu hes with ⟨usec, es', rfl, hscan, -, hthread, hes'⟩ |
    ⟨hscan, hthread, hended⟩
  · -- a timestamp, from which on the thread waits
    obtain ⟨hne, hopens⟩ := framed_timestamp hframed
    have htime : u.thread.time = usec.toNat := by rw [hthread]
    exact .inr (.inl ⟨by simp [Merge.advance, ← halike.next, hscan, hcount],
      by simp [Merge.advance, hscan], htime ▸ hne, htime ▸ usec.isLt, es', hes', hopens⟩)
  · have htime : u.thread.time = 0 := by rw [hthread, htime]
    cases hnext : u.next with
    | same =>
      exact .inl ⟨by simp [Merge.advance, ← halike.next, hnext, hcount],
        by simp [Merge.advance, hnext], htime, halike.agree hnext⟩
    | scan => exact absurd hnext hscan
    | ended =>
      exact .inr (.inr ⟨by simp [Merge.advance, ← halike.next, hnext, hcount],
        by simp [Merge.advance, hnext], htime, hended hnext⟩)

/-- One entry of the current thread. -/
theorem Interleaves.advance (h : Interleaves b m as) {i : ℕ} (hcurrent : m.current = some i) :
    ∃ t a t', m.threads[i]? = some t ∧ as[i]? = some a ∧ a.threads = [t'] ∧ a.current = some 0 ∧
      a.threadCount = 1 ∧
      Related (fun u u' => Interleaves b (m.advance i u) (as.set i (a.advance 0 u')))
        (t.readEntry b m.shared) (t'.readEntry b a.shared) := by
  have hi := h.current i hcurrent
  obtain ⟨t, ht⟩ : ∃ t, m.threads[i]? = some t := ⟨_, List.getElem?_eq_getElem (h.length ▸ hi)⟩
  obtain ⟨a, ha, hmirror⟩ := h.exists_mirror ht
  obtain ⟨t', hthreads, halike⟩ := hmirror.thread
  obtain ⟨es, hes, hframed⟩ := hmirror.gives
  obtain ⟨hcount, hagree⟩ : a.threadCount = 1 ∧ Agree m.shared a.shared t.file := by
    rcases hmirror.state with ⟨h1, -, -, hagree⟩ | ⟨-, hne, -⟩ | ⟨-, hne, -⟩
    · exact ⟨h1, hagree⟩
    · exact absurd hcurrent hne
    · exact absurd hcurrent hne
  refine ⟨t, a, t', ht, ha, hthreads, by simp [hmirror.current, hcurrent], hcount, ?_⟩
  have hrel := halike.readEntry h.plain hmirror.plain hes hframed hagree
  generalize hx : t.readEntry b m.shared = x at hrel ⊢
  generalize t'.readEntry b a.shared = y at hrel ⊢
  cases hrel with
  | error e e' => exact .error e e'
  | @ok u u' hu =>
    refine .ok (h.set ha rfl ?_ ?_ rfl hu.plain ?_ (hmirror.advance hcurrent hthreads hx hu))
    · intro j hj
      simpa [hcurrent] using Ne.symm hj
    · intro j hj
      simp only [Merge.advance]
      split
      · simpa using Ne.symm hj
      · simp
    · simp only [Merge.advance, ← hu.next]
      have hle : a.threadCount ≤ m.threadCount := by
        rw [h.count]
        exact List.le_sum_of_mem (List.mem_map_of_mem (List.mem_of_getElem? ha))
      split <;> omega

theorem nextThread_singleton (t : Thread) : nextThread [t] = 0 := by
  simp only [nextThread, List.zipIdx_singleton, List.foldl_cons, List.foldl_nil]
  split <;> rfl

/-- At a scan every thread waits or has ended. -/
theorem Interleaves.waits_or_ended (h : Interleaves b m as) (hcurrent : m.current = none)
    {i : ℕ} {t : Thread} (ht : m.threads[i]? = some t) :
    ∃ a, as[i]? = some a ∧
      (t.Waits ∨ a.threadCount = 0 ∧ t.time = 0 ∧ t.file.atEof = true) := by
  obtain ⟨a, ha, hmirror⟩ := h.exists_mirror ht
  refine ⟨a, ha, ?_⟩
  rcases hmirror.state with ⟨-, hc, -⟩ | ⟨-, -, hw⟩ | ⟨h0, -, hw⟩
  · simp [hcurrent] at hc
  · exact .inl hw
  · exact .inr ⟨h0, hw⟩

/-- While threads are left, a scan chooses one that waits, the one with the smallest time. -/
theorem Interleaves.exists_waits (h : Interleaves b m as) (hcurrent : m.current = none)
    (hcount : 0 < m.threadCount) :
    ∃ t a, m.threads[nextThread m.threads]? = some t ∧ as[nextThread m.threads]? = some a ∧
      t.Waits ∧ ∀ j t', m.threads[j]? = some t' → t'.time ≠ 0 →
        t.time < t'.time ∨ t.time = t'.time ∧ nextThread m.threads ≤ j := by
  have hwaiting : ∃ t ∈ m.threads, t.time ≠ 0 := by
    by_contra hnone
    have hzero : (as.map Merge.threadCount).sum = 0 := by
      rw [List.sum_eq_zero_iff, List.forall_mem_map]
      intro a ha
      obtain ⟨i, ha⟩ := List.mem_iff_getElem?.mp ha
      have hi := (List.getElem?_eq_some_iff.mp ha).1
      have ht := List.getElem?_eq_getElem (h.length ▸ hi : i < m.threads.length)
      obtain ⟨a', ha', hw | ⟨h0, -⟩⟩ := h.waits_or_ended hcurrent ht
      · exact absurd ⟨_, List.mem_of_getElem? ht, hw.time_ne_zero⟩ hnone
      · rwa [Option.some.inj (ha.symm.trans ha')]
    have := h.count
    omega
  have hlt : ∀ t ∈ m.threads, t.time < 2 ^ 61 := by
    intro t ht
    obtain ⟨i, ht⟩ := List.mem_iff_getElem?.mp ht
    obtain ⟨a, -, hw | ⟨-, h0, -⟩⟩ := h.waits_or_ended hcurrent ht
    · exact hw.time_lt
    · simp [h0]
  obtain ⟨t, ht, hne, hfirst⟩ := nextThread_spec hwaiting hlt
  obtain ⟨a, ha, hw | ⟨-, h0, -⟩⟩ := h.waits_or_ended hcurrent ht
  · exact ⟨t, a, ht, ha, hw, hfirst⟩
  · exact absurd h0 hne

/-- A scan does not change any thread. -/
theorem Interleaves.mapM_scan (h : Interleaves b m as) (hcurrent : m.current = none) :
    m.threads.mapM Thread.scan = .ok m.threads := by
  rw [mapM_eq_ok_iff, List.forall₂_same]
  intro t ht
  obtain ⟨i, ht⟩ := List.mem_iff_getElem?.mp ht
  apply Thread.scan_eq
  obtain ⟨a, -, hw | ⟨-, -, heof⟩⟩ := h.waits_or_ended hcurrent ht
  · exact .inl hw.time_ne_zero
  · exact .inr heof

/-- A scan, in the loop over all files and in the loop over the file that it chooses. -/
theorem Interleaves.selectThread (h : Interleaves b m as) (hcount : 0 < m.threadCount) :
    ∃ i a, as[i]? = some a ∧ a.threadCount = 1 ∧
      Related (fun r r' => r.1 = i ∧ r'.1 = 0 ∧ r.2.current = some i ∧
          Interleaves b r.2 (as.set i r'.2))
        m.selectThread a.selectThread := by
  cases hcurrent : m.current with
  | some i =>
    obtain ⟨t, a, t', ht, ha, hthreads, hcurrent', hone, -⟩ := h.advance hcurrent
    refine ⟨i, a, ha, hone, ?_⟩
    unfold Merge.selectThread
    simp only [hcurrent, hcurrent']
    refine .ok ⟨rfl, rfl, hcurrent, ?_⟩
    rwa [Pointwise.set_of_getElem? ha]
  | none =>
    obtain ⟨t, a, ht, ha, hwaits, -⟩ := h.exists_waits hcurrent hcount
    have hmirror := h.mirror _ t a ht ha
    obtain ⟨t', hthreads, halike⟩ := hmirror.thread
    have hcurrent' : a.current = none := by simp [hmirror.current, hcurrent]
    have hscan : a.threads.mapM Thread.scan = .ok [t'] := by
      rw [hthreads, mapM_eq_ok_iff, List.forall₂_same]
      simpa using Thread.scan_eq (.inl (halike.time ▸ hwaits.time_ne_zero))
    refine ⟨nextThread m.threads, a, ha, hmirror.threadCount_of_waits hwaits, ?_⟩
    unfold Merge.selectThread
    simp only [hcurrent, hcurrent', h.mapM_scan hcurrent, hscan]
    simp only [bind, Except.bind, nextThread_singleton, ht, List.getElem?_cons_zero, ← halike.tid,
      ← halike.pid, ← halike.wrotePid]
    split
    · exact .error _ _
    refine .ok ⟨rfl, rfl, rfl, ?_⟩
    refine h.set ha rfl (by simp [hcurrent]) ?_ rfl h.plain ?_ (hmirror.opened hthreads hwaits)
    · intro j hj
      simpa using Ne.symm hj
    · rfl

/-- **One turn.** A turn of the loop over all files is a turn of the loop over one of them. -/
theorem Interleaves.step (h : Interleaves b m as) (hcount : 0 < m.threadCount) :
    ∃ i a, as[i]? = some a ∧ a.threadCount = 1 ∧
      Related (fun m' a' => Interleaves b m' (as.set i a')) (m.step b) (a.step b) := by
  obtain ⟨i, a, ha, hone, hselect⟩ := h.selectThread hcount
  have hi : i < as.length := (List.getElem?_eq_some_iff.mp ha).1
  refine ⟨i, a, ha, hone, hselect.bind fun r r' hr => ?_⟩
  obtain ⟨hri, hr0, hcurrent, hr⟩ := hr
  obtain ⟨t, a', t', ht, ha', hthreads, -, -, hrel⟩ := hr.advance hcurrent
  obtain rfl : r'.2 = a' := by simpa [hi] using ha'
  simp only [hri, hr0, ht, hthreads, List.getElem?_cons_zero]
  refine hrel.bind fun u u' hu => .ok ?_
  rwa [List.set_set] at hu

/-! ### Whole runs -/

theorem Interleaves.running (h : Interleaves b m as) (hcount : 0 < m.threadCount) :
    m.Running := by
  refine ⟨fun t ht => ?_, hcount⟩
  obtain ⟨i, ht⟩ := List.mem_iff_getElem?.mp ht
  obtain ⟨a, -, hmirror⟩ := h.exists_mirror ht
  obtain ⟨es, hes, -⟩ := hmirror.gives
  exact ⟨es, hes⟩

/-- Where a loop over a single file ends. It may have ended already. -/
def EndsIn (b : Binary) (a e : Merge) : Prop :=
  (a.threadCount = 0 → e = a) ∧ (0 < a.threadCount → Ends (Merge.step b) Merge.finished a e)

theorem EndsIn.step {a a' e : Merge} (hstep : a.step b = .ok a') (hcount : 0 < a.threadCount)
    (h : EndsIn b a' e) : EndsIn b a e := by
  refine ⟨by omega, fun _ => ?_⟩
  cases hstop : a'.finished with
  | true =>
    obtain rfl := h.1 (by simpa [Merge.finished] using hstop)
    exact .last hstep hstop
  | false =>
    have hne : a'.threadCount ≠ 0 := by simpa [Merge.finished] using hstop
    exact .more hstep hstop (h.2 (by omega))

/-- When no thread is left, all loops over single files have ended. -/
theorem Interleaves.endsIn_self {e : Merge} (h : Interleaves b e as) (hcount : e.threadCount = 0) :
    List.Forall₂ (EndsIn b) as as := by
  rw [List.forall₂_same]
  intro a ha
  have hzero := h.threadCount_eq_zero hcount ha
  exact ⟨fun _ => rfl, by omega⟩

/-- When the loop over all files ends, the loops over the single files end with it. -/
theorem Interleaves.ends {e : Merge} (hends : Ends (Merge.step b) Merge.finished m e)
    (h : Interleaves b m as) (hcount : 0 < m.threadCount) :
    ∃ es, Interleaves b e es ∧ List.Forall₂ (EndsIn b) as es := by
  induction hends generalizing as with
  | last hstep hstop =>
    obtain ⟨i, a, ha, hone, hrel⟩ := h.step hcount
    obtain ⟨a', hstep', h'⟩ := hrel.of_ok_left hstep
    have hself := h'.endsIn_self (by simpa [Merge.finished] using hstop)
    exact ⟨_, h', Pointwise.forall₂_of_set ha hself fun _ => EndsIn.step hstep' (by omega)⟩
  | more hstep hstop hends ih =>
    obtain ⟨i, a, ha, hone, hrel⟩ := h.step hcount
    obtain ⟨a', hstep', h'⟩ := hrel.of_ok_left hstep
    obtain ⟨es, hes, hall⟩ := ih h' (Nat.pos_of_ne_zero (by simpa [Merge.finished] using hstop))
    exact ⟨es, hes, Pointwise.forall₂_of_set ha hall fun _ => EndsIn.step hstep' (by omega)⟩

/-- When the loops over the single files end, the loop over all files does. The induction is on
what is left to do. -/
theorem Interleaves.exists_ends (h : Interleaves b m as) (hcount : 0 < m.threadCount)
    (hall : ∀ a ∈ as, ∃ e, EndsIn b a e) : ∃ e, Ends (Merge.step b) Merge.finished m e := by
  induction hn : m.left using Nat.strongRecOn generalizing m as with
  | ind n ih =>
    obtain ⟨i, a, ha, hone, hrel⟩ := h.step hcount
    obtain ⟨e, -, hends⟩ := hall a (List.mem_of_getElem? ha)
    -- the turn of the loop over the single file succeeds
    obtain ⟨a', hstep', hrest⟩ : ∃ a', a.step b = .ok a' ∧ ∃ e, EndsIn b a' e := by
      cases hends (by omega) with
      | last hstep hstop =>
        have hzero : e.threadCount = 0 := by simpa [Merge.finished] using hstop
        exact ⟨e, hstep, e, fun _ => rfl, by omega⟩
      | @more _ a' _ hstep hstop hends =>
        have hne : a'.threadCount ≠ 0 := by simpa [Merge.finished] using hstop
        exact ⟨a', hstep, e, fun h0 => absurd h0 hne, fun _ => hends⟩
    obtain ⟨m', hstep, h'⟩ := hrel.of_ok_right hstep'
    cases hstop : m'.finished with
    | true => exact ⟨m', .last hstep hstop⟩
    | false =>
      obtain ⟨hrunning, hlt⟩ := Merge.Running.step m m' (h.running hcount) hstep hstop
      obtain ⟨e', hends'⟩ := ih m'.left (hn ▸ hlt) h' hrunning.2
        (fun d hd => by
          rcases List.mem_or_eq_of_mem_set hd with hd | rfl
          · exact hall d hd
          · exact hrest) rfl
      exact ⟨e', .more hstep hstop hends'⟩

/-! ### The first scan -/

/-- A thread before the loop: its file is framed, and if it has a time already, a block comes
before its next address. -/
structure Thread.Starts (t : Thread) : Prop where
  fresh : t.file = { rest := t.file.rest }
  wrotePid : t.wrotePid = false
  framed_rest : framed t.file.rest = true
  waits : t.time ≠ 0 → t.time < 2 ^ 61 ∧ opensBlock t.file.rest = true

/-- The first scan reads the first timestamp of the files that do not start with it. -/
theorem Thread.Starts.scan {t t' : Thread} (h : t.Starts) (hscan : t.scan = .ok t') :
    t'.Waits ∧ ∃ es, t'.file.Gives es ∧ framed es = true := by
  have hgives : t.file.Gives t.file.rest := h.fresh ▸ gives_ofRest t.file.rest
  by_cases htime : t.time = 0
  · have hcond : t.time = 0 ∧ t.file.atEof = false := by
      rw [h.fresh]
      exact ⟨htime, rfl⟩
    unfold Thread.scan at hscan
    rw [if_pos hcond] at hscan
    split at hscan
    · simp at hscan
    next usec file hread =>
      obtain rfl := Except.ok.inj hscan
      obtain ⟨es, hes, hfile, -⟩ := hgives.of_read_some hread
      have hframed : framed (.timestamp usec :: es) = true := hes ▸ h.framed_rest
      obtain ⟨hne, hopens⟩ := framed_timestamp hframed
      exact ⟨⟨hne, usec.isLt, es, hfile, hopens⟩, es, hfile, framed_tail hframed⟩
    · simp at hscan
  · rw [Thread.scan_eq (.inl htime)] at hscan
    obtain rfl := Except.ok.inj hscan
    obtain ⟨hlt, hopens⟩ := h.waits htime
    exact ⟨⟨htime, hlt, _, hgives, hopens⟩, _, hgives, h.framed_rest⟩

/-- After the first scan the loop is the interleaving of the loops over the single files. -/
theorem interleaves_initMerge {threads : List Thread}
    (h : ∀ t ∈ threads, t.Waits ∧ ∃ es, t.file.Gives es ∧ framed es = true) :
    Interleaves b (initMerge threads) (threads.map fun t => initMerge [t]) := by
  have hplain : Shared.Plain b {} := ⟨rfl, fun pc instr hlookup => by simp at hlookup⟩
  refine ⟨by simp [initMerge], fun i t a ht ha => ?_, hplain, ?_, by simp [initMerge]⟩
  · have ht : threads[i]? = some t := ht
    obtain rfl : initMerge [t] = a := by simpa [ht] using ha
    obtain ⟨hwaits, hframed⟩ := h t (List.mem_of_getElem? ht)
    exact ⟨⟨t, rfl, ⟨rfl, rfl, rfl, rfl, rfl, rfl⟩⟩, rfl, rfl, hplain, hframed,
      .inr (.inl ⟨rfl, by simp [initMerge], hwaits⟩)⟩
  · simp [initMerge, Function.comp_def]

/-- The first turn starts with the first scan. -/
theorem step_initMerge {threads threads' : List Thread}
    (hscan : threads.mapM Thread.scan = .ok threads') (h : ∀ t ∈ threads', t.Waits) :
    (initMerge threads).step b = (initMerge threads').step b := by
  have hscan' : threads'.mapM Thread.scan = .ok threads' := by
    rw [mapM_eq_ok_iff, List.forall₂_same]
    exact fun t ht => Thread.scan_eq (.inl (h t ht).time_ne_zero)
  have hlength : threads.length = threads'.length := (mapM_eq_ok_iff.mp hscan).length_eq
  unfold Merge.step Merge.selectThread
  simp only [initMerge, hscan, hscan', hlength]

section Threads

variable {threads : List Thread}

/-- The loop ends where it ends after the first scan. -/
theorem ends_initMerge_iff {threads' : List Thread} {e : Merge}
    (hscan : threads.mapM Thread.scan = .ok threads') (h : ∀ t ∈ threads, t.Starts) :
    Ends (Merge.step b) Merge.finished (initMerge threads) e ↔
      Ends (Merge.step b) Merge.finished (initMerge threads') e := by
  apply Ends.congr
  apply step_initMerge hscan
  intro t' ht'
  obtain ⟨t, ht, hscan⟩ := exists_mem_of_mapM hscan ht'
  exact ((h t ht).scan hscan).1

theorem mapM_singleton {t t' : Thread} (h : t.scan = .ok t') :
    [t].mapM Thread.scan = .ok [t'] :=
  mapM_eq_ok_iff.mpr (.cons h .nil)

/-- A loop that ends has made a scan. -/
theorem exists_scan_of_ends {e : Merge}
    (h : Ends (Merge.step b) Merge.finished (initMerge threads) e) :
    ∃ threads', threads.mapM Thread.scan = .ok threads' := by
  obtain ⟨m', hstep⟩ : ∃ m', (initMerge threads).step b = .ok m' := by
    cases h with
    | last hstep _ => exact ⟨_, hstep⟩
    | more hstep _ _ => exact ⟨_, hstep⟩
  obtain ⟨i, m₁, t, turn, hselect, -⟩ := Merge.step_eq_ok_iff.mp hstep
  obtain ⟨threads', -, hscan, -⟩ := Merge.selectThread_eq_ok_of_none rfl hselect
  exact ⟨threads', mapM_eq_ok_iff.mpr hscan⟩

variable (hstarts : ∀ t ∈ threads, t.Starts)

include hstarts

theorem interleaves_of_scan {threads' : List Thread}
    (hscan : threads.mapM Thread.scan = .ok threads') :
    Interleaves b (initMerge threads') (threads'.map fun t => initMerge [t]) := by
  apply interleaves_initMerge
  intro t' ht'
  obtain ⟨t, ht, hscan⟩ := exists_mem_of_mapM hscan ht'
  exact (hstarts t ht).scan hscan

variable (hne : threads ≠ [])

include hne

/-- What the loop over all files writes for a thread, the loop over its file writes. -/
theorem ends_thread {e : Merge} (h : Ends (Merge.step b) Merge.finished (initMerge threads) e)
    {i : ℕ} {t : Thread} (ht : threads[i]? = some t) :
    ∃ e', Ends (Merge.step b) Merge.finished (initMerge [t]) e' ∧
      ((e.out.filter (·.1 = i)).map fun p => asFetched p.2) =
        e'.out.map fun p => asFetched p.2 := by
  obtain ⟨threads', hscan⟩ := exists_scan_of_ends h
  have hlength := (mapM_eq_ok_iff.mp hscan).length_eq
  have hpos : 0 < (initMerge threads').threadCount := by
    have := List.length_pos_iff.mpr hne
    simp only [initMerge]
    omega
  obtain ⟨es, hes, hall⟩ :=
    (interleaves_of_scan hstarts hscan).ends ((ends_initMerge_iff hscan hstarts).mp h) hpos
  obtain ⟨t', ht', hscan'⟩ := Pointwise.exists_of_getElem? (mapM_eq_ok_iff.mp hscan) ht
  obtain ⟨e', he', hends⟩ := Pointwise.exists_of_getElem? hall (i := i) (a := initMerge [t'])
    (by simp [ht'])
  have hstart : ∀ t₁ ∈ [t], t₁.Starts := by simpa using hstarts t (List.mem_of_getElem? ht)
  refine ⟨e', (ends_initMerge_iff (mapM_singleton hscan') hstart).mpr (hends.2 Nat.one_pos), ?_⟩
  have hi : i < e.threads.length := by
    rw [← hes.length]
    exact (List.getElem?_eq_some_iff.mp he').1
  exact (hes.mirror i _ e' (List.getElem?_eq_getElem hi) he').out

/-- The loop over all files ends if and only if the loops over the single files do. -/
theorem exists_ends_iff :
    (∃ e, Ends (Merge.step b) Merge.finished (initMerge threads) e) ↔
      ∀ t ∈ threads, ∃ e, Ends (Merge.step b) Merge.finished (initMerge [t]) e := by
  constructor
  · rintro ⟨e, h⟩ t ht
    obtain ⟨i, ht⟩ := List.mem_iff_getElem?.mp ht
    obtain ⟨e', h', -⟩ := ends_thread hstarts hne h ht
    exact ⟨e', h'⟩
  · intro hall
    have hone : ∀ t ∈ threads, ∃ t', t.scan = .ok t' := by
      intro t ht
      obtain ⟨e, h⟩ := hall t ht
      obtain ⟨ts, hscan⟩ := exists_scan_of_ends h
      obtain ⟨t', -, hscan⟩ := exists_ok_of_mapM hscan (List.mem_singleton_self t)
      exact ⟨t', hscan⟩
    obtain ⟨threads', hscan⟩ := exists_mapM_eq_ok hone
    have hlength := (mapM_eq_ok_iff.mp hscan).length_eq
    have hpos : 0 < (initMerge threads').threadCount := by
      have := List.length_pos_iff.mpr hne
      simp only [initMerge]
      omega
    obtain ⟨e, h⟩ := (interleaves_of_scan hstarts hscan).exists_ends hpos (by
      rw [List.forall_mem_map]
      intro t' ht'
      obtain ⟨t, ht, hscan'⟩ := exists_mem_of_mapM hscan ht'
      obtain ⟨e, h⟩ := hall t ht
      have hstart : ∀ t₁ ∈ [t], t₁.Starts := by simpa using hstarts t ht
      exact ⟨e, by simp [initMerge],
        fun _ => (ends_initMerge_iff (mapM_singleton hscan') hstart).mp h⟩)
    exact ⟨e, (ends_initMerge_iff hscan hstarts).mpr h⟩

end Threads

/-! ### Files -/

/-- The thread of a framed file. -/
theorem starts_openThreadFile {words : List (BitVec 64)} {t : Thread}
    (h : openThreadFile words = .ok t) (hframed : framed (words.map OfflineEntry.ofWord) = true) :
    t.Starts := by
  obtain ⟨es, hcheck, hheader⟩ := bind_eq_ok_iff.mp h
  obtain ⟨valueB, hes⟩ := checkThreadFile_eq_ok hcheck
  have hframed : framed es = true := framed_tail (hes ▸ hframed)
  obtain ⟨tid, pid, rest, hstart, heq⟩ := readHeader_eq_ok hheader
  have hrest : t.file.rest = rest := by rw [heq]
  refine ⟨by rw [heq], by rw [heq], ?_, fun htime => ?_⟩
  · rw [hrest]
    rcases hstart with ⟨-, rfl⟩ | ⟨usec, -, rfl⟩
    · exact framed_tail (framed_tail hframed)
    · exact framed_tail (framed_tail (framed_tail hframed))
  · rw [hrest]
    rcases hstart with ⟨h0, -⟩ | ⟨usec, htime, rfl⟩
    · exact absurd h0 htime
    · exact ⟨htime ▸ usec.isLt, (framed_timestamp hframed).2⟩

section Files

variable {files : List (List (BitVec 64))}
  (hframed : ∀ words ∈ files, framed (words.map OfflineEntry.ofWord) = true)

include hframed

theorem starts_of_files {threads : List Thread} (hopen : files.mapM openThreadFile = .ok threads) :
    ∀ t ∈ threads, t.Starts := by
  intro t ht
  obtain ⟨words, hwords, h⟩ := exists_mem_of_mapM hopen ht
  exact starts_openThreadFile h (hframed words hwords)

theorem exists_convertFiles_iff :
    (∃ out, convertFiles b files = .ok out) ↔
      files ≠ [] ∧ ∀ words ∈ files, ∃ out, convertFiles b [words] = .ok out := by
  constructor
  · rintro ⟨out, h⟩
    obtain ⟨threads, e, hopen, hne, hends, -⟩ := convertFiles_eq_ok_iff.mp h
    have hall := (exists_ends_iff (starts_of_files hframed hopen) hne).mp ⟨e, hends⟩
    refine ⟨?_, fun words hwords => ?_⟩
    · rintro rfl
      exact hne (List.eq_nil_of_length_eq_zero (mapM_eq_ok_iff.mp hopen).length_eq.symm)
    · obtain ⟨t, ht, hopen⟩ := exists_ok_of_mapM hopen hwords
      obtain ⟨e, hends⟩ := hall t ht
      exact ⟨e.out, convertFiles_singleton_eq_ok_iff.mpr ⟨t, e, hopen, hends, rfl⟩⟩
  · rintro ⟨hfiles, hall⟩
    have hone : ∀ words ∈ files, ∃ t, openThreadFile words = .ok t := by
      intro words hwords
      obtain ⟨out, h⟩ := hall words hwords
      obtain ⟨t, -, hopen, -⟩ := convertFiles_singleton_eq_ok_iff.mp h
      exact ⟨t, hopen⟩
    obtain ⟨threads, hopen⟩ := exists_mapM_eq_ok hone
    have hne : threads ≠ [] := by
      rintro rfl
      exact hfiles (List.eq_nil_of_length_eq_zero (mapM_eq_ok_iff.mp hopen).length_eq)
    obtain ⟨e, hends⟩ := (exists_ends_iff (starts_of_files hframed hopen) hne).mpr (by
      intro t ht
      obtain ⟨words, hwords, hopen⟩ := exists_mem_of_mapM hopen ht
      obtain ⟨out, h⟩ := hall words hwords
      obtain ⟨t', e, hopen', hends, -⟩ := convertFiles_singleton_eq_ok_iff.mp h
      obtain rfl : t = t' := Except.ok.inj (hopen.symm.trans hopen')
      exact ⟨e, hends⟩)
    exact ⟨e.out, convertFiles_eq_ok_iff.mpr ⟨threads, e, hopen, hne, hends, rfl⟩⟩

theorem convertFiles_alone {out : List (ℕ × RawEntry)} (h : convertFiles b files = .ok out)
    {i : ℕ} {words : List (BitVec 64)} (hwords : files[i]? = some words) :
    ∃ alone, convertFiles b [words] = .ok alone ∧
      ((out.filter (·.1 = i)).map fun p => asFetched p.2) =
        alone.map fun p => asFetched p.2 := by
  obtain ⟨threads, e, hopen, hne, hends, rfl⟩ := convertFiles_eq_ok_iff.mp h
  obtain ⟨t, ht, hopen'⟩ := Pointwise.exists_of_getElem? (mapM_eq_ok_iff.mp hopen) hwords
  obtain ⟨e', hends', hout⟩ := ends_thread (starts_of_files hframed hopen) hne hends ht
  exact ⟨e'.out, convertFiles_singleton_eq_ok_iff.mpr ⟨t, e', hopen', hends', rfl⟩, hout⟩

end Files

/-- **The threads of a conversion.** The conversion of several files succeeds if and only if
the conversion of each file does. What is written for a file is what is written when it is
converted alone, up to the fetches of string instructions. -/
theorem convertFiles_thread (b : Binary) (files : List (List (BitVec 64)))
    (hframed : ∀ words ∈ files, framed (words.map OfflineEntry.ofWord) = true) :
    ((∃ out, convertFiles b files = .ok out) ↔
        files ≠ [] ∧ ∀ words ∈ files, ∃ out, convertFiles b [words] = .ok out) ∧
      ∀ out, convertFiles b files = .ok out → ∀ i words, files[i]? = some words →
        ∃ alone, convertFiles b [words] = .ok alone ∧
          ((out.filter (·.1 = i)).map fun p => asFetched p.2) =
            alone.map fun p => asFetched p.2 :=
  ⟨exists_convertFiles_iff hframed, fun _ h _ _ hwords => convertFiles_alone hframed h hwords⟩

/-- Two threads whose buffers are interleaved. -/
theorem convertFiles_thread_twoThreads :
    (∀ words ∈ twoThreads, framed (words.map OfflineEntry.ofWord) = true) ∧
      ∃ out, convertFiles loadJump twoThreads = .ok out ∧
        ∀ i words, twoThreads[i]? = some words →
          ∃ alone, convertFiles loadJump [words] = .ok alone ∧
            ((out.filter (·.1 = i)).map fun p => asFetched p.2) =
              alone.map fun p => asFetched p.2 := by
  have hframed : ∀ words ∈ twoThreads, framed (words.map OfflineEntry.ofWord) = true := by
    decide +kernel
  have hok : (convertFiles loadJump twoThreads).isOk = true := by decide +kernel
  refine ⟨hframed, ?_⟩
  cases hout : convertFiles loadJump twoThreads with
  | error e => simp [hout, Except.isOk, Except.toBool] at hok
  | ok out => exact ⟨out, rfl, (convertFiles_thread loadJump twoThreads hframed).2 out hout⟩

end SagePTE.Tracer
