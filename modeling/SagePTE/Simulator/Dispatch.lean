import SagePTE.Simulator.Cores

/-!
# Thread exits and flushes

The types of the records are told apart at the end of `process_memref`, behind the
translation. Thread exits and flushes have no page; page zero is looked up for them, and
the record ends there if one of the tables has no translation for it. So it depends on the
contents of the page tables whether a thread leaves the schedule and whether a cache is
flushed.

A thread exit is also lost on a thread that never got a core: thread 0, which passes for
the last thread at the start.

## Main definitions

* `SimConfig.pageZero` — the translations of page zero
* `Scheduler.Exits` — a thread has left the schedule
* `SimState.Flushes` — a cache and its parents have been flushed

## Main results

* `exit_and_flush` — the effects of thread exits and flushes
-/

set_option autoImplicit false

namespace SagePTE.Simulator

/-! ### Threads and cores -/

namespace Scheduler

variable {k : SchedulerKnobs} {s : Scheduler}

/-- The thread is out of the map and no longer counted on its core. -/
def Exits (s s' : Scheduler) (tid : ℤ) : Prop :=
  ∃ core, s.thread2core tid = some core ∧
    s'.thread2core = Function.update s.thread2core tid none ∧
    s'.threadCounts = bump s.threadCounts core (-1)

/-- The last thread has a core, unless there is none. -/
def LastMapped (s : Scheduler) : Prop :=
  s.lastThread = 0 ∨ (s.thread2core s.lastThread).isSome = true

theorem isSome_coreForThread (s : Scheduler) (tid : ℤ) :
    ((s.coreForThread k tid).2.thread2core tid).isSome = true := by
  unfold coreForThread
  cases h : s.thread2core tid <;> simp [h]

/-- A thread that is given a core is in the map. -/
theorem LastMapped.isSome_coreFor (h : s.LastMapped) {tid : ℤ} (htid : tid ≠ 0) :
    ((s.coreFor k tid).2.thread2core tid).isSome = true := by
  unfold coreFor
  split_ifs with heq
  · subst heq
    exact h.resolve_left htid
  · exact isSome_coreForThread s tid

theorem LastMapped.coreFor (h : s.LastMapped) (tid : ℤ) : (s.coreFor k tid).2.LastMapped := by
  unfold Scheduler.coreFor
  split_ifs
  · exact h
  · exact .inr (isSome_coreForThread s tid)

theorem LastMapped.processMarker (h : s.LastMapped) (m : Memref) :
    (s.processMarker k m).LastMapped := by
  have hcpu (cpu : ℤ) : (s.coreForCpu k cpu).2.thread2core = s.thread2core ∧
      (s.coreForCpu k cpu).2.lastThread = s.lastThread := by
    unfold coreForCpu
    split <;> exact ⟨rfl, rfl⟩
  simp only [Scheduler.processMarker]
  split_ifs
  · exact h
  · -- a thread that is moved has a core afterwards
    simp only [LastMapped, moveThread, hcpu]
    refine h.imp_right fun hmapped => ?_
    by_cases hlast : s.lastThread = m.tid
    · simp [hlast]
    · rwa [Function.update_of_ne hlast]
  · exact h

theorem lastMapped_handleThreadExit (s : Scheduler) (tid : ℤ) :
    (s.handleThreadExit tid).LastMapped := by
  unfold handleThreadExit
  split <;> exact .inl rfl

theorem exits_handleThreadExit_iff {tid : ℤ} :
    s.Exits (s.handleThreadExit tid) tid ↔ (s.thread2core tid).isSome = true := by
  constructor
  · rintro ⟨core, hcore, -⟩
    simp [hcore]
  · intro h
    obtain ⟨core, hcore⟩ := Option.isSome_iff_exists.mp h
    refine ⟨core, hcore, ?_, ?_⟩ <;> simp [handleThreadExit, hcore]

theorem not_exits_self {tid : ℤ} : ¬s.Exits s tid := by
  rintro ⟨core, hcore, hmap, -⟩
  have hnone := congrFun hmap tid
  simp [hcore] at hnone

end Scheduler

/-! ### Records without a page -/

/-- The translations of page zero. -/
def SimConfig.pageZero (C : SimConfig) : Option (PageTableInfo × PageTableInfo) :=
  (C.pageTable 0).bind fun guestIt =>
    (C.hostPageTable (guestIt.pa <<< 12)).map fun it => (guestIt, it)

namespace SimState

variable {C : SimConfig} {σ : SimState} {m : Memref}

theorem translations_of_not_isReference (h : isReference m = false) :
    C.translations m = C.pageZero := by
  simp [SimConfig.translations, SimConfig.pageZero, virtualPage, h]

/-- The L1 cache that a flush goes to. -/
def flushedL1 (core : ℕ) : TraceType → Option DevId
  | .instrFlush => some (.l1i core)
  | .dataFlush => some (.l1d core)
  | _ => none

/-- The record was translated and flushed an L1 cache, after which neither this cache nor
one above it had a line of the range. Contention requests and the final counters follow. -/
def Flushes (C : SimConfig) (core : ℕ) (l1 : DevId) (m : Memref) (σ₁ σ' : SimState) : Prop :=
  ∃ p σ₂, C.translations m = some p ∧ σ₂ = (σ₁.translated C core p m).cacheFlush C l1 m ∧
    σ' = (σ₂.contentionAll C core C.unsetSearchRes).countRef C ∧
    ∀ j, C.H.IsAncestor l1 j → ∀ tag, C.H.firstTag j m ≤ tag → tag ≤ C.H.finalTag j m →
      ¬(σ₂.walk.store j).Holds (C.H.geometry j) tag

theorem isReference_of_flushedL1 {core : ℕ} {l1 : DevId}
    (h : flushedL1 core m.type = some l1) : isReference m = false := by
  cases htype : m.type <;> simp [htype, flushedL1] at h <;>
    simp [isReference, htype, typeIsInstr, typeIsPrefetch]

/-- A flush that gets to the end is made on the L1 cache of its core. -/
theorem processMemref_of_flush {core : ℕ} {σ₁ : SimState} {l1 : DevId}
    {p : PageTableInfo × PageTableInfo} (hsched : σ.scheduleRef C m = .ok (core, σ₁))
    (htrans : C.translations m = some p) (hl1 : flushedL1 core m.type = some l1) :
    (σ.processMemref C m).2 = (((σ₁.translated C core p m).cacheFlush C l1 m).contentionAll C core
      C.unsetSearchRes).countRef C := by
  have hsame : newMemref p.2 m = m := by simp [newMemref, isReference_of_flushedL1 hl1]
  have haccess (σ₂ : SimState) :
      σ₂.access C core m = .ok (C.unsetSearchRes, σ₂.cacheFlush C l1 m) := by
    cases htype : m.type <;> simp [htype, flushedL1] at hl1 <;>
      simp [access, htype, typeIsInstr, typeIsPrefetch, hl1]
  simp only [processMemref, process, hsched, bind, Except.bind, translate_eq, htrans, hsame,
    haccess, pure, Except.pure]

/-- A record that the tables do not translate leaves caches alone. -/
theorem processMemref_walk_of_none {core : ℕ} {σ₁ : SimState}
    (hsched : σ.scheduleRef C m = .ok (core, σ₁)) (htrans : C.translations m = none) :
    (σ.processMemref C m).2.walk = σ.walk := by
  obtain ⟨_, _, _, _, rfl⟩ : ∃ skipRefs warmupRefs isWarmedUp sched,
      σ₁ = { σ with skipRefs, warmupRefs, isWarmedUp, sched } := scheduleRef_frame.2 _ hsched
  rw [processMemref_of_none hsched htrans]
  rfl

end SimState

/-! ### Thread exits and flushes of a run -/

open SimState

variable {C : SimConfig}

theorem lastMapped_of_mem_steps {trace : List Memref} :
    ∀ s ∈ C.steps trace, s.1.sched.LastMapped := by
  refine C.mem_steps_induction (P := fun σ => σ.sched.LastMapped) (.inl rfl) fun s _ hσ => ?_
  cases hsched : s.1.scheduleRef C s.2 with
  | error r =>
    rcases s.1.processMemref_sched_of_error hsched with heq | heq
    · rwa [heq]
    · rw [heq]
      exact hσ.processMarker s.2
  | ok a =>
    obtain ⟨-, -, -, -, -, hσ₁⟩ := scheduleRef_eq_ok_iff.mp hsched
    rw [s.1.processMemref_sched hsched]
    split_ifs
    · exact Scheduler.lastMapped_handleThreadExit _ _
    · rw [hσ₁]
      exact hσ.coreFor s.2.tid

/-- **Thread exits and flushes.** Of the records that have got a core, a thread exit takes
its thread out of the schedule exactly if page zero has both translations and the thread is
in the map, which every thread but 0 is; a flush is made if page zero has both translations,
and else no cache changes. -/
theorem exit_and_flush {trace : List Memref} {s : SimState × Memref} (hs : s ∈ C.steps trace)
    {core : ℕ} {σ₁ : SimState} (hsched : s.1.scheduleRef C s.2 = .ok (core, σ₁)) :
    (s.2.type = .threadExit →
      (σ₁.sched.Exits (s.1.processMemref C s.2).2.sched s.2.tid ↔ C.pageZero.isSome = true ∧
        (s.2.tid = 0 → (σ₁.sched.thread2core 0).isSome = true))) ∧
    ∀ l1, flushedL1 core s.2.type = some l1 →
      (C.pageZero.isSome = true → Flushes C core l1 s.2 σ₁ (s.1.processMemref C s.2).2) ∧
        (C.pageZero = none → (s.1.processMemref C s.2).2.walk = s.1.walk) := by
  constructor
  · intro hexit
    have hzero : C.translations s.2 = C.pageZero :=
      translations_of_not_isReference (by simp [isReference, hexit, typeIsInstr, typeIsPrefetch])
    -- a thread other than 0 is in the map, since it has just got a core
    have hmapped : (σ₁.sched.thread2core s.2.tid).isSome = true ↔
        (s.2.tid = 0 → (σ₁.sched.thread2core 0).isSome = true) := by
      by_cases htid : s.2.tid = 0
      · simp [htid]
      · obtain ⟨-, -, -, -, -, hσ₁⟩ := scheduleRef_eq_ok_iff.mp hsched
        have hcore := (lastMapped_of_mem_steps s hs).isSome_coreFor (k := C.sched) htid
        rw [hσ₁]
        simp [htid, hcore]
    rw [s.1.processMemref_sched hsched, hzero, ← hmapped]
    by_cases hcovered : C.pageZero.isSome = true
    · simp only [hexit, hcovered, and_self, if_true, true_and]
      exact Scheduler.exits_handleThreadExit_iff
    · simp only [hcovered, and_false, if_false, false_and, Bool.false_eq_true, iff_false]
      exact Scheduler.not_exits_self
  · intro l1 hl1
    have hzero : C.translations s.2 = C.pageZero :=
      translations_of_not_isReference (isReference_of_flushedL1 hl1)
    constructor
    · intro hcovered
      obtain ⟨p, hp⟩ := Option.isSome_iff_exists.mp hcovered
      have htrans := hzero.trans hp
      refine ⟨p, _, htrans, rfl, processMemref_of_flush hsched htrans hl1, ?_⟩
      intro j hj tag hfirst hfinal
      exact Hierarchy.flush_not_holds _ hj s.2 hfirst hfinal
    · intro hnone
      exact processMemref_walk_of_none hsched (hzero.trans hnone)

/-- A flush of one byte of the data cache. -/
def dataFlushAt (addr : BitVec 64) : Memref := { readAt addr with type := .dataFlush }

/-- With page zero in the tables, the flush of a line and the end of the thread are made. -/
theorem thread_flushes_and_exits :
    let C := sampleConfig [0, 0x7000]
    let trace := [readBy 1 0x7010, dataFlushAt 0x15010, threadExit 1]
    (∃ s ∈ C.steps trace, s.2 = dataFlushAt 0x15010 ∧ ∃ core l1 σ₁,
      Flushes C core l1 s.2 σ₁ (s.1.processMemref C s.2).2) ∧
    ∃ s ∈ C.steps trace, s.2 = threadExit 1 ∧ ∃ σ₁ : SimState,
      σ₁.sched.Exits (s.1.processMemref C s.2).2.sched 1 := by
  intro C trace
  have hcovered : C.pageZero.isSome = true := by decide
  have hok : ∀ s ∈ C.steps trace, (s.1.scheduleRef C s.2).isOk = true := by decide +kernel
  have hcore : ∀ s ∈ C.steps trace, ∃ core σ₁, s.1.scheduleRef C s.2 = .ok (core, σ₁) := by
    intro s hs
    have h := hok s hs
    cases hsched : s.1.scheduleRef C s.2 with
    | error r => simp [hsched, Except.isOk, Except.toBool] at h
    | ok r => exact ⟨r.1, r.2, rfl⟩
  constructor
  · obtain ⟨s, hs, hflush⟩ : ∃ s ∈ C.steps trace, s.2 = dataFlushAt 0x15010 := by decide +kernel
    obtain ⟨core, σ₁, hsched⟩ := hcore s hs
    have hl1 : flushedL1 core s.2.type = some (.l1d core) := by rw [hflush]; rfl
    exact ⟨s, hs, hflush, core, _, σ₁, ((exit_and_flush hs hsched).2 _ hl1).1 hcovered⟩
  · obtain ⟨s, hs, hexit⟩ : ∃ s ∈ C.steps trace, s.2 = threadExit 1 := by decide +kernel
    obtain ⟨core, σ₁, hsched⟩ := hcore s hs
    have htype : s.2.type = .threadExit := by rw [hexit]; rfl
    have htid : s.2.tid = 1 := by rw [hexit]; rfl
    refine ⟨s, hs, hexit, σ₁, ?_⟩
    rw [← htid]
    exact ((exit_and_flush hs hsched).1 htype).mpr ⟨hcovered, by simp [htid]⟩

/-- Without page zero in the tables, the line is still in the data cache after its flush, and
the thread on its core after its end. -/
theorem flush_and_exit_lost :
    let C := sampleConfig [0x7000]
    let trace := [readBy 1 0x7010, dataFlushAt 0x15010, threadExit 1]
    (∀ s ∈ C.steps trace, (s.1.scheduleRef C s.2).isOk = true) ∧
      ((C.run trace).walk.store (.l1d 0)).Holds (C.H.geometry (.l1d 0))
        (C.H.firstTag (.l1d 0) (dataFlushAt 0x15010)) ∧
      (C.run trace).sched.thread2core 1 = some 0 ∧ (C.run trace).sched.threadCounts 0 = 1 := by
  decide +kernel

end SagePTE.Simulator
