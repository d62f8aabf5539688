import SagePTE.Simulator.Cores

/-!
# The last thread and its core

The cache simulator keeps the thread of the last record and its core, so that it need not
look up the core again as long as the thread stays the same. A cpu marker changes the core of
its thread in the map only. If that is the last thread, the records that follow still go to
the old core, until another thread has its turn.

The value zero stands for no last thread. A thread with the id zero is taken for the last one
before it has got a core.

## Main definitions

* `Scheduler.Fresh` — the last thread is on the last core
* `Scheduler.MovesLast` — a marker gives the last thread another core

## Main results

* `Scheduler.coreFor_agrees_iff` — when the shortcut is right for a record
* `core_of_reference` — runs in which it is right for all references
-/

set_option autoImplicit false

namespace SagePTE.Simulator

namespace Scheduler

variable (k : SchedulerKnobs) (s : Scheduler)

/-- The map has the last thread on the last core. -/
def Fresh : Prop := s.lastThread ≠ 0 → s.thread2core s.lastThread = some s.lastCore

/-- The record is a marker by which the last thread gets another core. -/
def MovesLast (m : Memref) : Prop :=
  s.lastThread ≠ 0 ∧
    (s.processMarker k m).thread2core s.lastThread ≠ s.thread2core s.lastThread

instance (m : Memref) : Decidable (s.MovesLast k m) := inferInstanceAs (Decidable (_ ∧ _))

variable {k s}

theorem processMarker_last (m : Memref) :
    (s.processMarker k m).lastThread = s.lastThread ∧
      (s.processMarker k m).lastCore = s.lastCore := by
  rcases s.processMarker_cases (k := k) m with heq | ⟨cpu, heq⟩
  · rw [heq]
    exact ⟨rfl, rfl⟩
  · rw [heq]
    unfold coreForCpu
    split <;> exact ⟨rfl, rfl⟩

theorem Fresh.processMarker {m : Memref} (h : s.Fresh) (hm : ¬s.MovesLast k m) :
    (s.processMarker k m).Fresh := by
  obtain ⟨hthread, hcore⟩ := processMarker_last (k := k) (s := s) m
  intro hne
  rw [hthread] at hne ⊢
  rw [hcore, ← h hne]
  by_contra hmoved
  exact hm ⟨hne, hmoved⟩

/-- The core that is used for a record is that of the map, unless the thread is taken for
the last one and has another core. -/
theorem coreFor_agrees_iff (tid : ℤ) :
    (s.coreFor k tid).2.thread2core tid = some (s.coreFor k tid).1 ↔
      (tid = s.lastThread → s.thread2core tid = some s.lastCore) := by
  unfold coreFor
  split_ifs with hlast
  · simp [hlast]
  · simp only [hlast, false_implies, iff_true]
    exact coreForThread_agrees tid

theorem Fresh.coreFor (h : s.Fresh) (tid : ℤ) : (s.coreFor k tid).2.Fresh := by
  unfold Scheduler.coreFor
  split_ifs
  · exact h
  · intro _
    exact coreForThread_agrees tid

theorem Fresh.handleThreadExit (tid : ℤ) : (s.handleThreadExit tid).Fresh := by
  intro hne
  refine absurd ?_ hne
  unfold Scheduler.handleThreadExit
  split <;> rfl

end Scheduler

open SimState

/-- No marker moves the last thread: then it is on the last core all the time. -/
theorem fresh_of_mem_steps {C : SimConfig} {trace : List Memref}
    (hmarker : ∀ s ∈ C.steps trace, ¬s.1.sched.MovesLast C.sched s.2) :
    ∀ s ∈ C.steps trace, s.1.sched.Fresh :=
  C.sched_of_mem_steps (fun hne => absurd rfl hne) (fun s hs hσ => hσ.processMarker (hmarker s hs))
    (fun _ tid h => h.coreFor tid) fun _ tid _ => Scheduler.Fresh.handleThreadExit tid

/-- **The core of a reference.** If no marker moves the last thread and no thread has the id
zero, then every reference goes to the core that the map has for its thread. -/
theorem core_of_reference {C : SimConfig} {trace : List Memref}
    (hmarker : ∀ s ∈ C.steps trace, ¬s.1.sched.MovesLast C.sched s.2)
    (htid : ∀ m ∈ trace, isReference m = true → m.tid ≠ 0) :
    ∀ s ∈ C.steps trace, ∀ core σ₁, isReference s.2 = true →
      s.1.scheduleRef C s.2 = .ok (core, σ₁) → σ₁.sched.thread2core s.2.tid = some core := by
  intro s hs core σ₁ href hsched
  obtain ⟨-, -, -, -, rfl, rfl⟩ := scheduleRef_eq_ok_iff.mp hsched
  refine Scheduler.coreFor_agrees_iff _ |>.mpr fun hlast => ?_
  have hne := htid s.2 (C.mem_of_mem_steps hs) href
  rw [hlast] at hne ⊢
  exact fresh_of_mem_steps hmarker s hs hne

/-- Two threads change places, each while the other one is running. -/
theorem core_of_reference_after_swap :
    let C := { sampleConfig [0x7000] with sched := { cpuScheduling := true } }
    let trace := [cpuMarker 1 5, cpuMarker 2 6, readBy 1 0x7010, cpuMarker 2 5, readBy 2 0x7010,
      cpuMarker 1 6, readBy 1 0x7010]
    (C.steps trace).length = 7 ∧ ∀ s ∈ C.steps trace, ∀ core σ₁, isReference s.2 = true →
      s.1.scheduleRef C s.2 = .ok (core, σ₁) → σ₁.sched.thread2core s.2.tid = some core :=
  ⟨by decide +kernel, core_of_reference (by decide +kernel) (by decide)⟩

/-- A thread moves from one cpu to another between two of its reads. The map has it on core 1,
and the second read goes to core 0. -/
theorem moved_thread_stays :
    let C := { sampleConfig [0x7000] with sched := { cpuScheduling := true } }
    let trace := [cpuMarker 1 5, readBy 1 0x7010, cpuMarker 1 6, readBy 1 0x7010]
    ∃ s ∈ C.steps trace, isReference s.2 = true ∧
      (s.1.scheduleRef C s.2).toOption.map
        (fun r => (r.1, r.2.sched.thread2core s.2.tid)) = some (0, some 1) := by
  decide +kernel

end SagePTE.Simulator
