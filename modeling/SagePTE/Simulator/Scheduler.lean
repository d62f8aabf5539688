import Mathlib.Algebra.Group.Int.Defs
import Mathlib.Algebra.Group.Nat.Defs
import Mathlib.Logic.Function.Basic
import SagePTE.Simulator.Memref

/-!
# Scheduling of threads to cores

`simulator_t` is the common base of the cache and the TLB simulator. It maps each
thread to a core: to the core of its cpu when cpu markers are followed, else to
the core with the fewest threads. Each simulator keeps a schedule of its own.

## Main definitions

* `Scheduler` — the maps and counters of `simulator_t`
* `Scheduler.processMarker` — `simulator_t::process_memref`
* `Scheduler.coreFor` — the core of a thread, with the shortcut for a repeated thread
* `Scheduler.handleThreadExit` — the end of a thread
-/

set_option autoImplicit false

namespace SagePTE.Simulator

/-- `knob_num_cores` and `knob_cpu_scheduling`. -/
structure SchedulerKnobs where
  numCores : ℕ := 4
  cpuScheduling : Bool := false

/-- The scheduling state of `simulator_t`. A thread that is not in the map has no
core. `fault` is set when an assertion fails. -/
structure Scheduler where
  lastThread : ℤ := 0
  lastCore : ℕ := 0
  cpu2core : ℤ → Option ℕ := fun _ => none
  thread2core : ℤ → Option ℕ := fun _ => none
  cpuCounts : ℕ → ℤ := fun _ => 0
  threadCounts : ℕ → ℤ := fun _ => 0
  threadEverCounts : ℕ → ℤ := fun _ => 0
  fault : Bool := false

namespace Scheduler

variable (k : SchedulerKnobs) (s : Scheduler)

/-- `find_emptiest_core`: the first core with the least count. -/
def findEmptiestCore (counts : ℕ → ℤ) : ℕ :=
  ((List.range k.numCores).foldl
    (fun best i => if counts i < best.1 then (counts i, i) else best) (2 ^ 31 - 1, 0)).2

/-- Add to one counter. -/
def bump (counts : ℕ → ℤ) (core : ℕ) (delta : ℤ) : ℕ → ℤ :=
  Function.update counts core (counts core + delta)

/-- The core of a cpu; a new cpu goes to the emptiest core. -/
def coreForCpu (cpu : ℤ) : ℕ × Scheduler :=
  match s.cpu2core cpu with
  | some core => (core, s)
  | none =>
    let core := findEmptiestCore k s.cpuCounts
    (core, { s with
      cpuCounts := bump s.cpuCounts core 1
      cpu2core := Function.update s.cpu2core cpu (some core) })

/-- Move a thread to a core. -/
def moveThread (tid : ℤ) (core : ℕ) : Scheduler :=
  let threadCounts := match s.thread2core tid with
    | some prior => bump s.threadCounts prior (-1)
    | none => s.threadCounts
  { s with
    thread2core := Function.update s.thread2core tid (some core)
    threadCounts := bump threadCounts core 1
    threadEverCounts := bump s.threadEverCounts core 1 }

/-- `simulator_t::process_memref`: a cpu marker moves its thread to the core of
the cpu. The marker's value is cut to an `int`. -/
def processMarker (m : Memref) : Scheduler :=
  if m.type = .marker ∧ m.markerType = .cpuId ∧ k.cpuScheduling then
    let cpu : ℤ := Int.bmod m.markerValue.toNat (2 ^ 32)
    -- an unknown cpu leaves the thread where it is
    if cpu < 0 then s
    else
      let r := s.coreForCpu k cpu
      r.2.moveThread m.tid r.1
  else s

/-- `core_for_thread`. -/
def coreForThread (tid : ℤ) : ℕ × Scheduler :=
  match s.thread2core tid with
  | some core => (core, s)
  | none =>
    let core := findEmptiestCore k s.threadCounts
    (core, { s with
      threadCounts := bump s.threadCounts core 1
      threadEverCounts := bump s.threadEverCounts core 1
      thread2core := Function.update s.thread2core tid (some core) })

/-- The core a simulator uses for a record: that of the last record when the
thread is the same. -/
def coreFor (tid : ℤ) : ℕ × Scheduler :=
  if tid = s.lastThread then (s.lastCore, s)
  else
    let r := s.coreForThread k tid
    (r.1, { r.2 with lastThread := tid, lastCore := r.1 })

/-- `handle_thread_exit`, and the reset of the last thread its callers make. -/
def handleThreadExit (tid : ℤ) : Scheduler :=
  match s.thread2core tid with
  | none => { s with fault := true, lastThread := 0 }
  | some core =>
    { s with
      fault := s.fault || decide (s.threadCounts core ≤ 0)
      threadCounts := bump s.threadCounts core (-1)
      thread2core := Function.update s.thread2core tid none
      lastThread := 0 }

/-! ### Single steps -/

variable {k s}

/-- A marker is ignored, or it moves its thread to the core of a cpu. -/
theorem processMarker_cases (m : Memref) :
    s.processMarker k m = s ∨ ∃ cpu,
      s.processMarker k m = (s.coreForCpu k cpu).2.moveThread m.tid (s.coreForCpu k cpu).1 := by
  unfold processMarker
  split
  · extract_lets cpu r
    by_cases hcpu : cpu < 0
    · exact .inl (if_pos hcpu)
    · exact .inr ⟨cpu, if_neg hcpu⟩
  · exact .inl rfl

/-- Other records do not change the schedule here. -/
theorem processMarker_of_ne {m : Memref} (h : m.type ≠ .marker) (s : Scheduler) :
    s.processMarker k m = s := if_neg fun hm => h hm.1

/-- The thread is on the core that is returned. -/
theorem coreForThread_agrees (tid : ℤ) :
    (s.coreForThread k tid).2.thread2core tid = some (s.coreForThread k tid).1 := by
  simp only [coreForThread]
  cases h : s.thread2core tid with
  | some core => exact h
  | none => simp

end Scheduler

end SagePTE.Simulator
