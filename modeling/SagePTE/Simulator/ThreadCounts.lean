import SagePTE.Lib.Load
import SagePTE.Simulator.Tlb

/-!
# Threads and cpus of a core

`simulator_t` counts the threads and the cpus of every core by hand, wherever a thread or
a cpu is assigned to a core, moved or dropped. The counters agree with the maps, and the
thread that is remembered from the last record is one of the map. So the end of a thread
always finds its thread, and the counter it takes from is not zero.

## Main definitions

* `Balanced` — counters that agree with a map
* `Scheduler.Counted` — the invariant of the schedule
* `TlbSim.run` — `tlb_simulator_t` over a trace

## Main results

* `TlbSim.counted_run` — the counters after any trace
* `TlbSim.counters_le_length` — the counters do not exceed the number of records
-/

set_option autoImplicit false

namespace SagePTE.Simulator

open Load

/-! ### Counters -/

theorem Scheduler.bump_apply (counts : ℕ → ℤ) (core : ℕ) (delta : ℤ) (c : ℕ) :
    bump counts core delta c = counts c + if core = c then delta else 0 := by
  rcases eq_or_ne core c with rfl | hne
  · rw [bump, Function.update_self, if_pos rfl]
  · rw [bump, Function.update_of_ne hne.symm, if_neg hne, add_zero]

/-- A map to cores below a bound stays one when a value is changed to one below it. -/
theorem lt_of_update {n : ℕ} {f : ℤ → Option ℕ} {a : ℤ} {v : Option ℕ}
    (h : ∀ x c, f x = some c → c < n) (hv : ∀ c, v = some c → c < n) :
    ∀ x c, Function.update f a v x = some c → c < n := by
  intro x c hx
  rcases eq_or_ne x a with rfl | hne
  · rw [Function.update_self] at hx
    exact hv c hx
  · rw [Function.update_of_ne hne] at hx
    exact h x c hx

/-- The counters agree with the map, and the map only has cores that there are. -/
structure Balanced (numCores : ℕ) (f : ℤ → Option ℕ) (counts : ℕ → ℤ) : Prop where
  finite : FiniteDom f
  counts_eq : ∀ c, counts c = load f c
  lt : ∀ a c, f a = some c → c < numCores

namespace Balanced

variable {n : ℕ} {f : ℤ → Option ℕ} {counts : ℕ → ℤ} {a : ℤ} {b : ℕ}

theorem initial (n : ℕ) : Balanced n (fun _ => none) (fun _ => 0) where
  finite := finiteDom_none
  counts_eq c := by simp
  lt a c h := by cases h

theorem assign (h : Balanced n f counts) (ha : f a = none) (hb : b < n) :
    Balanced n (Function.update f a (some b)) (Scheduler.bump counts b 1) where
  finite := h.finite.update a (some b)
  counts_eq c := by
    rw [Scheduler.bump_apply, h.counts_eq, load_assign h.finite ha b c]
    push_cast
    rfl
  lt := lt_of_update h.lt fun c hc => Option.some.inj hc ▸ hb

theorem remove (h : Balanced n f counts) (ha : f a = some b) :
    Balanced n (Function.update f a none) (Scheduler.bump counts b (-1)) where
  finite := h.finite.update a none
  counts_eq c := by
    rw [Scheduler.bump_apply, h.counts_eq, load_remove h.finite ha c]
    push_cast
    split_ifs <;> omega
  lt := lt_of_update h.lt fun c hc => (Option.some_ne_none c hc.symm).elim

/-- The counter of a core with a thread is not zero. -/
theorem pos (h : Balanced n f counts) (ha : f a = some b) : 0 < counts b := by
  rw [h.counts_eq]
  exact_mod_cast load_pos h.finite ha

end Balanced

/-! ### The schedule -/

namespace Scheduler

variable {k : SchedulerKnobs} {s : Scheduler}

/-- The emptiest core is one of the cores. -/
theorem findEmptiestCore_lt (hcores : 1 ≤ k.numCores) (counts : ℕ → ℤ) :
    findEmptiestCore k counts < k.numCores := by
  refine List.foldlRecOn (motive := fun best : ℤ × ℕ => best.2 < k.numCores)
    (List.range k.numCores) _ hcores fun best hbest i hi => ?_
  split
  · exact List.mem_range.1 hi
  · exact hbest

/-- All cores of the schedule are cores that there are. -/
structure CoresLt (k : SchedulerKnobs) (s : Scheduler) : Prop where
  threads : ∀ tid c, s.thread2core tid = some c → c < k.numCores
  cpus : ∀ cpu c, s.cpu2core cpu = some c → c < k.numCores
  last : s.lastCore < k.numCores

namespace CoresLt

theorem initial (hcores : 1 ≤ k.numCores) : CoresLt k {} where
  threads tid c h := by cases h
  cpus cpu c h := by cases h
  last := hcores

theorem coreForCpu (hcores : 1 ≤ k.numCores) (h : s.CoresLt k) (cpu : ℤ) :
    (s.coreForCpu k cpu).2.CoresLt k ∧ (s.coreForCpu k cpu).1 < k.numCores := by
  rw [Scheduler.coreForCpu]
  split
  · next core hcore => exact ⟨h, h.cpus cpu core hcore⟩
  · have hlt := findEmptiestCore_lt hcores s.cpuCounts
    exact ⟨⟨h.threads, lt_of_update h.cpus fun c hc => Option.some.inj hc ▸ hlt, h.last⟩, hlt⟩

theorem processMarker (hcores : 1 ≤ k.numCores) (h : s.CoresLt k) (m : Memref) :
    (s.processMarker k m).CoresLt k := by
  rcases s.processMarker_cases (k := k) m with heq | ⟨cpu, heq⟩
  · rw [heq]
    exact h
  · obtain ⟨hcpu, hlt⟩ := h.coreForCpu hcores cpu
    rw [heq]
    exact ⟨lt_of_update hcpu.threads fun c hc => Option.some.inj hc ▸ hlt, hcpu.cpus, hcpu.last⟩

/-- The core that a record gets is one of the cores, too. -/
theorem coreFor (hcores : 1 ≤ k.numCores) (h : s.CoresLt k) (tid : ℤ) :
    (s.coreFor k tid).2.CoresLt k ∧ (s.coreFor k tid).1 < k.numCores := by
  rw [Scheduler.coreFor]
  split_ifs
  · exact ⟨h, h.last⟩
  · rw [Scheduler.coreForThread]
    split
    · next core hcore =>
      have hlt := h.threads tid core hcore
      exact ⟨⟨h.threads, h.cpus, hlt⟩, hlt⟩
    · have hlt := findEmptiestCore_lt hcores s.threadCounts
      exact ⟨⟨lt_of_update h.threads fun c hc => Option.some.inj hc ▸ hlt, h.cpus, hlt⟩, hlt⟩

theorem handleThreadExit (h : s.CoresLt k) (tid : ℤ) : (s.handleThreadExit tid).CoresLt k := by
  rw [Scheduler.handleThreadExit]
  split
  · exact ⟨h.threads, h.cpus, h.last⟩
  · exact ⟨lt_of_update h.threads fun c hc => (Option.some_ne_none c hc.symm).elim, h.cpus, h.last⟩

end CoresLt

/-- The invariant: both maps agree with their counters, the last thread is in the map, and no
assertion has failed. -/
structure Counted (k : SchedulerKnobs) (s : Scheduler) : Prop where
  threads : Balanced k.numCores s.thread2core s.threadCounts
  cpus : Balanced k.numCores s.cpu2core s.cpuCounts
  last : s.lastThread ≠ 0 → s.thread2core s.lastThread ≠ none
  no_fault : s.fault = false

/-- A thread of the map stays in it when a thread is assigned. -/
theorem update_ne_none {f : ℤ → Option ℕ} {tid x : ℤ} (core : ℕ) (h : f x ≠ none) :
    Function.update f tid (some core) x ≠ none := by
  rcases eq_or_ne x tid with rfl | hne
  · rw [Function.update_self]
    exact Option.some_ne_none core
  · rwa [Function.update_of_ne hne]

namespace Counted

theorem initial (k : SchedulerKnobs) : Counted k {} where
  threads := .initial _
  cpus := .initial _
  last h := absurd rfl h
  no_fault := rfl

theorem coreForCpu (hcores : 1 ≤ k.numCores) (h : s.Counted k) (cpu : ℤ) :
    (s.coreForCpu k cpu).2.Counted k ∧ (s.coreForCpu k cpu).1 < k.numCores := by
  rw [Scheduler.coreForCpu]
  split
  · next core hcore => exact ⟨h, h.cpus.lt cpu core hcore⟩
  · next hnone =>
    have hlt := findEmptiestCore_lt hcores s.cpuCounts
    exact ⟨⟨h.threads, h.cpus.assign hnone hlt, h.last, h.no_fault⟩, hlt⟩

theorem moveThread (h : s.Counted k) (tid : ℤ) {core : ℕ} (hcore : core < k.numCores) :
    (s.moveThread tid core).Counted k where
  threads := by
    rw [Scheduler.moveThread]
    split
    · next prior hprior =>
      -- the move takes the thread away from its core and assigns it again
      have hgone := h.threads.remove hprior
      have hback := hgone.assign (Function.update_self tid none s.thread2core) hcore
      rwa [Function.update_idem] at hback
    · next hnone => exact h.threads.assign hnone hcore
  cpus := h.cpus
  last hlast := update_ne_none core (h.last hlast)
  no_fault := h.no_fault

theorem processMarker (hcores : 1 ≤ k.numCores) (h : s.Counted k) (m : Memref) :
    (s.processMarker k m).Counted k := by
  rcases s.processMarker_cases (k := k) m with heq | ⟨cpu, heq⟩
  · rw [heq]
    exact h
  · obtain ⟨hcounted, hlt⟩ := h.coreForCpu hcores cpu
    rw [heq]
    exact hcounted.moveThread m.tid hlt

theorem coreForThread (hcores : 1 ≤ k.numCores) (h : s.Counted k) (tid : ℤ) :
    (s.coreForThread k tid).2.Counted k := by
  rw [Scheduler.coreForThread]
  split
  · exact h
  · next hnone =>
    have hlt := findEmptiestCore_lt hcores s.threadCounts
    exact ⟨h.threads.assign hnone hlt, h.cpus, fun hlast => update_ne_none _ (h.last hlast),
      h.no_fault⟩

/-- The thread of a record is in the map, also where the last thread is taken again. -/
theorem coreFor (hcores : 1 ≤ k.numCores) (h : s.Counted k) {tid : ℤ} (htid : tid ≠ 0) :
    (s.coreFor k tid).2.Counted k ∧ (s.coreFor k tid).2.thread2core tid ≠ none := by
  rw [Scheduler.coreFor]
  split_ifs with hlast
  · exact ⟨h, hlast ▸ h.last (hlast ▸ htid)⟩
  · have hcounted := h.coreForThread hcores tid
    have hmem : (s.coreForThread k tid).2.thread2core tid ≠ none := by
      rw [coreForThread_agrees]
      exact Option.some_ne_none _
    exact ⟨⟨hcounted.threads, hcounted.cpus, fun _ => hmem, hcounted.no_fault⟩, hmem⟩

/-- A thread of the map can end. -/
theorem handleThreadExit (h : s.Counted k) {tid : ℤ} (hmem : s.thread2core tid ≠ none) :
    (s.handleThreadExit tid).Counted k := by
  obtain ⟨core, hcore⟩ := Option.ne_none_iff_exists'.1 hmem
  rw [Scheduler.handleThreadExit, hcore]
  exact
    { threads := h.threads.remove hcore
      cpus := h.cpus
      last := fun hzero => absurd rfl hzero
      no_fault := by simp [h.no_fault, h.threads.pos hcore] }

end Counted

end Scheduler

/-! ### Bounds -/

namespace Scheduler

variable {k : SchedulerKnobs} {s : Scheduler} {n : ℤ}

/-- No counter is larger than a number. -/
structure CountersLe (s : Scheduler) (n : ℤ) : Prop where
  threads : ∀ c, s.threadCounts c ≤ n
  cpus : ∀ c, s.cpuCounts c ≤ n
  ever : ∀ c, s.threadEverCounts c ≤ n

theorem bump_le {counts : ℕ → ℤ} (h : ∀ c, counts c ≤ n) {delta : ℤ} (hdelta : delta ≤ 1)
    (core c : ℕ) : bump counts core delta c ≤ n + 1 := by
  have hc := h c
  rw [bump_apply]
  split <;> omega

theorem bump_neg_le {counts : ℕ → ℤ} (h : ∀ c, counts c ≤ n) (core c : ℕ) :
    bump counts core (-1) c ≤ n := by
  have hc := h c
  rw [bump_apply]
  split <;> omega

namespace CountersLe

theorem mono (h : s.CountersLe n) {n' : ℤ} (hle : n ≤ n') : s.CountersLe n' :=
  ⟨fun c => (h.threads c).trans hle, fun c => (h.cpus c).trans hle, fun c => (h.ever c).trans hle⟩

theorem processMarker (h : s.CountersLe n) (m : Memref) :
    (s.processMarker k m).CountersLe (n + 1) := by
  rcases s.processMarker_cases (k := k) m with heq | ⟨cpu, heq⟩
  · rw [heq]
    exact h.mono (by omega)
  · have hcpu : (s.coreForCpu k cpu).2.threadCounts = s.threadCounts ∧
        (s.coreForCpu k cpu).2.threadEverCounts = s.threadEverCounts ∧
        ∀ c, (s.coreForCpu k cpu).2.cpuCounts c ≤ n + 1 := by
      rw [coreForCpu]
      split
      · exact ⟨rfl, rfl, (h.mono (by omega)).cpus⟩
      · exact ⟨rfl, rfl, bump_le h.cpus (le_refl 1) _⟩
    obtain ⟨hthreads, hever, hcpus⟩ := hcpu
    rw [heq]
    refine ⟨fun c => ?_, hcpus, ?_⟩
    · rw [moveThread, hthreads]
      split
      · exact bump_le (bump_neg_le h.threads _) (le_refl 1) _ c
      · exact bump_le h.threads (le_refl 1) _ c
    · rw [moveThread, hever]
      exact bump_le h.ever (le_refl 1) _

theorem coreFor (h : s.CountersLe n) (tid : ℤ) : (s.coreFor k tid).2.CountersLe (n + 1) := by
  rw [Scheduler.coreFor, coreForThread]
  split_ifs
  · exact h.mono (by omega)
  · split
    · have hle := h.mono (show n ≤ n + 1 by omega)
      exact ⟨hle.threads, hle.cpus, hle.ever⟩
    · exact ⟨bump_le h.threads (le_refl 1) _, (h.mono (by omega)).cpus,
        bump_le h.ever (le_refl 1) _⟩

theorem handleThreadExit (h : s.CountersLe n) (tid : ℤ) :
    (s.handleThreadExit tid).CountersLe n := by
  rw [Scheduler.handleThreadExit]
  split
  · exact ⟨h.threads, h.cpus, h.ever⟩
  · exact ⟨bump_neg_le h.threads _, h.cpus, h.ever⟩

end CountersLe

end Scheduler

/-! ### Runs -/

namespace TlbSim

variable (H : Hierarchy TlbId) (k : SchedulerKnobs)

/-- `tlb_simulator_t` over a trace. -/
def run (t : TlbSim) (trace : List Memref) : TlbSim :=
  trace.foldl (fun t m => (t.processMemref H k m).2) t

variable {H k}

/-- One record. -/
theorem counted_processMemref (hcores : 1 ≤ k.numCores) {t : TlbSim} (h : t.sched.Counted k)
    {m : Memref} (htid : m.tid ≠ 0) : (t.processMemref H k m).2.sched.Counted k := by
  have hmarker := h.processMarker hcores m
  obtain ⟨hcore, hmem⟩ := hmarker.coreFor hcores htid
  rw [processMemref]
  split_ifs
  · exact h
  · exact h
  · exact hmarker
  · dsimp only
    split
    · exact hcore
    · next r haccess =>
      rw [countRef_sched, access_sched haccess]
      split
      · exact hcore.handleThreadExit hmem
      · exact hcore

/-- A whole run. -/
theorem counted_foldl (hcores : 1 ≤ k.numCores) {t : TlbSim} (h : t.sched.Counted k)
    {trace : List Memref} (htid : ∀ m ∈ trace, m.tid ≠ 0) : (run H k t trace).sched.Counted k :=
  List.foldlRecOn (motive := fun t : TlbSim => t.sched.Counted k) trace _ h fun _ ht m hm =>
    counted_processMemref hcores ht (htid m hm)

/-- **The counters of the cores.** After any trace, from any numbers of references to skip, to
warm up and to simulate, the counters are the numbers of threads and cpus of a core, the cores
are below `num_cores`, and no assertion of `handle_thread_exit` has failed. -/
theorem counted_run (hcores : 1 ≤ k.numCores) (t : TlbSim) (hsched : t.sched = {})
    {trace : List Memref} (htid : ∀ m ∈ trace, m.tid ≠ 0) :
    let s : Scheduler := (run H k t trace).sched
    (∀ c, {tid | s.thread2core tid = some c}.Finite ∧
      s.threadCounts c = {tid | s.thread2core tid = some c}.ncard) ∧
    (∀ c, {cpu | s.cpu2core cpu = some c}.Finite ∧
      s.cpuCounts c = {cpu | s.cpu2core cpu = some c}.ncard) ∧
    (∀ tid c, s.thread2core tid = some c → c < k.numCores) ∧
    (∀ cpu c, s.cpu2core cpu = some c → c < k.numCores) ∧ s.fault = false := by
  intro s
  have h : s.Counted k := counted_foldl hcores (hsched ▸ .initial k) htid
  exact ⟨fun c => ⟨h.threads.finite.finite_keys c, h.threads.counts_eq c⟩,
    fun c => ⟨h.cpus.finite.finite_keys c, h.cpus.counts_eq c⟩, h.threads.lt, h.cpus.lt, h.no_fault⟩

/-- Threads on two cores, one of which moves, ends and comes back. -/
theorem counted_run_after_exit :
    let trace : List Memref :=
      [⟨.marker, 1, 7, 0, 0, .cpuId, 3⟩, ⟨.read, 1, 8, 0x7010, 8, .other, 0⟩,
        ⟨.marker, 1, 7, 0, 0, .cpuId, 4⟩, ⟨.threadExit, 1, 7, 0, 0, .other, 0⟩,
        ⟨.read, 1, 7, 0x7020, 8, .other, 0⟩]
    let t := run defaultTlbs ⟨2, true⟩ { store := defaultTlbs.initialStore } trace
    (∀ c, t.sched.threadCounts c = {tid | t.sched.thread2core tid = some c}.ncard) ∧
      t.sched.fault = false := by
  intro trace t
  obtain ⟨hthreads, -, -, -, hfault⟩ := counted_run (H := defaultTlbs) (k := ⟨2, true⟩) (by decide)
    { store := defaultTlbs.initialStore } rfl (show ∀ m ∈ trace, m.tid ≠ 0 by decide)
  exact ⟨fun c => (hthreads c).2, hfault⟩

/-! ### The size of the counters -/

/-- One record adds at most one to a counter. -/
theorem countersLe_processMemref {t : TlbSim} {n : ℤ} (h : t.sched.CountersLe n) (m : Memref) :
    (t.processMemref H k m).2.sched.CountersLe (n + 1) := by
  have hle := h.mono (show n ≤ n + 1 by omega)
  rw [processMemref]
  split_ifs with _ _ hmarker
  · exact hle
  · exact hle
  · exact h.processMarker m
  · rw [Scheduler.processMarker_of_ne hmarker]
    have hcore := h.coreFor (k := k) m.tid
    dsimp only
    split
    · exact hcore
    · next r haccess =>
      rw [countRef_sched, access_sched haccess]
      split
      · exact hcore.handleThreadExit m.tid
      · exact hcore

/-- The counters of a run fit the type `int` as long as the trace has fewer than 2³¹ records. -/
theorem counters_le_length {t : TlbSim} {n : ℤ} (h : t.sched.CountersLe n) (trace : List Memref) :
    (run H k t trace).sched.CountersLe (n + trace.length) := by
  induction trace generalizing t n with
  | nil => simpa [run] using h
  | cons m trace ih =>
    have hrest := ih (countersLe_processMemref (H := H) (k := k) h m)
    rwa [List.length_cons, Nat.cast_succ, add_comm (trace.length : ℤ) 1, ← add_assoc]

end TlbSim

end SagePTE.Simulator
