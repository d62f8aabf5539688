import SagePTE.Simulator.WalkCount

/-!
# Two schedules

The cache simulator and the TLB simulator each keep a schedule of threads to cores. The
TLB simulator sees the records that the cache simulator has given a core. So it does not
see the cpu markers, and it handles every thread exit, while the cache simulator does so
only if page zero has both translations; and with `skip_refs` it skips records of its own.
Where none of this plays a role the schedules stay the same, until the TLB simulator has
used up its references and asks no TLB any more.

## Main definitions

* `TlbSim.consultedCore` — the core whose TLBs are asked
* `SimState.CoresAgree` — both simulators use the same core for a record

## Main results

* `TlbSim.processMemref_consults` — the TLB that is asked
* `cores_agree` — runs in which the schedules stay the same
-/

set_option autoImplicit false

namespace SagePTE.Simulator

/-! ### The schedule of the TLB simulator -/

namespace TlbSim

variable (H : Hierarchy TlbId) (k : SchedulerKnobs) (t : TlbSim)

/-- The core whose TLBs are asked for a record, if any are. -/
def consultedCore (m : Memref) : Option ℕ :=
  if t.skipRefs ≠ 0 ∨ t.isExhausted = true ∨ m.type = .marker then none
  else some (t.sched.coreFor k m.tid).1

variable {H k t}

/-- An access is reported as the TLB of that core answers it. -/
theorem processMemref_consults {m : Memref} (hacc : isAccess m.type = true) {core : ℕ}
    (hcore : t.consultedCore k m = some core) :
    (t.processMemref H k m).1 = (true, (tlbRequest H t.store (l1Tlb core m.type) m).1) := by
  unfold consultedCore at hcore
  split_ifs at hcore with hnone
  obtain rfl := Option.some.inj hcore
  simp only [not_or, not_not] at hnone
  obtain ⟨hskip, hex, hmarker⟩ := hnone
  have hrefs : ¬(t.warmupRefs = 0 ∧ t.simRefs = 0) := by simpa [isExhausted] using hex
  simp only [processMemref, if_neg (not_not.mpr hskip), if_neg hrefs,
    Scheduler.processMarker_of_ne hmarker, if_neg hmarker, access_of_isAccess _ hacc]

/-- The schedule after a record that is not skipped. -/
theorem processMemref_sched (hskip : t.skipRefs = 0) {m : Memref} (hmarker : m.type ≠ .marker) :
    (t.processMemref H k m).2.sched =
      if t.isExhausted then t.sched
      else if m.type = .threadExit then (t.sched.coreFor k m.tid).2.handleThreadExit m.tid
      else (t.sched.coreFor k m.tid).2 := by
  simp only [processMemref, if_neg (not_not.mpr hskip), Scheduler.processMarker_of_ne hmarker,
    if_neg hmarker]
  by_cases hex : t.warmupRefs = 0 ∧ t.simRefs = 0
  · simp [isExhausted, hex]
  rw [if_neg hex, if_neg (by simpa [isExhausted] using hex)]
  split
  · next hnone =>
    -- a thread exit is a known record
    have hne : m.type ≠ .threadExit := by
      intro hexit
      simp [access, hexit, typeIsInstr] at hnone
    rw [if_neg hne]
  · next r hr => rw [countRef_sched, access_sched hr]

/-- Once its references are used up, the TLB simulator stays as it is. -/
theorem processMemref_of_isExhausted (hskip : t.skipRefs = 0) (hex : t.isExhausted = true)
    (m : Memref) : (t.processMemref H k m).2 = t := by
  have hrefs : t.warmupRefs = 0 ∧ t.simRefs = 0 := by simpa [isExhausted] using hex
  simp only [processMemref, if_neg (not_not.mpr hskip), if_pos hrefs]

end TlbSim

/-! ### Runs with one schedule -/

namespace SimState

variable (C : SimConfig)

/-- If a fetch, read or write is simulated, then the TLBs that are asked for it, if any are,
are those of the core whose caches it goes to. -/
def CoresAgree (σ : SimState) (m : Memref) : Prop :=
  ∀ core σ₁ tlbCore, isAccess m.type = true → σ.scheduleRef C m = .ok (core, σ₁) →
    (C.translations m).isSome = true → σ.tlb.consultedCore C.sched m = some tlbCore →
    tlbCore = core

/-- Both simulators have the same schedule, as long as the TLB simulator works. -/
def SameSchedule (σ : SimState) : Prop :=
  σ.tlb.skipRefs = 0 ∧ (σ.tlb.isExhausted = false → σ.tlb.sched = σ.sched)

variable {C} {σ : SimState}

theorem SameSchedule.coresAgree (h : σ.SameSchedule) (m : Memref) : σ.CoresAgree C m := by
  intro core σ₁ tlbCore _ hsched _ hcore
  obtain ⟨-, -, -, -, rfl, -⟩ := scheduleRef_eq_ok_iff.mp hsched
  unfold TlbSim.consultedCore at hcore
  split_ifs at hcore with hnone
  simp only [not_or, Bool.not_eq_true] at hnone
  rw [← h.2 hnone.2.1]
  exact (Option.some.inj hcore).symm

/-- A record that is no cpu marker, and no thread exit that the cache simulator misses,
keeps the schedules the same. -/
theorem SameSchedule.processMemref (h : σ.SameSchedule) {m : Memref}
    (hmarker : σ.sched.processMarker C.sched m = σ.sched)
    (hexit : m.type = .threadExit → (C.translations m).isSome = true) :
    (σ.processMemref C m).2.SameSchedule := by
  obtain ⟨hskip, hsame⟩ := h
  have htlb := σ.processMemref_tlb (C := C) m
  cases hsched : σ.scheduleRef C m with
  | error r =>
    rw [hsched, if_neg (by simp [Except.isOk, Except.toBool])] at htlb
    refine ⟨htlb ▸ hskip, fun hex => ?_⟩
    rw [htlb] at hex ⊢
    rw [hsame hex]
    rcases σ.processMemref_sched_of_error hsched with heq | heq
    · exact heq.symm
    · rw [heq, hmarker]
  | ok a =>
    obtain ⟨core, σ₁⟩ := a
    obtain ⟨-, -, -, hne, -, hσ₁⟩ := scheduleRef_eq_ok_iff.mp hsched
    rw [hsched, if_pos (by simp [Except.isOk, Except.toBool])] at htlb
    refine ⟨htlb ▸ TlbSim.processMemref_skipRefs hskip m, fun hex => ?_⟩
    -- a TLB simulator that works now has worked before
    have hbefore : σ.tlb.isExhausted = false := by
      by_contra hdone
      rw [htlb, TlbSim.processMemref_of_isExhausted hskip (by simpa using hdone)] at hex
      exact hdone hex
    rw [htlb, TlbSim.processMemref_sched hskip hne, hbefore, processMemref_sched σ hsched,
      hσ₁, hsame hbefore]
    by_cases htype : m.type = .threadExit
    · simp [htype, hexit htype]
    · simp [htype]

end SimState

open SimState

/-- **One schedule.** Nothing is skipped, cpu markers are not followed or there are none,
and thread exits are covered by the page tables: then both simulators use the same core for
every record. -/
theorem cores_agree {C : SimConfig} (hskip : C.skipRefs = 0) {trace : List Memref}
    (hmarker : ∀ m ∈ trace, m.type = .marker → m.markerType = .cpuId →
      C.sched.cpuScheduling = false)
    (hexit : ∀ m ∈ trace, m.type = .threadExit → (C.translations m).isSome = true) :
    ∀ s ∈ C.steps trace, s.1.CoresAgree C s.2 := by
  have hinv : ∀ s ∈ C.steps trace, s.1.SameSchedule := by
    refine C.mem_steps_induction ⟨hskip, fun _ => rfl⟩ fun s hs hσ => ?_
    have hmem := C.mem_of_mem_steps hs
    refine hσ.processMemref (if_neg ?_) (hexit s.2 hmem)
    rintro ⟨htype, hcpu, hon⟩
    rw [hmarker s.2 hmem htype hcpu] at hon
    cases hon
  exact fun s hs => (hinv s hs).coresAgree s.2

/-- A read by a thread. -/
def readBy (tid : ℤ) (addr : BitVec 64) : Memref := { readAt addr with tid }

/-- The end of a thread. -/
def threadExit (tid : ℤ) : Memref := { type := .threadExit, pid := 1, tid, addr := 0, size := 0 }

/-- A thread ends, and another one takes its place. -/
theorem cores_agree_after_exit :
    let C := sampleConfig [0, 0x7000]
    let trace := [readBy 1 0x7010, threadExit 1, readBy 2 0x7010]
    (C.steps trace).length = 3 ∧ ∀ s ∈ C.steps trace, s.1.CoresAgree C s.2 :=
  ⟨by decide +kernel, cores_agree rfl (by decide) (by decide)⟩

/-- A marker by which a thread runs on a cpu. -/
def cpuMarker (tid : ℤ) (cpu : BitVec 64) : Memref :=
  { type := .marker, pid := 1, tid, addr := 0, size := 0, markerType := .cpuId, markerValue := cpu }

/-- Two threads run on one cpu. The cache simulator puts both on core 0, and the TLB
simulator, which has not seen the markers, has a core for each. -/
theorem cpuMarker_splits_cores :
    let C := { sampleConfig [0x7000] with sched := { cpuScheduling := true } }
    let trace := [cpuMarker 1 5, cpuMarker 2 5, readBy 1 0x7010, readBy 2 0x7010]
    ∃ s ∈ C.steps trace, isAccess s.2.type = true ∧ (C.translations s.2).isSome = true ∧
      (s.1.scheduleRef C s.2).toOption.map Prod.fst = some 0 ∧
      s.1.tlb.consultedCore C.sched s.2 = some 1 := by
  decide +kernel

end SagePTE.Simulator
