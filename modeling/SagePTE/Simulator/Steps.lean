import SagePTE.Lib.Steps
import SagePTE.Simulator.Run

/-!
# The steps of a run

A record ends in one of four ways. It is dropped before it gets a core; its page or its
data frame is in no table; its type is not known, and the run stops; or it is simulated
to its end, where the counters are updated. This module says for each of them what state
is left, and describes a run by the records it comes to.

The caches have no influence on the rest of the state but through the histogram, and at
the end of the warm-up: requests leave the schedules, the TLBs and the counters alone.

## Main definitions

* `SimConfig.translations` — the records of both tables for a record of the trace
* `SimState.simulate` — a record up to the final counters
* `SimState.Ending` — how a record ends
* `SimConfig.steps` — the records of a run, with the states that they meet

## Main results

* `SimState.processMemref_ending` — the four ways and their states
* `SimState.walkVector_eq` — the histogram after a record
* `SimConfig.mem_steps_induction` — invariants of steps
-/

set_option autoImplicit false

namespace SagePTE.Simulator

/-! ### Changes in the caches -/

/-- The states differ in the caches at most. -/
structure SimState.SameControl (σ σ' : SimState) : Prop where
  sched : σ'.sched = σ.sched
  tlb : σ'.tlb = σ.tlb
  skipRefs : σ'.skipRefs = σ.skipRefs
  warmupRefs : σ'.warmupRefs = σ.warmupRefs
  simRefs : σ'.simRefs = σ.simRefs
  isWarmedUp : σ'.isWarmedUp = σ.isWarmedUp
  hm : σ'.hm = σ.hm

namespace SimState

theorem SameControl.refl (σ : SimState) : σ.SameControl σ := ⟨rfl, rfl, rfl, rfl, rfl, rfl, rfl⟩

theorem SameControl.trans {σ σ' σ'' : SimState} (h : σ.SameControl σ')
    (h' : σ'.SameControl σ'') : σ.SameControl σ'' where
  sched := h'.sched.trans h.sched
  tlb := h'.tlb.trans h.tlb
  skipRefs := h'.skipRefs.trans h.skipRefs
  warmupRefs := h'.warmupRefs.trans h.warmupRefs
  simRefs := h'.simRefs.trans h.simRefs
  isWarmedUp := h'.isWarmedUp.trans h.isWarmedUp
  hm := h'.hm.trans h.hm

variable {C : SimConfig}

theorem contend_sameControl (σ : SimState) (dev : DevId) (type : TraceType) :
    σ.SameControl (σ.contend C dev type) := ⟨rfl, rfl, rfl, rfl, rfl, rfl, rfl⟩

theorem contendLoop_sameControl (dev : DevId) (type : TraceType) (value : BitVec 32) (n : ℕ)
    (i : BitVec 32) (σ : SimState) : σ.SameControl (contendLoop C dev type value n i σ).2 := by
  induction n generalizing i σ with
  | zero => exact ⟨rfl, rfl, rfl, rfl, rfl, rfl, rfl⟩
  | succ n ih =>
    rw [contendLoop]
    split_ifs
    · exact (contend_sameControl σ dev type).trans (ih _ _)
    · exact .refl σ

theorem contendFraction_sameControl (σ : SimState) (dev : DevId) (type : TraceType)
    (fractionPart : ℤ) : σ.SameControl (σ.contendFraction C dev type fractionPart) := by
  simp only [contendFraction]
  split_ifs <;> exact ⟨rfl, rfl, rfl, rfl, rfl, rfl, rfl⟩

theorem contention_sameControl (σ : SimState) (dev : DevId) (type : TraceType)
    (value : BitVec 32) : σ.SameControl (σ.contention C dev type value) := by
  simp only [contention]
  split_ifs
  · exact .refl σ
  · exact (contendLoop_sameControl dev type value _ _ σ).trans
      (contendFraction_sameControl _ dev type _)
  · exact contendFraction_sameControl σ dev type _

theorem contentionAll_sameControl (σ : SimState) (core : ℕ) (searchRes : CacheResult) :
    σ.SameControl (σ.contentionAll C core searchRes) := by
  simp only [contentionAll]
  split_ifs
  · exact (contention_sameControl σ _ _ _).trans (contention_sameControl _ _ _ _)
  · exact contention_sameControl σ _ _ _

end SimState

/-! ### Stages -/

/-- The records of both tables that a record of the trace is translated by. -/
def SimConfig.translations (C : SimConfig) (m : Memref) : Option (PageTableInfo × PageTableInfo) :=
  (C.pageTable (SimState.virtualPage m)).bind fun guestIt =>
    (C.hostPageTable (guestIt.pa <<< 12)).map fun it => (guestIt, it)

/-- The types that the last stage knows. -/
def isHandled (type : TraceType) : Bool :=
  typeIsInstr type || type == .read || type == .write || typeIsPrefetch type ||
    type == .instrFlush || type == .dataFlush || type == .threadExit || type == .instrNoFetch

namespace SimState

variable (C : SimConfig) (σ : SimState)

/-- The state after a translation that succeeds: the TLB has been asked, and a miss has
walked. -/
def translated (core : ℕ) (p : PageTableInfo × PageTableInfo) (m : Memref) : SimState :=
  let t := σ.tlbLookup C m
  if t.1 then t.2 else t.2.recordWalk C core p.1 p.2 m

/-- The schedule after the last stage: a thread exit is taken out of it. -/
def exited (m : Memref) : SimState :=
  { σ with sched := if m.type = .threadExit then σ.sched.handleThreadExit m.tid else σ.sched }

/-- A record up to the final counters. -/
def simulate (m : Memref) : Except (Bool × SimState) SimState := do
  let (core, σ) ← σ.scheduleRef C m
  let (m, σ) ← σ.translate C core m
  let (searchRes, σ) ← σ.access C core m
  return σ.contentionAll C core searchRes

variable {C σ}

@[simp] theorem newMemref_type (it : PageTableInfo) (m : Memref) :
    (newMemref it m).type = m.type := by
  unfold newMemref
  split <;> rfl

@[simp] theorem newMemref_tid (it : PageTableInfo) (m : Memref) :
    (newMemref it m).tid = m.tid := by
  unfold newMemref
  split <;> rfl

theorem translate_eq (σ : SimState) (core : ℕ) (m : Memref) :
    σ.translate C core m = match C.translations m with
      | none => .error (true, (σ.tlbLookup C m).2)
      | some p => .ok (newMemref p.2 m, σ.translated C core p m) := by
  unfold translate SimConfig.translations
  cases C.pageTable (virtualPage m) with
  | none => rfl
  | some guestIt =>
    simp only [Option.bind_some]
    cases C.hostPageTable (guestIt.pa <<< 12) <;> rfl

/-- The last stage knows the type: it changes the caches, and a thread exit the schedule. -/
theorem access_of_isHandled (σ : SimState) (core : ℕ) {m : Memref}
    (h : isHandled m.type = true) :
    ∃ r, σ.access C core m = .ok r ∧ (σ.exited m).SameControl r.2 := by
  have hsame {σ' : SimState} (hne : m.type ≠ .threadExit) (h : σ.SameControl σ') :
      (σ.exited m).SameControl σ' := by
    rwa [exited, if_neg hne]
  simp only [access]
  split_ifs with hinstr hdata hflushI hflushD hexit hnoFetch
  · refine ⟨_, rfl, hsame ?_ ⟨rfl, rfl, rfl, rfl, rfl, rfl, rfl⟩⟩
    rintro hexit
    simp [hexit, typeIsInstr] at hinstr
  · refine ⟨_, rfl, hsame ?_ ⟨rfl, rfl, rfl, rfl, rfl, rfl, rfl⟩⟩
    rintro hexit
    simp [hexit, typeIsPrefetch] at hdata
  · exact ⟨_, rfl, hsame (by simp [hflushI]) ⟨rfl, rfl, rfl, rfl, rfl, rfl, rfl⟩⟩
  · exact ⟨_, rfl, hsame (by simp [hflushD]) ⟨rfl, rfl, rfl, rfl, rfl, rfl, rfl⟩⟩
  · exact ⟨_, rfl, by rw [exited, if_pos hexit]; exact .refl _⟩
  · exact ⟨_, rfl, hsame hexit (.refl σ)⟩
  · simp_all [isHandled]

theorem access_of_not_isHandled (σ : SimState) (core : ℕ) {m : Memref}
    (h : isHandled m.type = false) :
    σ.access C core m = .error (false, { σ with errorString := TlbSim.unhandled m.type }) := by
  simp only [isHandled, Bool.or_eq_false_iff, beq_eq_false_iff_ne] at h
  have hprefetchInstr : m.type ≠ .prefetchInstr := by
    intro heq
    simp [heq, typeIsPrefetch] at h
  simp [access, h, hprefetchInstr]

/-! ### The end of a record -/

/-- How a record ends, with the answer and the state. -/
inductive Ending (C : SimConfig) (σ : SimState) (m : Memref) : Bool × SimState → Prop
  | dropped {r : Bool × SimState} (hsched : σ.scheduleRef C m = .error r) : Ending C σ m r
  | uncovered {core : ℕ} {σ₁ : SimState} (hsched : σ.scheduleRef C m = .ok (core, σ₁))
      (htrans : C.translations m = none) : Ending C σ m (true, (σ₁.tlbLookup C m).2)
  | unhandled {core : ℕ} {σ₁ : SimState} {p : PageTableInfo × PageTableInfo}
      (hsched : σ.scheduleRef C m = .ok (core, σ₁)) (htrans : C.translations m = some p)
      (htype : isHandled m.type = false) :
      Ending C σ m (false, { σ₁.translated C core p m with
        errorString := TlbSim.unhandled m.type })
  | simulated {core : ℕ} {σ₁ σ' : SimState} {p : PageTableInfo × PageTableInfo}
      (hsched : σ.scheduleRef C m = .ok (core, σ₁)) (htrans : C.translations m = some p)
      (htype : isHandled m.type = true) (hsim : σ.simulate C m = .ok σ')
      (hsame : ((σ₁.translated C core p m).exited m).SameControl σ') :
      Ending C σ m (true, σ'.countRef C)

theorem processMemref_eq (σ : SimState) (m : Memref) :
    σ.processMemref C m = match σ.simulate C m with
      | .error r => r
      | .ok σ' => (true, σ'.countRef C) := by
  simp only [processMemref, process, simulate, bind, Except.bind, pure, Except.pure]
  cases σ.scheduleRef C m with
  | error r => rfl
  | ok a =>
    cases htrans : a.2.translate C a.1 m with
    | error r => simp only [htrans]
    | ok b =>
      simp only [htrans]
      cases b.2.access C a.1 b.1 <;> rfl

/-- A record that is dropped ends with the first stage. -/
theorem processMemref_of_error {m : Memref} {r : Bool × SimState}
    (hsched : σ.scheduleRef C m = .error r) : σ.processMemref C m = r := by
  simp [processMemref, process, hsched, bind, Except.bind]

/-- A record without a translation ends with the request to the TLB. -/
theorem processMemref_of_none {m : Memref} {core : ℕ} {σ₁ : SimState}
    (hsched : σ.scheduleRef C m = .ok (core, σ₁)) (htrans : C.translations m = none) :
    σ.processMemref C m = (true, (σ₁.tlbLookup C m).2) := by
  simp only [processMemref, process, hsched, bind, Except.bind, translate_eq, htrans]

/-- What the stages make of a record. -/
theorem simulate_cases (σ : SimState) (m : Memref) :
    (∃ r, σ.scheduleRef C m = .error r ∧ σ.simulate C m = .error r) ∨
      ∃ core σ₁, σ.scheduleRef C m = .ok (core, σ₁) ∧
        ((C.translations m = none ∧ σ.simulate C m = .error (true, (σ₁.tlbLookup C m).2)) ∨
          ∃ p, C.translations m = some p ∧
            ((isHandled m.type = false ∧ σ.simulate C m =
                .error (false, { σ₁.translated C core p m with
                  errorString := TlbSim.unhandled m.type })) ∨
              (isHandled m.type = true ∧ ∃ σ', σ.simulate C m = .ok σ' ∧
                ((σ₁.translated C core p m).exited m).SameControl σ'))) := by
  simp only [simulate, bind, Except.bind, pure, Except.pure]
  cases σ.scheduleRef C m with
  | error r => exact .inl ⟨r, rfl, rfl⟩
  | ok a =>
    obtain ⟨core, σ₁⟩ := a
    refine .inr ⟨core, σ₁, rfl, ?_⟩
    simp only [translate_eq]
    cases htrans : C.translations m with
    | none => exact .inl ⟨rfl, rfl⟩
    | some p =>
      refine .inr ⟨p, rfl, ?_⟩
      cases htype : isHandled m.type with
      | false =>
        left
        have haccess := access_of_not_isHandled (C := C) (σ₁.translated C core p m) core
          (m := newMemref p.2 m) (by rwa [newMemref_type])
        simp only [haccess, newMemref_type]
        exact ⟨trivial, trivial⟩
      | true =>
        right
        obtain ⟨r, haccess, hsame⟩ := access_of_isHandled (C := C) (σ₁.translated C core p m) core
          (m := newMemref p.2 m) (by rwa [newMemref_type])
        simp only [exited, newMemref_type, newMemref_tid] at hsame
        simp only [haccess]
        exact ⟨trivial, _, rfl, hsame.trans (contentionAll_sameControl r.2 core r.1)⟩

/-- **The four ways a record ends.** -/
theorem processMemref_ending (σ : SimState) (m : Memref) :
    Ending C σ m (σ.processMemref C m) := by
  rw [processMemref_eq]
  rcases σ.simulate_cases (C := C) m with ⟨r, hsched, hsim⟩ | ⟨core, σ₁, hsched,
    ⟨htrans, hsim⟩ | ⟨p, htrans, ⟨htype, hsim⟩ | ⟨htype, σ', hsim, hsame⟩⟩⟩
  · rw [hsim]
    exact .dropped hsched
  · rw [hsim]
    exact .uncovered hsched htrans
  · rw [hsim]
    exact .unhandled hsched htrans htype
  · rw [hsim]
    exact .simulated hsched htrans htype hsim hsame

/-! ### The first stage -/

theorem checkWarmedUp_snd (σ : SimState) : ∃ warmupRefs isWarmedUp,
    (σ.checkWarmedUp C).2 = { σ with warmupRefs, isWarmedUp } := by
  simp only [checkWarmedUp]
  split_ifs <;> exact ⟨_, _, rfl⟩

/-- A record gets a core. -/
theorem scheduleRef_eq_ok_iff {m : Memref} {core : ℕ} {σ₁ : SimState} :
    σ.scheduleRef C m = .ok (core, σ₁) ↔
      σ.skipRefs = 0 ∧ σ.noRefsLeft C = false ∧
        ¬((σ.checkWarmedUp C).1 = true ∧ σ.simRefs = 0) ∧ m.type ≠ .marker ∧
        core = (σ.sched.coreFor C.sched m.tid).1 ∧
        σ₁ = { (σ.checkWarmedUp C).2 with sched := (σ.sched.coreFor C.sched m.tid).2 } := by
  obtain ⟨warmupRefs, isWarmedUp, hcheck⟩ := σ.checkWarmedUp_snd (C := C)
  have hmarker (hm : m.type ≠ .marker) (s : Scheduler) : s.processMarker C.sched m = s :=
    if_neg (by simp [hm])
  simp only [scheduleRef, hcheck]
  split_ifs with hskip hleft hdone hm
  · exact ⟨fun h => (by cases h), fun h => absurd h.1 hskip⟩
  · exact ⟨fun h => (by cases h), fun h => absurd h.2.1 (by simp [hleft])⟩
  · exact ⟨fun h => (by cases h), fun h => absurd hdone h.2.2.1⟩
  · exact ⟨fun h => (by cases h), fun h => absurd hm h.2.2.2.1⟩
  · rw [hmarker hm, Except.ok.injEq, Prod.mk.injEq]
    constructor
    · rintro ⟨rfl, rfl⟩
      exact ⟨by simpa using hskip, by simpa using hleft, hdone, hm, rfl, rfl⟩
    · rintro ⟨-, -, -, -, rfl, rfl⟩
      exact ⟨rfl, rfl⟩

/-- No marker gets a core. -/
theorem type_ne_marker_of_isOk {m : Memref} (h : (σ.scheduleRef C m).isOk = true) :
    m.type ≠ .marker := by
  cases hsched : σ.scheduleRef C m with
  | error r => simp [hsched, Except.isOk, Except.toBool] at h
  | ok r => exact (scheduleRef_eq_ok_iff.mp hsched).2.2.2.1

/-- A record is dropped. -/
theorem scheduleRef_eq_error {m : Memref} {r : Bool × SimState}
    (h : σ.scheduleRef C m = .error r) :
    r.1 = true ∧
      ((σ.skipRefs ≠ 0 ∧ r.2 = { σ with skipRefs := σ.skipRefs - 1 }) ∨
        (σ.skipRefs = 0 ∧
          ((σ.noRefsLeft C = true ∧ r.2 = σ) ∨
            (σ.noRefsLeft C = false ∧
              (((σ.checkWarmedUp C).1 = true ∧ σ.simRefs = 0 ∧ r.2 = (σ.checkWarmedUp C).2) ∨
                (m.type = .marker ∧ r.2 = { (σ.checkWarmedUp C).2 with
                  sched := σ.sched.processMarker C.sched m })))))) := by
  obtain ⟨warmupRefs, isWarmedUp, hcheck⟩ := σ.checkWarmedUp_snd (C := C)
  simp only [scheduleRef, hcheck] at h ⊢
  split_ifs at h with hskip hleft hdone hm <;> cases h
  · exact ⟨rfl, .inl ⟨hskip, rfl⟩⟩
  · exact ⟨rfl, .inr ⟨by simpa using hskip, .inl ⟨hleft, rfl⟩⟩⟩
  · exact ⟨rfl, .inr ⟨by simpa using hskip, .inr ⟨by simpa using hleft,
      .inl ⟨hdone.1, hdone.2, rfl⟩⟩⟩⟩
  · exact ⟨rfl, .inr ⟨by simpa using hskip, .inr ⟨by simpa using hleft, .inr ⟨hm, rfl⟩⟩⟩⟩

/-- The first stage changes counters and the schedule only. -/
theorem scheduleRef_frame {m : Memref} :
    (∀ r, σ.scheduleRef C m = .error r → ∃ skipRefs warmupRefs isWarmedUp sched,
      r.2 = { σ with skipRefs, warmupRefs, isWarmedUp, sched }) ∧
    ∀ r, σ.scheduleRef C m = .ok r → ∃ skipRefs warmupRefs isWarmedUp sched,
      r.2 = { σ with skipRefs, warmupRefs, isWarmedUp, sched } := by
  obtain ⟨warmupRefs, isWarmedUp, hcheck⟩ := σ.checkWarmedUp_snd (C := C)
  simp only [scheduleRef, hcheck]
  split_ifs
  all_goals
    refine ⟨fun r hr => ?_, fun r hr => ?_⟩ <;> cases hr
    exact ⟨_, _, _, _, rfl⟩

/-- The end of a record changes the statistics, counters and the histogram only. -/
theorem countRef_frame (σ : SimState) : ∃ walk warmupRefs simRefs isWarmedUp hm,
    σ.countRef C = { σ with walk, warmupRefs, simRefs, isWarmedUp, hm } := by
  obtain ⟨warmupRefs, isWarmedUp, hcheck⟩ := σ.checkWarmedUp_snd (C := C)
  simp only [countRef, hcheck]
  split_ifs <;> exact ⟨_, _, _, _, _, rfl⟩

/-! ### The TLB simulator after a record -/

theorem scheduleRef_tlb {m : Memref} :
    (∀ r, σ.scheduleRef C m = .error r → r.2.tlb = σ.tlb) ∧
      ∀ r, σ.scheduleRef C m = .ok r → r.2.tlb = σ.tlb := by
  refine ⟨fun r hr => ?_, fun r hr => ?_⟩
  · obtain ⟨_, _, _, _, heq⟩ := scheduleRef_frame.1 r hr
    rw [heq]
  · obtain ⟨_, _, _, _, heq⟩ := scheduleRef_frame.2 r hr
    rw [heq]

theorem countRef_tlb (σ : SimState) : (σ.countRef C).tlb = σ.tlb := by
  obtain ⟨_, _, _, _, _, heq⟩ := σ.countRef_frame (C := C)
  rw [heq]

theorem translated_tlb (σ₁ : SimState) (core : ℕ) (p : PageTableInfo × PageTableInfo)
    (m : Memref) :
    (σ₁.translated C core p m).tlb = (σ₁.tlb.processMemref C.tlbs C.sched m).2 := by
  simp only [translated]
  split_ifs <;> rfl

/-- The TLB simulator gets the records that have a core, and only those. -/
theorem processMemref_tlb (σ : SimState) (m : Memref) :
    (σ.processMemref C m).2.tlb = if (σ.scheduleRef C m).isOk then
      (σ.tlb.processMemref C.tlbs C.sched m).2 else σ.tlb := by
  have hend := σ.processMemref_ending (C := C) m
  generalize σ.processMemref C m = r at hend
  cases hend with
  | dropped hsched => simp [hsched, Except.isOk, Except.toBool, scheduleRef_tlb.1 _ hsched]
  | uncovered hsched htrans =>
    have hkeep := scheduleRef_tlb.2 _ hsched
    simp only [hsched, Except.isOk, Except.toBool, if_true, tlbLookup, ← hkeep]
  | unhandled hsched htrans htype =>
    have hkeep := scheduleRef_tlb.2 _ hsched
    simp only [hsched, Except.isOk, Except.toBool, if_true, translated_tlb, ← hkeep]
  | simulated hsched htrans htype hsim hsame =>
    have hkeep := scheduleRef_tlb.2 _ hsched
    simp only [hsched, Except.isOk, Except.toBool, if_true, countRef_tlb, hsame.tlb, exited,
      translated_tlb, ← hkeep]

/-! ### The schedule after a record -/

theorem countRef_sched (σ : SimState) : (σ.countRef C).sched = σ.sched := by
  obtain ⟨_, _, _, _, _, heq⟩ := σ.countRef_frame (C := C)
  rw [heq]

theorem translated_sched (σ₁ : SimState) (core : ℕ) (p : PageTableInfo × PageTableInfo)
    (m : Memref) : (σ₁.translated C core p m).sched = σ₁.sched := by
  simp only [translated]
  split_ifs <;> rfl

/-- Of the records that are dropped only markers get to the schedule. -/
theorem processMemref_sched_of_error (σ : SimState) {m : Memref} {r : Bool × SimState}
    (hsched : σ.scheduleRef C m = .error r) :
    (σ.processMemref C m).2.sched = σ.sched ∨
      (σ.processMemref C m).2.sched = σ.sched.processMarker C.sched m := by
  obtain ⟨warmupRefs, isWarmedUp, hcheck⟩ := σ.checkWarmedUp_snd (C := C)
  rw [processMemref_of_error hsched]
  rcases (scheduleRef_eq_error hsched).2 with ⟨-, hr⟩ | ⟨-, ⟨-, hr⟩ | ⟨-, ⟨-, -, hr⟩ | ⟨-, hr⟩⟩⟩
  · exact .inl (by rw [hr])
  · exact .inl (by rw [hr])
  · exact .inl (by rw [hr, hcheck])
  · exact .inr (by rw [hr])

/-- A thread exit gets to the schedule only if page zero has both translations. -/
theorem processMemref_sched (σ : SimState) {m : Memref} {core : ℕ} {σ₁ : SimState}
    (hsched : σ.scheduleRef C m = .ok (core, σ₁)) :
    (σ.processMemref C m).2.sched =
      if m.type = .threadExit ∧ (C.translations m).isSome then σ₁.sched.handleThreadExit m.tid
      else σ₁.sched := by
  have hend := σ.processMemref_ending (C := C) m
  generalize σ.processMemref C m = r at hend
  cases hend with
  | dropped h => simp [hsched] at h
  | uncovered h htrans =>
    obtain ⟨rfl, rfl⟩ := Prod.mk.inj (Except.ok.inj (hsched.symm.trans h))
    simp [htrans, tlbLookup]
  | unhandled h htrans htype =>
    obtain ⟨rfl, rfl⟩ := Prod.mk.inj (Except.ok.inj (hsched.symm.trans h))
    have hne : m.type ≠ .threadExit := by
      intro hexit
      simp [hexit, isHandled] at htype
    simp [hne, translated_sched]
  | simulated h htrans htype hsim hsame =>
    obtain ⟨rfl, rfl⟩ := Prod.mk.inj (Except.ok.inj (hsched.symm.trans h))
    simp [countRef_sched, hsame.sched, exited, translated_sched, htrans]

/-! ### The histogram after a record -/

variable (C σ)

/-- The vector of the walk that a record makes, if it makes one. -/
def walkVector (m : Memref) : Option (List CacheResult) :=
  match σ.scheduleRef C m with
  | .error _ => none
  | .ok (core, σ₁) => (C.translations m).bind fun p =>
    if (σ₁.tlbLookup C m).1 then none
    else some (C.walker.tlbMiss core p.1 p.2 (virtualPage m) (pageOffset m) σ₁.walk).pageWalkRes

/-- The record is simulated to its end. -/
def isSimulated (m : Memref) : Bool := (σ.simulate C m).isOk

/-- The warm-up ends with this record: the statistics are reset and the histogram is
cleared. -/
def resets (m : Memref) : Bool :=
  match σ.simulate C m with
  | .error _ => false
  | .ok σ' => !σ'.isWarmedUp && (σ'.checkWarmedUp C).1

variable {C σ}

theorem scheduleRef_hm {m : Memref} :
    (∀ r, σ.scheduleRef C m = .error r → r.2.hm = σ.hm) ∧
      ∀ r, σ.scheduleRef C m = .ok r → r.2.hm = σ.hm := by
  refine ⟨fun r hr => ?_, fun r hr => ?_⟩
  · obtain ⟨_, _, _, _, heq⟩ := scheduleRef_frame.1 r hr
    rw [heq]
  · obtain ⟨_, _, _, _, heq⟩ := scheduleRef_frame.2 r hr
    rw [heq]

theorem translated_hm (σ₁ : SimState) (core : ℕ) (p : PageTableInfo × PageTableInfo) (m : Memref) :
    (σ₁.translated C core p m).hm = if (σ₁.tlbLookup C m).1 then σ₁.hm
      else σ₁.hm.bump
        (C.walker.tlbMiss core p.1 p.2 (virtualPage m) (pageOffset m) σ₁.walk).pageWalkRes := by
  simp only [translated]
  split_ifs <;> rfl

theorem countRef_hm (σ : SimState) :
    (σ.countRef C).hm = if !σ.isWarmedUp && (σ.checkWarmedUp C).1 then [] else σ.hm := by
  obtain ⟨warmupRefs, isWarmedUp, hcheck⟩ := σ.checkWarmedUp_snd (C := C)
  simp only [countRef, hcheck]
  split_ifs <;> simp_all

/-- A record counts its walk, and the end of the warm-up clears. -/
theorem processMemref_hm (σ : SimState) (m : Memref) :
    (σ.processMemref C m).2.hm =
      if σ.resets C m then [] else (σ.walkVector C m).elim σ.hm fun v => σ.hm.bump v := by
  rw [processMemref_eq]
  rcases σ.simulate_cases (C := C) m with ⟨r, hsched, hsim⟩ | ⟨core, σ₁, hsched, hrest⟩
  · have hkeep := scheduleRef_hm.1 r hsched
    simp [resets, walkVector, hsim, hsched, hkeep]
  · have hkeep : σ₁.hm = σ.hm := scheduleRef_hm.2 _ hsched
    rcases hrest with ⟨htrans, hsim⟩ | ⟨p, htrans, hrest⟩
    · simp only [resets, walkVector, hsim, hsched, htrans]
      exact hkeep
    · have hwalk := σ₁.translated_hm (C := C) core p m
      have hvector : (σ.walkVector C m).elim σ.hm (fun v => σ.hm.bump v) =
          (σ₁.translated C core p m).hm := by
        simp only [walkVector, hsched, htrans, Option.bind_some, hwalk, hkeep]
        split_ifs <;> rfl
      rw [hvector]
      rcases hrest with ⟨-, hsim⟩ | ⟨-, σ', hsim, hsame⟩
      · simp [resets, hsim]
      · simp only [resets, hsim, countRef_hm, hsame.hm]
        rfl

end SimState

/-! ### Runs -/

namespace SimConfig

variable (C : SimConfig)

/-- The records that a run comes to, each with the state that it meets. -/
def steps (trace : List Memref) : List (SimState × Memref) :=
  Steps.stepsFrom (fun σ m => σ.processMemref C m) C.initial trace

variable {C}

theorem runFrom_eq (σ : SimState) (trace : List Memref) :
    C.runFrom σ trace = Steps.runFrom (fun σ m => σ.processMemref C m) σ trace := by
  induction trace generalizing σ with
  | nil => rfl
  | cons m trace ih => simp only [runFrom, Steps.runFrom, ih]

theorem mem_of_mem_steps {trace : List Memref} {s : SimState × Memref} (hs : s ∈ C.steps trace) :
    s.2 ∈ trace := by
  obtain ⟨n, hn⟩ := List.mem_iff_getElem?.mp hs
  exact List.mem_of_getElem? (Steps.getElem?_stepsFrom hn).1

/-- A property that the records of a run keep holds in each state that one of them meets. -/
theorem mem_steps_induction {P : SimState → Prop} {trace : List Memref} (hinit : P C.initial)
    (hstep : ∀ s ∈ C.steps trace, P s.1 → P (s.1.processMemref C s.2).2) :
    ∀ s ∈ C.steps trace, P s.1 :=
  Steps.forall_mem_stepsFrom hinit hstep

/-- A property of schedules that markers, new threads and the ends of threads keep. -/
theorem sched_of_mem_steps {P : Scheduler → Prop} {trace : List Memref} (hinit : P {})
    (hmarker : ∀ s ∈ C.steps trace, P s.1.sched → P (s.1.sched.processMarker C.sched s.2))
    (hcore : ∀ (s : Scheduler) (tid : ℤ), P s → P (s.coreFor C.sched tid).2)
    (hexit : ∀ (s : Scheduler) (tid : ℤ), P s → P (s.handleThreadExit tid)) :
    ∀ s ∈ C.steps trace, P s.1.sched := by
  refine C.mem_steps_induction (P := fun σ => P σ.sched) hinit fun s hs hσ => ?_
  cases hsched : s.1.scheduleRef C s.2 with
  | error r =>
    rcases s.1.processMemref_sched_of_error hsched with heq | heq
    · rw [heq]
      exact hσ
    · rw [heq]
      exact hmarker s hs hσ
  | ok a =>
    obtain ⟨-, -, -, -, -, hσ₁⟩ := SimState.scheduleRef_eq_ok_iff.mp hsched
    rw [SimState.processMemref_sched s.1 hsched, hσ₁]
    split_ifs
    · exact hexit _ _ (hcore _ _ hσ)
    · exact hcore _ _ hσ

/-- A property that the records of a run keep holds at its end. -/
theorem run_steps_induction {P : SimState → Prop} {trace : List Memref} (hinit : P C.initial)
    (hstep : ∀ s ∈ C.steps trace, P s.1 → P (s.1.processMemref C s.2).2) : P (C.run trace) := by
  rw [run, runFrom_eq]
  exact Steps.runFrom_induction hinit hstep

theorem steps_take (trace : List Memref) (n : ℕ) :
    C.steps (trace.take n) = (C.steps trace).take n :=
  Steps.stepsFrom_take C.initial trace n

/-- The state that a record leaves. -/
theorem run_take_succ {trace : List Memref} {n : ℕ} {s : SimState × Memref}
    (h : (C.steps trace)[n]? = some s) :
    C.run (trace.take (n + 1)) = (s.1.processMemref C s.2).2 := by
  rw [run, runFrom_eq]
  exact Steps.runFrom_take_succ h

/-- A quantity that each record changes in a known way. -/
theorem apply_run {β : Type*} {f : SimState → β} {g : β → SimState × Memref → β}
    {trace : List Memref}
    (h : ∀ s ∈ C.steps trace, f (s.1.processMemref C s.2).2 = g (f s.1) s) :
    f (C.run trace) = (C.steps trace).foldl g (f C.initial) := by
  rw [run, runFrom_eq]
  exact Steps.apply_runFrom h

end SimConfig

end SagePTE.Simulator
