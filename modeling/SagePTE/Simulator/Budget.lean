import SagePTE.Simulator.Warmup

/-!
# The budget of simulated references

`sim_refs` is counted down by every record that is simulated, but for the one that ends the
warm-up. The records of the warm-up are simulated too and take from the budget, without a
test for zero: the counter wraps around when a warm-up is longer than the budget. After the
warm-up the budget is respected, but flushes, thread exits and instructions that are not
fetched take from it like references.

## Main definitions

* `SimState.inWarmup`, `SimState.inSimulation` — the phase of a record
* `SimConfig.isCovered` — a record that gets through the last stage
* `SimConfig.Budgeted` — the budget as the option describes it

## Main results

* `SimState.WarmState.isSimulated_iff` — which records are simulated after the warm-up
* `processMemref_simRefs` — what a record takes from the budget
* `budgeted_iff` — when a run keeps to the budget
-/

set_option autoImplicit false

namespace SagePTE.Simulator

/-! ### Phases -/

/-- A warm-up is asked for. -/
def SimConfig.hasWarmup (C : SimConfig) : Bool := decide (C.warmupRefs ≠ 0 ∨ C.warmupFraction ≠ 0)

/-- A record of a known type with both translations. -/
def SimConfig.isCovered (C : SimConfig) (m : Memref) : Bool :=
  isHandled m.type && (C.translations m).isSome

/-- An instruction or data reference with both translations. -/
def SimConfig.isCoveredRef (C : SimConfig) (m : Memref) : Bool :=
  SimState.isReference m && (C.translations m).isSome

theorem SimConfig.isCovered_of_isCoveredRef {C : SimConfig} {m : Memref}
    (h : C.isCoveredRef m = true) : C.isCovered m = true := by
  simp only [isCoveredRef, SimState.isReference, Bool.and_eq_true, Bool.or_eq_true] at h
  simp only [isCovered, isHandled, Bool.and_eq_true, Bool.or_eq_true]
  tauto

namespace SimState

variable (C : SimConfig) (σ : SimState)

/-- The record is one of the warm-up: the first call of `check_warmed_up` finds it not done. -/
def inWarmup : Bool := decide (σ.skipRefs = 0) && C.hasWarmup && !(σ.checkWarmedUp C).1

/-- The record comes after the warm-up. -/
def inSimulation : Bool := decide (σ.skipRefs = 0) && !(C.hasWarmup && !(σ.checkWarmedUp C).1)

variable {C σ}

/-- How the counters of the warm-up belong together. -/
structure WarmState (C : SimConfig) (σ : SimState) : Prop where
  none : C.hasWarmup = false → σ.isWarmedUp = false
  zero : C.warmupRefs = 0 → σ.warmupRefs = 0
  down : C.warmupRefs ≠ 0 → σ.warmupRefs = 0 → σ.isWarmedUp = true

namespace WarmState

theorem congr {σ' : SimState} (h : WarmState C σ) (hwarmup : σ'.warmupRefs = σ.warmupRefs)
    (his : σ'.isWarmedUp = σ.isWarmedUp) : WarmState C σ' where
  none := by simpa only [his] using h.none
  zero := by simpa only [hwarmup] using h.zero
  down := by simpa only [hwarmup, his] using h.down

theorem sameCounters {σ' : SimState} (h : WarmState C σ) (hsame : σ.SameCounters σ') :
    WarmState C σ' :=
  h.congr hsame.warmupRefs hsame.isWarmedUp

theorem check (h : WarmState C σ) : WarmState C (σ.checkWarmedUp C).2 := by
  simp only [checkWarmedUp]
  split_ifs with his hfrac hne hlast
  · exact h
  · refine ⟨fun hnone => ?_, h.zero, fun _ _ => rfl⟩
    simp [SimConfig.hasWarmup, hfrac.1.ne'] at hnone
  · refine ⟨fun hnone => ?_, fun _ => hlast, fun _ _ => rfl⟩
    simp only [SimConfig.hasWarmup, decide_eq_false_iff_not, not_or, not_not] at hnone
    exact absurd (h.zero hnone.1) hne
  · exact ⟨h.none, fun hzero => absurd (h.zero hzero) hne, fun _ hzero => absurd hzero hlast⟩
  · exact h

/-- Without a warm-up `check_warmed_up` always finds it not done. -/
theorem check_of_none (h : WarmState C σ) (hnone : C.hasWarmup = false) :
    σ.checkWarmedUp C = (false, σ) := by
  have his := h.none hnone
  simp only [SimConfig.hasWarmup, decide_eq_false_iff_not, not_or, not_not] at hnone
  simp [checkWarmedUp, his, hnone.2, h.zero hnone.1]

/-- In the warm-up there are references left. -/
theorem noRefsLeft_of_inWarmup (h : WarmState C σ) (hphase : σ.inWarmup C = true) :
    σ.noRefsLeft C = false := by
  simp only [inWarmup, Bool.and_eq_true, Bool.not_eq_true'] at hphase
  by_contra hleft
  simp only [noRefsLeft, Bool.not_eq_false, Bool.and_eq_true, decide_eq_true_eq] at hleft
  have hwarmup : C.warmupRefs ≠ 0 := by
    have := hphase.1.2
    simpa [SimConfig.hasWarmup, hleft.1.2] using this
  have hcheck : (σ.checkWarmedUp C).1 = true := by
    simp [checkWarmedUp, h.down hwarmup hleft.1.1]
  rw [hcheck] at hphase
  exact absurd hphase.2 (by simp)

end WarmState

/-! ### Records that are simulated -/

theorem checkWarmedUp_fst (σ : SimState) :
    (σ.checkWarmedUp C).1 = (σ.checkWarmedUp C).2.isWarmedUp := by
  simp only [checkWarmedUp]
  split_ifs <;> simp_all

theorem checkWarmedUp_simRefs (σ : SimState) : (σ.checkWarmedUp C).2.simRefs = σ.simRefs := by
  obtain ⟨warmupRefs, isWarmedUp, hcheck⟩ := σ.checkWarmedUp_snd (C := C)
  rw [hcheck]

theorem isSimulated_iff {m : Memref} :
    σ.isSimulated C m = true ↔ σ.skipRefs = 0 ∧ σ.noRefsLeft C = false ∧
      ¬((σ.checkWarmedUp C).1 = true ∧ σ.simRefs = 0) ∧ C.isCovered m = true := by
  simp only [isSimulated, SimConfig.isCovered, Bool.and_eq_true]
  rcases σ.simulate_cases (C := C) m with ⟨r, hsched, hsim⟩ | ⟨core, σ₁, hsched,
    ⟨htrans, hsim⟩ | ⟨p, htrans, ⟨htype, hsim⟩ | ⟨htype, σ', hsim, -⟩⟩⟩
  · -- a record that is dropped fails one of the tests, or is a marker
    simp only [hsim, Except.isOk, Except.toBool, Bool.false_eq_true, false_iff]
    rintro ⟨hskip, hleft, hdone, htype, -⟩
    have hmarker : m.type ≠ .marker := by
      intro hm
      simp [hm, isHandled, typeIsInstr, typeIsPrefetch] at htype
    have hok := scheduleRef_eq_ok_iff.mpr ⟨hskip, hleft, hdone, hmarker, rfl, rfl⟩
    rw [hsched] at hok
    cases hok
  · simp [hsim, htrans, Except.isOk, Except.toBool]
  · simp [hsim, htype, Except.isOk, Except.toBool]
  · obtain ⟨hskip, hleft, hdone, -⟩ := scheduleRef_eq_ok_iff.mp hsched
    simp only [hsim, Except.isOk, Except.toBool, true_iff]
    exact ⟨hskip, hleft, hdone, htype, by simp [htrans]⟩

/-- In the warm-up every covered record is simulated. -/
theorem WarmState.isSimulated_iff_of_inWarmup (h : WarmState C σ) (hphase : σ.inWarmup C = true)
    (m : Memref) : σ.isSimulated C m = true ↔ C.isCovered m = true := by
  have hleft := h.noRefsLeft_of_inWarmup hphase
  simp only [inWarmup, Bool.and_eq_true, Bool.not_eq_true', decide_eq_true_eq] at hphase
  simp [isSimulated_iff, hphase.1.1, hleft, hphase.2]

/-- After the warm-up a covered record is simulated as long as there is a budget. -/
theorem WarmState.isSimulated_iff (h : WarmState C σ) (hphase : σ.inSimulation C = true)
    (m : Memref) : σ.isSimulated C m = true ↔ C.isCovered m = true ∧ σ.simRefs ≠ 0 := by
  simp only [inSimulation, Bool.and_eq_true, decide_eq_true_eq] at hphase
  obtain ⟨hskip, hphase⟩ := hphase
  rw [SimState.isSimulated_iff]
  cases hwarmup : C.hasWarmup with
  | false =>
    have hcheck := h.check_of_none hwarmup
    have hknobs := hwarmup
    simp only [SimConfig.hasWarmup, decide_eq_false_iff_not, not_or, not_not] at hknobs
    simp [hskip, hcheck, noRefsLeft, h.zero hknobs.1, hknobs.2, and_comm]
  | true =>
    have hdone : (σ.checkWarmedUp C).1 = true := by simpa [hwarmup] using hphase
    have hleft (hsim : σ.simRefs ≠ 0) : σ.noRefsLeft C = false := by
      rw [noRefsLeft, decide_eq_false hsim, Bool.and_false]
    simp only [hskip, hdone, true_and]
    constructor
    · rintro ⟨-, hsim, hcov⟩
      exact ⟨hcov, hsim⟩
    · rintro ⟨hcov, hsim⟩
      exact ⟨hleft hsim, hsim, hcov⟩

/-- Only a record of the warm-up ends it with a reset. -/
theorem WarmState.resets_of_inSimulation (h : WarmState C σ) (hphase : σ.inSimulation C = true)
    (m : Memref) : σ.resets C m = false := by
  simp only [inSimulation, Bool.and_eq_true, decide_eq_true_eq] at hphase
  simp only [resets]
  rcases σ.simulate_counters (C := C) m with ⟨r, hsim, -⟩ | ⟨σ', hsim, -, -, hsame⟩
  · simp [hsim]
  · rw [hsim]
    cases hwarmup : C.hasWarmup with
    | false => simp [(h.check.sameCounters hsame).check_of_none hwarmup]
    | true =>
      have hdone : (σ.checkWarmedUp C).1 = true := by simpa [hwarmup] using hphase.2
      rw [checkWarmedUp_fst, ← hsame.isWarmedUp] at hdone
      simp [hdone]

/-! ### The budget after a record -/

theorem countRef_simRefs (σ : SimState) : (σ.countRef C).simRefs =
    if !σ.isWarmedUp && (σ.checkWarmedUp C).1 then σ.simRefs else σ.simRefs - 1 := by
  have hkeep := σ.checkWarmedUp_simRefs (C := C)
  simp only [countRef]
  split_ifs <;> simp_all [resetStats]

/-- A record that is simulated takes one from the budget, if it does not reset. -/
theorem processMemref_simRefs (σ : SimState) (m : Memref) :
    (σ.processMemref C m).2.simRefs =
      if σ.isSimulated C m && !σ.resets C m then σ.simRefs - 1 else σ.simRefs := by
  have hcheck := σ.checkWarmedUp_simRefs (C := C)
  rw [processMemref_eq]
  rcases σ.simulate_counters (C := C) m with ⟨r, hsim, hcases⟩ | ⟨σ', hsim, -, -, hsame⟩
  · simp only [isSimulated, hsim, Except.isOk, Except.toBool, Bool.false_and, Bool.false_eq_true,
      if_false]
    rcases hcases with ⟨-, hsame⟩ | ⟨-, -, hsame⟩ | ⟨-, -, hsame⟩
    · exact hsame.simRefs
    · exact hsame.simRefs
    · exact hsame.simRefs.trans hcheck
  · simp only [isSimulated, resets, hsim, Except.isOk, Except.toBool, Bool.true_and,
      countRef_simRefs, hsame.simRefs.trans hcheck]
    cases !σ'.isWarmedUp && (σ'.checkWarmedUp C).1 <;> rfl

theorem WarmState.countRef (h : WarmState C σ) : WarmState C (σ.countRef C) := by
  simp only [SimState.countRef]
  split_ifs
  · exact h.congr rfl rfl
  · exact h.check.congr rfl rfl
  · exact h.check.congr rfl rfl

theorem WarmState.processMemref (h : WarmState C σ) (m : Memref) :
    WarmState C (σ.processMemref C m).2 := by
  rw [processMemref_eq]
  rcases σ.simulate_counters (C := C) m with ⟨r, hsim, hcases⟩ | ⟨σ', hsim, -, -, hsame⟩
  · rw [hsim]
    rcases hcases with ⟨-, hsame⟩ | ⟨-, -, hsame⟩ | ⟨-, -, hsame⟩
    · exact h.congr hsame.warmupRefs hsame.isWarmedUp
    · exact h.sameCounters hsame
    · exact h.check.sameCounters hsame
  · rw [hsim]
    exact (h.check.sameCounters hsame).countRef

/-- A record that is not behind the warm-up is skipped or in it. -/
theorem skipRefs_or_inWarmup (h : σ.inSimulation C = false) :
    σ.skipRefs ≠ 0 ∨ σ.inWarmup C = true := by
  by_cases hskip : σ.skipRefs = 0
  · right
    simpa [inSimulation, inWarmup, hskip] using h
  · exact .inl hskip

/-- If the warm-up leaves the budget alone, a record takes one from it exactly if it is
covered and comes after the warm-up, until there is none. -/
theorem WarmState.toNat_simRefs (h : WarmState C σ) {m : Memref}
    (hwarm : σ.inWarmup C = true → σ.isSimulated C m = true → σ.resets C m = true) :
    (σ.processMemref C m).2.simRefs.toNat =
      σ.simRefs.toNat - (σ.inSimulation C && C.isCovered m).toNat := by
  rw [processMemref_simRefs]
  cases hphase : σ.inSimulation C with
  | true =>
    have hsim := h.isSimulated_iff hphase m
    simp only [h.resets_of_inSimulation hphase m, Bool.not_false, Bool.and_true, Bool.true_and,
      hsim]
    split_ifs with htakes
    · rw [toNat_sub_one htakes.2, htakes.1, Bool.toNat_true]
    · -- either the record is not covered or there is no budget
      by_cases hcov : C.isCovered m = true
      · have hzero : σ.simRefs = 0 := by simpa [hcov] using htakes
        simp [hzero]
      · simp [hcov]
  | false =>
    have hkeep : (σ.isSimulated C m && !σ.resets C m) = false := by
      by_contra htakes
      simp only [Bool.not_eq_false, Bool.and_eq_true, Bool.not_eq_true'] at htakes
      rcases skipRefs_or_inWarmup hphase with hskip | hin
      · exact hskip (SimState.isSimulated_iff.mp htakes.1).1
      · simp [hwarm hin htakes.1] at htakes
    simp [hkeep]

end SimState

open SimState

/-! ### The budget of a run -/

variable {C : SimConfig} {trace : List Memref}

theorem warmState_of_mem_steps : ∀ s ∈ C.steps trace, WarmState C s.1 := by
  refine C.mem_steps_induction ⟨fun _ => rfl, fun hzero => hzero, fun hne hzero => ?_⟩
    fun s _ hσ => hσ.processMemref s.2
  exact absurd hzero hne

/-- A reference with both translations that comes after the warm-up. -/
def SimConfig.isRemaining (C : SimConfig) (s : SimState × Memref) : Bool :=
  s.1.inSimulation C && C.isCoveredRef s.2

/-- A record that takes from the budget as long as there is one. -/
def SimConfig.takesBudget (C : SimConfig) (s : SimState × Memref) : Bool :=
  s.1.inSimulation C && C.isCovered s.2

theorem takesBudget_of_isRemaining {s : SimState × Memref} (h : C.isRemaining s = true) :
    C.takesBudget s = true := by
  simp only [SimConfig.isRemaining, SimConfig.takesBudget, Bool.and_eq_true] at h ⊢
  exact ⟨h.1, SimConfig.isCovered_of_isCoveredRef h.2⟩

/-- The budget as the option describes it. -/
structure SimConfig.Budgeted (C : SimConfig) (trace : List Memref) : Prop where
  /-- The first references after the warm-up are simulated, and the later ones are not. -/
  simulated : ∀ n s, (C.steps trace)[n]? = some s → C.isRemaining s = true →
    (s.1.isSimulated C s.2 = true ↔
      ((C.steps trace).take n).countP C.isRemaining < C.simRefs.toNat)
  /-- As many references are simulated as the option says, or all. -/
  count : ((C.steps trace).countP fun s => C.isRemaining s && s.1.isSimulated C s.2) =
    min C.simRefs.toNat ((C.steps trace).countP C.isRemaining)
  /-- The warm-up does not take from the budget. -/
  warmup : ∀ s ∈ C.steps trace, s.1.inWarmup C = true →
    (s.1.processMemref C s.2).2.simRefs = s.1.simRefs
  /-- The counter does not wrap around. -/
  noWrap : ∀ s ∈ C.steps trace, (s.1.processMemref C s.2).2.simRefs ≤ s.1.simRefs

section Run

variable (hwarm : ∀ s ∈ C.steps trace, s.1.inWarmup C = true → s.1.isSimulated C s.2 = true →
  s.1.resets C s.2 = true)

include hwarm

/-- What is left of the budget before a record. -/
theorem toNat_simRefs_of_getElem? :
    ∀ (n : ℕ) (s : SimState × Memref), (C.steps trace)[n]? = some s →
      s.1.simRefs.toNat =
        C.simRefs.toNat - ((C.steps trace).take n).countP C.takesBudget := by
  refine Steps.getElem?_stepsFrom_induction (P := fun n (σ : SimState) => σ.simRefs.toNat =
    C.simRefs.toNat - ((C.steps trace).take n).countP C.takesBudget) rfl fun n s hs hσ => ?_
  have hmem : s ∈ C.steps trace := List.mem_of_getElem? hs
  have htake : ((C.steps trace).take (n + 1)).countP C.takesBudget =
      ((C.steps trace).take n).countP C.takesBudget + (C.takesBudget s).toNat := by
    rw [List.take_add_one, show (C.steps trace)[n]? = some s from hs, Option.toList_some,
      List.countP_append]
    cases ht : C.takesBudget s <;> simp [ht]
  rw [htake, (warmState_of_mem_steps s hmem).toNat_simRefs (hwarm s hmem), hσ]
  exact Nat.sub_sub _ _ _

/-- A reference after the warm-up is simulated if fewer records than the budget have been. -/
theorem isSimulated_iff_of_isRemaining {n : ℕ} {s : SimState × Memref}
    (hs : (C.steps trace)[n]? = some s) (hrem : C.isRemaining s = true) :
    s.1.isSimulated C s.2 = true ↔
      ((C.steps trace).take n).countP C.takesBudget < C.simRefs.toNat := by
  have hleft := toNat_simRefs_of_getElem? hwarm n s hs
  have htakes := takesBudget_of_isRemaining hrem
  simp only [SimConfig.takesBudget, Bool.and_eq_true] at htakes
  have hne : s.1.simRefs ≠ 0 ↔ s.1.simRefs.toNat ≠ 0 := by
    rw [ne_eq, ne_eq, not_iff_not, ← BitVec.toNat_inj]
    rfl
  rw [(warmState_of_mem_steps s (List.mem_of_getElem? hs)).isSimulated_iff htakes.1, hne, hleft]
  simp only [htakes.2, true_and]
  omega

end Run

/-- **The budget.** A run keeps to the budget exactly if the warm-up has no covered record
but one that ends it, and every reference that finds the budget used up comes after as many
references: flushes, thread exits and the like have not taken from it. -/
theorem budgeted_iff (C : SimConfig) (trace : List Memref) :
    C.Budgeted trace ↔
      (∀ s ∈ C.steps trace, s.1.inWarmup C = true → C.isCovered s.2 = true →
        s.1.resets C s.2 = true) ∧
      ∀ n s, (C.steps trace)[n]? = some s → C.isRemaining s = true →
        C.simRefs.toNat ≤ ((C.steps trace).take n).countP C.takesBudget →
          C.simRefs.toNat ≤ ((C.steps trace).take n).countP C.isRemaining := by
  constructor
  · intro h
    have hwarm : ∀ s ∈ C.steps trace, s.1.inWarmup C = true → s.1.isSimulated C s.2 = true →
        s.1.resets C s.2 = true := by
      intro s hs hin hsim
      by_contra hno
      have hkeep := h.warmup s hs hin
      rw [processMemref_simRefs, hsim, Bool.eq_false_of_not_eq_true hno] at hkeep
      simp only [Bool.not_false, Bool.and_true, if_true] at hkeep
      bv_omega
    refine ⟨fun s hs hin hcov => hwarm s hs hin
      (((warmState_of_mem_steps s hs).isSimulated_iff_of_inWarmup hin s.2).mpr hcov),
      fun n s hs hrem hused => ?_⟩
    by_contra hfew
    have hsim := (h.simulated n s hs hrem).mpr (by omega)
    have := (isSimulated_iff_of_isRemaining hwarm hs hrem).mp hsim
    omega
  · rintro ⟨hends, hrefs⟩
    have hwarm : ∀ s ∈ C.steps trace, s.1.inWarmup C = true → s.1.isSimulated C s.2 = true →
        s.1.resets C s.2 = true := fun s hs hin hsim => hends s hs hin
      (((warmState_of_mem_steps s hs).isSimulated_iff_of_inWarmup hin s.2).mp hsim)
    have hfirst : ∀ n s, (C.steps trace)[n]? = some s → C.isRemaining s = true →
        (s.1.isSimulated C s.2 = true ↔
          ((C.steps trace).take n).countP C.isRemaining < C.simRefs.toNat) := by
      intro n s hs hrem
      have hle : ((C.steps trace).take n).countP C.isRemaining ≤
          ((C.steps trace).take n).countP C.takesBudget :=
        List.countP_mono_left fun _ _ => takesBudget_of_isRemaining
      have hused := hrefs n s hs hrem
      rw [isSimulated_iff_of_isRemaining hwarm hs hrem]
      omega
    refine ⟨hfirst, ?_, fun s hs hin => ?_, fun s hs => ?_⟩
    · refine Steps.countP_eq_min (fun s _ hsim => ?_) fun n s hs hrem => ?_
      · exact (Bool.and_eq_true_iff.mp hsim).1
      · rw [hrem, Bool.true_and]
        exact hfirst n s hs hrem
    · rw [processMemref_simRefs, if_neg]
      intro htakes
      simp only [Bool.and_eq_true, Bool.not_eq_true'] at htakes
      simp [hwarm s hs hin htakes.1] at htakes
    · rw [BitVec.le_def, (warmState_of_mem_steps s hs).toNat_simRefs (hwarm s hs)]
      exact Nat.sub_le _ _

/-- A budget of one and a warm-up of two reads: the counter wraps around in the warm-up, and
both reads behind it are simulated. -/
theorem long_warmup_wraps :
    let C := { sampleConfig [0x7000] with warmupRefs := 5, simRefs := 1 }
    let trace := [readAt 0x7010, readAt 0x7018, readAt 0x7020, readAt 0x7028]
    (C.steps trace).map (fun s => s.1.inWarmup C) = [true, true, false, false] ∧
      (C.steps trace).map (fun s => s.1.isSimulated C s.2) = [true, true, true, true] ∧
      (C.steps trace).map (fun s => s.1.simRefs.toNat) = [1, 0, 2 ^ 64 - 1, 2 ^ 64 - 2] := by
  decide +kernel

end SagePTE.Simulator
