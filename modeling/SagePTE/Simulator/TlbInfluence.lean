import SagePTE.Simulator.TlbWarmup

/-!
# The influence of the TLB simulator

The cache simulator asks the TLB simulator for an answer to each record that it has given a
core, and makes no other use of it. So two states that differ in their TLB simulators go the
same way as long as these answer alike. The answer itself matters only for a record that has a
translation.

## Main definitions

* `SimState.NoWarmup` — nothing is left to skip and there is no warm-up

## Main results

* `TlbSim.processMemref_withSimRefs` — a record with another budget
* `SimState.processMemref_withTlb` — a record with another TLB simulator
* `SimState.NoWarmup.processMemref` — without a warm-up there will be none
-/

set_option autoImplicit false

namespace SagePTE.Simulator

variable {C : SimConfig}

/-! ### The budget of the TLB simulator -/

namespace TlbSim

variable {H : Hierarchy TlbId} {k : SchedulerKnobs} {t : TlbSim}

theorem access_withSimRefs (t : TlbSim) (simRefs : BitVec 64) (core : ℕ) (m : Memref) :
    ({ t with simRefs } : TlbSim).access H core m =
      (t.access H core m).map fun r => (r.1, { r.2 with simRefs }) := by
  simp only [access]
  split_ifs <;> rfl

/-- Without a warm-up, and as long as the budget is not used up, it has no influence. A record
takes at most one off it. -/
theorem processMemref_withSimRefs (hwarm : t.warmupRefs = 0) (hsim : t.simRefs ≠ 0)
    {simRefs : BitVec 64} (hne : simRefs ≠ 0) (m : Memref) :
    ∃ simRefs', simRefs.toNat ≤ simRefs'.toNat + 1 ∧
      ({ t with simRefs } : TlbSim).processMemref H k m =
        ((t.processMemref H k m).1, { (t.processMemref H k m).2 with simRefs := simRefs' }) := by
  have hleft : ¬(t.warmupRefs = 0 ∧ t.simRefs = 0) := fun h => hsim h.2
  have hleft' : ¬(t.warmupRefs = 0 ∧ simRefs = 0) := fun h => hne h.2
  have hcount (t : TlbSim) (h : t.warmupRefs = 0) :
      t.countRef k = { t with simRefs := t.simRefs - 1 } := if_neg (not_not.mpr h)
  simp only [processMemref, if_neg hleft, if_neg hleft']
  by_cases hskip : t.skipRefs = 0
  · rw [if_neg (not_not.mpr hskip), if_neg (not_not.mpr hskip)]
    by_cases hmarker : m.type = .marker
    · rw [if_pos hmarker, if_pos hmarker]
      exact ⟨simRefs, Nat.le_succ _, rfl⟩
    · rw [if_neg hmarker, if_neg hmarker]
      generalize t.sched.processMarker k m = s
      have haccess := access_withSimRefs (H := H) { t with sched := (s.coreFor k m.tid).2 }
        simRefs (s.coreFor k m.tid).1 m
      cases hr : access H { t with sched := (s.coreFor k m.tid).2 } (s.coreFor k m.tid).1 m with
      | none =>
        simp only [hr, Option.map_none] at haccess
        rw [haccess]
        exact ⟨simRefs, Nat.le_succ _, rfl⟩
      | some r =>
        simp only [hr, Option.map_some] at haccess
        have hzero : r.2.warmupRefs = 0 := (access_warmupRefs hr).trans hwarm
        rw [haccess]
        have hpred := SimState.toNat_sub_one hne
        refine ⟨simRefs - 1, by omega, ?_⟩
        simp only [hcount _ hzero, hcount { r.2 with simRefs } hzero]
  · rw [if_pos hskip, if_pos hskip]
    exact ⟨simRefs, Nat.le_succ _, rfl⟩

/-- A record takes at most one off the budget. -/
theorem simRefs_le_processMemref (hwarm : t.warmupRefs = 0) (hsim : t.simRefs ≠ 0) (m : Memref) :
    t.simRefs.toNat ≤ (t.processMemref H k m).2.simRefs.toNat + 1 := by
  obtain ⟨simRefs, hle, heq⟩ := processMemref_withSimRefs (H := H) (k := k) hwarm hsim hsim m
  rw [heq]
  exact hle

end TlbSim

/-! ### Another TLB simulator -/

namespace SimState

theorem checkWarmedUp_withTlb (σ : SimState) (t : TlbSim) :
    ({ σ with tlb := t } : SimState).checkWarmedUp C =
      ((σ.checkWarmedUp C).1, { (σ.checkWarmedUp C).2 with tlb := t }) := by
  simp only [checkWarmedUp]
  split_ifs <;> rfl

/-- The TLB simulator has no influence on the first stage. -/
theorem scheduleRef_withTlb (σ : SimState) (t : TlbSim) (m : Memref) :
    ({ σ with tlb := t } : SimState).scheduleRef C m =
      match σ.scheduleRef C m with
      | .error r => .error (r.1, { r.2 with tlb := t })
      | .ok r => .ok (r.1, { r.2 with tlb := t }) := by
  have hleft : ({ σ with tlb := t } : SimState).noRefsLeft C = σ.noRefsLeft C := rfl
  simp only [scheduleRef, checkWarmedUp_withTlb, hleft]
  split_ifs <;> rfl

theorem contendLoop_withTlb (t : TlbSim) (dev : DevId) (type : TraceType) (value : BitVec 32)
    (n : ℕ) (i : BitVec 32) (σ : SimState) :
    contendLoop C dev type value n i { σ with tlb := t } =
      ((contendLoop C dev type value n i σ).1,
        { (contendLoop C dev type value n i σ).2 with tlb := t }) := by
  induction n generalizing i σ with
  | zero => rfl
  | succ n ih =>
    simp only [contendLoop]
    split_ifs
    · exact ih (i + 100) (σ.contend C dev type)
    · rfl

theorem contendFraction_withTlb (σ : SimState) (t : TlbSim) (dev : DevId) (type : TraceType)
    (part : ℤ) :
    ({ σ with tlb := t } : SimState).contendFraction C dev type part =
      { σ.contendFraction C dev type part with tlb := t } := by
  have hroll (σ : SimState) : σ.contendFraction C dev type part =
      if 0 < part then
        if ((C.rand σ.randPos % 100 : ℕ) : ℤ) ≤ part then
          ({ σ with randPos := σ.randPos + 1 } : SimState).contend C dev type
        else { σ with randPos := σ.randPos + 1 }
      else σ := rfl
  rw [hroll, hroll]
  split_ifs <;> rfl

theorem contention_withTlb (σ : SimState) (t : TlbSim) (dev : DevId) (type : TraceType)
    (value : BitVec 32) :
    ({ σ with tlb := t } : SimState).contention C dev type value =
      { σ.contention C dev type value with tlb := t } := by
  simp only [contention, contendLoop_withTlb, contendFraction_withTlb]
  split_ifs <;> rfl

theorem contentionAll_withTlb (σ : SimState) (t : TlbSim) (core : ℕ) (searchRes : CacheResult) :
    ({ σ with tlb := t } : SimState).contentionAll C core searchRes =
      { σ.contentionAll C core searchRes with tlb := t } := by
  simp only [contentionAll, contention_withTlb]
  split_ifs <;> rfl

theorem countRef_withTlb (σ : SimState) (t : TlbSim) :
    ({ σ with tlb := t } : SimState).countRef C = { σ.countRef C with tlb := t } := by
  simp only [countRef, checkWarmedUp_withTlb, resetStats]
  split_ifs <;> rfl

theorem access_withTlb (σ : SimState) (t : TlbSim) (core : ℕ) (m : Memref) :
    ({ σ with tlb := t } : SimState).access C core m =
      match σ.access C core m with
      | .error r => .error (r.1, { r.2 with tlb := t })
      | .ok r => .ok (r.1, { r.2 with tlb := t }) := by
  simp only [access]
  split_ifs <;> rfl

/-- The stages after the TLB request have no use for the TLB simulator. -/
theorem translate_withTlb (σ : SimState) (t : TlbSim) (core : ℕ) {m : Memref}
    (hhit : (C.translations m).isSome = true →
      (t.processMemref C.tlbs C.sched m).1.2 = (σ.tlb.processMemref C.tlbs C.sched m).1.2) :
    ({ σ with tlb := t } : SimState).translate C core m =
      match σ.translate C core m with
      | .error r => .error (r.1, { r.2 with tlb := (t.processMemref C.tlbs C.sched m).2 })
      | .ok r => .ok (r.1, { r.2 with tlb := (t.processMemref C.tlbs C.sched m).2 }) := by
  rw [translate_eq, translate_eq]
  cases htrans : C.translations m with
  | none => rfl
  | some p =>
    have hhit := hhit (by rw [htrans]; rfl)
    have hwalk : ({ σ with tlb := t } : SimState).translated C core p m =
        { σ.translated C core p m with tlb := (t.processMemref C.tlbs C.sched m).2 } := by
      cases hh : (σ.tlb.processMemref C.tlbs C.sched m).1.2 with
      | true =>
        rw [translated, if_pos (by simp [tlbLookup, hhit, hh]), translated,
          if_pos (by simp [tlbLookup, hh])]
        rfl
      | false =>
        rw [translated, if_neg (by simp [tlbLookup, hhit, hh]), translated,
          if_neg (by simp [tlbLookup, hh])]
        rfl
    simp only [hwalk]

/-- If the TLB simulators answer alike, it makes no other difference which one is there. Without
a translation the answer is not used. -/
theorem processMemref_withTlb (σ : SimState) (t : TlbSim) {m : Memref}
    (hhit : (C.translations m).isSome = true →
      (t.processMemref C.tlbs C.sched m).1.2 = (σ.tlb.processMemref C.tlbs C.sched m).1.2) :
    ({ σ with tlb := t } : SimState).processMemref C m =
      ((σ.processMemref C m).1, { (σ.processMemref C m).2 with
        tlb := if (σ.scheduleRef C m).isOk then (t.processMemref C.tlbs C.sched m).2 else t }) := by
  simp only [processMemref, process, scheduleRef_withTlb, bind, Except.bind, pure, Except.pure]
  cases hsched : σ.scheduleRef C m with
  | error r => simp [Except.isOk, Except.toBool]
  | ok a =>
    have htlb := scheduleRef_tlb.2 _ hsched
    rw [← htlb] at hhit
    simp only [translate_withTlb a.2 t a.1 hhit, Except.isOk, Except.toBool, if_true]
    cases htrans : a.2.translate C a.1 m with
    | error r => simp
    | ok b =>
      simp only [access_withTlb]
      cases haccess : b.2.access C a.1 b.1 with
      | error r => simp
      | ok c => simp [contentionAll_withTlb, countRef_withTlb]

/-! ### Runs without a warm-up -/

/-- Nothing is skipped and there is no warm-up. -/
structure NoWarmup (σ : SimState) : Prop where
  skipRefs : σ.skipRefs = 0
  warmupRefs : σ.warmupRefs = 0
  isWarmedUp : σ.isWarmedUp = false
  tlb_skipRefs : σ.tlb.skipRefs = 0
  tlb_warmupRefs : σ.tlb.warmupRefs = 0

namespace NoWarmup

variable {σ : SimState}

theorem check (hfrac : C.warmupFraction = 0) (hwarm : σ.warmupRefs = 0)
    (his : σ.isWarmedUp = false) : σ.checkWarmedUp C = (false, σ) := by
  simp [checkWarmedUp, his, hwarm, hfrac]

/-- Without a warm-up nothing is reset. -/
theorem resets_eq_false (hfrac : C.warmupFraction = 0) (hwarm : σ.warmupRefs = 0)
    (his : σ.isWarmedUp = false) (m : Memref) : σ.resets C m = false := by
  rw [resets]
  rcases σ.simulate_counters (C := C) m with ⟨r, hsim, -⟩ | ⟨σ', hsim, -, -, hsame⟩
  · rw [hsim]
  · rw [check hfrac hwarm his] at hsame
    simp only [hsim, check hfrac (hsame.warmupRefs.trans hwarm) (hsame.isWarmedUp.trans his),
      Bool.and_false]

theorem processMemref (hfrac : C.warmupFraction = 0) (h : σ.NoWarmup) (m : Memref) :
    (σ.processMemref C m).2.NoWarmup := by
  have htlb := σ.processMemref_tlb (C := C) m
  have hwarm := σ.processMemref_tlb_warmupRefs (C := C) m
  rw [if_neg (by simp [h.tlb_warmupRefs]), h.tlb_warmupRefs] at hwarm
  have hskip : (σ.processMemref C m).2.tlb.skipRefs = 0 := by
    rw [htlb]
    split_ifs
    · exact TlbSim.processMemref_skipRefs h.tlb_skipRefs m
    · exact h.tlb_skipRefs
  -- the counters of the cache simulator
  have hcheck := check hfrac h.warmupRefs h.isWarmedUp
  rw [processMemref_eq] at hwarm hskip ⊢
  rcases σ.simulate_counters (C := C) m with
    ⟨r, hsim, ⟨hne, -⟩ | ⟨-, -, hsame⟩ | ⟨-, -, hsame⟩⟩ | ⟨σ', hsim, -, -, hsame⟩
  · exact absurd h.skipRefs hne
  · rw [hsim] at hwarm hskip ⊢
    exact ⟨hsame.skipRefs.trans h.skipRefs, hsame.warmupRefs.trans h.warmupRefs,
      hsame.isWarmedUp.trans h.isWarmedUp, hskip, hwarm⟩
  · rw [hsim] at hwarm hskip ⊢
    rw [hcheck] at hsame
    exact ⟨hsame.skipRefs.trans h.skipRefs, hsame.warmupRefs.trans h.warmupRefs,
      hsame.isWarmedUp.trans h.isWarmedUp, hskip, hwarm⟩
  · rw [hcheck] at hsame
    have hw := hsame.warmupRefs.trans h.warmupRefs
    have his := hsame.isWarmedUp.trans h.isWarmedUp
    have hcount : σ'.countRef C = { σ' with simRefs := σ'.simRefs - 1 } := by
      simp [SimState.countRef, his, check hfrac hw his]
    simp only [hsim, hcount] at hwarm hskip ⊢
    exact ⟨hsame.skipRefs.trans h.skipRefs, hw, his, hskip, hwarm⟩

end NoWarmup

end SimState

end SagePTE.Simulator
