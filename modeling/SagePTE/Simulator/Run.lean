import SagePTE.Simulator.CacheSimulator
import SagePTE.Simulator.Effects

/-!
# Steps and runs of the cache simulator

A record reaches the page-walk caches, the log of walks and the histogram in one
way only: through the walk of a TLB miss. The other stages work on the data
caches, on counters and schedules, or clear the histogram at the end of the
warm-up. `SimState.processMemref_cases` says so once, and invariants of walks need
to look at the walk alone.

## Main definitions

* `SimState.Quiet` — a change that no walk makes

## Main results

* `SimState.processMemref_cases` — the effect of one record
* `SimConfig.run_induction` — invariants of runs
-/

set_option autoImplicit false

namespace SagePTE.Simulator

/-! ### Devices that hold data -/

/-- The caches that are no page-walk caches. -/
def DevId.IsData : DevId → Prop
  | .pw _ | .gpw _ => False
  | _ => True

theorem PwcSide.not_isData_dev (side : PwcSide) (i : Fin 3) : ¬ (side.dev i).IsData := by
  cases side <;> exact id

/-- Requests on data caches stay among them. -/
theorem CacheKnobs.closed_isData {k : CacheKnobs} {H : Hierarchy DevId}
    (hH : k.hierarchy = some H) : H.Closed DevId.IsData := by
  obtain ⟨G, policy, prefetcher, -, rfl⟩ := k.exists_of_hierarchy hH
  constructor
  · intro i p hi hp
    cases i with
    | llc => cases hp
    | l2 core | l1i core | l1d core => cases hp; exact trivial
    | pw | gpw => exact hi.elim
  · intro i c hi hc
    cases i <;> cases hc

/-! ### Quiet changes -/

/-- No walk was made: the log and the page-walk caches are as before, and the
histogram is too, or has been cleared. -/
structure SimState.Quiet (σ σ' : SimState) : Prop where
  log : σ'.walk.log = σ.walk.log
  store : Store.Agrees DevId.IsData σ.walk.store σ'.walk.store
  hm : σ'.hm = σ.hm ∨ σ'.hm = []

namespace SimState

theorem Quiet.refl (σ : SimState) : σ.Quiet σ := ⟨rfl, .refl _, .inl rfl⟩

theorem Quiet.trans {σ σ' σ'' : SimState} (h : σ.Quiet σ') (h' : σ'.Quiet σ'') :
    σ.Quiet σ'' := by
  refine ⟨h'.log.trans h.log, h.store.trans h'.store, ?_⟩
  rcases h'.hm with heq | hnil
  · rw [heq]
    exact h.hm
  · exact .inr hnil

/-- A change of the counters, schedules and texts alone. -/
theorem Quiet.of_eq {σ σ' : SimState} (hwalk : σ'.walk = σ.walk) (hhm : σ'.hm = σ.hm) :
    σ.Quiet σ' := by
  refine ⟨by rw [hwalk], ?_, .inl hhm⟩
  rw [hwalk]
  exact .refl _

variable {C : SimConfig} {k : CacheKnobs} (hH : k.hierarchy = some C.H)

theorem checkWarmedUp_quiet (σ : SimState) : σ.Quiet (σ.checkWarmedUp C).2 := by
  simp only [checkWarmedUp]
  split_ifs <;> exact .of_eq rfl rfl

theorem resetStats_quiet (σ : SimState) : σ.Quiet (σ.resetStats C) := by
  refine ⟨rfl, ?_, .inl rfl⟩
  intro dev hdev
  cases dev with
  -- page-walk caches are not among `all_caches`
  | pw | gpw => rfl
  | llc | l2 | l1i | l1d => exact (hdev trivial).elim

theorem countRef_quiet (σ : SimState) : σ.Quiet (σ.countRef C) := by
  simp only [countRef]
  split_ifs
  · exact .of_eq rfl rfl
  -- the warm-up ends here: the histogram is cleared
  · have hreset := (σ.checkWarmedUp_quiet (C := C)).trans
      (resetStats_quiet (C := C) (σ.checkWarmedUp C).2)
    exact ⟨hreset.log, hreset.store, .inr rfl⟩
  · exact (σ.checkWarmedUp_quiet (C := C)).trans (.of_eq rfl rfl)

section Stages

include hH

theorem cacheRequest_quiet (σ : SimState) (dev : DevId) (hdev : dev.IsData) (m : Memref) :
    σ.Quiet (σ.cacheRequest C dev m).2 :=
  ⟨rfl, Hierarchy.request_agrees (k.closed_isData hH) _ hdev m, .inl rfl⟩

theorem cacheFlush_quiet (σ : SimState) (dev : DevId) (hdev : dev.IsData) (m : Memref) :
    σ.Quiet (σ.cacheFlush C dev m) :=
  ⟨rfl, Hierarchy.flush_agrees (k.closed_isData hH) _ hdev m, .inl rfl⟩

theorem contend_quiet (σ : SimState) (dev : DevId) (hdev : dev.IsData) (type : TraceType) :
    σ.Quiet (σ.contend C dev type) := by
  have hdraw : σ.Quiet (σ.drawRand C).2 := .of_eq rfl rfl
  exact hdraw.trans (cacheRequest_quiet hH _ dev hdev _)

theorem contendLoop_quiet (dev : DevId) (hdev : dev.IsData) (type : TraceType)
    (value : BitVec 32) (n : ℕ) (i : BitVec 32) (σ : SimState) :
    σ.Quiet (contendLoop C dev type value n i σ).2 := by
  induction n generalizing i σ with
  | zero => exact .of_eq rfl rfl
  | succ n ih =>
    rw [contendLoop]
    split_ifs
    · exact (contend_quiet hH σ dev hdev type).trans (ih _ _)
    · exact .refl σ

theorem contendFraction_quiet (σ : SimState) (dev : DevId) (hdev : dev.IsData)
    (type : TraceType) (fractionPart : ℤ) :
    σ.Quiet (σ.contendFraction C dev type fractionPart) := by
  have hdraw : σ.Quiet (σ.drawRand C).2 := .of_eq rfl rfl
  simp only [contendFraction]
  split_ifs
  · exact hdraw.trans (contend_quiet hH _ dev hdev type)
  · exact hdraw
  · exact .refl σ

theorem contention_quiet (σ : SimState) (dev : DevId) (hdev : dev.IsData) (type : TraceType)
    (value : BitVec 32) : σ.Quiet (σ.contention C dev type value) := by
  simp only [contention]
  split_ifs
  · exact .refl σ
  · exact (contendLoop_quiet hH dev hdev type value _ _ σ).trans
      (contendFraction_quiet hH _ dev hdev type _)
  · exact contendFraction_quiet hH σ dev hdev type _

theorem contentionAll_quiet (σ : SimState) (core : ℕ) (searchRes : CacheResult) :
    σ.Quiet (σ.contentionAll C core searchRes) := by
  have hl1 := contention_quiet hH σ (.l1d core) trivial .contL1 C.contentionL1
  simp only [contentionAll]
  split_ifs
  · exact hl1.trans (contention_quiet hH _ .llc trivial _ _)
  · exact hl1

/-- Whichever way an access ends, it is quiet. -/
theorem access_quiet (σ : SimState) (core : ℕ) (m : Memref) :
    (∀ r, σ.access C core m = .error r → σ.Quiet r.2) ∧
      ∀ r, σ.access C core m = .ok r → σ.Quiet r.2 := by
  -- in the order of the branches; the last one returns an error
  have hreqI := cacheRequest_quiet hH σ (.l1i core) trivial m
  have hreqD := cacheRequest_quiet hH σ (.l1d core) trivial m
  have hflushI := cacheFlush_quiet hH σ (.l1i core) trivial m
  have hflushD := cacheFlush_quiet hH σ (.l1d core) trivial m
  simp only [access]
  split_ifs
  all_goals
    refine ⟨fun r hr => ?_, fun r hr => ?_⟩ <;> cases hr
  · exact hreqI
  · exact hreqD
  · exact hflushI
  · exact hflushD
  · exact .of_eq rfl rfl
  · exact .refl σ
  · exact .of_eq rfl rfl

end Stages

/-- Whichever way the first stage ends, it is quiet. -/
theorem scheduleRef_quiet (σ : SimState) (m : Memref) :
    (∀ r, σ.scheduleRef C m = .error r → σ.Quiet r.2) ∧
      ∀ r, σ.scheduleRef C m = .ok r → σ.Quiet r.2 := by
  have hwarm := σ.checkWarmedUp_quiet (C := C)
  simp only [scheduleRef]
  split_ifs
  all_goals
    refine ⟨fun r hr => ?_, fun r hr => ?_⟩ <;> cases hr
  · exact .of_eq rfl rfl
  · exact .refl σ
  · exact hwarm
  · exact hwarm.trans (.of_eq rfl rfl)
  · exact hwarm.trans (.of_eq rfl rfl)

theorem tlbLookup_quiet (σ : SimState) (m : Memref) : σ.Quiet (σ.tlbLookup C m).2 :=
  .of_eq rfl rfl

/-- `σ'` is reached from `σ` without a walk, or with one walk for the record `m`,
which the tables cover, and quiet changes around it. -/
def WalksAtMostOnce (C : SimConfig) (m : Memref) (σ σ' : SimState) : Prop :=
  σ.Quiet σ' ∨ ∃ core guestIt it σ₁, σ.Quiet σ₁ ∧
    C.pageTable (virtualPage m) = some guestIt ∧
    C.hostPageTable (guestIt.pa <<< 12) = some it ∧
    (σ₁.recordWalk C core guestIt it m).Quiet σ'

theorem WalksAtMostOnce.of_quiet {m : Memref} {σ σ' σ'' : SimState} (h : σ.Quiet σ')
    (h' : WalksAtMostOnce C m σ' σ'') : WalksAtMostOnce C m σ σ'' := by
  rcases h' with hquiet | ⟨core, guestIt, it, σ₁, h₁, hguest, hhost, hafter⟩
  · exact .inl (h.trans hquiet)
  · exact .inr ⟨core, guestIt, it, σ₁, h.trans h₁, hguest, hhost, hafter⟩

theorem WalksAtMostOnce.quiet {m : Memref} {σ σ' σ'' : SimState}
    (h : WalksAtMostOnce C m σ σ') (h' : σ'.Quiet σ'') : WalksAtMostOnce C m σ σ'' := by
  rcases h with hquiet | ⟨core, guestIt, it, σ₁, h₁, hguest, hhost, hafter⟩
  · exact .inl (hquiet.trans h')
  · exact .inr ⟨core, guestIt, it, σ₁, h₁, hguest, hhost, hafter.trans h'⟩

/-- A translation that fails is quiet; one that succeeds walks at most once. -/
theorem translate_cases (σ : SimState) (core : ℕ) (m : Memref) :
    (∀ r, σ.translate C core m = .error r → σ.Quiet r.2) ∧
      ∀ r, σ.translate C core m = .ok r → WalksAtMostOnce C m σ r.2 := by
  have htlb := σ.tlbLookup_quiet (C := C) m
  simp only [translate]
  cases hguest : C.pageTable (virtualPage m) with
  -- no guest record: only the TLB has been asked
  | none =>
    refine ⟨fun r hr => ?_, fun r hr => ?_⟩ <;> cases hr
    exact htlb
  | some guestIt =>
    cases hhost : C.hostPageTable (guestIt.pa <<< 12) with
    | none =>
      refine ⟨fun r hr => ?_, fun r hr => ?_⟩ <;> simp only [hhost] at hr <;> cases hr
      exact htlb
    | some it =>
      refine ⟨fun r hr => ?_, fun r hr => ?_⟩ <;> simp only [hhost] at hr <;> cases hr
      -- both records are there, and the TLB decides
      by_cases hhit : (σ.tlbLookup C m).1
      · simp only [if_pos hhit]
        exact .inl htlb
      · simp only [if_neg hhit]
        exact .inr ⟨core, guestIt, it, _, htlb, hguest, hhost, .refl _⟩

/-- A TLB miss with both translations walks. -/
theorem translate_of_miss (σ : SimState) (core : ℕ) {m : Memref}
    (hmiss : (σ.tlbLookup C m).1 = false) {guestIt it : PageTableInfo}
    (hguest : C.pageTable (virtualPage m) = some guestIt)
    (hhost : C.hostPageTable (guestIt.pa <<< 12) = some it) :
    σ.translate C core m =
      .ok (newMemref it m, (σ.tlbLookup C m).2.recordWalk C core guestIt it m) := by
  simp only [translate, hguest, hhost, hmiss, Bool.false_eq_true, if_false]

include hH

/-- **The effect of one record on walks.** -/
theorem processMemref_cases (σ : SimState) (m : Memref) :
    WalksAtMostOnce C m σ (σ.processMemref C m).2 := by
  simp only [processMemref, process]
  -- stage by stage; each may return early
  cases hsched : σ.scheduleRef C m with
  | error r => exact .inl ((σ.scheduleRef_quiet m).1 r hsched)
  | ok a =>
    have hquiet := (σ.scheduleRef_quiet m).2 a hsched
    obtain ⟨core, σ₁⟩ := a
    cases htrans : σ₁.translate C core m with
    | error r =>
      simp only [bind, Except.bind, htrans]
      exact .inl (hquiet.trans ((σ₁.translate_cases core m).1 r htrans))
    | ok b =>
      have hwalk := WalksAtMostOnce.of_quiet hquiet ((σ₁.translate_cases core m).2 b htrans)
      obtain ⟨m', σ₂⟩ := b
      cases haccess : σ₂.access C core m' with
      | error r =>
        simp only [bind, Except.bind, htrans, haccess]
        exact hwalk.quiet ((access_quiet hH σ₂ core m').1 r haccess)
      | ok c =>
        have hafter := (access_quiet hH σ₂ core m').2 c haccess
        obtain ⟨searchRes, σ₃⟩ := c
        simp only [bind, Except.bind, htrans, haccess, pure, Except.pure]
        -- contention and the final counters do not walk
        exact (hwalk.quiet hafter).quiet
          ((contentionAll_quiet hH σ₃ core searchRes).trans (countRef_quiet _))

end SimState

/-! ### Runs -/

/-- A property of the initial state that every record keeps holds after any trace. -/
theorem SimConfig.run_induction {C : SimConfig} {P : SimState → Prop} (hinit : P C.initial)
    (hstep : ∀ σ m, P σ → P (σ.processMemref C m).2) (trace : List Memref) : P (C.run trace) := by
  have hfrom (σ : SimState) (hσ : P σ) : P (C.runFrom σ trace) := by
    induction trace generalizing σ with
    | nil => exact hσ
    | cons m trace ih =>
      rw [runFrom]
      -- the run stops at a record that is not handled
      split_ifs
      · exact ih _ (hstep σ m hσ)
      · exact hstep σ m hσ
  exact hfrom C.initial hinit

end SagePTE.Simulator
