import SagePTE.Simulator.TlbInfluence
import SagePTE.Simulator.TlbPages

/-!
# Skipped references

`skip_refs` is one knob of both simulators, and each counts its own copy down. The cache
simulator drops the first records before the TLB simulator sees them. So the TLB simulator
begins its own skip only with the records behind these: it answers as many of them again
with a hit, without a lookup. A run that skips is not a run over the rest of the trace, but
one in which the TLBs are out of use for as many records again. The two agree exactly if the
TLBs are not needed for these records.

## Main definitions

* `SimConfig.skipping` — a configuration with another number of records to skip
* `SimConfig.afterSkip` — the state with which the rest of the trace begins
* `SimConfig.askedTlb` — the TLB that is asked for a record
* `SimConfig.seenFrom` — the records that the TLB simulator gets to see
* `SimConfig.SkipsIdle` — the TLBs are not needed for the skipped records
* `SimState.SameContents` — caches, TLBs and histogram agree, with the statistics

## Main results

* `run_skipping` — a run that skips, as a run over the rest of the trace
* `TlbSim.processMemref_working` — the answer to a record, and the TLBs after it
* `SimState.sameContents_step_iff` — one record in both runs
* `skip_sameContents_iff` — when skipping is the same as removing the records
-/

set_option autoImplicit false

namespace SagePTE.Simulator

/-- The configuration with another number of records to skip. -/
def SimConfig.skipping (C : SimConfig) (k : BitVec 64) : SimConfig := { C with skipRefs := k }

/-- The state with which the rest of the trace begins: the TLB simulator has not skipped
anything yet. -/
def SimConfig.afterSkip (C : SimConfig) (k : BitVec 64) : SimState :=
  { (C.skipping 0).initial with tlb := { (C.skipping 0).initial.tlb with skipRefs := k } }

/-! ### The knob is read at the start only -/

namespace SimState

variable {C : SimConfig}

theorem contendLoop_skipping (k : BitVec 64) (dev : DevId) (type : TraceType) (value : BitVec 32)
    (n : ℕ) (i : BitVec 32) (σ : SimState) :
    contendLoop (C.skipping k) dev type value n i σ = contendLoop C dev type value n i σ := by
  induction n generalizing i σ with
  | zero => rfl
  | succ n ih =>
    simp only [contendLoop, ih]
    rfl

theorem contention_skipping (k : BitVec 64) (σ : SimState) (dev : DevId) (type : TraceType)
    (value : BitVec 32) :
    σ.contention (C.skipping k) dev type value = σ.contention C dev type value := by
  simp only [contention, contendLoop_skipping]
  rfl

theorem contentionAll_skipping (k : BitVec 64) (σ : SimState) (core : ℕ)
    (searchRes : CacheResult) :
    σ.contentionAll (C.skipping k) core searchRes = σ.contentionAll C core searchRes := by
  simp only [contentionAll, contention_skipping]
  rfl

theorem processMemref_skipping (k : BitVec 64) (σ : SimState) (m : Memref) :
    σ.processMemref (C.skipping k) m = σ.processMemref C m := by
  have hsched : σ.scheduleRef (C.skipping k) m = σ.scheduleRef C m := rfl
  have htranslate (σ : SimState) (core : ℕ) :
      σ.translate (C.skipping k) core m = σ.translate C core m := rfl
  have haccess (σ : SimState) (core : ℕ) (m : Memref) :
      σ.access (C.skipping k) core m = σ.access C core m := rfl
  have hcount (σ : SimState) : σ.countRef (C.skipping k) = σ.countRef C := rfl
  simp only [processMemref, process, hsched, htranslate, haccess, contentionAll_skipping, hcount]

end SimState

open SimState

variable {C : SimConfig}

theorem runFrom_skipping (k : BitVec 64) (σ : SimState) (trace : List Memref) :
    (C.skipping k).runFrom σ trace = C.runFrom σ trace := by
  induction trace generalizing σ with
  | nil => rfl
  | cons m trace ih => simp only [SimConfig.runFrom, processMemref_skipping, ih]

theorem processMemref_of_skipRefs {σ : SimState} (hskip : σ.skipRefs ≠ 0) (m : Memref) :
    σ.processMemref C m = (true, { σ with skipRefs := σ.skipRefs - 1 }) :=
  processMemref_of_error (if_pos hskip)

/-- The records that are skipped change nothing but the counter. -/
theorem runFrom_of_skipRefs (σ : SimState) (trace : List Memref) :
    ∃ skipRefs, C.runFrom σ trace =
      { C.runFrom { σ with skipRefs := 0 } (trace.drop σ.skipRefs.toNat) with skipRefs } := by
  induction trace generalizing σ with
  | nil => exact ⟨σ.skipRefs, by simp [SimConfig.runFrom]⟩
  | cons m trace ih =>
    by_cases hskip : σ.skipRefs = 0
    · have hsame : { σ with skipRefs := 0 } = σ := by rw [← hskip]
      rw [hsame, hskip]
      exact ⟨_, rfl⟩
    · obtain ⟨skipRefs, hrest⟩ := ih { σ with skipRefs := σ.skipRefs - 1 }
      have hdrop : (m :: trace).drop σ.skipRefs.toNat =
          trace.drop (σ.skipRefs - 1).toNat := by
        rw [toNat_sub_one hskip, ← Nat.succ_pred_eq_of_pos (toNat_pos hskip)]
        rfl
      refine ⟨skipRefs, ?_⟩
      rw [hdrop, SimConfig.runFrom, processMemref_of_skipRefs hskip]
      exact hrest

/-- **A run that skips** is a run over the rest of the trace in which the TLB simulator has
its own records to skip. -/
theorem run_skipping (k : BitVec 64) (trace : List Memref) :
    ∃ skipRefs, (C.skipping k).run trace =
      { C.runFrom (C.afterSkip k) (trace.drop k.toNat) with skipRefs } := by
  rw [SimConfig.run, runFrom_skipping]
  exact runFrom_of_skipRefs _ trace

/-! ### The TLBs that are asked -/

/-- The schedule of the TLB simulator after a record. -/
def Scheduler.handle (k : SchedulerKnobs) (s : Scheduler) (m : Memref) : Scheduler :=
  if m.type = .threadExit then (s.coreFor k m.tid).2.handleThreadExit m.tid
  else (s.coreFor k m.tid).2

namespace SimConfig

variable (C : SimConfig)

/-- The first-level TLB that is asked for a record. There is none for a record that is no fetch,
read or write, or whose end has wrapped around. -/
def askedTlb (s : Scheduler) (m : Memref) : Option TlbId :=
  let i := l1Tlb (s.coreFor C.sched m.tid).1 m.type
  if isAccess m.type = true ∧ C.tlbs.firstTag i m ≤ C.tlbs.finalTag i m then some i else none

/-- The TLBs that are asked for some records, one after the other. -/
def askedTlbs : Scheduler → List Memref → List (Option TlbId)
  | _, [] => []
  | s, m :: seen => C.askedTlb s m :: askedTlbs (s.handle C.sched m) seen

/-- The records that the TLB simulator gets to see. -/
def seenFrom (σ : SimState) (trace : List Memref) : List Memref :=
  ((Steps.stepsFrom (fun σ m => σ.processMemref C m) σ trace).filter
    fun s => (s.1.scheduleRef C s.2).isOk).map Prod.snd

variable {C} in
theorem seenFrom_cons (σ : SimState) (m : Memref) (trace : List Memref) :
    C.seenFrom σ (m :: trace) =
      (if (σ.scheduleRef C m).isOk then [m] else []) ++
        C.seenFrom (σ.processMemref C m).2 (if (σ.processMemref C m).1 then trace else []) := by
  simp only [seenFrom, Steps.stepsFrom, List.filter_cons]
  split_ifs <;> rfl

/-- The TLB simulators of two runs, of which the first skips `k` of the records, from schedules
of their own on: for none of these a TLB is asked or a walk made, and behind them the same TLBs
are asked in both runs. -/
@[mk_iff]
structure SkipsIdle (s s' : Scheduler) (k : ℕ) (seen : List Memref) : Prop where
  walks : ∀ m ∈ seen.take k, C.translations m = none ∨ isHandled m.type = false
  asked : C.askedTlbs s' seen =
    List.replicate (min k seen.length) none ++ C.askedTlbs s (seen.drop k)

theorem skipsIdle_nil (s s' : Scheduler) (k : ℕ) : C.SkipsIdle s s' k [] :=
  ⟨by simp, by simp [askedTlbs]⟩

end SimConfig

namespace TlbSim

variable {k : SchedulerKnobs} {t : TlbSim} {m : Memref}

theorem isHandled_of_isAccess {type : TraceType} (h : isAccess type = true) :
    isHandled type = true := by
  simp only [isAccess, isHandled, Bool.or_eq_true] at h ⊢
  tauto

theorem tlbRequest_of_wraps {H : Hierarchy TlbId} {i : TlbId} {m : Memref}
    (h : H.finalTag i m < H.firstTag i m) (s : Store TlbId) : tlbRequest H s i m = (false, s) := by
  rw [tlbRequest, tlbRequestFuel_succ, if_neg fun hsame => h.ne' hsame.1, if_pos h]

theorem access_store_of_not_isAccess {H : Hierarchy TlbId} {core : ℕ} {r : Bool × TlbSim}
    (h : isAccess m.type = false) (hr : t.access H core m = some r) : r.2.store = t.store := by
  simp only [isAccess, Bool.or_eq_false_iff, beq_eq_false_iff_ne] at h
  simp only [access, h, Bool.false_eq_true, if_false, or_self] at hr
  split_ifs at hr <;> cases hr <;> rfl

/-- The answer to a record, and the TLBs after it, if nothing is skipped, there is no warm-up and
references are left. -/
theorem processMemref_working (C : SimConfig) (hskip : t.skipRefs = 0) (hwarm : t.warmupRefs = 0)
    (hsim : t.simRefs ≠ 0) (hmarker : m.type ≠ .marker) :
    (t.processMemref C.tlbs C.sched m).1.2 =
        (C.askedTlb t.sched m).elim (!isHandled m.type)
          (fun i => (tlbRequest C.tlbs t.store i m).1) ∧
      (t.processMemref C.tlbs C.sched m).2.store =
        (C.askedTlb t.sched m).elim t.store (fun i => (tlbRequest C.tlbs t.store i m).2) := by
  have hleft : ¬(t.warmupRefs = 0 ∧ t.simRefs = 0) := fun h => hsim h.2
  -- statistics are reset at the end of a warm-up only
  have hcount (t : TlbSim) (h : t.warmupRefs = 0) : (t.countRef C.sched).store = t.store := by
    rw [countRef, if_neg (not_not.mpr h)]
  simp only [processMemref, if_neg (not_not.mpr hskip), if_neg hleft,
    Scheduler.processMarker_of_ne hmarker, if_neg hmarker, SimConfig.askedTlb]
  cases hacc : isAccess m.type with
  | true =>
    simp only [access_of_isAccess _ hacc, true_and]
    split_ifs with hle
    · exact ⟨rfl, hcount _ hwarm⟩
    · rw [tlbRequest_of_wraps (not_le.mp hle), isHandled_of_isAccess hacc]
      exact ⟨rfl, hcount _ hwarm⟩
  | false =>
    have hreport := access_of_not_isAccess (H := C.tlbs) (t := { t with
      sched := (t.sched.coreFor C.sched m.tid).2 }) (t.sched.coreFor C.sched m.tid).1 hacc hmarker
    simp only [Bool.false_eq_true, false_and, if_false, Option.elim_none]
    cases hhandled : isHandled m.type with
    | true =>
      rw [hhandled, if_pos rfl] at hreport
      obtain ⟨r, hr, hfalse⟩ := Option.map_eq_some_iff.mp hreport
      have hzero : r.2.warmupRefs = 0 := (access_warmupRefs hr).trans hwarm
      simp only [hr, hfalse, hcount _ hzero, access_store_of_not_isAccess hacc hr, Bool.not_true,
        and_self]
    | false =>
      rw [hhandled, if_neg (by simp), Option.map_eq_none_iff] at hreport
      simp only [hreport, Bool.not_false, and_self]

theorem processMemref_sched_handle (C : SimConfig) (hskip : t.skipRefs = 0) (hsim : t.simRefs ≠ 0)
    (hmarker : m.type ≠ .marker) :
    (t.processMemref C.tlbs C.sched m).2.sched = t.sched.handle C.sched m := by
  have hleft : t.isExhausted = false := by
    rw [isExhausted, decide_eq_false hsim, Bool.and_false]
  rw [processMemref_sched hskip hmarker, hleft]
  rfl

theorem processMemref_of_skipRefs {H : Hierarchy TlbId} (hskip : t.skipRefs ≠ 0) (m : Memref) :
    t.processMemref H k m = ((true, true), { t with skipRefs := t.skipRefs - 1 }) :=
  if_pos hskip

/-- The TLBs after a request to one of the first level, or to none. -/
def requestAt (C : SimConfig) (store : Store TlbId) (m : Memref) (asked : Option TlbId) :
    Store TlbId :=
  asked.elim store fun i => (tlbRequest C.tlbs store i m).2

section Asked

variable {C : SimConfig} {knobs : TlbKnobs} (hH : knobs.hierarchy = some C.tlbs)
include hH

theorem rank_of_askedTlb {s : Scheduler} {i : TlbId} (h : C.askedTlb s m = some i) :
    C.tlbs.rank i = 1 ∧ C.tlbs.firstTag i m ≤ C.tlbs.finalTag i m := by
  obtain ⟨G, -, htlbs⟩ := knobs.exists_of_hierarchy hH
  simp only [SimConfig.askedTlb] at h
  split_ifs at h with hle
  obtain rfl := Option.some.inj h
  refine ⟨?_, hle.2⟩
  rw [htlbs, l1Tlb]
  split_ifs <;> rfl

/-- A request is counted by the TLB that is asked. -/
theorem requestAt_ne {s : Scheduler} {i : TlbId} (h : C.askedTlb s m = some i)
    (store : Store TlbId) {asked : Option TlbId}
    (hasked : asked = none ∨ ∃ s', C.askedTlb s' m = asked) (hne : asked ≠ some i) :
    requestAt C store m (some i) ≠ requestAt C store m asked := by
  obtain ⟨hrank, hle⟩ := rank_of_askedTlb hH h
  have hcount := tlbRequestFuel_accesses (H := C.tlbs) (i := i) (C.tlbs.rank i) store m
  rw [if_neg (not_lt.mpr hle)] at hcount
  -- a first-level TLB asks those of higher rank only, so that another one leaves it alone
  have hkeep : requestAt C store m asked i = store i := by
    cases asked with
    | none => rfl
    | some j =>
      obtain ⟨s', hs'⟩ := hasked.resolve_left (by simp)
      have hrank' := (rank_of_askedTlb hH hs').1
      exact tlbRequestFuel_of_rank_le _ _ _ (by omega) fun heq => hne (by rw [heq])
  intro heq
  have hi := congrArg DeviceStats.accesses (congrArg DeviceState.stats (congrFun heq i))
  rw [hkeep] at hi
  exact absurd (hcount.symm.trans hi) (by omega)

end Asked

/-- Two TLB simulators with the same TLBs and no warm-up, of which the second skips nothing. Both
have enough of their budget left for a number of records. -/
structure Alongside (n : ℕ) (t t' : TlbSim) : Prop where
  store : t.store = t'.store
  warmup : t.warmupRefs = 0
  warmup' : t'.warmupRefs = 0
  skip' : t'.skipRefs = 0
  budget : n ≤ t.simRefs.toNat
  budget' : n ≤ t'.simRefs.toNat

/-- For a record that the first one skips, the second one neither asks a TLB nor reports a miss
that leads to a walk. Otherwise both ask the same TLB. -/
def SameLookup (C : SimConfig) (t t' : TlbSim) (m : Memref) : Prop :=
  if t.skipRefs = 0 then C.askedTlb t.sched m = C.askedTlb t'.sched m
  else C.askedTlb t'.sched m = none ∧ (C.translations m = none ∨ isHandled m.type = false)

namespace Alongside

variable {C : SimConfig} {n : ℕ} {t' : TlbSim}

theorem simRefs_ne (h : Alongside (n + 1) t t') : t.simRefs ≠ 0 ∧ t'.simRefs ≠ 0 := by
  have hbudget := h.budget
  have hbudget' := h.budget'
  constructor
  · intro hzero
    simp [hzero] at hbudget
  · intro hzero
    simp [hzero] at hbudget'

/-- The TLBs after a record for which the same is asked, and the answers as far as they are
used. -/
theorem of_sameLookup (h : Alongside (n + 1) t t') (hmarker : m.type ≠ .marker)
    (hsame : SameLookup C t t' m) :
    (t.processMemref C.tlbs C.sched m).2.store = (t'.processMemref C.tlbs C.sched m).2.store ∧
      ((C.translations m).isSome = true →
        (t.processMemref C.tlbs C.sched m).1.2 = (t'.processMemref C.tlbs C.sched m).1.2) := by
  obtain ⟨hhit', hstore'⟩ := processMemref_working C h.skip' h.warmup' h.simRefs_ne.2 hmarker
  rw [SameLookup] at hsame
  split_ifs at hsame with hskip
  · obtain ⟨hhit, hstore⟩ := processMemref_working C hskip h.warmup h.simRefs_ne.1 hmarker
    rw [hhit, hhit', hstore, hstore', hsame, h.store]
    exact ⟨rfl, fun _ => rfl⟩
  · obtain ⟨hnone, hanswer⟩ := hsame
    rw [hnone] at hhit' hstore'
    rw [processMemref_of_skipRefs hskip, hhit', hstore']
    refine ⟨h.store, fun htrans => ?_⟩
    rcases hanswer with htrans' | hhandled
    · simp [htrans'] at htrans
    · simp [hhandled]

/-- A record keeps the relation, if the TLBs stay the same. -/
theorem processMemref (h : Alongside (n + 1) t t') (hmarker : m.type ≠ .marker)
    (hstore : (t.processMemref C.tlbs C.sched m).2.store =
      (t'.processMemref C.tlbs C.sched m).2.store) :
    Alongside n (t.processMemref C.tlbs C.sched m).2 (t'.processMemref C.tlbs C.sched m).2 where
  store := hstore
  warmup := by
    rw [processMemref_warmupRefs t hmarker, if_neg fun hne => hne.2 h.warmup, h.warmup]
  warmup' := by
    rw [processMemref_warmupRefs t' hmarker, if_neg fun hne => hne.2 h.warmup', h.warmup']
  skip' := processMemref_skipRefs h.skip' m
  budget := by
    have := simRefs_le_processMemref (H := C.tlbs) (k := C.sched) h.warmup h.simRefs_ne.1 m
    have := h.budget
    omega
  budget' := by
    have := simRefs_le_processMemref (H := C.tlbs) (k := C.sched) h.warmup' h.simRefs_ne.2 m
    have := h.budget'
    omega

/-- If the TLBs stay the same, the same TLB has been asked. -/
theorem askedTlb_of_store {knobs : TlbKnobs} (hH : knobs.hierarchy = some C.tlbs)
    (h : Alongside (n + 1) t t') (hmarker : m.type ≠ .marker)
    (hstore : (t.processMemref C.tlbs C.sched m).2.store =
      (t'.processMemref C.tlbs C.sched m).2.store) :
    (if t.skipRefs = 0 then C.askedTlb t.sched m else none) = C.askedTlb t'.sched m := by
  have hasked : (t.processMemref C.tlbs C.sched m).2.store =
      requestAt C t'.store m (if t.skipRefs = 0 then C.askedTlb t.sched m else none) := by
    split_ifs with hskip
    · rw [(processMemref_working C hskip h.warmup h.simRefs_ne.1 hmarker).2, h.store, requestAt]
    · rw [processMemref_of_skipRefs hskip]
      exact h.store
  rw [hasked, (processMemref_working C h.skip' h.warmup' h.simRefs_ne.2 hmarker).2] at hstore
  change requestAt C t'.store m _ = requestAt C t'.store m (C.askedTlb t'.sched m) at hstore
  have hfirst : (if t.skipRefs = 0 then C.askedTlb t.sched m else none) = none ∨
      ∃ s, C.askedTlb s m = if t.skipRefs = 0 then C.askedTlb t.sched m else none := by
    split_ifs
    · exact .inr ⟨t.sched, rfl⟩
    · exact .inl rfl
  -- one of the two asks a TLB that the other one does not ask, and its count tells them apart
  generalize (if t.skipRefs = 0 then C.askedTlb t.sched m else none) = asked at hstore hfirst
  by_contra hne
  cases hasked' : C.askedTlb t'.sched m with
  | some i =>
    rw [hasked'] at hne hstore
    exact requestAt_ne hH hasked' _ hfirst hne hstore.symm
  | none =>
    rw [hasked'] at hne hstore
    obtain ⟨i, rfl⟩ := Option.ne_none_iff_exists'.mp hne
    obtain ⟨s, hs⟩ := hfirst.resolve_left hne
    exact requestAt_ne hH hs _ (.inl rfl) (Ne.symm hne) hstore

end Alongside

end TlbSim

/-- The condition, record by record. -/
theorem SimConfig.skipsIdle_cons_iff {t t' : TlbSim} {m : Memref} {seen : List Memref} {n : ℕ}
    (h : TlbSim.Alongside (n + 1) t t') (hmarker : m.type ≠ .marker) :
    C.SkipsIdle t.sched t'.sched t.skipRefs.toNat (m :: seen) ↔
      TlbSim.SameLookup C t t' m ∧
        C.SkipsIdle (t.processMemref C.tlbs C.sched m).2.sched
          (t'.processMemref C.tlbs C.sched m).2.sched
          (t.processMemref C.tlbs C.sched m).2.skipRefs.toNat seen := by
  rw [TlbSim.processMemref_sched_handle C h.skip' h.simRefs_ne.2 hmarker, TlbSim.SameLookup]
  by_cases hskip : t.skipRefs = 0
  · have hzero := TlbSim.processMemref_skipRefs (H := C.tlbs) (k := C.sched) hskip m
    have hnat : BitVec.toNat (0 : BitVec 64) = 0 := rfl
    rw [TlbSim.processMemref_sched_handle C hskip h.simRefs_ne.1 hmarker, hzero, hskip, if_pos rfl]
    simp only [skipsIdle_iff, askedTlbs, hnat, List.take_zero, List.not_mem_nil,
      Nat.zero_min, List.replicate_zero, List.nil_append, List.drop_zero, List.cons.injEq,
      false_imp_iff, implies_true, true_and]
    exact and_congr_left fun _ => eq_comm
  · have hpred := SimState.toNat_sub_one hskip
    obtain ⟨j, hj⟩ := Nat.exists_eq_succ_of_ne_zero (SimState.toNat_pos hskip).ne'
    rw [TlbSim.processMemref_of_skipRefs hskip, if_neg hskip, hpred, hj]
    simp only [skipsIdle_iff, askedTlbs, List.take_succ_cons, List.forall_mem_cons,
      List.length_cons, Nat.succ_eq_add_one, Nat.add_min_add_right, List.replicate_succ,
      List.cons_append, List.drop_succ_cons, List.cons.injEq, Nat.add_sub_cancel]
    tauto

namespace SimState

variable {σ : SimState} {t : TlbSim} {m : Memref} {n : ℕ}

/-- The caches, the TLBs and the histogram agree. The statistics are part of the devices. -/
structure SameContents (σ σ' : SimState) : Prop where
  caches : σ'.walk.store = σ.walk.store
  tlbs : σ'.tlb.store = σ.tlb.store
  hm : σ'.hm = σ.hm

/-- Without a warm-up the histogram counts the walks. -/
theorem NoWarmup.total_processMemref (hfrac : C.warmupFraction = 0) (hwarm : σ.warmupRefs = 0)
    (his : σ.isWarmedUp = false) (m : Memref) :
    (σ.processMemref C m).2.hm.total = σ.hm.total + (σ.walkVector C m).isSome.toNat := by
  rw [processMemref_hm, if_neg (by simp [resets_eq_false hfrac hwarm his])]
  cases σ.walkVector C m with
  | none => simp
  | some v => simp [Histogram.total_bump]

/-- A record that gets to the TLB simulators keeps the contents the same exactly if the same TLB
is asked. -/
theorem sameContents_step_iff {knobs : TlbKnobs} (hH : knobs.hierarchy = some C.tlbs)
    (hfrac : C.warmupFraction = 0) (hσ : σ.NoWarmup) (h : TlbSim.Alongside (n + 1) t σ.tlb)
    (hok : (σ.scheduleRef C m).isOk = true) :
    (({ σ with tlb := t } : SimState).processMemref C m).2.SameContents (σ.processMemref C m).2 ↔
      TlbSim.SameLookup C t σ.tlb m := by
  have hmarker := type_ne_marker_of_isOk hok
  have hok' : (({ σ with tlb := t } : SimState).scheduleRef C m).isOk = true := by
    rw [scheduleRef_withTlb]
    cases hsched : σ.scheduleRef C m with
    | error r => simp [hsched, Except.isOk, Except.toBool] at hok
    | ok a => rfl
  constructor
  · intro hsame
    have hstore := hsame.tlbs
    rw [processMemref_tlb, processMemref_tlb, if_pos hok, if_pos hok'] at hstore
    have hasked := h.askedTlb_of_store hH hmarker hstore.symm
    -- the totals tell whether a walk was made, whatever the walks are
    have htotal := congrArg Histogram.total hsame.hm
    rw [NoWarmup.total_processMemref hfrac hσ.warmupRefs hσ.isWarmedUp,
      NoWarmup.total_processMemref (σ := { σ with tlb := t }) hfrac hσ.warmupRefs hσ.isWarmedUp,
      isSome_walkVector, isSome_walkVector, hok, hok'] at htotal
    rw [TlbSim.SameLookup]
    split_ifs at hasked ⊢ with hskip
    · exact hasked
    · obtain ⟨hhit', -⟩ :=
        TlbSim.processMemref_working C h.skip' h.warmup' h.simRefs_ne.2 hmarker
      rw [← hasked] at hhit'
      rw [hhit', TlbSim.processMemref_of_skipRefs hskip] at htotal
      refine ⟨hasked.symm, ?_⟩
      cases htrans : C.translations m with
      | none => exact .inl rfl
      | some p =>
        right
        simpa [htrans] using htotal
  · intro hsame
    obtain ⟨hstore, hhit⟩ := h.of_sameLookup hmarker hsame
    rw [processMemref_withTlb σ t hhit, if_pos hok]
    refine ⟨rfl, ?_, rfl⟩
    rw [processMemref_tlb, if_pos hok]
    exact hstore.symm

/-- A record without a core leaves the TLB simulator as it is. -/
theorem processMemref_withTlb_of_dropped (t : TlbSim) (hok : (σ.scheduleRef C m).isOk = false) :
    ({ σ with tlb := t } : SimState).processMemref C m =
      ((σ.processMemref C m).1, { (σ.processMemref C m).2 with tlb := t }) := by
  have hfirst := scheduleRef_withTlb (C := C) σ t m
  cases hsched : σ.scheduleRef C m with
  | error r =>
    rw [hsched] at hfirst
    rw [processMemref_of_error hsched, processMemref_of_error hfirst]
  | ok a => simp [hsched, Except.isOk, Except.toBool] at hok

theorem runFrom_take_cons (σ : SimState) (m : Memref) (trace : List Memref) (n : ℕ) :
    C.runFrom σ ((m :: trace).take (n + 1)) = C.runFrom (σ.processMemref C m).2
      ((if (σ.processMemref C m).1 then trace else []).take n) := by
  rw [List.take_succ_cons, SimConfig.runFrom]
  split_ifs
  · rfl
  · rw [List.take_nil]
    rfl

/-- The rest of a run: the contents are the same at all times if the skipped records leave the
TLBs alone. Without a warm-up they are so only then. -/
theorem sameContents_runFrom {knobs : TlbKnobs} (hH : knobs.hierarchy = some C.tlbs)
    (trace : List Memref) (hstore : t.store = σ.tlb.store)
    (h : C.seenFrom σ trace ≠ [] → TlbSim.Alongside (C.seenFrom σ trace).length t σ.tlb) :
    (C.SkipsIdle t.sched σ.tlb.sched t.skipRefs.toNat (C.seenFrom σ trace) →
      ∀ n, (C.runFrom { σ with tlb := t } (trace.take n)).SameContents
        (C.runFrom σ (trace.take n))) ∧
    (C.warmupFraction = 0 → σ.NoWarmup →
      (∀ n, (C.runFrom { σ with tlb := t } (trace.take n)).SameContents
        (C.runFrom σ (trace.take n))) →
      C.SkipsIdle t.sched σ.tlb.sched t.skipRefs.toNat (C.seenFrom σ trace)) := by
  -- on the length, since a record can end the run and leave none of the trace
  induction hlen : trace.length using Nat.strong_induction_on generalizing trace σ t with
  | _ len ih =>
    have hfirst : SameContents { σ with tlb := t } σ := ⟨rfl, hstore.symm, rfl⟩
    cases trace with
    | nil =>
      refine ⟨fun _ n => ?_, fun _ _ _ => C.skipsIdle_nil _ _ _⟩
      rw [List.take_nil]
      exact hfirst
    | cons m trace =>
      have hshort : (if (σ.processMemref C m).1 then trace else []).length < len := by
        subst hlen
        split_ifs <;> simp
      have hseen := SimConfig.seenFrom_cons (C := C) σ m trace
      have htlb := σ.processMemref_tlb (C := C) m
      have hsplit : (∀ n, (C.runFrom { σ with tlb := t } ((m :: trace).take n)).SameContents
            (C.runFrom σ ((m :: trace).take n))) ↔
          ∀ n, (C.runFrom { σ with tlb := t } ((m :: trace).take (n + 1))).SameContents
            (C.runFrom σ ((m :: trace).take (n + 1))) := by
        rw [← Nat.and_forall_add_one]
        exact and_iff_right hfirst
      rw [hsplit]
      simp only [runFrom_take_cons]
      cases hok : (σ.scheduleRef C m).isOk with
      | false =>
        -- a record without a core gets to neither of them
        rw [if_neg (by simp [hok]), List.nil_append] at hseen
        rw [if_neg (by simp [hok])] at htlb
        rw [hseen] at h ⊢
        rw [processMemref_withTlb_of_dropped t hok]
        rw [← htlb] at h hstore ⊢
        have hnext := ih _ hshort _ hstore h rfl
        exact ⟨hnext.1, fun hfrac hσ => hnext.2 hfrac (hσ.processMemref hfrac m)⟩
      | true =>
        rw [if_pos hok, List.singleton_append] at hseen
        rw [if_pos hok] at htlb
        have hmarker := type_ne_marker_of_isOk hok
        rw [hseen] at h ⊢
        have h := h (by simp)
        rw [C.skipsIdle_cons_iff h hmarker]
        by_cases hsame : TlbSim.SameLookup C t σ.tlb m
        · obtain ⟨hstore', hhit⟩ := h.of_sameLookup hmarker hsame
          have hside := h.processMemref hmarker hstore'
          rw [and_iff_right hsame, processMemref_withTlb σ t hhit, if_pos hok]
          rw [← htlb] at hside hstore' ⊢
          have hnext := ih _ hshort _ hstore' (fun _ => hside) rfl
          exact ⟨hnext.1, fun hfrac hσ => hnext.2 hfrac (hσ.processMemref hfrac m)⟩
        · -- the contents right behind the record differ already
          refine ⟨fun hidle => absurd hidle.1 hsame, fun hfrac hσ hall => absurd ?_ hsame⟩
          exact (sameContents_step_iff hH hfrac hσ h hok).mp (hall 0)

end SimState

/-- **Skipped references.** The contents and statistics of a run are at all times those of a run
over the rest of the trace, if the records that the TLB simulator skips on its own ask no TLB and
make no walk, and the same TLBs are asked behind them. Without a warm-up this is necessary, too.
The TLB simulator has no warm-up of its own, and references left for all records it sees. -/
theorem skip_sameContents_iff {knobs : TlbKnobs} (hH : knobs.hierarchy = some C.tlbs)
    {k : BitVec 64} {trace : List Memref}
    (h : k ≠ 0 → C.seenFrom (C.skipping 0).initial (trace.drop k.toNat) ≠ [] →
      C.warmupRefs = 0 ∧
        (C.seenFrom (C.skipping 0).initial (trace.drop k.toNat)).length ≤ C.simRefs.toNat) :
    (C.SkipsIdle {} {} k.toNat (C.seenFrom (C.skipping 0).initial (trace.drop k.toNat)) →
      ∀ n, ((C.skipping k).run (trace.take n)).SameContents
        ((C.skipping 0).run ((trace.take n).drop k.toNat))) ∧
    (C.warmupFraction = 0 →
      (∀ n, ((C.skipping k).run (trace.take n)).SameContents
        ((C.skipping 0).run ((trace.take n).drop k.toNat))) →
      C.SkipsIdle {} {} k.toNat (C.seenFrom (C.skipping 0).initial (trace.drop k.toNat))) := by
  by_cases hk : k = 0
  · subst hk
    exact ⟨fun _ _ => ⟨rfl, rfl, rfl⟩, fun _ _ => ⟨by simp, by simp⟩⟩
  have hrun (n : ℕ) : ((C.skipping k).run (trace.take n)).SameContents
        ((C.skipping 0).run ((trace.take n).drop k.toNat)) ↔
      (C.runFrom (C.afterSkip k) ((trace.drop k.toNat).take (n - k.toNat))).SameContents
        (C.runFrom (C.skipping 0).initial ((trace.drop k.toNat).take (n - k.toNat))) := by
    obtain ⟨skipRefs, hskip⟩ := run_skipping (C := C) k (trace.take n)
    rw [hskip, SimConfig.run, runFrom_skipping, List.drop_take]
    exact ⟨fun h => ⟨h.caches, h.tlbs, h.hm⟩, fun h => ⟨h.caches, h.tlbs, h.hm⟩⟩
  have hside (hseen : C.seenFrom (C.skipping 0).initial (trace.drop k.toNat) ≠ []) :
      TlbSim.Alongside (C.seenFrom (C.skipping 0).initial (trace.drop k.toNat)).length
        { (C.skipping 0).initial.tlb with skipRefs := k } (C.skipping 0).initial.tlb := by
    obtain ⟨hwarm, hbudget⟩ := h hk hseen
    exact ⟨rfl, hwarm, hwarm, rfl, hbudget, hbudget⟩
  obtain ⟨hidle, hconv⟩ := sameContents_runFrom hH _ (by rfl) hside
  constructor
  · intro hskips n
    exact (hrun n).mpr (hidle hskips _)
  · intro hfrac hall
    by_cases hseen : C.seenFrom (C.skipping 0).initial (trace.drop k.toNat) = []
    · rw [hseen]
      exact C.skipsIdle_nil _ _ _
    · refine hconv hfrac ⟨rfl, (h hk hseen).1, rfl, rfl, (h hk hseen).1⟩ fun n => ?_
      have hn := (hrun (n + k.toNat)).mp (hall _)
      rwa [Nat.add_sub_cancel] at hn

/-- One record is skipped by both simulators, and a flush by the TLB simulator. The tables have
no page for it, so both runs walk for the last read. -/
theorem skip_before_flush :
    let C := sampleConfig [0x7000]
    let trace := [readAt 0x7010, { readAt 0x7010 with type := .dataFlush }, readAt 0x7018]
    (∀ n, ((C.skipping 1).run (trace.take n)).SameContents
        ((C.skipping 0).run ((trace.take n).drop 1))) ∧
      ((C.skipping 1).run trace).hm.total = 1 := by
  refine ⟨(skip_sameContents_iff (k := 1) defaultTlbs_eq fun _ _ => ?_).1 ?_, by decide +kernel⟩
  · decide +kernel
  · exact ⟨by decide +kernel, by decide +kernel⟩

/-- One of two reads is skipped: the other one is a hit without a lookup and does not walk.
Without the first read, it walks. -/
theorem skip_hides_walk :
    let C := sampleConfig [0x7000]
    let trace := [readAt 0x7010, readAt 0x7018]
    ((C.skipping 1).run trace).hm.total = 0 ∧
      ((C.skipping 0).run (trace.drop 1)).hm.total = 1 := by
  decide +kernel

end SagePTE.Simulator
