import SagePTE.Simulator.Steps
import SagePTE.Simulator.TlbLookup
import SagePTE.Simulator.WalkFormat

/-!
# Walks and TLB misses

The histogram counts one walk for each record that the TLB simulator does not report as a
hit. This is the number of TLB misses only as far as the reports are lookups. The TLB
simulator reports a hit for everything once it has used up its own references, and a miss
for the records that it ignores: prefetches, flushes, thread exits and instructions that
are not fetched. An access whose end wraps around the address space is a miss as well.

## Main definitions

* `TlbSim.holdsPage` — a TLB of the core has the page of a record
* `SimState.missesTlbs` — a fetch, read or write with both translations that misses
* `SimState.WalksOnMiss` — none of the exceptions applies to a record

## Main results

* `TlbSim.processMemref_hit` — what the TLB simulator reports
* `walks_eq_misses_iff` — when the histogram counts the TLB misses
-/

set_option autoImplicit false

namespace SagePTE.Simulator

/-! ### The number of walks -/

/-- The number of walks in the histogram. -/
def Histogram.total (h : Histogram) : ℕ := (h.map Prod.snd).sum

theorem Histogram.total_bump (v : List CacheResult) (h : Histogram) :
    (h.bump v).total = h.total + 1 := by
  induction h with
  | nil => rfl
  | cons a h ih =>
    obtain ⟨u, n⟩ := a
    simp only [bump]
    simp only [total] at ih
    split_ifs <;> simp only [total, List.map_cons, List.sum_cons]
    · omega
    · omega
    · rw [ih]
      omega

/-! ### The reports of the TLB simulator -/

/-- An instruction fetch, a read or a write. -/
def isAccess (type : TraceType) : Bool := typeIsInstr type || type == .read || type == .write

/-- The first-level TLB that an access asks. -/
def l1Tlb (core : ℕ) (type : TraceType) : TlbId :=
  if typeIsInstr type then .itlb core else .dtlb core

namespace TlbSim

variable (H : Hierarchy TlbId) (k : SchedulerKnobs) (t : TlbSim)

/-- No references are left for the TLB simulator. -/
def isExhausted : Bool := t.warmupRefs = 0 && t.simRefs = 0

/-- A TLB of the core holds the page where the record starts. -/
def holdsPage (m : Memref) : Bool :=
  let core := (t.sched.coreFor k m.tid).1
  let holds (i : TlbId) := decide ((t.store i).HoldsEntry (H.geometry i) (H.firstTag i m) m.pid)
  holds (l1Tlb core m.type) || holds (.lltlb core)

/-- The end of the access has wrapped around. -/
def wraps (m : Memref) : Bool := H.finalTag (.lltlb 0) m < H.firstTag (.lltlb 0) m

variable {H k t}

/-- What the TLB simulator asks of its TLBs. -/
theorem access_of_isAccess (core : ℕ) {m : Memref} (h : isAccess m.type = true) :
    t.access H core m = some ((tlbRequest H t.store (l1Tlb core m.type) m).1,
      { t with store := (tlbRequest H t.store (l1Tlb core m.type) m).2 }) := by
  unfold access l1Tlb
  by_cases hinstr : typeIsInstr m.type = true
  · rw [if_pos hinstr, if_pos hinstr]
  · have hdata : m.type = .read ∨ m.type = .write := by simpa [isAccess, hinstr] using h
    rw [if_neg hinstr, if_pos hdata, if_neg hinstr]

theorem access_of_not_isAccess (core : ℕ) {m : Memref} (h : isAccess m.type = false)
    (hmarker : m.type ≠ .marker) :
    (t.access H core m).map Prod.fst = if isHandled m.type then some false else none := by
  simp only [isAccess, Bool.or_eq_false_iff, beq_eq_false_iff_ne] at h
  unfold access
  split_ifs <;> simp_all [isHandled]

/-- **The report on a record.** -/
theorem processMemref_hit {knobs : TlbKnobs} (hH : knobs.hierarchy = some H)
    (hskip : t.skipRefs = 0) {m : Memref} (hmarker : m.type ≠ .marker)
    (hs : TlbsSynced H t.store) :
    (t.processMemref H k m).1.2 =
      if t.isExhausted then true
      else if isAccess m.type then !wraps H m && t.holdsPage H k m
      else !isHandled m.type := by
  have hsched (s : Scheduler) : s.processMarker k m = s := if_neg (by simp [hmarker])
  simp only [processMemref, if_neg (not_not.mpr hskip), hsched, if_neg hmarker]
  by_cases hex : t.warmupRefs = 0 ∧ t.simRefs = 0
  · simp [isExhausted, hex]
  rw [if_neg hex, if_neg (by simpa [isExhausted] using hex)]
  set core := (t.sched.coreFor k m.tid).1 with hcore
  cases hacc : isAccess m.type with
  | false =>
    have hreport := access_of_not_isAccess (H := H) (t := { t with
      sched := (t.sched.coreFor k m.tid).2 }) core hacc hmarker
    cases hhandled : isHandled m.type with
    | true =>
      rw [hhandled, if_pos rfl] at hreport
      obtain ⟨r, hr, hfalse⟩ := Option.map_eq_some_iff.mp hreport
      simp [hr, hfalse]
    | false =>
      rw [hhandled, if_neg (by simp), Option.map_eq_none_iff] at hreport
      simp [hreport]
  | true =>
    simp only [access_of_isAccess core hacc, if_true]
    have htags := TlbKnobs.firstTag_eq hH (.lltlb 0) (l1Tlb core m.type) m
    have hfinal := TlbKnobs.finalTag_eq hH (.lltlb 0) (l1Tlb core m.type) m
    by_cases hwrap : H.finalTag (l1Tlb core m.type) m < H.firstTag (l1Tlb core m.type) m
    · -- the loop over the pages has no turn
      have hmiss : (tlbRequest H t.store (l1Tlb core m.type) m).1 = false := by
        rw [tlbRequest, tlbRequestFuel, if_neg (by omega), if_pos hwrap]
      simp [wraps, htags, hfinal, hwrap, hmiss]
    · have hl1 : l1Tlb core m.type = .itlb core ∨ l1Tlb core m.type = .dtlb core := by
        unfold l1Tlb
        split <;> simp
      rw [Bool.eq_iff_iff, tlbRequest_fst_iff hH hs hl1 (Nat.le_of_not_lt hwrap)]
      simp [wraps, htags, hfinal, hwrap, holdsPage, ← hcore,
        TlbKnobs.firstTag_eq hH (.lltlb core) (l1Tlb core m.type) m]

theorem countRef_sameEntries (t : TlbSim) : t.store.SameEntries (t.countRef k).store := by
  simp only [countRef]
  split_ifs
  · exact .refl _
  · intro i
    cases i <;> simp only <;> split_ifs <;>
      first | exact .refl _ | exact DeviceState.withStats_sameEntries _ _
  · exact .refl _

/-- The shortcuts stay in step. -/
theorem processMemref_synced (hpolicy : ∀ i, (H.dev i).policy = .lfu)
    (hs : TlbsSynced H t.store) (m : Memref) : TlbsSynced H (t.processMemref H k m).2.store := by
  have haccess {t' : TlbSim} (hs : TlbsSynced H t'.store) {core : ℕ} {r : Bool × TlbSim}
      (hr : t'.access H core m = some r) : TlbsSynced H r.2.store := by
    simp only [access] at hr
    split_ifs at hr <;> cases hr
    · exact tlbRequest_synced hpolicy hs _ m
    · exact tlbRequest_synced hpolicy hs _ m
    · exact hs
    · exact hs
  simp only [processMemref]
  split_ifs
  · exact hs
  · exact hs
  · exact hs
  · split
    · exact hs
    · next r hr => exact (haccess (by exact hs) hr).congr (countRef_sameEntries r.2)

theorem processMemref_skipRefs (hskip : t.skipRefs = 0) (m : Memref) :
    (t.processMemref H k m).2.skipRefs = 0 := by
  have haccess {t' : TlbSim} {core : ℕ} {r : Bool × TlbSim} (hr : t'.access H core m = some r) :
      r.2.skipRefs = t'.skipRefs := by
    simp only [access] at hr
    split_ifs at hr <;> cases hr <;> rfl
  have hcount (t' : TlbSim) : (t'.countRef k).skipRefs = t'.skipRefs := by
    unfold countRef
    split_ifs <;> rfl
  simp only [processMemref, if_neg (not_not.mpr hskip)]
  split_ifs
  · exact hskip
  · exact hskip
  · split
    · exact hskip
    · next r hr => rw [hcount, haccess hr, hskip]

end TlbSim

/-! ### Walks of a run -/

namespace SimState

variable (C : SimConfig) (σ : SimState)

/-- A fetch, read or write that is processed, with both translations, and whose page is in
neither TLB of its core. -/
def missesTlbs (m : Memref) : Bool :=
  isAccess m.type && (σ.scheduleRef C m).isOk && (C.translations m).isSome &&
    !σ.tlb.holdsPage C.tlbs C.sched m

/-- For a record that is processed and has both translations, the report of the TLB
simulator is that of a lookup: a fetch, read or write finds references left, or its page in
a TLB, and does not wrap around with its page in a TLB; another record finds none left. -/
def WalksOnMiss (m : Memref) : Prop :=
  (σ.scheduleRef C m).isOk = true → (C.translations m).isSome = true →
    if isAccess m.type then
      if σ.tlb.isExhausted then σ.tlb.holdsPage C.tlbs C.sched m = true
      else TlbSim.wraps C.tlbs m = true → σ.tlb.holdsPage C.tlbs C.sched m = false
    else isHandled m.type = true → σ.tlb.isExhausted = true

instance (m : Memref) : Decidable (σ.WalksOnMiss C m) := by
  unfold WalksOnMiss
  infer_instance

variable {C σ}

theorem isSome_walkVector (m : Memref) :
    (σ.walkVector C m).isSome = ((σ.scheduleRef C m).isOk && (C.translations m).isSome &&
      !(σ.tlb.processMemref C.tlbs C.sched m).1.2) := by
  unfold walkVector
  cases hsched : σ.scheduleRef C m with
  | error r => rfl
  | ok a =>
    obtain ⟨core, σ₁⟩ := a
    have htlb : σ₁.tlb = σ.tlb := scheduleRef_tlb.2 _ hsched
    cases C.translations m with
    | none => rfl
    | some p =>
      simp only [Option.bind_some, tlbLookup, htlb]
      split_ifs with hhit <;> simp [hhit, Except.isOk, Except.toBool]

/-- A record walks exactly on a TLB miss, unless one of the exceptions applies. -/
theorem walks_eq_misses_iff_walksOnMiss {knobs : TlbKnobs} (hH : knobs.hierarchy = some C.tlbs)
    (hskip : σ.tlb.skipRefs = 0) (hs : TlbsSynced C.tlbs σ.tlb.store) (m : Memref) :
    (σ.walkVector C m).isSome = σ.missesTlbs C m ↔ σ.WalksOnMiss C m := by
  rw [isSome_walkVector, missesTlbs, WalksOnMiss]
  cases hok : (σ.scheduleRef C m).isOk with
  | false => simp
  | true =>
    have hmarker := type_ne_marker_of_isOk hok
    cases htrans : (C.translations m).isSome with
    | false => simp
    | true =>
      rw [TlbSim.processMemref_hit hH hskip hmarker hs]
      cases isAccess m.type <;> cases σ.tlb.isExhausted <;> cases isHandled m.type <;>
        cases TlbSim.wraps C.tlbs m <;> cases σ.tlb.holdsPage C.tlbs C.sched m <;> simp

end SimState

open SimState

variable {C : SimConfig}

/-- The histogram counts the walks since it was cleared. -/
theorem total_run_hm (trace : List Memref) :
    (C.run trace).hm.total =
      Steps.sinceLast (fun s => s.1.resets C s.2) (fun s => (s.1.walkVector C s.2).isSome)
        (C.steps trace) := by
  refine (C.apply_run (f := fun σ => σ.hm.total) fun s _ => ?_).trans rfl
  rw [processMemref_hm]
  split_ifs
  · rfl
  · cases hv : s.1.walkVector C s.2 with
    | none => simp [hv]
    | some v => simp [hv, Histogram.total_bump]

/-- **Walks and TLB misses.** At all times of a run the number of walks in the histogram is
the number of TLB misses of mapped fetches, reads and writes since the histogram was
cleared, exactly if no record is one of the exceptions. -/
theorem walks_eq_misses_iff {knobs : TlbKnobs} (hH : knobs.hierarchy = some C.tlbs)
    (hskip : C.skipRefs = 0) (trace : List Memref) :
    (∀ n, (C.run (trace.take n)).hm.total =
        Steps.sinceLast (fun s => s.1.resets C s.2) (fun s => s.1.missesTlbs C s.2)
          ((C.steps trace).take n)) ↔
      ∀ s ∈ C.steps trace, s.1.resets C s.2 = false → s.1.WalksOnMiss C s.2 := by
  have hinv : ∀ s ∈ C.steps trace,
      s.1.tlb.skipRefs = 0 ∧ TlbsSynced C.tlbs s.1.tlb.store := by
    refine C.mem_steps_induction (P := fun σ => σ.tlb.skipRefs = 0 ∧
      TlbsSynced C.tlbs σ.tlb.store) ⟨hskip, fun j => .inl ?_⟩ fun s _ hσ => ?_
    · cases hpolicy : (C.tlbs.dev j).policy <;>
        simp [SimConfig.initial, Hierarchy.initialStore, DeviceState.initial, hpolicy]
    · rw [processMemref_tlb]
      split_ifs
      · exact ⟨TlbSim.processMemref_skipRefs hσ.1 s.2,
          TlbSim.processMemref_synced (TlbKnobs.policy_eq_lfu hH) hσ.2 s.2⟩
      · exact hσ
  simp only [total_run_hm, C.steps_take, Steps.sinceLast_take_eq_iff]
  refine forall₂_congr fun s hs => imp_congr_right fun _ => ?_
  exact walks_eq_misses_iff_walksOnMiss hH (hinv s hs).1 (hinv s hs).2 s.2

/-- Two reads of a page: the first one misses and walks, the second one hits. -/
theorem reread_walks_once :
    let C := sampleConfig [0x7000]
    let trace := [readAt 0x7010, readAt 0x7018]
    (C.run trace).hm.total = 1 ∧
      ∀ n, (C.run (trace.take n)).hm.total =
        Steps.sinceLast (fun s => s.1.resets C s.2) (fun s => s.1.missesTlbs C s.2)
          ((C.steps trace).take n) :=
  ⟨by decide +kernel, (walks_eq_misses_iff defaultTlbs_eq rfl _).mpr (by decide +kernel)⟩

/-- A software prefetch. -/
def prefetchAt (addr : BitVec 64) : Memref := { readAt addr with type := .prefetch }

/-- A prefetch of a page that the TLBs hold walks again. -/
theorem prefetch_walks :
    let C := sampleConfig [0x7000]
    let trace := [readAt 0x7010, prefetchAt 0x7018]
    (C.run trace).hm.total = 2 ∧
      Steps.sinceLast (fun s => s.1.resets C s.2) (fun s => s.1.missesTlbs C s.2)
        (C.steps trace) = 1 := by
  decide +kernel

end SagePTE.Simulator
