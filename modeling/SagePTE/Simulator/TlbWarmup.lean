import SagePTE.Simulator.Cores
import SagePTE.Simulator.Warmup

/-!
# Two warm-up counts

The TLB simulator has a warm-up count of its own, with the same start as that of the cache
simulator. It takes one off for each record that it handles, where the cache simulator takes
one off for each call of `check_warmed_up`. As the cache simulator makes a call before it
hands a record on, and one more when the record has been simulated, its count is never above
the other, and is below it after the reset. So the two are never reset together.

## Main definitions

* `SimState.tlbCounts` — the record is taken off the TLB simulator's warm-up count
* `SimState.tlbResets` — the TLB statistics are reset upon the record
* `SimState.CacheAhead` — the cache simulator is ahead in its warm-up

## Main results

* `TlbSim.stats_of_resets` — what a reset does
* `SimState.CacheAhead.not_resets_and_tlbResets` — no record resets both
* `warmup_resets_agree_iff` — when the resets agree along a run
-/

set_option autoImplicit false

namespace SagePTE.Simulator

namespace TlbSim

variable {H : Hierarchy TlbId} {k : SchedulerKnobs} {t : TlbSim}

/-! ### The count of the TLB simulator -/

/-- The requests of a record leave the counters alone. -/
theorem access_warmupRefs {core : ℕ} {m : Memref} {r : Bool × TlbSim}
    (h : t.access H core m = some r) : r.2.warmupRefs = t.warmupRefs := by
  simp only [access] at h
  split_ifs at h <;> cases h <;> rfl

/-- But for markers, the simulators know the same types. -/
theorem isSome_access {core : ℕ} {m : Memref} (hmarker : m.type ≠ .marker) :
    (t.access H core m).isSome = isHandled m.type := by
  simp only [access, isHandled]
  split_ifs <;> simp_all [or_assoc]

theorem countRef_warmupRefs (t : TlbSim) :
    (t.countRef k).warmupRefs = if t.warmupRefs ≠ 0 then t.warmupRefs - 1 else t.warmupRefs := by
  simp only [countRef]
  split_ifs <;> rfl

/-- The record is taken off the warm-up count, as long as there is one. -/
def counts (t : TlbSim) (m : Memref) : Bool := decide (t.skipRefs = 0) && isHandled m.type

theorem processMemref_warmupRefs (t : TlbSim) {m : Memref} (hmarker : m.type ≠ .marker) :
    (t.processMemref H k m).2.warmupRefs =
      if t.counts m ∧ t.warmupRefs ≠ 0 then t.warmupRefs - 1 else t.warmupRefs := by
  by_cases hskip : t.skipRefs = 0
  · have hcounts : t.counts m = isHandled m.type := by simp [counts, hskip]
    by_cases hex : t.isExhausted = true
    · have hzero : t.warmupRefs = 0 := by simp_all [isExhausted]
      rw [processMemref_of_isExhausted hskip hex, if_neg (fun h => h.2 hzero)]
    · have hrefs : ¬(t.warmupRefs = 0 ∧ t.simRefs = 0) := by simpa [isExhausted] using hex
      simp only [processMemref, if_neg (not_not.mpr hskip), if_neg hrefs,
        Scheduler.processMarker_of_ne hmarker, if_neg hmarker, hcounts]
      split
      · next hnone =>
        rw [← isSome_access (H := H) hmarker, hnone, if_neg (by simp)]
      · next r hr =>
        rw [countRef_warmupRefs, access_warmupRefs hr, ← isSome_access (H := H) hmarker, hr,
          Option.isSome_some]
        simp only [true_and]
  · simp only [processMemref, if_pos hskip, counts, decide_eq_false hskip, Bool.false_and,
      Bool.false_eq_true, false_and, if_false]

/-- The record brings the warm-up count to zero. -/
def resets (H : Hierarchy TlbId) (k : SchedulerKnobs) (t : TlbSim) (m : Memref) : Bool :=
  decide (t.warmupRefs ≠ 0) && decide ((t.processMemref H k m).2.warmupRefs = 0)

theorem resets_iff_counts {m : Memref} (hmarker : m.type ≠ .marker) :
    t.resets H k m = true ↔ t.counts m = true ∧ t.warmupRefs = 1 := by
  rw [resets, processMemref_warmupRefs t hmarker, Bool.and_eq_true, decide_eq_true_eq,
    decide_eq_true_eq]
  split_ifs with h
  · have hone : t.warmupRefs - 1 = 0 ↔ t.warmupRefs = 1 := by bv_omega
    exact ⟨fun hzero => ⟨h.1, hone.mp hzero.2⟩, fun hlast => ⟨h.2, hone.mpr hlast.2⟩⟩
  · constructor
    · rintro ⟨hne, hzero⟩
      exact absurd hzero hne
    · rintro ⟨hcounts, hone⟩
      exact absurd ⟨hcounts, by rw [hone]; decide⟩ h

/-- Upon this record the statistics of the TLBs of all cores are reset, with nothing counted
after it. -/
theorem stats_of_resets {m : Memref} (hmarker : m.type ≠ .marker) (h : t.resets H k m = true)
    {core : ℕ} (hcore : core < k.numCores) {i : TlbId}
    (hi : i = .itlb core ∨ i = .dtlb core ∨ i = .lltlb core) :
    ∃ st : DeviceStats, ((t.processMemref H k m).2.store i).stats = st.reset := by
  obtain ⟨hcounts, hone⟩ := (resets_iff_counts hmarker).mp h
  obtain ⟨hskip, hhandled⟩ : t.skipRefs = 0 ∧ isHandled m.type = true := by
    simpa [counts] using hcounts
  have hrefs : ¬(t.warmupRefs = 0 ∧ t.simRefs = 0) := by simp [hone]
  simp only [processMemref, if_neg (not_not.mpr hskip), if_neg hrefs,
    Scheduler.processMarker_of_ne hmarker, if_neg hmarker]
  split
  · next hnone =>
    rw [← isSome_access (H := H) hmarker, hnone] at hhandled
    cases hhandled
  · next r hr =>
    have hlast : r.2.warmupRefs = 1 := (access_warmupRefs hr).trans hone
    refine ⟨(r.2.store i).stats, ?_⟩
    rcases hi with rfl | rfl | rfl <;> simp [countRef, hlast, hcore, DeviceState.withStats]

end TlbSim

/-! ### The cache simulator is ahead -/

namespace SimState

variable (C : SimConfig) (σ : SimState)

/-- The record gets to the TLB simulator and is taken off its warm-up count. -/
def tlbCounts (m : Memref) : Bool := (σ.scheduleRef C m).isOk && σ.tlb.counts m

/-- The TLB statistics are reset upon the record. -/
def tlbResets (m : Memref) : Bool :=
  (σ.scheduleRef C m).isOk && σ.tlb.resets C.tlbs C.sched m

variable {C σ}

theorem tlbResets_iff {m : Memref} :
    σ.tlbResets C m = true ↔ σ.tlbCounts C m = true ∧ σ.tlb.warmupRefs = 1 := by
  rw [tlbResets, tlbCounts, Bool.and_eq_true, Bool.and_eq_true, and_assoc]
  exact and_congr_right fun hok => TlbSim.resets_iff_counts (type_ne_marker_of_isOk hok)

theorem processMemref_tlb_warmupRefs (σ : SimState) (m : Memref) :
    (σ.processMemref C m).2.tlb.warmupRefs =
      if σ.tlbCounts C m ∧ σ.tlb.warmupRefs ≠ 0 then σ.tlb.warmupRefs - 1
      else σ.tlb.warmupRefs := by
  rw [processMemref_tlb, tlbCounts]
  cases hok : (σ.scheduleRef C m).isOk with
  | false => simp
  | true =>
    rw [if_pos rfl, TlbSim.processMemref_warmupRefs _ (type_ne_marker_of_isOk hok), Bool.true_and]

/-- The cache simulator is warmed up, or has at most as many warm-up references left as the
TLB simulator. -/
def CacheAhead (σ : SimState) : Prop :=
  σ.isWarmedUp = true ∨ (σ.warmupRefs ≠ 0 ∧ σ.warmupRefs ≤ σ.tlb.warmupRefs)

/-- A call of `check_warmed_up` ends the warm-up or takes one off the count. -/
theorem checkWarmedUp_counts (hne : σ.warmupRefs ≠ 0) :
    (σ.checkWarmedUp C).2.isWarmedUp = true ∨
      ((σ.checkWarmedUp C).2.warmupRefs = σ.warmupRefs - 1 ∧ σ.warmupRefs - 1 ≠ 0) := by
  simp only [checkWarmedUp]
  split_ifs with his hfrac hzero
  · exact .inl his
  · exact .inl rfl
  · exact .inl rfl
  · exact .inr ⟨rfl, hzero⟩

theorem isWarmedUp_checkWarmedUp (h : σ.isWarmedUp = true) :
    (σ.checkWarmedUp C).2.isWarmedUp = true := by
  simp [checkWarmedUp, h]

/-- The TLB simulator takes at most one off. -/
theorem tlb_warmupRefs_le (σ : SimState) (m : Memref) :
    σ.tlb.warmupRefs.toNat ≤ (σ.processMemref C m).2.tlb.warmupRefs.toNat + 1 := by
  rw [processMemref_tlb_warmupRefs]
  split_ifs with h
  · have hpred := toNat_sub_one h.2
    omega
  · omega

namespace CacheAhead

/-- The call at the start of a record makes up for what the TLB simulator takes off. If it
does not end the warm-up, then that of the TLB simulator is not in its last record. -/
theorem of_check {σ' : SimState} (h : σ.CacheAhead)
    (hsame : (σ.checkWarmedUp C).2.SameCounters σ')
    (htlb : σ.tlb.warmupRefs.toNat ≤ σ'.tlb.warmupRefs.toNat + 1) :
    σ'.CacheAhead ∧ (σ'.isWarmedUp = false → 2 ≤ σ.tlb.warmupRefs.toNat) := by
  rcases h with his | ⟨hne, hle⟩
  · have his' := hsame.isWarmedUp.trans (isWarmedUp_checkWarmedUp his)
    exact ⟨.inl his', by simp [his']⟩
  · have hpred := toNat_sub_one hne
    rcases checkWarmedUp_counts (C := C) hne with his | ⟨hleft, hmore⟩
    · have his' := hsame.isWarmedUp.trans his
      exact ⟨.inl his', by simp [his']⟩
    · have hpos := toNat_pos hmore
      rw [BitVec.le_def] at hle
      refine ⟨.inr ⟨?_, ?_⟩, fun _ => by omega⟩
      · rwa [hsame.warmupRefs, hleft]
      · rw [hsame.warmupRefs, hleft, BitVec.le_def]
        omega

theorem countRef (h : σ.CacheAhead) : (σ.countRef C).CacheAhead := by
  have hsame : (σ.checkWarmedUp C).2.SameCounters (σ.checkWarmedUp C).2 := ⟨rfl, rfl, rfl, rfl⟩
  have htlb : σ.tlb.warmupRefs.toNat ≤ (σ.checkWarmedUp C).2.tlb.warmupRefs.toNat + 1 := by
    obtain ⟨_, _, heq⟩ := σ.checkWarmedUp_snd (C := C)
    rw [heq]
    exact Nat.le_succ _
  have hcheck := (h.of_check hsame htlb).1
  simp only [CacheAhead, SimState.countRef] at hcheck ⊢
  split_ifs with his
  · exact .inl his
  · exact hcheck
  · exact hcheck

/-- A record that makes no call does not get to the TLBs either. -/
theorem processMemref (h : σ.CacheAhead) (m : Memref) : (σ.processMemref C m).2.CacheAhead := by
  have htlb := σ.tlb_warmupRefs_le (C := C) m
  have hkeep (hdropped : ∀ r, σ.scheduleRef C m ≠ .ok r) :
      (σ.processMemref C m).2.tlb = σ.tlb := by
    rw [processMemref_tlb]
    cases hsched : σ.scheduleRef C m with
    | error r => rfl
    | ok r => exact absurd hsched (hdropped r)
  rw [processMemref_eq] at htlb hkeep ⊢
  rcases σ.simulate_counters (C := C) m with
    ⟨r, hsim, ⟨hskip, hsame⟩ | ⟨-, hleft, hsame⟩ | ⟨-, -, hsame⟩⟩ | ⟨σ', hsim, -, -, hsame⟩
  · rw [hsim] at hkeep ⊢
    have heq := hkeep fun r hr => hskip (scheduleRef_eq_ok_iff.mp hr).1
    simpa only [CacheAhead, hsame.isWarmedUp, hsame.warmupRefs, heq] using h
  · rw [hsim] at hkeep ⊢
    have heq := hkeep fun r hr => by simp [(scheduleRef_eq_ok_iff.mp hr).2.1] at hleft
    simpa only [CacheAhead, hsame.isWarmedUp, hsame.warmupRefs, heq] using h
  · rw [hsim] at htlb ⊢
    exact (h.of_check hsame htlb).1
  · rw [hsim] at htlb ⊢
    rw [countRef_tlb] at htlb
    exact (h.of_check hsame htlb).1.countRef

/-- No record resets both: the call at its start has left a warm-up reference over, and the
TLB simulator has another one. -/
theorem not_resets_and_tlbResets (h : σ.CacheAhead) (m : Memref) :
    ¬(σ.resets C m = true ∧ σ.tlbResets C m = true) := by
  rintro ⟨hcache, htlb⟩
  have hone := (tlbResets_iff.mp htlb).2
  have hle := σ.tlb_warmupRefs_le (C := C) m
  rw [processMemref_eq] at hle
  rcases σ.simulate_counters (C := C) m with ⟨r, hsim, -⟩ | ⟨σ', hsim, -, -, hsame⟩
  · simp [resets, hsim] at hcache
  · simp only [resets, hsim, Bool.and_eq_true, Bool.not_eq_true'] at hcache
    rw [hsim, countRef_tlb] at hle
    have htwo := (h.of_check hsame hle).2 hcache.1
    rw [hone] at htwo
    simp at htwo

end CacheAhead

end SimState

open SimState

/-! ### Resets along a run -/

variable {C : SimConfig}

theorem cacheAhead_of_mem_steps (hW : C.warmupRefs ≠ 0) {trace : List Memref} :
    ∀ s ∈ C.steps trace, s.1.CacheAhead :=
  C.mem_steps_induction (.inr ⟨hW, BitVec.le_refl _⟩) fun s _ h => h.processMemref s.2

/-- How many records of a run are taken off the TLB simulator's warm-up count. -/
def SimConfig.tlbCounted (C : SimConfig) (trace : List Memref) : ℕ :=
  (C.steps trace).countP fun s => s.1.tlbCounts C s.2

theorem toNat_tlb_warmupRefs_run (trace : List Memref) :
    (C.run trace).tlb.warmupRefs.toNat = C.warmupRefs.toNat - C.tlbCounted trace := by
  rw [SimConfig.tlbCounted, ← Steps.foldl_sub_toNat,
    C.apply_run (f := fun σ => σ.tlb.warmupRefs.toNat)]
  · rfl
  · intro s _
    rw [processMemref_tlb_warmupRefs]
    cases hcounts : s.1.tlbCounts C s.2 with
    | false => simp
    | true =>
      by_cases hzero : s.1.tlb.warmupRefs = 0
      · simp [hzero]
      · rw [if_pos ⟨rfl, hzero⟩, toNat_sub_one hzero, Bool.toNat_true]

/-- The TLB statistics are reset in a run unless it is over before. -/
theorem forall_tlbResets_eq_false_iff (hW : C.warmupRefs ≠ 0) (trace : List Memref) :
    (∀ s ∈ C.steps trace, s.1.tlbResets C s.2 = false) ↔
      C.tlbCounted trace < C.warmupRefs.toNat := by
  constructor
  · intro hnone
    -- as long as there is no reset the count is not down
    have hleft : (C.run trace).tlb.warmupRefs ≠ 0 := by
      refine C.run_steps_induction (P := fun σ => σ.tlb.warmupRefs ≠ 0) hW fun s hs hne => ?_
      rw [processMemref_tlb_warmupRefs]
      split_ifs with hcounts
      · intro hzero
        have hone : s.1.tlb.warmupRefs = 1 := by bv_omega
        have hreset := tlbResets_iff.mpr ⟨hcounts.1, hone⟩
        rw [hnone s hs] at hreset
        cases hreset
      · exact hne
    have hpos := toNat_pos hleft
    rw [toNat_tlb_warmupRefs_run] at hpos
    omega
  · intro hcount s hs
    obtain ⟨n, hn⟩ := List.mem_iff_getElem?.mp hs
    by_contra hreset
    obtain ⟨hcounts, hone⟩ := tlbResets_iff.mp (by simpa using hreset)
    -- the count is down after this record
    have hdown := toNat_tlb_warmupRefs_run (C := C) (trace.take (n + 1))
    rw [C.run_take_succ hn, processMemref_tlb_warmupRefs, hcounts, hone] at hdown
    have hle : C.tlbCounted (trace.take (n + 1)) ≤ C.tlbCounted trace := by
      rw [SimConfig.tlbCounted, C.steps_take]
      exact (List.take_sublist _ _).countP_le
    simp at hdown
    omega

/-- **Two resets.** No record resets both the TLB statistics and those of the caches. So the
resets agree along a run exactly if it has none: it is over before the TLB simulator has
handled as many records as the option says, and the second call for no simulated record ends
the warm-up of the caches. -/
theorem warmup_resets_agree_iff (hW : C.warmupRefs ≠ 0) (trace : List Memref) :
    (∀ s ∈ C.steps trace, ¬(s.1.resets C s.2 = true ∧ s.1.tlbResets C s.2 = true)) ∧
    ((∀ s ∈ C.steps trace, s.1.resets C s.2 = s.1.tlbResets C s.2) ↔
      C.tlbCounted trace < C.warmupRefs.toNat ∧
        ∀ s ∈ C.steps trace, s.1.resets C s.2 = false) := by
  have hnever (s : SimState × Memref) (hs : s ∈ C.steps trace) :
      ¬(s.1.resets C s.2 = true ∧ s.1.tlbResets C s.2 = true) :=
    (cacheAhead_of_mem_steps hW s hs).not_resets_and_tlbResets s.2
  refine ⟨hnever, ?_⟩
  rw [← forall_tlbResets_eq_false_iff hW]
  constructor
  · intro hagree
    have hneither (s : SimState × Memref) (hs : s ∈ C.steps trace) :
        s.1.resets C s.2 = false := by
      by_contra hreset
      have hreset : s.1.resets C s.2 = true := by simpa using hreset
      exact hnever s hs ⟨hreset, hagree s hs ▸ hreset⟩
    exact ⟨fun s hs => hagree s hs ▸ hneither s hs, hneither⟩
  · rintro ⟨htlb, hcache⟩ s hs
    rw [htlb s hs, hcache s hs]

/-- Four warm-up references and one read: neither is reset. -/
theorem one_read_of_four_resets_agree :
    let C := { sampleConfig [0x7000] with warmupRefs := 4 }
    ∀ s ∈ C.steps [readAt 0x7010], s.1.resets C s.2 = s.1.tlbResets C s.2 := by
  intro C
  exact (warmup_resets_agree_iff (C := C) (by decide) _).2.mpr
    ⟨by decide +kernel, by decide +kernel⟩

/-- With two warm-up references, the caches are reset upon the first one and the TLBs upon
the second one. The histogram has the walk of the second one, and the TLB statistics do not
have its miss. -/
theorem two_reads_reset_apart :
    let C := { sampleConfig [0x7000, 0x8000] with warmupRefs := 2 }
    let trace := [readAt 0x7010, readAt 0x8010]
    (C.steps trace).map (fun s => (s.1.resets C s.2, s.1.tlbResets C s.2)) =
        [(true, false), (false, true)] ∧
      (C.run trace).hm.total = 1 ∧
      ((C.run trace).tlb.store (.lltlb 0)).stats.numMisses = 0 := by
  decide +kernel

end SagePTE.Simulator
