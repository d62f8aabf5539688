import SagePTE.Simulator.TlbInfluence

/-!
# References without a translation

A reference whose page is in no table is given up, but only after it has got a core and has
been looked up in the TLBs. It can bring its thread to a core, which decides where later
threads go, and it can take a TLB entry from a page that has a translation. What is left
without influence are references of the thread that is running, as far as the TLBs are not
asked for them, and references behind which nothing is translated.

## Main definitions

* `SimConfig.isUncovered` — an instruction or data reference without a translation
* `SimConfig.deleteUncovered` — the trace without them
* `SimState.Passes` — such a reference that changes neither a schedule nor a TLB
* `SimState.SameButBudget` — states that differ in the TLB simulator's budget

## Main results

* `deleteUncovered_sameContents` — when the references can be deleted
-/

set_option autoImplicit false

namespace SagePTE.Simulator

variable {C : SimConfig}

/-- An instruction or data reference without a translation. -/
def SimConfig.isUncovered (C : SimConfig) (m : Memref) : Bool :=
  SimState.isReference m && (C.translations m).isNone

/-- The trace without these references. -/
def SimConfig.deleteUncovered (C : SimConfig) (trace : List Memref) : List Memref :=
  trace.filter fun m => !C.isUncovered m

/-! ### Prefetches -/

namespace TlbSim

variable {H : Hierarchy TlbId} {k : SchedulerKnobs} {t : TlbSim}

theorem other_of_typeIsPrefetch {type : TraceType} (h : typeIsPrefetch type = true) :
    isAccess type = false ∧ type ≠ .threadExit ∧ type ≠ .marker := by
  cases type <;> first | exact ⟨rfl, by decide, by decide⟩ | cases h

/-- A prefetch of the running thread is not looked up. -/
theorem processMemref_of_prefetch (hskip : t.skipRefs = 0) (hwarm : t.warmupRefs = 0)
    (hsim : t.simRefs ≠ 0) {m : Memref} (hprefetch : typeIsPrefetch m.type = true)
    (hthread : m.tid = t.sched.lastThread) :
    (t.processMemref H k m).2 = { t with simRefs := t.simRefs - 1 } := by
  have hleft : ¬(t.warmupRefs = 0 ∧ t.simRefs = 0) := fun h => hsim h.2
  obtain ⟨hacc, hexit, hmarker⟩ := other_of_typeIsPrefetch hprefetch
  simp only [isAccess, Bool.or_eq_false_iff, beq_eq_false_iff_ne] at hacc
  have haccess : t.access H t.sched.lastCore m = some (false, t) := by
    simp [access, hacc, hexit, hprefetch]
  simp only [processMemref, if_neg (not_not.mpr hskip), if_neg hleft,
    Scheduler.processMarker_of_ne hmarker, if_neg hmarker, Scheduler.coreFor, if_pos hthread,
    haccess, countRef, if_neg (not_not.mpr hwarm)]

end TlbSim

namespace SimState

/-! ### References that pass -/

/-- The reference is not looked up in the TLBs, and its thread is the running one. -/
def Passes (σ : SimState) (m : Memref) : Prop :=
  typeIsPrefetch m.type = true ∧ m.tid = σ.sched.lastThread ∧ m.tid = σ.tlb.sched.lastThread

instance (σ : SimState) (m : Memref) : Decidable (σ.Passes m) :=
  inferInstanceAs (Decidable (_ ∧ _ ∧ _))

/-- The states differ in the TLB simulator's budget, and in both there is enough of it for a
number of records. -/
def SameButBudget (n : ℕ) (σ σ' : SimState) : Prop :=
  ∃ simRefs : BitVec 64, σ = { σ' with tlb := { σ'.tlb with simRefs } } ∧
    n ≤ simRefs.toNat ∧ n ≤ σ'.tlb.simRefs.toNat

/-- A reference that passes takes something off the TLB simulator's budget at most. -/
theorem Passes.processMemref {σ : SimState} {m : Memref} (hfrac : C.warmupFraction = 0)
    (h : σ.NoWarmup) (hm : σ.Passes m) (htrans : C.translations m = none)
    (hbudget : σ.tlb.simRefs ≠ 0) :
    ∃ simRefs : BitVec 64, σ.tlb.simRefs.toNat ≤ simRefs.toNat + 1 ∧
      σ.processMemref C m = (true, { σ with tlb := { σ.tlb with simRefs } }) := by
  obtain ⟨hprefetch, hthread, hthread'⟩ := hm
  have hmarker := (TlbSim.other_of_typeIsPrefetch hprefetch).2.2
  have hcheck := NoWarmup.check hfrac h.warmupRefs h.isWarmedUp
  cases hleft : σ.noRefsLeft C with
  | true =>
    refine ⟨σ.tlb.simRefs, Nat.le_succ _, ?_⟩
    rw [processMemref_of_error (r := (true, σ)) (by
      rw [scheduleRef, if_neg (not_not.mpr h.skipRefs), if_pos hleft])]
  | false =>
    have hsched : σ.scheduleRef C m = .ok (σ.sched.lastCore, σ) := by
      refine scheduleRef_eq_ok_iff.mpr ⟨h.skipRefs, hleft, by simp [hcheck], hmarker, ?_, ?_⟩
      · rw [Scheduler.coreFor, if_pos hthread]
      · rw [Scheduler.coreFor, if_pos hthread, hcheck]
    have hpred := toNat_sub_one hbudget
    refine ⟨σ.tlb.simRefs - 1, by omega, ?_⟩
    rw [processMemref_of_none hsched htrans]
    simp only [tlbLookup, TlbSim.processMemref_of_prefetch h.tlb_skipRefs h.tlb_warmupRefs hbudget
      hprefetch hthread']

/-- A record takes at most one off the TLB simulator's budget. -/
theorem tlb_simRefs_le {σ : SimState} (h : σ.NoWarmup) (hbudget : σ.tlb.simRefs ≠ 0) (m : Memref) :
    σ.tlb.simRefs.toNat ≤ (σ.processMemref C m).2.tlb.simRefs.toNat + 1 := by
  rw [processMemref_tlb]
  split_ifs
  · exact TlbSim.simRefs_le_processMemref h.tlb_warmupRefs hbudget m
  · exact Nat.le_succ _

/-- A record keeps the relation, and its answer is the same in both states. -/
theorem SameButBudget.processMemref {n : ℕ} {σ σ' : SimState} (h : SameButBudget (n + 1) σ σ')
    (hσ : σ.NoWarmup) (m : Memref) :
    (σ.processMemref C m).1 = (σ'.processMemref C m).1 ∧
      SameButBudget n (σ.processMemref C m).2 (σ'.processMemref C m).2 := by
  obtain ⟨simRefs, rfl, hn, hn'⟩ := h
  have hne : simRefs ≠ 0 := by
    rintro rfl
    simp at hn
  have hne' : σ'.tlb.simRefs ≠ 0 := by
    intro hzero
    simp [hzero] at hn'
  have hσ' : σ'.NoWarmup := ⟨hσ.1, hσ.2, hσ.3, hσ.4, hσ.5⟩
  have hle := tlb_simRefs_le (C := C) hσ' hne' m
  obtain ⟨simRefs', hle', heq⟩ := TlbSim.processMemref_withSimRefs (H := C.tlbs) (k := C.sched)
    hσ'.tlb_warmupRefs hne' hne m
  have hstep := processMemref_withTlb (C := C) σ' { σ'.tlb with simRefs } (m := m)
    fun _ => by rw [heq]
  have htlb := σ'.processMemref_tlb (C := C) m
  rw [hstep]
  refine ⟨rfl, if (σ'.scheduleRef C m).isOk then simRefs' else simRefs, ?_, ?_, by omega⟩
  · rw [htlb, heq]
    split_ifs <;> rfl
  · split_ifs <;> omega

end SimState

open SimState

/-! ### Deleting references -/

theorem noWarmup_of_mem_steps (hskip : C.skipRefs = 0) (hwarm : C.warmupRefs = 0)
    (hfrac : C.warmupFraction = 0) {trace : List Memref} : ∀ s ∈ C.steps trace, s.1.NoWarmup :=
  C.mem_steps_induction ⟨hskip, hwarm, rfl, hskip, hwarm⟩ fun s _ h => h.processMemref hfrac s.2

/-- A record without a translation leaves the caches and the histogram alone. -/
theorem processMemref_of_translations_eq_none {m : Memref} (h : C.translations m = none)
    (σ : SimState) :
    ((σ.processMemref C m).2.walk, (σ.processMemref C m).2.hm) = (σ.walk, σ.hm) := by
  cases hsched : σ.scheduleRef C m with
  | error r =>
    obtain ⟨_, _, _, _, heq⟩ := scheduleRef_frame.1 r hsched
    rw [processMemref_of_error hsched, heq]
  | ok r =>
    obtain ⟨core, σ₁⟩ := r
    obtain ⟨_, _, _, _, heq⟩ := scheduleRef_frame.2 (core, σ₁) hsched
    change σ₁ = _ at heq
    rw [processMemref_of_none hsched h, tlbLookup, heq]

/-- **References without a translation.** If each of them that comes before a record with a
translation is a prefetch of the running thread, they can be deleted: the caches and the
histogram are the same at the end. -/
theorem deleteUncovered_sameContents (hskip : C.skipRefs = 0) (hwarm : C.warmupRefs = 0)
    (hfrac : C.warmupFraction = 0) {front rest : List Memref}
    (hbudget : front.length ≤ C.simRefs.toNat)
    (hfront : ∀ s ∈ C.steps front, C.isUncovered s.2 = true → s.1.Passes s.2)
    (hrest : ∀ m ∈ rest, C.translations m = none) :
    (C.run (C.deleteUncovered (front ++ rest))).walk = (C.run (front ++ rest)).walk ∧
      (C.run (C.deleteUncovered (front ++ rest))).hm = (C.run (front ++ rest)).hm := by
  -- what comes last makes no difference in either run
  have hcut (front rest : List Memref) (h : ∀ m ∈ rest, C.translations m = none) :
      ((C.run (front ++ rest)).walk, (C.run (front ++ rest)).hm) =
        ((C.run front).walk, (C.run front).hm) := by
    simp only [SimConfig.run, SimConfig.runFrom_eq]
    exact Steps.apply_runFrom_append (f := fun σ : SimState => (σ.walk, σ.hm)) front rest _
      fun m hm => processMemref_of_translations_eq_none (h m hm)
  obtain ⟨n, hsame⟩ : ∃ n, SameButBudget n (C.run front) (C.run (C.deleteUncovered front)) := by
    simp only [SimConfig.run, SimConfig.runFrom_eq, SimConfig.deleteUncovered]
    refine Steps.runFrom_filter_related ⟨C.simRefs, rfl, hbudget, hbudget⟩ ?_ ?_
    · intro n s hs σ' hσ' _
      exact hσ'.processMemref (noWarmup_of_mem_steps hskip hwarm hfrac s hs) s.2
    · rintro n s hs σ' ⟨simRefs, heq, hn, hn'⟩ hdeleted
      have huncovered : C.isUncovered s.2 = true := by simpa using hdeleted
      have htrans : C.translations s.2 = none := by
        simpa using (Bool.and_eq_true_iff.mp huncovered).2
      have hleft : s.1.tlb.simRefs = simRefs := by rw [heq]
      have hne : s.1.tlb.simRefs ≠ 0 := by
        intro hzero
        simp [← hleft, hzero] at hn
      obtain ⟨simRefs', hle, hstep⟩ := (hfront s hs huncovered).processMemref hfrac
        (noWarmup_of_mem_steps hskip hwarm hfrac s hs) htrans hne
      rw [hleft] at hle
      rw [hstep]
      exact ⟨rfl, simRefs', by rw [heq], by omega, by omega⟩
  obtain ⟨simRefs, heq, -⟩ := hsame
  have hall := hcut front rest hrest
  have hkept := hcut (C.deleteUncovered front) (C.deleteUncovered rest) fun m hm =>
    hrest m (List.mem_of_mem_filter hm)
  rw [SimConfig.deleteUncovered, List.filter_append]
  simp only [Prod.mk.injEq] at hall hkept
  exact ⟨hkept.1.trans (by rw [hall.1, heq]), hkept.2.trans (by rw [hall.2, heq])⟩

/-- A prefetch between two reads, and a read behind them, to a page that is in no table. -/
theorem prefetch_between_reads_deleted :
    let C := sampleConfig [0x7000]
    let trace := [readAt 0x7010, prefetchAt 0x9000, readAt 0x7018, readBy 2 0x9000]
    C.deleteUncovered trace = [readAt 0x7010, readAt 0x7018] ∧
      (C.run (C.deleteUncovered trace)).walk = (C.run trace).walk ∧
      (C.run (C.deleteUncovered trace)).hm = (C.run trace).hm :=
  ⟨by decide +kernel, @deleteUncovered_sameContents (sampleConfig [0x7000]) rfl rfl rfl
    [readAt 0x7010, prefetchAt 0x9000, readAt 0x7018] [readBy 2 0x9000]
    (by decide) (by decide +kernel) (by decide +kernel)⟩

/-- Four threads read one page, and before the second of them a fifth one reads a page that is
in no table. It takes one of the four cores, so that two of the others share a core and its
TLB, and there is one walk less. -/
theorem uncovered_read_hides_walk :
    let C := sampleConfig [0x7000]
    let trace := [readBy 1 0x7010, readBy 9 0x9000, readBy 2 0x7010, readBy 3 0x7010,
      readBy 4 0x7010]
    C.deleteUncovered trace =
        [readBy 1 0x7010, readBy 2 0x7010, readBy 3 0x7010, readBy 4 0x7010] ∧
      (C.run trace).hm.total = 3 ∧ (C.run (C.deleteUncovered trace)).hm.total = 4 := by
  decide +kernel

end SagePTE.Simulator
