import SagePTE.Simulator.WalkCount

/-!
# The end of the warm-up

`check_warmed_up` takes one off the warm-up count each time it is called, and it is called
twice for a record: at the start, and again when the record has been simulated. Only the
second call resets the statistics and clears the histogram. So records that are simulated
count double, markers and records without a translation count once, and whether there is a
reset at all depends on which of the calls comes to zero.

## Main definitions

* `SimState.SameCounters` — two states with the same counters
* `SimConfig.simulatedBefore` — how many of the first records are simulated
* `SimState.Countdown` — the warm-up count after a number of calls
* `SimConfig.ResetsExactly` — the reset is made upon one record and upon no other

## Main results

* `SimState.simulate_counters` — the counters before the end of a record
* `resets_iff` — the record that resets
* `warmup_exact_iff` — when this is the record that the option names
-/

set_option autoImplicit false

namespace SagePTE.Simulator

namespace SimState

variable {C : SimConfig} {σ σ' : SimState}

/-! ### The counters after a record -/

/-- The states have the same counters. -/
structure SameCounters (σ σ' : SimState) : Prop where
  skipRefs : σ'.skipRefs = σ.skipRefs
  warmupRefs : σ'.warmupRefs = σ.warmupRefs
  simRefs : σ'.simRefs = σ.simRefs
  isWarmedUp : σ'.isWarmedUp = σ.isWarmedUp

theorem translated_sameCounters (σ : SimState) (core : ℕ) (p : PageTableInfo × PageTableInfo)
    (m : Memref) : σ.SameCounters (σ.translated C core p m) := by
  simp only [translated]
  split_ifs <;> exact ⟨rfl, rfl, rfl, rfl⟩

/-- The counters before the end of a record: it is skipped, or finds no references left, or
`check_warmed_up` has been called once. -/
theorem simulate_counters (σ : SimState) (m : Memref) :
    (∃ r, σ.simulate C m = .error r ∧
      ((σ.skipRefs ≠ 0 ∧ SameCounters { σ with skipRefs := σ.skipRefs - 1 } r.2) ∨
        (σ.skipRefs = 0 ∧ σ.noRefsLeft C = true ∧ σ.SameCounters r.2) ∨
        (σ.skipRefs = 0 ∧ σ.noRefsLeft C = false ∧ (σ.checkWarmedUp C).2.SameCounters r.2))) ∨
    ∃ σ', σ.simulate C m = .ok σ' ∧ σ.skipRefs = 0 ∧ σ.noRefsLeft C = false ∧
      (σ.checkWarmedUp C).2.SameCounters σ' := by
  have hfirst {core : ℕ} {σ₁ : SimState} (hsched : σ.scheduleRef C m = .ok (core, σ₁)) :
      σ.skipRefs = 0 ∧ σ.noRefsLeft C = false ∧ (σ.checkWarmedUp C).2.SameCounters σ₁ := by
    obtain ⟨hskip, hleft, -, -, -, rfl⟩ := scheduleRef_eq_ok_iff.mp hsched
    exact ⟨hskip, hleft, rfl, rfl, rfl, rfl⟩
  rcases σ.simulate_cases (C := C) m with ⟨r, hsched, hsim⟩ | ⟨core, σ₁, hsched,
    ⟨-, hsim⟩ | ⟨p, -, ⟨-, hsim⟩ | ⟨-, σ', hsim, hsame⟩⟩⟩
  · refine .inl ⟨r, hsim, ?_⟩
    rcases (scheduleRef_eq_error hsched).2 with ⟨hskip, heq⟩ |
      ⟨hskip, ⟨hleft, heq⟩ | ⟨hleft, ⟨-, -, heq⟩ | ⟨-, heq⟩⟩⟩ <;> rw [heq]
    · exact .inl ⟨hskip, rfl, rfl, rfl, rfl⟩
    · exact .inr (.inl ⟨hskip, hleft, rfl, rfl, rfl, rfl⟩)
    · exact .inr (.inr ⟨hskip, hleft, rfl, rfl, rfl, rfl⟩)
    · exact .inr (.inr ⟨hskip, hleft, rfl, rfl, rfl, rfl⟩)
  · obtain ⟨hskip, hleft, h⟩ := hfirst hsched
    exact .inl ⟨_, hsim, .inr (.inr ⟨hskip, hleft, h.1, h.2, h.3, h.4⟩)⟩
  · obtain ⟨hskip, hleft, h⟩ := hfirst hsched
    have ht := σ₁.translated_sameCounters (C := C) core p m
    exact .inl ⟨_, hsim, .inr (.inr ⟨hskip, hleft, ht.1.trans h.1, ht.2.trans h.2,
      ht.3.trans h.3, ht.4.trans h.4⟩)⟩
  · obtain ⟨hskip, hleft, h⟩ := hfirst hsched
    have ht := σ₁.translated_sameCounters (C := C) core p m
    exact .inr ⟨σ', hsim, hskip, hleft, hsame.skipRefs.trans (ht.1.trans h.1),
      hsame.warmupRefs.trans (ht.2.trans h.2), hsame.simRefs.trans (ht.3.trans h.3),
      hsame.isWarmedUp.trans (ht.4.trans h.4)⟩

/-! ### The countdown -/

theorem toNat_pos {x : BitVec 64} (hx : x ≠ 0) : 0 < x.toNat := by
  bv_omega

theorem toNat_sub_one {x : BitVec 64} (hx : x ≠ 0) : (x - 1).toNat = x.toNat - 1 := by
  bv_omega

/-- The state after a number of calls of `check_warmed_up`, none of them skipped. -/
def Countdown (C : SimConfig) (calls : ℕ) (σ : SimState) : Prop :=
  σ.skipRefs = 0 ∧
    ((calls < C.warmupRefs.toNat ∧ σ.isWarmedUp = false ∧
        σ.warmupRefs.toNat = C.warmupRefs.toNat - calls) ∨
      (C.warmupRefs.toNat ≤ calls ∧ σ.isWarmedUp = true))

theorem Countdown.congr {calls : ℕ} (h : σ.Countdown C calls) (hskip : σ'.skipRefs = σ.skipRefs)
    (hwarmup : σ'.warmupRefs = σ.warmupRefs) (his : σ'.isWarmedUp = σ.isWarmedUp) :
    σ'.Countdown C calls := by
  rwa [Countdown, hskip, hwarmup, his]

theorem Countdown.sameCounters {calls : ℕ} (h : σ.Countdown C calls) (hsame : σ.SameCounters σ') :
    σ'.Countdown C calls :=
  h.congr hsame.skipRefs hsame.warmupRefs hsame.isWarmedUp

theorem Countdown.isWarmedUp_iff {calls : ℕ} (h : σ.Countdown C calls) :
    σ.isWarmedUp = true ↔ C.warmupRefs.toNat ≤ calls := by
  rcases h.2 with ⟨hlt, his, -⟩ | ⟨hle, his⟩
  · simp [his, hlt]
  · simp [his, hle]

/-- Once the count is down, further calls change nothing. -/
theorem Countdown.mono {calls calls' : ℕ} (h : σ.Countdown C calls) (his : σ.isWarmedUp = true)
    (hle : calls ≤ calls') : σ.Countdown C calls' :=
  ⟨h.1, .inr ⟨(h.isWarmedUp_iff.mp his).trans hle, his⟩⟩

/-- One call. -/
theorem Countdown.check (hfrac : C.warmupFraction = 0) {calls : ℕ} (h : σ.Countdown C calls) :
    (σ.checkWarmedUp C).2.Countdown C (calls + 1) ∧
      ((σ.checkWarmedUp C).1 = true ↔ C.warmupRefs.toNat ≤ calls + 1) := by
  rcases h.2 with ⟨hlt, his, hleft⟩ | ⟨hle, his⟩
  · have hne : σ.warmupRefs ≠ 0 := by
      intro hzero
      simp [hzero] at hleft
      omega
    have hpred := toNat_sub_one hne
    simp only [checkWarmedUp, his, hfrac, lt_irrefl, false_and, if_false, hne, ne_eq,
      not_false_eq_true, if_true, Bool.false_eq_true]
    split_ifs with hzero
    · -- the call that comes to zero
      have hlast : σ.warmupRefs.toNat = 1 := by
        rw [hzero] at hpred
        simp at hpred
        omega
      exact ⟨⟨h.1, .inr ⟨by omega, rfl⟩⟩, by simp; omega⟩
    · have hmore : (σ.warmupRefs - 1).toNat ≠ 0 := fun h0 =>
        hzero (BitVec.eq_of_toNat_eq (by simpa using h0))
      exact ⟨⟨h.1, .inl ⟨by omega, rfl, by simp only [hpred]; omega⟩⟩, by simp; omega⟩
  · have hcheck : σ.checkWarmedUp C = (true, σ) := by simp [checkWarmedUp, his]
    rw [hcheck]
    exact ⟨h.mono his (Nat.le_succ calls), by simp; omega⟩

/-- The call at the end of a record that is simulated. -/
theorem Countdown.countRef (hfrac : C.warmupFraction = 0) {calls : ℕ} (h : σ.Countdown C calls) :
    (σ.countRef C).Countdown C (calls + 1) := by
  have hcheck := (h.check hfrac).1
  simp only [SimState.countRef]
  split_ifs with his
  · exact (h.mono his (Nat.le_succ calls)).congr rfl rfl rfl
  · exact hcheck.congr rfl rfl rfl
  · exact hcheck.congr rfl rfl rfl

/-- A record that finds no references left makes no call, and then the count is down. -/
theorem Countdown.of_noRefsLeft {calls : ℕ} (h : σ.Countdown C calls)
    (hleft : σ.noRefsLeft C = true) : σ.Countdown C (calls + 1) := by
  have hzero : σ.warmupRefs = 0 := by
    simp only [noRefsLeft, Bool.and_eq_true, decide_eq_true_eq] at hleft
    exact hleft.1.1
  rcases h.2 with ⟨hlt, -, hcount⟩ | ⟨-, his⟩
  · simp [hzero] at hcount
    omega
  · exact h.mono his (Nat.le_succ calls)

/-- One record: two calls if it is simulated, else one. It resets if the second call comes
to zero. -/
theorem Countdown.processMemref (hfrac : C.warmupFraction = 0) {calls : ℕ}
    (h : σ.Countdown C calls) (m : Memref) :
    (σ.processMemref C m).2.Countdown C (calls + 1 + (σ.isSimulated C m).toNat) ∧
      (σ.resets C m = true ↔ σ.isSimulated C m = true ∧ calls + 2 = C.warmupRefs.toNat) := by
  rw [processMemref_eq]
  rcases σ.simulate_counters (C := C) m with
    ⟨r, hsim, hcases⟩ | ⟨σ', hsim, -, -, hsame⟩
  · simp only [isSimulated, resets, hsim, Except.isOk, Except.toBool]
    refine ⟨?_, by simp⟩
    rcases hcases with ⟨hskip, -⟩ | ⟨-, hleft, hsame⟩ | ⟨-, -, hsame⟩
    · exact absurd h.1 hskip
    · exact (h.of_noRefsLeft hleft).sameCounters hsame
    · exact (h.check hfrac).1.sameCounters hsame
  · have hσ' : σ'.Countdown C (calls + 1) := (h.check hfrac).1.sameCounters hsame
    have hsecond := (hσ'.check hfrac).2
    simp only [isSimulated, resets, hsim, Except.isOk, Except.toBool]
    refine ⟨hσ'.countRef hfrac, ?_⟩
    -- the second call comes to zero, and the first one has not
    rw [Bool.and_eq_true, Bool.not_eq_true', ← Bool.not_eq_true, hσ'.isWarmedUp_iff, hsecond,
      true_and]
    omega

end SimState

open SimState

/-! ### The record that resets -/

variable {C : SimConfig} {trace : List Memref}

/-- How many of the first records are simulated. -/
def SimConfig.simulatedBefore (C : SimConfig) (trace : List Memref) (n : ℕ) : ℕ :=
  ((C.steps trace).take n).countP fun s => s.1.isSimulated C s.2

theorem simulatedBefore_succ {n : ℕ} {s : SimState × Memref}
    (hs : (C.steps trace)[n]? = some s) :
    C.simulatedBefore trace (n + 1) =
      C.simulatedBefore trace n + (s.1.isSimulated C s.2).toNat := by
  rw [SimConfig.simulatedBefore, SimConfig.simulatedBefore, List.take_add_one, hs,
    Option.toList_some, List.countP_append]
  cases hsim : s.1.isSimulated C s.2 <;> simp [hsim]

theorem simulatedBefore_mono : Monotone (C.simulatedBefore trace) := fun _ _ hle =>
  (List.take_sublist_take_left hle).countP_le

/-- The warm-up count before a record: each record before it counts once, and once more if
it was simulated. -/
theorem countdown_of_getElem? (hskip : C.skipRefs = 0) (hfrac : C.warmupFraction = 0)
    (hW : C.warmupRefs ≠ 0) :
    ∀ (n : ℕ) (s : SimState × Memref), (C.steps trace)[n]? = some s →
      s.1.Countdown C (n + C.simulatedBefore trace n) := by
  refine Steps.getElem?_stepsFrom_induction
    (P := fun n (σ : SimState) => σ.Countdown C (n + C.simulatedBefore trace n)) ?_
    fun n s hs hσ => ?_
  · have hpos := toNat_pos hW
    exact ⟨hskip, .inl ⟨by simpa [SimConfig.simulatedBefore] using hpos, rfl,
      by simp [SimConfig.simulatedBefore, SimConfig.initial]⟩⟩
  · have hnext := (hσ.processMemref hfrac s.2).1
    rw [simulatedBefore_succ hs]
    convert hnext using 1
    omega

/-- The record that resets: a simulated one, which with the simulated records up to it
makes as many calls as the option says. -/
theorem resets_iff (hskip : C.skipRefs = 0) (hfrac : C.warmupFraction = 0)
    (hW : C.warmupRefs ≠ 0) {n : ℕ} {s : SimState × Memref}
    (hs : (C.steps trace)[n]? = some s) :
    s.1.resets C s.2 = true ↔ s.1.isSimulated C s.2 = true ∧
      n + 1 + C.simulatedBefore trace (n + 1) = C.warmupRefs.toNat := by
  have hcount := countdown_of_getElem? hskip hfrac hW n s hs
  rw [(hcount.processMemref hfrac s.2).2, simulatedBefore_succ hs]
  refine and_congr_right fun hsim => ?_
  rw [hsim, Bool.toNat_true]
  omega

/-- The reset is made upon the `n`-th record, counted from one, and upon no other. -/
def SimConfig.ResetsExactly (C : SimConfig) (trace : List Memref) (n : ℕ) : Prop :=
  ∀ i s, (C.steps trace)[i]? = some s → (s.1.resets C s.2 = true ↔ i + 1 = n)

/-- There is at most one reset. -/
theorem resets_unique (hskip : C.skipRefs = 0) (hfrac : C.warmupFraction = 0)
    (hW : C.warmupRefs ≠ 0) {i j : ℕ} {s t : SimState × Memref}
    (hs : (C.steps trace)[i]? = some s) (ht : (C.steps trace)[j]? = some t)
    (hi : s.1.resets C s.2 = true) (hj : t.1.resets C t.2 = true) : i = j := by
  -- the number of calls grows with each record
  have hgrows : StrictMono fun n => n + C.simulatedBefore trace n :=
    strictMono_id.add_monotone simulatedBefore_mono
  have hcalls : i + 1 + C.simulatedBefore trace (i + 1) = j + 1 + C.simulatedBefore trace (j + 1) :=
    ((resets_iff hskip hfrac hW hs).mp hi).2.trans ((resets_iff hskip hfrac hW ht).mp hj).2.symm
  exact Nat.succ_injective (hgrows.injective hcalls)

/-- The histogram has the walks of the records behind the one that resets. -/
theorem total_run_hm_of_resets (hskip : C.skipRefs = 0) (hfrac : C.warmupFraction = 0)
    (hW : C.warmupRefs ≠ 0) {n : ℕ} {s : SimState × Memref}
    (hs : (C.steps trace)[n]? = some s) (hresets : s.1.resets C s.2 = true) :
    (C.run trace).hm.total =
      ((C.steps trace).drop (n + 1)).countP fun s => (s.1.walkVector C s.2).isSome := by
  rw [total_run_hm]
  refine Steps.sinceLast_of_getElem? hs hresets fun t ht => ?_
  obtain ⟨j, hj⟩ := List.mem_iff_getElem?.mp ht
  rw [List.getElem?_drop] at hj
  by_contra hother
  have heq := resets_unique hskip hfrac hW hs hj hresets (by simpa using hother)
  omega

/-- **The end of the warm-up.** The statistics are reset upon the one simulated record that
with the simulated records up to it makes the number that the option gives, and the
histogram has the walks of the records behind it. The `W`-th record is never the one that
resets: the reset is where the option says exactly if the run ends before this record, and
without a reset. -/
theorem warmup_exact_iff (hskip : C.skipRefs = 0) (hfrac : C.warmupFraction = 0)
    (hW : C.warmupRefs ≠ 0) (trace : List Memref) :
    (∀ n s, (C.steps trace)[n]? = some s →
      (s.1.resets C s.2 = true ↔ s.1.isSimulated C s.2 = true ∧
        n + 1 + C.simulatedBefore trace (n + 1) = C.warmupRefs.toNat) ∧
      (s.1.resets C s.2 = true → (C.run trace).hm.total =
        ((C.steps trace).drop (n + 1)).countP fun s => (s.1.walkVector C s.2).isSome)) ∧
    (C.ResetsExactly trace C.warmupRefs.toNat ↔
      (C.steps trace).length < C.warmupRefs.toNat ∧
        ∀ n s, (C.steps trace)[n]? = some s → s.1.isSimulated C s.2 = true →
          n + 1 + C.simulatedBefore trace (n + 1) ≠ C.warmupRefs.toNat) := by
  refine ⟨fun n s hs => ⟨resets_iff hskip hfrac hW hs,
    total_run_hm_of_resets hskip hfrac hW hs⟩, ?_⟩
  have hpos := toNat_pos hW
  constructor
  · intro hexact
    have hshort : (C.steps trace).length < C.warmupRefs.toNat := by
      by_contra hlong
      have hlt : C.warmupRefs.toNat - 1 < (C.steps trace).length := by omega
      have hs := List.getElem?_eq_getElem hlt
      have hreset := (hexact _ _ hs).mpr (by omega)
      -- the record would have to be simulated, and then counts twice
      obtain ⟨hsim, hcount⟩ := (resets_iff hskip hfrac hW hs).mp hreset
      rw [simulatedBefore_succ hs, hsim, Bool.toNat_true] at hcount
      omega
    refine ⟨hshort, fun n s hs hsim hcount => ?_⟩
    have hn := (hexact n s hs).mp ((resets_iff hskip hfrac hW hs).mpr ⟨hsim, hcount⟩)
    have := (List.getElem?_eq_some_iff.mp hs).1
    omega
  · rintro ⟨hshort, hnone⟩ n s hs
    have hlt := (List.getElem?_eq_some_iff.mp hs).1
    constructor
    · intro hreset
      obtain ⟨hsim, hcount⟩ := (resets_iff hskip hfrac hW hs).mp hreset
      exact absurd hcount (hnone n s hs hsim)
    · intro hn
      omega

/-- Four warm-up references and one read: the run is over before the reset. -/
theorem one_read_of_four_no_reset :
    let C := { sampleConfig [0x7000] with warmupRefs := 4 }
    C.ResetsExactly [readAt 0x7010] 4 := by
  intro C
  refine (warmup_exact_iff (C := C) rfl rfl (by decide) _).2.mpr ⟨by decide +kernel, ?_⟩
  intro n s hs _
  have hlen : (C.steps [readAt 0x7010]).length = 1 := by decide +kernel
  have hlt := (List.getElem?_eq_some_iff.mp hs).1
  have hle : C.simulatedBefore [readAt 0x7010] (n + 1) ≤ 1 := by
    exact hlen ▸ List.countP_le_length.trans (List.length_take_le' _ _)
  have hfour : C.warmupRefs.toNat = 4 := rfl
  omega

/-- With two warm-up references, the first one resets and the second one does not: the
histogram has the walk of the second reference. -/
theorem two_reads_reset_upon_first :
    let C := { sampleConfig [0x7000, 0x8000] with warmupRefs := 2 }
    let trace := [readAt 0x7010, readAt 0x8010]
    (C.steps trace).map (fun s => s.1.resets C s.2) = [true, false] ∧
      (C.run trace).hm.total = 1 := by
  decide +kernel

end SagePTE.Simulator
