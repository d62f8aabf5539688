import SagePTE.Simulator.Steps
import SagePTE.Simulator.WalkFormat

/-!
# Walks over tables that the host does not map

`one_pw_at_host` returns at once if the host table has no record for the guest table, and
pushes nothing. The walk goes on with the next guest level, and the vector that is counted
at its end is five entries shorter for each level of this kind. Levels that the guest
page-walk caches cover are pushed without a look at the host table.

## Main definitions

* `Walker.unmapped` — the guest levels that push nothing
* `SimState.WalkComplete` — the walk of a record, if it makes one, pushes all levels

## Main results

* `Walker.length_tlbMiss` — the length of a vector
* `keys_length_iff` — when all vectors of a run are complete
-/

set_option autoImplicit false

namespace SagePTE.Simulator

/-! ### The length of a vector -/

namespace Walker

variable (W : Walker)

/-- The guest levels above a hit level whose tables the host does not map. -/
def unmapped (guestIt : PageTableInfo) (hitLevel : ℕ) : List (Fin 5) :=
  (levelsAbove hitLevel).filter fun level => (W.hostPageTable (guestIt.all level <<< 12)).isNone

/-- The hit level of the guest page-walk caches that a walk starts from. -/
def guestHitLevel (vaddr : BitVec 64) (w : WalkState) : ℕ :=
  (W.pwcSearch .guest vaddr { w with pageWalkRes := [] }).1

@[simp] theorem length_push (w : WalkState) (r : CacheResult) :
    (w.push r).pageWalkRes.length = w.pageWalkRes.length + 1 := by
  simp [WalkState.push]

@[simp] theorem length_makeRequest (core : ℕ) (w : WalkState) (type : TraceType)
    (baseAddr addrToFind : BitVec 64) (level : ℕ) :
    (W.makeRequest core w type baseAddr addrToFind level).pageWalkRes.length =
      w.pageWalkRes.length + 1 :=
  length_push _ _

@[simp] theorem pageWalkRes_pwcSearch (side : PwcSide) (addr : BitVec 64) (w : WalkState) :
    (W.pwcSearch side addr w).2.pageWalkRes = w.pageWalkRes := rfl

@[simp] theorem length_hostLevel (core : ℕ) (hostIt : PageTableInfo) (guestAddr : BitVec 64)
    (levelGuest hitLevel : ℕ) (w : WalkState) (level : Fin 5) :
    (W.hostLevel core hostIt guestAddr levelGuest hitLevel w level).pageWalkRes.length =
      w.pageWalkRes.length + 1 := by
  unfold hostLevel
  split_ifs <;> simp

/-- A walk of the host table pushes five entries, or none. -/
theorem length_onePwAtHost (core : ℕ) (w : WalkState) (guestAddr offset : BitVec 64)
    (levelGuest : ℕ) :
    (W.onePwAtHost core w guestAddr offset levelGuest).pageWalkRes.length =
      w.pageWalkRes.length +
        if (W.hostPageTable ((guestAddr >>> 12) <<< 12)).isNone then 0 else 5 := by
  unfold onePwAtHost
  cases W.hostPageTable ((guestAddr >>> 12) <<< 12) <;> simp

theorem length_guestLevel (core : ℕ) (guestIt : PageTableInfo) (vaddr : BitVec 64)
    (hitLevel : ℕ) (w : WalkState) (level : Fin 5) :
    (W.guestLevel core guestIt vaddr hitLevel w level).pageWalkRes.length =
      w.pageWalkRes.length + if hitLevel < level.val ∧
        (W.hostPageTable (guestIt.all level <<< 12)).isNone then 0 else 5 := by
  unfold guestLevel
  split_ifs with hlt hmiss hmiss heq
  · rw [length_onePwAtHost, shiftLeft_shiftRight_shiftLeft, if_pos hmiss.2]
  · rw [length_onePwAtHost, shiftLeft_shiftRight_shiftLeft, if_neg (by tauto)]
  all_goals simp_all

/-- **The length of a vector.** -/
theorem length_tlbMiss (core : ℕ) (guestIt it : PageTableInfo) (vaddr pageOffset : BitVec 64)
    (w : WalkState) :
    (W.tlbMiss core guestIt it vaddr pageOffset w).pageWalkRes.length +
      5 * (W.unmapped guestIt (W.guestHitLevel vaddr w)).length = 25 := by
  have hcount : (W.unmapped guestIt (W.guestHitLevel vaddr w)).length =
      ([1, 2, 3, 4] : List (Fin 5)).countP fun level => W.guestHitLevel vaddr w < level.val ∧
        (W.hostPageTable (guestIt.all level <<< 12)).isNone := by
    rw [unmapped, levelsAbove, List.filter_filter, ← List.countP_eq_length_filter]
    simp only [Bool.decide_and, Bool.decide_eq_true, Bool.and_comm]
  have hall : (W.tlbMiss core guestIt it vaddr pageOffset w).pageWalkRes.length =
      ([1, 2, 3, 4].foldl (W.guestLevel core guestIt vaddr (W.guestHitLevel vaddr w))
        (W.pwcSearch .guest vaddr { w with pageWalkRes := [] }).2).pageWalkRes.length + 5 := by
    simp [tlbMiss, guestHitLevel]
  rw [hall, hcount]
  simp only [List.foldl_cons, List.foldl_nil, length_guestLevel, pageWalkRes_pwcSearch,
    List.length_nil, List.countP_cons, List.countP_nil, decide_eq_true_eq]
  split_ifs <;> rfl

end Walker

/-! ### The vectors of a run -/

theorem Histogram.exists_key_bump (v : List CacheResult) (h : Histogram) :
    ∃ e ∈ h.bump v, e.1 = v := by
  induction h with
  | nil => exact ⟨(v, 1), by simp [bump], rfl⟩
  | cons a h ih =>
    obtain ⟨u, n⟩ := a
    simp only [bump]
    split_ifs with heq
    · exact ⟨_, List.mem_cons_self, heq⟩
    · exact ⟨_, List.mem_cons_self, rfl⟩
    · obtain ⟨e, he, hkey⟩ := ih
      exact ⟨e, List.mem_cons_of_mem _ he, hkey⟩

/-- If the record walks, the host maps the tables of all guest levels above the hit level of
the guest search. -/
def SimState.WalkComplete (C : SimConfig) (σ : SimState) (m : Memref) : Prop :=
  ∀ core σ₁ p, σ.scheduleRef C m = .ok (core, σ₁) → C.translations m = some p →
    (σ₁.tlbLookup C m).1 = false →
    C.walker.unmapped p.1 (C.walker.guestHitLevel (virtualPage m) σ₁.walk) = []

open SimState

variable {C : SimConfig}

theorem SimState.walkComplete_iff (σ : SimState) (m : Memref) :
    σ.WalkComplete C m ↔ ∀ v, σ.walkVector C m = some v → v.length = 25 := by
  have hlength (core : ℕ) (p : PageTableInfo × PageTableInfo) (σ₁ : SimState) :
      C.walker.unmapped p.1 (C.walker.guestHitLevel (virtualPage m) σ₁.walk) = [] ↔
        (C.walker.tlbMiss core p.1 p.2 (virtualPage m) (pageOffset m)
          σ₁.walk).pageWalkRes.length = 25 := by
    have hall := C.walker.length_tlbMiss core p.1 p.2 (virtualPage m) (pageOffset m) σ₁.walk
    rw [← List.length_eq_zero_iff]
    omega
  constructor
  · intro h v hv
    unfold walkVector at hv
    split at hv
    · cases hv
    next core σ₁ hsched =>
    obtain ⟨p, htrans, hmiss⟩ := Option.bind_eq_some_iff.mp hv
    split_ifs at hmiss with hhit
    obtain rfl := Option.some.inj hmiss
    exact (hlength core p σ₁).mp (h core σ₁ p hsched htrans (by simpa using hhit))
  · intro h core σ₁ p hsched htrans hmiss
    refine (hlength core p σ₁).mpr (h _ ?_)
    simp [walkVector, hsched, htrans, hmiss]

/-- **The length of the recorded vectors.** In all states of a run each vector of the
histogram has 25 entries exactly if each walk that is made, other than one that the end of
the warm-up clears away, finds the tables of the levels it has to walk for. -/
theorem keys_length_iff (trace : List Memref) :
    (∀ n, ∀ e ∈ (C.run (trace.take n)).hm, e.1.length = 25) ↔
      ∀ s ∈ C.steps trace, s.1.resets C s.2 = false → s.1.WalkComplete C s.2 := by
  constructor
  · intro h s hs hreset
    rw [walkComplete_iff]
    intro v hv
    obtain ⟨n, hn⟩ := List.mem_iff_getElem?.mp hs
    have hkeys := h (n + 1)
    rw [C.run_take_succ hn, processMemref_hm, hreset, hv] at hkeys
    obtain ⟨e, he, rfl⟩ := Histogram.exists_key_bump v s.1.hm
    exact hkeys e he
  · intro h n
    refine C.run_steps_induction (P := fun σ => ∀ e ∈ σ.hm, e.1.length = 25)
      (by simp [SimConfig.initial]) fun s hs hσ e he => ?_
    rw [C.steps_take] at hs
    rw [processMemref_hm] at he
    split_ifs at he with hreset
    · cases he
    · have hcomplete := (walkComplete_iff s.1 s.2).mp
        (h s (List.mem_of_mem_take hs) (by simpa using hreset))
      cases hv : s.1.walkVector C s.2 with
      | none =>
        rw [hv] at he
        exact hσ e he
      | some v =>
        rw [hv] at he
        rcases Histogram.key_of_mem_bump he with hkey | ⟨e', he', hkey⟩
        · exact hkey ▸ hcomplete v hv
        · exact hkey ▸ hσ e' he'

/-- A host that does not map the last guest table, in frame 4. -/
def gapConfig : SimConfig :=
  { sampleConfig [0x7000] with
    hostPageTable := .ofList ([0x1000, 0x2000, 0x3000, 0x5000].map fun gpa =>
      (gpa, ⟨0x11, 0x12, 0x13, 0x14, 0x15⟩)) }

/-- The first read is counted with a vector of 20 entries. -/
theorem gapConfig_short_key :
    ∃ e ∈ (gapConfig.run [readAt 0x7010]).hm, e.1.length = 20 := by
  decide +kernel

end SagePTE.Simulator
