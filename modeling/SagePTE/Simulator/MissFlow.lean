import Mathlib.Algebra.BigOperators.Fin
import Mathlib.Algebra.BigOperators.Group.Finset.Piecewise
import SagePTE.Simulator.Effects
import SagePTE.Simulator.RequestLines

/-!
# The flow of misses

A miss is counted in the cache that has it, and the request that it makes of the parent is
counted there, as a hit or as a miss. A hit is counted in the cache and reported to the
parent. So the accesses that a cache counts are the misses of its children, and its child
hits are their hits. This needs that a piece that a child hands on is one access of the
parent, which it is if both have lines of one size, and that the parent makes no requests of
its own.

## Main definitions

* `DeviceStats.hits`, `DeviceStats.misses`, `DeviceStats.accesses` — all buckets together
* `Hierarchy.Flows` — what a request does to the balance of a cache and its children

## Main results

* `Hierarchy.requestFuel_flows` — the balance along a request
* `miss_flow_conserved` — the balance after requests on the L1 caches
-/

set_option autoImplicit false

namespace SagePTE.Simulator

open Finset

/-! ### Counters -/

namespace DeviceStats

variable (st : DeviceStats)

/-- The hits of all buckets. -/
def hits : ℕ := st.numHits + ∑ b, st.hitStatistics b + st.numPrefetchHits

/-- The misses of all buckets. -/
def misses : ℕ := st.numMisses + ∑ b, st.missStatistics b + st.numPrefetchMisses

/-- The accesses of all buckets. -/
def accesses : ℕ := st.hits + st.misses

/-- No contention request has been counted. -/
def NoContention : Prop :=
  ∀ b : Fin 6, 4 ≤ b.val → st.hitStatistics b = 0 ∧ st.missStatistics b = 0

private theorem sum_bump (f : Fin 6 → ℕ) (b : Fin 6) :
    ∑ c, Function.update f b (f b + 1) c = ∑ c, f c + 1 := by
  rw [Finset.sum_update_of_mem (mem_univ b), ← Finset.add_sum_erase univ f (mem_univ b),
    Finset.sdiff_singleton_eq_erase]
  omega

/-- An access is counted once. -/
theorem access_counts (type : TraceType) (hit : Bool) :
    (st.access type hit).hits = st.hits + hit.toNat ∧
      (st.access type hit).misses = st.misses + (!hit).toNat ∧
      (st.access type hit).numChildHits = st.numChildHits := by
  simp only [access, baseAccess, hits, misses]
  cases hit <;> cases typeIsPrefetch type <;> cases walkBucket type <;>
    simp [sum_bump] <;> omega

/-- A TLB counts prefetches like other accesses. -/
theorem baseAccess_accesses (type : TraceType) (hit : Bool) :
    (st.baseAccess type hit).accesses = st.accesses + 1 := by
  simp only [baseAccess, accesses, hits, misses]
  cases hit <;> cases walkBucket type <;> simp [sum_bump] <;> omega

theorem childAccess_counts (hit : Bool) :
    (st.childAccess hit).hits = st.hits ∧ (st.childAccess hit).misses = st.misses ∧
      (st.childAccess hit).numChildHits = st.numChildHits + hit.toNat := by
  cases hit <;> exact ⟨rfl, rfl, rfl⟩

/-- A reset clears all counts, unless there are contention requests among them. -/
theorem reset_counts (h : st.NoContention) :
    st.reset.hits = 0 ∧ st.reset.misses = 0 ∧ st.reset.numChildHits = 0 := by
  have hzero : (∀ b, st.reset.hitStatistics b = 0) ∧ ∀ b, st.reset.missStatistics b = 0 := by
    constructor <;> intro b <;> simp only [reset] <;> split_ifs with hb
    · rfl
    · exact (h b (by omega)).1
    · rfl
    · exact (h b (by omega)).2
  simp only [hits, misses, hzero.1, hzero.2, sum_const_zero]
  exact ⟨rfl, rfl, rfl⟩

end DeviceStats

namespace DeviceState

variable (g : Geometry) (d : DeviceState)

@[simp] theorem accessUpdate_stats (policy : ReplacePolicy) (blockIdx : ℕ) (way : ℤ) :
    (d.accessUpdate g policy blockIdx way).stats = d.stats := by
  cases policy with
  | lfu => rfl
  | fifo => rfl
  | lru =>
    simp only [accessUpdate]
    split_ifs <;> rfl

@[simp] theorem replaceWhichWay_stats (policy : ReplacePolicy) (blockIdx : ℕ) :
    (d.replaceWhichWay g policy blockIdx).2.stats = d.stats := by
  cases policy with
  | lfu => rfl
  | lru => rfl
  | fifo =>
    simp only [replaceWhichWay]
    split <;> rfl

end DeviceState

/-! ### Steps that count nothing -/

variable {ι : Type}

/-- The stores have the same counts. -/
def Store.SameCounts (s s' : Store ι) : Prop :=
  ∀ i, (s' i).stats.hits = (s i).stats.hits ∧ (s' i).stats.misses = (s i).stats.misses ∧
    (s' i).stats.numChildHits = (s i).stats.numChildHits

namespace Store.SameCounts

variable {s s' s'' : Store ι}

theorem refl (s : Store ι) : s.SameCounts s := fun _ => ⟨rfl, rfl, rfl⟩

theorem trans (h : s.SameCounts s') (h' : s'.SameCounts s'') : s.SameCounts s'' := fun i =>
  ⟨(h' i).1.trans (h i).1, (h' i).2.1.trans (h i).2.1, (h' i).2.2.trans (h i).2.2⟩

theorem foldl {α : Type} {f : Store ι → α → Store ι} (l : List α) (s : Store ι)
    (h : ∀ (s : Store ι) (a : α), s.SameCounts (f s a)) : s.SameCounts (l.foldl f s) := by
  induction l generalizing s with
  | nil => exact refl s
  | cons a l ih => exact (h s a).trans (ih (f s a))

variable [DecidableEq ι]

theorem modify (s : Store ι) (i : ι) {f : DeviceState → DeviceState}
    (h : (f (s i)).stats.hits = (s i).stats.hits ∧ (f (s i)).stats.misses = (s i).stats.misses ∧
      (f (s i)).stats.numChildHits = (s i).stats.numChildHits) :
    s.SameCounts (s.modify i f) := by
  intro j
  by_cases hj : j = i
  · subst hj
    rw [Store.modify_self]
    exact h
  · rw [Store.modify_of_ne _ hj]
    exact ⟨rfl, rfl, rfl⟩

end Store.SameCounts

/-! ### The balance of a cache and its children -/

section Balance

variable (p : ι) (kids : Finset ι)

/-- The accesses of the cache, less the misses of the children. -/
def missBalance (s : Store ι) : ℤ :=
  (s p).stats.accesses - ∑ c ∈ kids, ((s c).stats.misses : ℤ)

/-- The child hits of the cache, less the hits of the children. -/
def hitBalance (s : Store ι) : ℤ :=
  (s p).stats.numChildHits - ∑ c ∈ kids, ((s c).stats.hits : ℤ)

/-- The cache has counted a number of accesses that are no misses of children. -/
structure Flows (own : ℤ) (s s' : Store ι) : Prop where
  misses : missBalance p kids s' = missBalance p kids s + own
  hits : hitBalance p kids s' = hitBalance p kids s

variable {p kids} {s s' s'' : Store ι}

namespace Flows

theorem of_sameCounts (h : s.SameCounts s') : Flows p kids 0 s s' := by
  have hmiss : ∑ c ∈ kids, ((s' c).stats.misses : ℤ) = ∑ c ∈ kids, ((s c).stats.misses : ℤ) :=
    Finset.sum_congr rfl fun c _ => by rw [(h c).2.1]
  have hhit : ∑ c ∈ kids, ((s' c).stats.hits : ℤ) = ∑ c ∈ kids, ((s c).stats.hits : ℤ) :=
    Finset.sum_congr rfl fun c _ => by rw [(h c).1]
  constructor
  · simp only [missBalance, DeviceStats.accesses, (h p).1, (h p).2.1, hmiss, Int.add_zero]
  · simp only [hitBalance, (h p).2.2, hhit]

theorem trans {a b : ℤ} (h : Flows p kids a s s') (h' : Flows p kids b s' s'') :
    Flows p kids (a + b) s s'' :=
  ⟨by rw [h'.misses, h.misses, Int.add_assoc], h'.hits.trans h.hits⟩

/-- With a balance of zero, and from cleared counts. -/
theorem balanced (h : Flows p kids 0 s s')
    (hclear : ∀ i, (s i).stats.hits = 0 ∧ (s i).stats.misses = 0 ∧ (s i).stats.numChildHits = 0) :
    (s' p).stats.accesses = ∑ c ∈ kids, (s' c).stats.misses ∧
      (s' p).stats.numChildHits = ∑ c ∈ kids, (s' c).stats.hits := by
  have hmiss : missBalance p kids s = 0 := by simp [missBalance, DeviceStats.accesses, hclear]
  have hhit : hitBalance p kids s = 0 := by simp [hitBalance, hclear]
  have hmiss' := h.misses
  have hhit' := h.hits
  rw [hmiss, Int.add_zero, missBalance, Int.sub_eq_zero] at hmiss'
  rw [hhit, hitBalance, Int.sub_eq_zero] at hhit'
  exact ⟨by exact_mod_cast hmiss', by exact_mod_cast hhit'⟩

theorem sameCounts {a : ℤ} (h : Flows p kids a s s') (h' : s'.SameCounts s'') :
    Flows p kids a s s'' := by
  have hmore := h.trans (of_sameCounts h')
  rwa [Int.add_zero] at hmore

end Flows

variable [DecidableEq ι]

/-- A count of one device, after a change of one. -/
theorem apply_withStats (g : DeviceStats → ℕ) (f : DeviceStats → DeviceStats) {i : ι} {d : ℕ}
    (h : g (f (s i).stats) = g (s i).stats + d) (j : ι) :
    (g (s.modify i (fun x => x.withStats f) j).stats : ℤ) =
      g (s j).stats + if j = i then (d : ℤ) else 0 := by
  by_cases hj : j = i
  · subst hj
    rw [Store.modify_self, DeviceState.withStats, h, if_pos rfl, Nat.cast_add]
  · rw [Store.modify_of_ne _ hj, if_neg hj, Int.add_zero]

theorem sum_withStats (g : DeviceStats → ℕ) (f : DeviceStats → DeviceStats) {i : ι} {d : ℕ}
    (h : g (f (s i).stats) = g (s i).stats + d) :
    ∑ c ∈ kids, (g (s.modify i (fun x => x.withStats f) c).stats : ℤ) =
      ∑ c ∈ kids, (g (s c).stats : ℤ) + if i ∈ kids then (d : ℤ) else 0 := by
  rw [Finset.sum_congr rfl fun c _ => apply_withStats g f h c, Finset.sum_add_distrib,
    Finset.sum_ite_eq']

variable (p kids)

/-- The balances after a change of the counts of one device. -/
theorem balance_withStats (f : DeviceStats → DeviceStats) {i : ι} {dh dm dc : ℕ}
    (hhits : (f (s i).stats).hits = (s i).stats.hits + dh)
    (hmisses : (f (s i).stats).misses = (s i).stats.misses + dm)
    (hchild : (f (s i).stats).numChildHits = (s i).stats.numChildHits + dc) :
    missBalance p kids (s.modify i fun x => x.withStats f) = missBalance p kids s +
        (if p = i then (dh + dm : ℤ) else 0) - (if i ∈ kids then (dm : ℤ) else 0) ∧
      hitBalance p kids (s.modify i fun x => x.withStats f) = hitBalance p kids s +
        (if p = i then (dc : ℤ) else 0) - (if i ∈ kids then (dh : ℤ) else 0) := by
  have hacc : (f (s i).stats).accesses = (s i).stats.accesses + (dh + dm) := by
    rw [DeviceStats.accesses, DeviceStats.accesses, hhits, hmisses]
    omega
  constructor
  · rw [missBalance, missBalance, apply_withStats _ f hacc, sum_withStats _ f hmisses,
      Nat.cast_add]
    omega
  · rw [hitBalance, hitBalance, apply_withStats _ f hchild, sum_withStats _ f hhits]
    omega

/-- An access to a device. -/
theorem balance_access (s : Store ι) (i : ι) (type : TraceType) (hit : Bool) :
    missBalance p kids (s.modify i fun d => d.withStats fun st => st.access type hit) =
        missBalance p kids s + (if p = i then 1 else 0) -
          (if i ∈ kids then ((!hit).toNat : ℤ) else 0) ∧
      hitBalance p kids (s.modify i fun d => d.withStats fun st => st.access type hit) =
        hitBalance p kids s - (if i ∈ kids then (hit.toNat : ℤ) else 0) := by
  obtain ⟨hhits, hmisses, hchild⟩ := (s i).stats.access_counts type hit
  obtain ⟨hmiss, hhit⟩ := balance_withStats p kids (fun st => st.access type hit) hhits hmisses
    (hchild.trans (Nat.add_zero _).symm)
  have hone : ((hit.toNat : ℕ) + ((!hit).toNat : ℕ) : ℤ) = 1 := by cases hit <;> rfl
  exact ⟨by rw [hmiss, hone], by rw [hhit, Nat.cast_zero, ite_self, Int.add_zero]⟩

/-- A report to the parent. -/
theorem balance_childAccess (s : Store ι) (q : ι) (hit : Bool) :
    missBalance p kids (s.modify q fun d => d.withStats fun st => st.childAccess hit) =
        missBalance p kids s ∧
      hitBalance p kids (s.modify q fun d => d.withStats fun st => st.childAccess hit) =
        hitBalance p kids s + (if p = q then (hit.toNat : ℤ) else 0) := by
  obtain ⟨hhits, hmisses, hchild⟩ := (s q).stats.childAccess_counts hit
  obtain ⟨hmiss, hhit⟩ := balance_withStats p kids (fun st => st.childAccess hit)
    (hhits.trans (Nat.add_zero _).symm) (hmisses.trans (Nat.add_zero _).symm) hchild
  simp only [Nat.cast_zero, Int.add_zero, ite_self, Int.sub_zero] at hmiss hhit
  exact ⟨hmiss, hhit⟩

end Balance

/-! ### The balance along a request -/

namespace Hierarchy

variable (H : Hierarchy ι)

section Covers

variable (p : ι) (kids : Finset ι)

/-- The children that requests on the device can get to are among the given ones. -/
def Covers (i : ι) : Prop := ∀ c, H.IsAncestor i c → (H.dev c).parent = some p → c ∈ kids

variable {H p kids} {i : ι}

theorem Covers.parent (h : H.Covers p kids i) {q : ι} (hq : (H.dev i).parent = some q) :
    H.Covers p kids q := fun c hc => h c (.head hq hc)

/-- A device is one of the children exactly if it has the cache as its parent. -/
theorem Covers.mem_kids_iff (h : H.Covers p kids i)
    (hkids : ∀ c ∈ kids, (H.dev c).parent = some p) : i ∈ kids ↔ (H.dev i).parent = some p :=
  ⟨hkids i, h i .refl⟩

end Covers

/-- A new device is as after a reset. -/
theorem initialStore_stats (i : ι) :
    ∃ st : DeviceStats, st.NoContention ∧ (H.initialStore i).stats = st.reset := by
  refine ⟨{}, fun _ _ => ⟨rfl, rfl⟩, ?_⟩
  rw [initialStore]
  cases (H.dev i).policy <;> simp [DeviceState.initial, DeviceStats.reset]

variable [DecidableEq ι]

/-- An invalidation is not counted as an access. -/
theorem invalidateFuel_sameCounts (n : ℕ) (s : Store ι) (i : ι) (tag : ℕ) :
    s.SameCounts (H.invalidateFuel n s i tag) := by
  induction n generalizing s i with
  | zero => exact .modify s i ⟨rfl, rfl, rfl⟩
  | succ n ih =>
    simp only [invalidateFuel]
    cases (s i).findWay (H.geometry i) ((H.geometry i).computeBlockIdx tag) tag with
    | none => exact .refl s
    | some way =>
      dsimp only
      split_ifs
      · exact .trans (.modify s i ⟨rfl, rfl, rfl⟩) (.foldl _ _ fun s child => ih s child)
      · exact .modify s i ⟨rfl, rfl, rfl⟩

theorem fill_sameCounts (s : Store ι) (i : ι) (blockIdx tag : ℕ) :
    s.SameCounts (H.fill s i blockIdx tag).2 := by
  simp only [fill]
  have hreplace : s.SameCounts (s.modify i fun _ =>
      ((s i).replaceWhichWay (H.geometry i) (H.dev i).policy blockIdx).2) :=
    .modify s i (by simp)
  refine hreplace.trans (.trans ?_ (.modify _ i ⟨rfl, rfl, rfl⟩))
  split_ifs
  · exact .modify _ i ⟨rfl, rfl, rfl⟩
  · exact .foldl _ _ fun s child => H.invalidateFuel_sameCounts _ s child _
  · exact .refl _

theorem accessUpdate_sameCounts (s : Store ι) (i : ι) (blockIdx : ℕ) (way : ℤ) :
    s.SameCounts (s.modify i fun d =>
      d.accessUpdate (H.geometry i) (H.dev i).policy blockIdx way) :=
  .modify s i (by simp)

theorem remember_sameCounts (s : Store ι) (i : ι) (tag blockIdx : ℕ) (way : ℤ) :
    s.SameCounts (remember s i tag blockIdx way) := .modify s i ⟨rfl, rfl, rfl⟩

/-- The store after a sequence of requests. -/
def requestAll (s : Store ι) (reqs : List (ι × Memref)) : Store ι :=
  reqs.foldl (fun s r => (H.request s r.1 r.2).2) s

section Flow

variable {H} {p : ι} {kids : Finset ι} {s : Store ι} {i : ι} {m : Memref}

variable (hkids : ∀ c ∈ kids, (H.dev c).parent = some p)
include hkids

theorem countHit_flows (hcov : H.Covers p kids i) :
    Flows p kids (if p = i then 1 else 0) s (H.countHit s i m) := by
  obtain ⟨hmiss, hhit⟩ := balance_access p kids s i m.type true
  have hmem := hcov.mem_kids_iff hkids
  simp only [countHit]
  cases hparent : (H.dev i).parent with
  | none =>
    have hnot : i ∉ kids := by simp [hmem, hparent]
    rw [if_neg hnot] at hmiss hhit
    exact ⟨by rw [hmiss, Int.sub_zero], by rw [hhit, Int.sub_zero]⟩
  | some q =>
    obtain ⟨hmiss', hhit'⟩ := balance_childAccess p kids
      (s.modify i fun d => d.withStats fun st => st.access m.type true) q true
    have hiff : i ∈ kids ↔ p = q := by rw [hmem, hparent, Option.some.injEq, eq_comm]
    refine ⟨?_, ?_⟩
    · simp only [hmiss', hmiss]
      simp
    · simp only [hhit', hhit, hiff]
      omega

section Requests

variable {req : Store ι → ι → Memref → CacheResult × Store ι}

/-- A miss is balanced by the access that it makes of the parent. -/
theorem askParent_flows (hcov : H.Covers p kids i) (res : CacheResult)
    (hreq : ∀ q, (H.dev i).parent = some q →
      ∀ s, Flows p kids (if p = q then 1 else 0) s (req s q m).2) :
    Flows p kids (if p = i then 1 else 0) s (H.askParent req s i m res).2 := by
  obtain ⟨hmiss, hhit⟩ := balance_access p kids s i m.type false
  have hmem := hcov.mem_kids_iff hkids
  simp only [askParent]
  cases hparent : (H.dev i).parent with
  | none =>
    have hnot : i ∉ kids := by simp [hmem, hparent]
    rw [if_neg hnot] at hmiss hhit
    exact ⟨by rw [hmiss, Int.sub_zero], by rw [hhit, Int.sub_zero]⟩
  | some q =>
    have hiff : i ∈ kids ↔ p = q := by rw [hmem, hparent, Option.some.injEq, eq_comm]
    obtain ⟨hmiss', hhit'⟩ := balance_childAccess p kids
      (s.modify i fun d => d.withStats fun st => st.access m.type false) q false
    have hasked := hreq q hparent (Store.modify (s.modify i fun d =>
      d.withStats fun st => st.access m.type false) q fun d =>
        d.withStats fun st => st.childAccess false)
    refine ⟨?_, ?_⟩
    · simp only [hasked.misses, hmiss', hmiss, hiff]
      simp
    · simp only [hasked.hits, hhit', hhit]
      simp

/-- One turn of a request is one access of the device, and balanced for all others. -/
theorem accessBlock_flows (hcov : H.Covers p kids i) (tag : ℕ) (res : CacheResult)
    (hreq : ∀ q, (H.dev i).parent = some q →
      ∀ s, Flows p kids (if p = q then 1 else 0) s (req s q m).2)
    (hprefetch : ∀ blockSize, (H.dev i).prefetcher = some blockSize →
      typeIsPrefetch m.type = false → ∀ s, Flows p kids 0 s (req s i (prefetchRef blockSize m)).2) :
    Flows p kids (if p = i then 1 else 0) s (H.accessBlock req s i tag m res).2 := by
  have hissue (s : Store ι) : Flows p kids 0 s (H.prefetch req s i m) := by
    rw [prefetch]
    split_ifs with htype
    · exact .of_sameCounts (.refl s)
    · split
      · exact .of_sameCounts (.refl s)
      · next blockSize hdev => exact hprefetch blockSize hdev (by simpa using htype) s
  simp only [accessBlock]
  cases (s i).findWay (H.geometry i) ((H.geometry i).computeBlockIdx tag) tag with
  | some way =>
    exact ((countHit_flows hkids hcov).sameCounts (H.accessUpdate_sameCounts _ i _ _)).sameCounts
      (remember_sameCounts _ i tag _ _)
  | none =>
    have hfilled := ((askParent_flows (s := s) hkids hcov res hreq).sameCounts
      (H.fill_sameCounts _ i ((H.geometry i).computeBlockIdx tag) tag)).sameCounts
        (H.accessUpdate_sameCounts _ i ((H.geometry i).computeBlockIdx tag)
          (H.fill (H.askParent req s i m res).2 i ((H.geometry i).computeBlockIdx tag) tag).1)
    have hmore := hfilled.trans (hissue _)
    rw [Int.add_zero] at hmore
    exact hmore.sameCounts (remember_sameCounts _ i tag _ _)

theorem shortPath_flows (hcov : H.Covers p kids i) :
    Flows p kids (if p = i then 1 else 0) s (H.shortPath s i m).2 := by
  have hflag : Flows p kids 0 s (s.modify i fun d => { d with
      fault := d.fault || !decide ((s i).lastTag ≠ tagInvalid ∧
        ((s i).blocks (blockNo (s i).lastBlockIdx (s i).lastWay)).tag = (s i).lastTag) }) :=
    .of_sameCounts (.modify s i ⟨rfl, rfl, rfl⟩)
  have hmore := hflag.trans (countHit_flows (m := m) hkids hcov)
  rw [Int.zero_add] at hmore
  exact hmore.sameCounts (.modify _ i (by simp))

/-- A request is as many accesses of the device as it has tags, and balanced for all others. -/
theorem requestStep_flows (hcov : H.Covers p kids i)
    (hreq : ∀ piece, H.SingleBlock i piece → piece.type = m.type →
      ∀ q, (H.dev i).parent = some q →
        ∀ s, Flows p kids (if p = q then 1 else 0) s (req s q piece).2)
    (hprefetch : ∀ piece blockSize, (H.dev i).prefetcher = some blockSize →
      typeIsPrefetch m.type = false →
        ∀ s, Flows p kids 0 s (req s i (prefetchRef blockSize piece)).2) :
    Flows p kids (if p = i then (H.requestedTags i m).length else 0) s
      (H.requestStep req s i m).2 := by
  refine requestStep_induction req
    (P := fun done s' => Flows p kids (if p = i then (done.length : ℤ) else 0) s s')
    (by simpa using Flows.of_sameCounts (.refl s)) (fun _ _ => ?_) ?_
  · simpa using shortPath_flows (s := s) (m := m) hkids hcov
  · intro done s' piece res hpiece htype hs'
    have hturn := hs'.trans (accessBlock_flows (s := s') (m := piece) hkids hcov
      (H.firstTag i piece) res (hreq piece hpiece htype)
      fun blockSize hdev hno => hprefetch piece blockSize hdev (htype ▸ hno))
    convert hturn using 1
    split_ifs <;> simp

end Requests

theorem requestFuel_flows (hline : H.SameLineSize) (hnone : (H.dev p).prefetcher = none) (n : ℕ)
    (s : Store ι) (i : ι) (m : Memref) (hcov : H.Covers p kids i)
    (hn : H.rank i + (if typeIsPrefetch m.type then 1 else 2) ≤ n) :
    Flows p kids (if p = i then (H.requestedTags i m).length else 0) s
      (H.requestFuel n s i m).2 := by
  induction n generalizing s i m with
  | zero => split_ifs at hn <;> omega
  | succ n ih =>
    refine requestStep_flows hkids hcov ?_ ?_
    · intro piece hpiece htype q hq s
      have hrank := H.rank_parent_lt i q hq
      have hparent := ih s q piece (hcov.parent hq) (by rw [htype]; omega)
      have hone : (H.requestedTags q piece).length = 1 := by
        have hsingle : H.firstTag q piece = H.finalTag q piece := hline.singleBlock hq hpiece
        rw [requestedTags, List.length_range', ← hsingle, Nat.add_sub_cancel_left]
      rwa [hone] at hparent
    · intro piece blockSize hdev htype s
      -- a prefetch is a request of its own, and the cache itself makes none
      have hne : p ≠ i := by
        rintro rfl
        simp [hnone] at hdev
      have hself := ih s i (prefetchRef blockSize piece) hcov (by
        rw [htype] at hn
        simp only [prefetchRef, typeIsPrefetch_hardwarePrefetch, if_true, Bool.false_eq_true,
          if_false] at hn ⊢
        omega)
      rwa [if_neg hne] at hself

/-- The balance after requests on other devices. -/
theorem requestAll_flows (hline : H.SameLineSize) (hnone : (H.dev p).prefetcher = none)
    (reqs : List (ι × Memref)) (hreqs : ∀ r ∈ reqs, r.1 ≠ p ∧ H.Covers p kids r.1) (s : Store ι) :
    Flows p kids 0 s (H.requestAll s reqs) := by
  induction reqs generalizing s with
  | nil => exact .of_sameCounts (.refl s)
  | cons r reqs ih =>
    obtain ⟨hne, hcov⟩ := hreqs r (by simp)
    have hfirst := requestFuel_flows hkids hline hnone (H.rank r.1 + 2) s r.1 r.2 hcov
      (by split_ifs <;> omega)
    rw [if_neg (Ne.symm hne)] at hfirst
    have hmore := hfirst.trans (ih (fun t ht => hreqs t (by simp [ht])) _)
    rwa [Int.add_zero] at hmore

/-- From a simultaneous reset on, a cache without a prefetcher of its own has counted as many
accesses as its children have counted misses, and as many child hits as they have hits. -/
theorem requestAll_balanced (hline : H.SameLineSize) (hnone : (H.dev p).prefetcher = none)
    (hreset : ∀ i, ∃ st : DeviceStats, st.NoContention ∧ (s i).stats = st.reset)
    (reqs : List (ι × Memref)) (hreqs : ∀ r ∈ reqs, r.1 ≠ p ∧ H.Covers p kids r.1) :
    (H.requestAll s reqs p).stats.accesses = ∑ c ∈ kids, (H.requestAll s reqs c).stats.misses ∧
      (H.requestAll s reqs p).stats.numChildHits =
        ∑ c ∈ kids, (H.requestAll s reqs c).stats.hits := by
  apply (requestAll_flows hkids hline hnone reqs hreqs s).balanced
  intro i
  obtain ⟨st, hst, heq⟩ := hreset i
  rw [heq]
  exact st.reset_counts hst

end Flow

end Hierarchy

/-! ### The caches of the knob constructor -/

/-- The caches that requests on an L1 get to. -/
theorem CacheGeometries.eq_of_isAncestor {G : CacheGeometries} {policy : ReplacePolicy}
    {prefetcher : Option ℕ} {core : ℕ} {l1 c : DevId} (hl1 : IsL1 core l1)
    (h : (G.hierarchy policy prefetcher).IsAncestor l1 c) : c = l1 ∨ c = .l2 core ∨ c = .llc := by
  induction h with
  | refl => exact .inl rfl
  | tail _ hparent ih =>
    rcases ih with rfl | rfl | rfl
    · rcases hl1 with rfl | rfl <;> cases hparent <;> exact .inr (.inl rfl)
    · cases hparent
      exact .inr (.inr rfl)
    · cases hparent

/-- **The flow of misses.** In a hierarchy of caches with lines of one size, from a simultaneous
reset on, after any requests on other caches, a cache without a prefetcher of its own has counted
as many accesses as its children have counted misses, and as many child hits as they have hits.
So, after requests on the L1 caches of the cores that the knobs describe, each L2 has for its two
L1 caches, and the LLC for the L2 caches of all cores. -/
theorem miss_flow_conserved :
    (∀ {ι : Type} [DecidableEq ι] {H : Hierarchy ι} {p : ι} {kids : Finset ι},
      H.SameLineSize → (H.dev p).prefetcher = none → (∀ c ∈ kids, (H.dev c).parent = some p) →
      ∀ {s : Store ι}, (∀ i, ∃ st : DeviceStats, st.NoContention ∧ (s i).stats = st.reset) →
      ∀ {reqs : List (ι × Memref)}, (∀ r ∈ reqs, r.1 ≠ p ∧ H.Covers p kids r.1) →
        (H.requestAll s reqs p).stats.accesses =
            ∑ c ∈ kids, (H.requestAll s reqs c).stats.misses ∧
          (H.requestAll s reqs p).stats.numChildHits =
            ∑ c ∈ kids, (H.requestAll s reqs c).stats.hits) ∧
    ∀ {k : CacheKnobs} {H : Hierarchy DevId}, k.hierarchy = some H →
      ∀ {s : Store DevId}, (∀ i, ∃ st : DeviceStats, st.NoContention ∧ (s i).stats = st.reset) →
      ∀ {numCores : ℕ} {reqs : List (DevId × Memref)},
        (∀ r ∈ reqs, ∃ core < numCores, IsL1 core r.1) →
        (∀ core, (H.requestAll s reqs (.l2 core)).stats.accesses =
              (H.requestAll s reqs (.l1i core)).stats.misses +
                (H.requestAll s reqs (.l1d core)).stats.misses ∧
            (H.requestAll s reqs (.l2 core)).stats.numChildHits =
              (H.requestAll s reqs (.l1i core)).stats.hits +
                (H.requestAll s reqs (.l1d core)).stats.hits) ∧
          (H.requestAll s reqs .llc).stats.accesses =
            ∑ core ∈ range numCores, (H.requestAll s reqs (.l2 core)).stats.misses ∧
          (H.requestAll s reqs .llc).stats.numChildHits =
            ∑ core ∈ range numCores, (H.requestAll s reqs (.l2 core)).stats.hits := by
  refine ⟨fun hline hnone hkids _ hreset _ hreqs =>
    Hierarchy.requestAll_balanced hkids hline hnone hreset _ hreqs, ?_⟩
  intro k H hH s hreset numCores reqs hreqs
  obtain ⟨G, policy, prefetcher, hG, rfl⟩ := k.exists_of_hierarchy hH
  have hline := CacheGeometries.sameLineSize hG policy prefetcher
  constructor
  · intro core
    have hkids : ∀ c ∈ ({.l1i core, .l1d core} : Finset DevId),
        ((G.hierarchy policy prefetcher).dev c).parent = some (.l2 core) := by
      intro c hc
      rcases Finset.mem_insert.mp hc with rfl | hc
      · rfl
      · rw [Finset.mem_singleton.mp hc]
        rfl
    have hbalanced := Hierarchy.requestAll_balanced hkids hline rfl hreset reqs
      fun r hr => ⟨?_, ?_⟩
    · rwa [Finset.sum_pair (by simp), Finset.sum_pair (by simp)] at hbalanced
    · obtain ⟨core', -, hl1⟩ := hreqs r hr
      rcases hl1 with heq | heq <;> rw [heq] <;> simp
    · intro c _ hparent
      cases c <;> cases hparent <;> simp
  · have hkids : ∀ c ∈ (range numCores).image DevId.l2,
        ((G.hierarchy policy prefetcher).dev c).parent = some .llc := by
      intro c hc
      obtain ⟨core, -, rfl⟩ := Finset.mem_image.mp hc
      rfl
    have hbalanced := Hierarchy.requestAll_balanced hkids hline rfl hreset reqs
      fun r hr => ⟨?_, ?_⟩
    · rwa [Finset.sum_image (by simp), Finset.sum_image (by simp)] at hbalanced
    · obtain ⟨core, -, hl1⟩ := hreqs r hr
      rcases hl1 with heq | heq <;> rw [heq] <;> simp
    · intro c hancestor hparent
      obtain ⟨core, hcore, hl1⟩ := hreqs r hr
      rcases CacheGeometries.eq_of_isAncestor hl1 hancestor with rfl | rfl | rfl
      · rcases hl1 with heq | heq <;> rw [heq] at hparent <;> cases hparent
      · exact Finset.mem_image_of_mem _ (Finset.mem_range.mpr hcore)
      · cases hparent

/-- Two reads of one line. The first one misses, and so does the prefetch that it makes; the
second one is a hit on the short path. -/
theorem reread_miss_flow :
    let s' := defaultHierarchy.requestAll defaultHierarchy.initialStore
      [(.l1d 0, readAt 0x7010), (.l1d 0, readAt 0x7018)]
    ((s' (.l2 0)).stats.accesses = 2 ∧ (s' (.l2 0)).stats.numChildHits = 1) ∧
      (s' (.l2 0)).stats.accesses =
        (s' (.l1i 0)).stats.misses + (s' (.l1d 0)).stats.misses ∧
      (s' (.l2 0)).stats.numChildHits = (s' (.l1i 0)).stats.hits + (s' (.l1d 0)).stats.hits :=
  have hreqs : ∀ r ∈ [(DevId.l1d 0, readAt 0x7010), (.l1d 0, readAt 0x7018)],
      ∃ core < 1, IsL1 core r.1 := by
    simp [IsL1]
  ⟨by decide +kernel, (miss_flow_conserved.2 defaultHierarchy_eq
    defaultHierarchy.initialStore_stats hreqs).1 0⟩

end SagePTE.Simulator
