import Mathlib.Data.Int.Bitwise
import Mathlib.Logic.Function.Basic
import Mathlib.Tactic.Positivity
import SagePTE.Simulator.Memref

/-!
# A single caching device

One class stands behind every cache, page-walk cache and TLB of the simulator:
an array of tagged blocks, cut into sets of `associativity` consecutive blocks,
with a replacement policy that keeps one counter per block. This file has the
geometry the initialiser admits, the state of one device, its statistics and
the two operations a policy supplies.

The block array is a total function of the block number. A device also carries
a ghost flag `fault`, set when an assertion of the source fails or a block
number leaves the array. Execution goes on after it as in a build without
assertions, so a run of an asserting build is a run that never sets the flag.

## Main definitions

* `Geometry`, `Geometry.init` — an admitted geometry, and the checks made by
  `caching_device_t::init`
* `DeviceState` — blocks, shortcut, statistics
* `DeviceState.accessUpdate`, `DeviceState.replaceWhichWay` — the policies
* `DeviceState.findWay` — the search of one set
-/

set_option autoImplicit false

namespace SagePTE.Simulator

/-! ### Geometry -/

/-- `IS_POWER_OF_2`. -/
def isPowerOf2 (x : ℤ) : Bool := x ≠ 0 && Int.land x (x - 1) == 0

/-- `compute_log2`, with `none` for the source's `-1`. -/
def computeLog2 (value : ℤ) : Option ℕ :=
  (List.range 31).find? fun i => value == 2 ^ i

/-- A geometry that `caching_device_t::init` admits. The associativity is any
positive number; the set count and the block size are powers of two. -/
structure Geometry where
  associativity : ℕ
  blocksPerWay : ℕ
  blockSizeBits : ℕ
  associativity_pos : 0 < associativity
  blocksPerWay_pow : ∃ k, blocksPerWay = 2 ^ k
  two_le_bits : 2 ≤ blockSizeBits
  bits_lt : blockSizeBits < 31

namespace Geometry

variable (g : Geometry)

def blockSize : ℕ := 2 ^ g.blockSizeBits

def numBlocks : ℕ := g.blocksPerWay * g.associativity

/-- `compute_tag`. -/
def computeTag (addr : BitVec 64) : ℕ := addr.toNat >>> g.blockSizeBits

/-- `compute_block_idx`: the first block of the tag's set. -/
def computeBlockIdx (tag : ℕ) : ℕ := (tag &&& (g.blocksPerWay - 1)) * g.associativity

end Geometry

private theorem pow_of_isPowerOf2 {n : ℕ} (h : isPowerOf2 n = true) : ∃ k, n = 2 ^ k := by
  cases n with
  | zero => simp [isPowerOf2] at h
  | succ m =>
    simp only [isPowerOf2, Bool.and_eq_true, beq_iff_eq] at h
    -- the bit test on integers is the one on naturals
    have hpred : ((m + 1 : ℕ) : ℤ) - 1 = (m : ℤ) := by omega
    have hand : (m + 1) &&& m = 0 := by
      rw [hpred] at h
      exact Int.ofNat_inj.mp h.2
    exact (Nat.and_sub_one_eq_zero_iff_isPowerOfTwo (Nat.succ_ne_zero m)).mp hand

private theorem pow_of_computeLog2 {value : ℤ} {bits : ℕ} (h : computeLog2 value = some bits) :
    bits < 31 ∧ value = 2 ^ bits := by
  refine ⟨List.mem_range.mp (List.mem_of_find?_eq_some h), ?_⟩
  simpa using List.find?_some h

/-- The checks of `caching_device_t::init`, in the source's order, and the
geometry it sets up. -/
def Geometry.init (associativity blockSize numBlocks : ℤ) : Option Geometry :=
  if hcap : associativity < 1 ∨ numBlocks < 1 then none
  else if hsize : ¬ isPowerOf2 blockSize ∨ blockSize < 4 then none
  else
    let blocksPerWay := numBlocks.toNat / associativity.toNat
    -- Make sure the block count is evenly divisible by the associativity.
    if (blocksPerWay * associativity.toNat : ℤ) ≠ numBlocks then none
    else
      match hlog : computeLog2 blockSize with
      | none => none
      | some bits =>
        if hway : isPowerOf2 blocksPerWay then
          some {
            associativity := associativity.toNat
            blocksPerWay := blocksPerWay
            blockSizeBits := bits
            associativity_pos := by omega
            blocksPerWay_pow := pow_of_isPowerOf2 hway
            two_le_bits := by
              obtain ⟨-, hval⟩ := pow_of_computeLog2 hlog
              by_contra hlt
              have : bits = 0 ∨ bits = 1 := by omega
              rcases this with rfl | rfl <;> omega
            bits_lt := (pow_of_computeLog2 hlog).1 }
        else none

/-- The numbers given to `init` are those of the geometry. -/
theorem Geometry.of_init {associativity blockSize numBlocks : ℤ} {g : Geometry}
    (h : Geometry.init associativity blockSize numBlocks = some g) :
    associativity = g.associativity ∧ blockSize = 2 ^ g.blockSizeBits ∧
      numBlocks = g.numBlocks := by
  simp only [Geometry.init] at h
  split_ifs at h with hcap hsize hdiv
  · split at h
    · cases h
    · next bits hlog =>
      cases h
      have hassoc : associativity = associativity.toNat := by omega
      refine ⟨hassoc, (pow_of_computeLog2 hlog).2, ?_⟩
      rw [Geometry.numBlocks, Nat.cast_mul]
      exact (not_not.mp hdiv).symm
  · split at h <;> cases h

theorem Geometry.blockSize_of_init {associativity blockSize numBlocks : ℤ} {g : Geometry}
    (h : Geometry.init associativity blockSize numBlocks = some g) :
    blockSize = 2 ^ g.blockSizeBits :=
  (Geometry.of_init h).2.1

/-! ### Statistics -/

/-- `caching_device_stats_t` together with the counters `cache_stats_t` adds.
The last two of the six buckets count contention requests. -/
structure DeviceStats where
  numHits : ℕ := 0
  numMisses : ℕ := 0
  numChildHits : ℕ := 0
  numInclusiveInvalidates : ℕ := 0
  hitStatistics : Fin 6 → ℕ := fun _ => 0
  missStatistics : Fin 6 → ℕ := fun _ => 0
  numHitsAtReset : ℕ := 0
  numMissesAtReset : ℕ := 0
  numChildHitsAtReset : ℕ := 0
  numFlushes : ℕ := 0
  numPrefetchHits : ℕ := 0
  numPrefetchMisses : ℕ := 0

namespace DeviceStats

/-- The bucket that counts a record type instead of the plain counters. -/
def walkBucket : TraceType → Option (Fin 6)
  | .pe1 => some 0
  | .pe2 => some 1
  | .pe3 => some 2
  | .pe4 => some 3
  | .contL1 => some 4
  | .contLlc => some 5
  | _ => none

/-- `caching_device_stats_t::access`. -/
def baseAccess (st : DeviceStats) (type : TraceType) (hit : Bool) : DeviceStats :=
  match walkBucket type, hit with
  | some b, true =>
    { st with hitStatistics := Function.update st.hitStatistics b (st.hitStatistics b + 1) }
  | some b, false =>
    { st with missStatistics := Function.update st.missStatistics b (st.missStatistics b + 1) }
  | none, true => { st with numHits := st.numHits + 1 }
  | none, false => { st with numMisses := st.numMisses + 1 }

/-- `cache_stats_t::access`: prefetches have counters of their own. -/
def access (st : DeviceStats) (type : TraceType) (hit : Bool) : DeviceStats :=
  if typeIsPrefetch type then
    if hit then { st with numPrefetchHits := st.numPrefetchHits + 1 }
    else { st with numPrefetchMisses := st.numPrefetchMisses + 1 }
  else st.baseAccess type hit

/-- `caching_device_stats_t::child_access`. -/
def childAccess (st : DeviceStats) (hit : Bool) : DeviceStats :=
  if hit then { st with numChildHits := st.numChildHits + 1 } else st

/-- `caching_device_stats_t::invalidate`. -/
def invalidate (st : DeviceStats) : DeviceStats :=
  { st with numInclusiveInvalidates := st.numInclusiveInvalidates + 1 }

/-- `cache_stats_t::flush`. -/
def flush (st : DeviceStats) : DeviceStats := { st with numFlushes := st.numFlushes + 1 }

/-- `cache_stats_t::reset`. Only the four page-walk buckets are cleared; the
contention buckets keep counting. -/
def reset (st : DeviceStats) : DeviceStats where
  numHitsAtReset := st.numHits
  numMissesAtReset := st.numMisses
  numChildHitsAtReset := st.numChildHits
  hitStatistics b := if b.val < 4 then 0 else st.hitStatistics b
  missStatistics b := if b.val < 4 then 0 else st.missStatistics b

end DeviceStats

/-! ### The state of a device -/

/-- `TAG_INVALID`, the tag of an empty block. -/
def tagInvalid : ℕ := 2 ^ 64 - 1

theorem Geometry.computeTag_ne_tagInvalid (g : Geometry) (addr : BitVec 64) :
    g.computeTag addr ≠ tagInvalid := by
  -- at least two bits are shifted out
  have hle : addr.toNat >>> g.blockSizeBits ≤ addr.toNat >>> 2 := by
    rw [← Nat.sub_add_cancel g.two_le_bits, Nat.add_comm, Nat.shiftRight_add]
    exact Nat.shiftRight_le _ _
  have hquarter : addr.toNat >>> 2 < 2 ^ 62 := by
    rw [Nat.shiftRight_eq_div_pow]
    exact Nat.div_lt_of_lt_mul addr.isLt
  have hbound : (2 : ℕ) ^ 62 < tagInvalid := by decide
  exact ((hle.trans_lt hquarter).trans hbound).ne

/-- `caching_device_block_t`. The process id is the field `tlb_entry_t` adds;
caches never read it. -/
structure Block where
  tag : ℕ := tagInvalid
  counter : ℕ := 0
  pid : ℤ := 0
  deriving DecidableEq, Repr, Inhabited

/-- The replacement policies of `create_cache`; LFU is the base class. -/
inductive ReplacePolicy | lru | lfu | fifo
  deriving DecidableEq, Repr

/-- The mutable part of a device. `lastTag`, `lastWay` and `lastBlockIdx` are the
shortcut for a repeated single-block access; `lastPid` belongs to the TLB.
`fault` is ghost state. -/
structure DeviceState where
  blocks : ℕ → Block := fun _ => {}
  loadedBlocks : ℕ := 0
  lastTag : ℕ := tagInvalid
  lastWay : ℤ := 0
  lastBlockIdx : ℕ := 0
  lastPid : ℤ := 0
  stats : DeviceStats := {}
  fault : Bool := false

/-- The block number `get_caching_device_block` reads. A way is signed because
the FIFO policy can answer `-1`. -/
def blockNo (blockIdx : ℕ) (way : ℤ) : ℕ := (blockIdx + way).toNat

namespace DeviceState

variable (g : Geometry) (d : DeviceState)

/-- `caching_device_t::init` leaves every block invalid; `cache_fifo_t::init` then
points each set at its first block. -/
def initial : ReplacePolicy → DeviceState
  | .fifo => { blocks := fun n => if n % g.associativity = 0 then { counter := 1 } else {} }
  | _ => {}

/-- The search of one set: the first way that holds the tag. -/
def findWay (blockIdx tag : ℕ) : Option ℕ :=
  (List.range g.associativity).find? fun way => (d.blocks (blockIdx + way)).tag == tag

/-- The tag is valid in the device: some way of its set holds it. -/
def Holds (tag : ℕ) : Prop :=
  ∃ way < g.associativity, (d.blocks (g.computeBlockIdx tag + way)).tag = tag

instance (tag : ℕ) : Decidable (d.Holds g tag) :=
  inferInstanceAs (Decidable (∃ way < g.associativity, _))

/-- Write the counter of one block. -/
def setCounter (n counter : ℕ) : DeviceState :=
  { d with blocks := Function.update d.blocks n { d.blocks n with counter := counter } }

/-- Write the tag of one block. -/
def setTag (n tag : ℕ) : DeviceState :=
  { d with blocks := Function.update d.blocks n { d.blocks n with tag := tag } }

/-- Pass the statistics through `f`. -/
def withStats (f : DeviceStats → DeviceStats) : DeviceState := { d with stats := f d.stats }

/-- `access_update`, once for each policy. -/
def accessUpdate (policy : ReplacePolicy) (blockIdx : ℕ) (way : ℤ) : DeviceState :=
  let n := blockNo blockIdx way
  let cnt := (d.blocks n).counter
  match policy with
  | .lfu => d.setCounter n (cnt + 1)
  | .fifo => d
  | .lru =>
    -- A repeated access leaves the recency order as it is.
    if cnt = 0 then d
    else { d with blocks := fun j =>
      let b := d.blocks j
      if j = n then { b with counter := 0 }
      else if blockIdx ≤ j ∧ j < blockIdx + g.associativity ∧ b.counter ≤ cnt then
        { b with counter := b.counter + 1 }
      else b }

/-- The scan of `caching_device_t::replace_which_way`: the first invalid way, else
the first way with the least counter. -/
def lfuVictim (block : ℕ → Block) : List ℕ → ℕ → ℕ → ℕ
  | [], _, minWay => minWay
  | way :: ways, minCounter, minWay =>
    if (block way).tag = tagInvalid then way
    else if way = 0 ∨ (block way).counter < minCounter then
      lfuVictim block ways (block way).counter way
    else lfuVictim block ways minCounter minWay

/-- The scan of `cache_lru_t::replace_which_way`: the first invalid way, else the
first way with the largest counter. -/
def lruVictim (block : ℕ → Block) : List ℕ → ℕ → ℕ → ℕ
  | [], _, maxWay => maxWay
  | way :: ways, maxCounter, maxWay =>
    if (block way).tag = tagInvalid then way
    else if maxCounter < (block way).counter then lruVictim block ways (block way).counter way
    else lruVictim block ways maxCounter maxWay

/-- `replace_which_way`, once for each policy. FIFO answers `-1` when no block of
the set has counter one. -/
def replaceWhichWay (policy : ReplacePolicy) (blockIdx : ℕ) : ℤ × DeviceState :=
  let block := fun way => d.blocks (blockIdx + way)
  let ways := List.range g.associativity
  match policy with
  | .lfu =>
    let way := lfuVictim block ways 0 0
    (way, d.setCounter (blockIdx + way) 0)
  | .lru =>
    let way := lruVictim block ways 0 0
    (way, d.setCounter (blockIdx + way) 1)
  | .fifo =>
    match ways.find? fun way => (block way).counter == 1 with
    | none => (-1, d)
    | some way =>
      let next := (way + 1) &&& (g.associativity - 1)
      (way, (d.setCounter (blockIdx + way) 0).setCounter (blockIdx + next) 1)

/-! ### Tags through the policies

Neither operation of a policy changes a tag, the shortcut or the statistics. -/

@[simp] theorem setCounter_tag (n counter j : ℕ) :
    ((d.setCounter n counter).blocks j).tag = (d.blocks j).tag := by
  by_cases hj : j = n
  · subst hj; simp [setCounter]
  · simp [setCounter, Function.update_of_ne hj]

theorem setCounter_counter (n counter j : ℕ) :
    ((d.setCounter n counter).blocks j).counter =
      if j = n then counter else (d.blocks j).counter := by
  by_cases hj : j = n
  · subst hj; simp [setCounter]
  · simp [setCounter, hj]

@[simp] theorem setCounter_lastTag (n counter : ℕ) :
    (d.setCounter n counter).lastTag = d.lastTag := rfl

theorem setTag_tag (n tag j : ℕ) :
    ((d.setTag n tag).blocks j).tag = if j = n then tag else (d.blocks j).tag := by
  by_cases hj : j = n
  · subst hj; simp [setTag]
  · simp [setTag, hj]

@[simp] theorem setTag_counter (n tag j : ℕ) :
    ((d.setTag n tag).blocks j).counter = (d.blocks j).counter := by
  by_cases hj : j = n
  · subst hj; simp [setTag]
  · simp [setTag, hj]

@[simp] theorem setTag_lastTag (n tag : ℕ) : (d.setTag n tag).lastTag = d.lastTag := rfl

@[simp] theorem withStats_blocks (f : DeviceStats → DeviceStats) :
    (d.withStats f).blocks = d.blocks := rfl

@[simp] theorem withStats_lastTag (f : DeviceStats → DeviceStats) :
    (d.withStats f).lastTag = d.lastTag := rfl

@[simp] theorem accessUpdate_tag (policy : ReplacePolicy) (blockIdx : ℕ) (way : ℤ) (j : ℕ) :
    ((d.accessUpdate g policy blockIdx way).blocks j).tag = (d.blocks j).tag := by
  cases policy with
  | lfu => simp [accessUpdate]
  | fifo => rfl
  | lru =>
    simp only [accessUpdate]
    split_ifs with hcnt
    · rfl
    · simp only
      split_ifs <;> rfl

@[simp] theorem replaceWhichWay_tag (policy : ReplacePolicy) (blockIdx j : ℕ) :
    ((d.replaceWhichWay g policy blockIdx).2.blocks j).tag = (d.blocks j).tag := by
  cases policy with
  | lfu => simp [replaceWhichWay]
  | lru => simp [replaceWhichWay]
  | fifo =>
    simp only [replaceWhichWay]
    split <;> simp

/-! ### The way that is given up -/

theorem lfuVictim_lt {block : ℕ → Block} {n : ℕ} {ways : List ℕ} (hways : ∀ way ∈ ways, way < n)
    (minCounter : ℕ) {minWay : ℕ} (hmin : minWay < n) :
    lfuVictim block ways minCounter minWay < n := by
  induction ways generalizing minCounter minWay with
  | nil => exact hmin
  | cons way ways ih =>
    have hway : way < n := hways way (by simp)
    have hrest : ∀ way ∈ ways, way < n := fun w hw => hways w (by simp [hw])
    rw [lfuVictim]
    split_ifs
    · exact hway
    · exact ih hrest _ hway
    · exact ih hrest _ hmin

theorem lruVictim_lt {block : ℕ → Block} {n : ℕ} {ways : List ℕ} (hways : ∀ way ∈ ways, way < n)
    (maxCounter : ℕ) {maxWay : ℕ} (hmax : maxWay < n) :
    lruVictim block ways maxCounter maxWay < n := by
  induction ways generalizing maxCounter maxWay with
  | nil => exact hmax
  | cons way ways ih =>
    have hway : way < n := hways way (by simp)
    have hrest : ∀ way ∈ ways, way < n := fun w hw => hways w (by simp [hw])
    rw [lruVictim]
    split_ifs
    · exact hway
    · exact ih hrest _ hway
    · exact ih hrest _ hmax

/-- LRU and LFU give up a way of the set. -/
theorem exists_replaceWhichWay {g : Geometry} {policy : ReplacePolicy} (hpolicy : policy ≠ .fifo)
    (d : DeviceState) (blockIdx : ℕ) :
    ∃ way < g.associativity, (d.replaceWhichWay g policy blockIdx).1 = (way : ℤ) := by
  have hways : ∀ way ∈ List.range g.associativity, way < g.associativity :=
    fun _ hway => List.mem_range.mp hway
  cases policy with
  | lru => exact ⟨_, lruVictim_lt hways 0 g.associativity_pos, rfl⟩
  | lfu => exact ⟨_, lfuVictim_lt hways 0 g.associativity_pos, rfl⟩
  | fifo => exact absurd rfl hpolicy

/-! ### Searching a set -/

theorem findWay_eq_none_iff (tag : ℕ) :
    d.findWay g (g.computeBlockIdx tag) tag = none ↔ ¬ d.Holds g tag := by
  simp [findWay, Holds]

theorem holds_of_findWay {tag way : ℕ}
    (h : d.findWay g (g.computeBlockIdx tag) tag = some way) : d.Holds g tag := by
  by_contra hnot
  rw [(d.findWay_eq_none_iff g tag).mpr hnot] at h
  cases h

end DeviceState

end SagePTE.Simulator
