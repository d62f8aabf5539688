import Mathlib.Data.Fin.VecNotation
import Mathlib.Tactic.FinCases
import SagePTE.Simulator.Hierarchy

/-!
# The hierarchy of the knob constructor

`cache_simulator_t` builds, from its knobs, one last-level cache shared by all
cores, an L2 and two L1 caches per core, and three page-walk caches each for the
host and the guest. The constructor fails as soon as one cache rejects its
geometry.

## Main definitions

* `DevId` — the caches the constructor creates
* `CacheKnobs.hierarchy` — the hierarchy it builds, if it succeeds
-/

set_option autoImplicit false

namespace SagePTE.Simulator

/-- For literals of the three page-walk caches of a side. -/
instance neZero_three : NeZero 3 := ⟨by decide⟩

/-- The caches of the simulator: `llc1`, `l2_caches`, `l1_icaches`, `l1_dcaches`,
`pw_caches` and `gpw_caches`. -/
inductive DevId
  | llc
  | l2 (core : ℕ)
  | l1i (core : ℕ)
  | l1d (core : ℕ)
  | pw (i : Fin 3)
  | gpw (i : Fin 3)
  deriving DecidableEq, Repr

/-- The knobs of `cache_simulator_knobs_t` that shape the caches. -/
structure CacheKnobs where
  lineSize : ℕ := 64
  l1iSize : ℕ := 32 * 1024
  l1dSize : ℕ := 4 * 1024
  l1iAssoc : ℕ := 8
  l1dAssoc : ℕ := 8
  l2Size : ℕ := 256 * 1024
  l2Assoc : ℕ := 8
  llSize : ℕ := 16 * 1024 * 1024
  llAssoc : ℕ := 16
  replacePolicy : String := "LRU"
  dataPrefetcher : String := "nextline"

/-- `create_cache`: the policy a name selects. -/
def createCache (policy : String) : Option ReplacePolicy :=
  if policy = "" ∨ policy = "LRU" then some .lru
  else if policy = "LFU" then some .lfu
  else if policy = "FIFO" then some .fifo
  else none

/-- The conversion of an unsigned knob to `int`. -/
def toInt (n : ℕ) : ℤ := Int.bmod n (2 ^ 32)

/-- `cache_t::init`. -/
def cacheInit (associativity lineSize totalSize : ℤ) : Option Geometry :=
  if lineSize < 1 then none
  else Geometry.init associativity lineSize (totalSize.tdiv lineSize)

/-- `PWC_ENTRY_SIZE`. -/
def pwcEntrySize : ℤ := 8

/-- `PWC_ASSOC`. -/
def pwcAssoc : Fin 3 → ℤ := ![1, 4, 4]

/-- `PWC_SIZE`. -/
def pwcSize : Fin 3 → ℤ := ![pwcEntrySize * 2, pwcEntrySize * 4, pwcEntrySize * 32]

/-- The geometries of the caches one core sees. -/
structure CacheGeometries where
  llc : Geometry
  l2 : Geometry
  l1i : Geometry
  l1d : Geometry
  pwc : Fin 3 → Geometry

/-- The links the constructor sets up. Only the L1 data caches prefetch, and no
cache is inclusive. -/
def CacheGeometries.dev (G : CacheGeometries) (policy : ReplacePolicy)
    (prefetcher : Option ℕ) : DevId → DeviceConfig DevId
  | .llc => { geometry := G.llc, policy }
  | .l2 _ => { geometry := G.l2, policy, parent := some .llc }
  | .l1i core => { geometry := G.l1i, policy, parent := some (.l2 core) }
  | .l1d core => { geometry := G.l1d, policy, parent := some (.l2 core), prefetcher }
  | .pw i => { geometry := G.pwc i, policy }
  | .gpw i => { geometry := G.pwc i, policy }

/-- The number of ancestors of a cache. -/
def DevId.rank : DevId → ℕ
  | .llc | .pw _ | .gpw _ => 0
  | .l2 _ => 1
  | .l1i _ | .l1d _ => 2

def CacheGeometries.hierarchy (G : CacheGeometries) (policy : ReplacePolicy)
    (prefetcher : Option ℕ) : Hierarchy DevId where
  dev := G.dev policy prefetcher
  rank := DevId.rank
  depth := 2
  rank_le_depth i := by cases i <;> simp [DevId.rank]
  rank_parent_lt i p h := by
    cases i <;> simp [CacheGeometries.dev] at h <;> subst h <;> simp [DevId.rank]
  rank_lt_child i c h := by
    cases i <;> simp [CacheGeometries.dev] at h

namespace CacheKnobs

variable (k : CacheKnobs)

/-- The geometries, when every `init` succeeds. -/
def geometries : Option CacheGeometries := do
  let llc ← cacheInit (toInt k.llAssoc) (toInt k.lineSize) (toInt k.llSize)
  let l2 ← cacheInit (toInt k.l2Assoc) (toInt k.lineSize) (toInt k.l2Size)
  let l1i ← cacheInit (toInt k.l1iAssoc) (toInt k.lineSize) (toInt k.l1iSize)
  let l1d ← cacheInit (toInt k.l1dAssoc) (toInt k.lineSize) (toInt k.l1dSize)
  let pwc0 ← cacheInit (pwcAssoc 0) pwcEntrySize (pwcSize 0)
  let pwc1 ← cacheInit (pwcAssoc 1) pwcEntrySize (pwcSize 1)
  let pwc2 ← cacheInit (pwcAssoc 2) pwcEntrySize (pwcSize 2)
  some { llc, l2, l1i, l1d, pwc := ![pwc0, pwc1, pwc2] }

/-- The prefetcher of the L1 data caches; an unknown name is refused. -/
def prefetcher : Option (Option ℕ) :=
  if k.dataPrefetcher = "nextline" then some (some (toInt k.lineSize).toNat)
  else if k.dataPrefetcher = "none" then some none
  else none

/-- The caches `cache_simulator_t` builds from its knobs, if it succeeds. -/
def hierarchy : Option (Hierarchy DevId) := do
  let policy ← createCache k.replacePolicy
  let prefetcher ← k.prefetcher
  let G ← k.geometries
  some (G.hierarchy policy prefetcher)

end CacheKnobs

/-! ### What success of the constructor implies -/

theorem cacheInit_blockSize {associativity lineSize totalSize : ℤ} {g : Geometry}
    (h : cacheInit associativity lineSize totalSize = some g) :
    lineSize = 2 ^ g.blockSizeBits := by
  unfold cacheInit at h
  split_ifs at h
  exact Geometry.blockSize_of_init h

private theorem bits_eq_of_blockSize {size : ℤ} {g g' : Geometry}
    (h : size = 2 ^ g.blockSizeBits) (h' : size = 2 ^ g'.blockSizeBits) :
    g.blockSizeBits = g'.blockSizeBits := by
  have heq : (2 : ℤ) ^ g.blockSizeBits = 2 ^ g'.blockSizeBits := h.symm.trans h'
  exact Nat.pow_right_injective (le_refl 2) (by exact_mod_cast heq)

/-- The line sizes agree along a core's caches, and a page-walk cache has lines of
`PWC_ENTRY_SIZE` bytes. -/
structure CacheGeometries.Aligned (G : CacheGeometries) : Prop where
  l2_llc : G.l2.blockSizeBits = G.llc.blockSizeBits
  l1i_llc : G.l1i.blockSizeBits = G.llc.blockSizeBits
  l1d_llc : G.l1d.blockSizeBits = G.llc.blockSizeBits
  pwc : ∀ i, (G.pwc i).blockSizeBits = 3

theorem CacheKnobs.aligned_of_geometries {k : CacheKnobs} {G : CacheGeometries}
    (h : k.geometries = some G) : G.Aligned := by
  simp only [CacheKnobs.geometries, Option.bind_eq_bind, Option.bind_eq_some_iff] at h
  obtain ⟨llc, hllc, l2, hl2, l1i, hl1i, l1d, hl1d, p0, h0, p1, h1, p2, h2, hG⟩ := h
  cases hG
  have hllc := cacheInit_blockSize hllc
  have hpwc {g : Geometry} {a z : ℤ} (hg : cacheInit a pwcEntrySize z = some g) :
      g.blockSizeBits = 3 := by
    have hsize : (2 : ℤ) ^ 3 = 2 ^ g.blockSizeBits := cacheInit_blockSize hg
    exact (Nat.pow_right_injective (le_refl 2) (by exact_mod_cast hsize)).symm
  refine ⟨bits_eq_of_blockSize (cacheInit_blockSize hl2) hllc,
    bits_eq_of_blockSize (cacheInit_blockSize hl1i) hllc,
    bits_eq_of_blockSize (cacheInit_blockSize hl1d) hllc, fun i => ?_⟩
  fin_cases i
  · exact hpwc h0
  · exact hpwc h1
  · exact hpwc h2

/-- A hierarchy the constructor succeeds in building. -/
theorem CacheKnobs.exists_of_hierarchy {k : CacheKnobs} {H : Hierarchy DevId}
    (h : k.hierarchy = some H) :
    ∃ G policy prefetcher, G.Aligned ∧ H = CacheGeometries.hierarchy G policy prefetcher := by
  simp only [CacheKnobs.hierarchy, Option.bind_eq_bind, Option.bind_eq_some_iff] at h
  obtain ⟨policy, -, prefetcher, -, G, hG, hH⟩ := h
  exact ⟨G, policy, prefetcher, aligned_of_geometries hG, (Option.some_inj.mp hH).symm⟩

/-! ### The default knobs -/

private theorem default_isSome : ({} : CacheKnobs).hierarchy.isSome = true := by decide

/-- The hierarchy of the default knobs. -/
def defaultHierarchy : Hierarchy DevId := ({} : CacheKnobs).hierarchy.get default_isSome

theorem defaultHierarchy_eq : ({} : CacheKnobs).hierarchy = some defaultHierarchy :=
  (Option.some_get default_isSome).symm

end SagePTE.Simulator
