import SagePTE.Simulator.CachingDevice

/-!
# Requests on a hierarchy of caching devices

Devices refer to one another: a miss asks the parent, an inclusive device
invalidates its children, and a device with a prefetcher issues further requests
on itself. The devices live in a store indexed by their identity; what never
changes after initialisation (geometry, policy, links) is kept apart in a
`Hierarchy`.

The source recurses along parent links. Here the recursion is bounded by the
rank of a device, its distance from the root, with one more step for a prefetch.

## Main definitions

* `Hierarchy`, `Store` — the fixed and the mutable part of a set of devices
* `Hierarchy.request` — `caching_device_t::request`
* `Hierarchy.flush`, `Hierarchy.invalidate` — removal of lines
-/

set_option autoImplicit false

namespace SagePTE.Simulator

/-- What `caching_device_t::init` fixes for good. A prefetcher is known by its
block size. -/
structure DeviceConfig (ι : Type) where
  geometry : Geometry
  policy : ReplacePolicy
  parent : Option ι := none
  prefetcher : Option ℕ := none
  inclusive : Bool := false
  children : List ι := []

/-- A set of devices whose parent links lead to a root. -/
structure Hierarchy (ι : Type) where
  dev : ι → DeviceConfig ι
  rank : ι → ℕ
  depth : ℕ
  rank_le_depth : ∀ i, rank i ≤ depth
  rank_parent_lt : ∀ i p, (dev i).parent = some p → rank p < rank i
  rank_lt_child : ∀ i c, c ∈ (dev i).children → rank i < rank c

/-- The states of all devices. -/
abbrev Store (ι : Type) := ι → DeviceState

variable {ι : Type} [DecidableEq ι]

/-- Replace the state of one device. -/
def Store.modify (s : Store ι) (i : ι) (f : DeviceState → DeviceState) : Store ι :=
  Function.update s i (f (s i))

@[simp] theorem Store.modify_self (s : Store ι) (i : ι) (f : DeviceState → DeviceState) :
    s.modify i f i = f (s i) := by
  simp [Store.modify]

@[simp] theorem Store.modify_of_ne (s : Store ι) {i j : ι} (h : j ≠ i)
    (f : DeviceState → DeviceState) : s.modify i f j = s j := by
  simp [Store.modify, h]

/-- A property of the changed device and of all others. -/
theorem Store.modify_induction {s : Store ι} {i : ι} {f : DeviceState → DeviceState}
    {P : ι → DeviceState → Prop} (hself : P i (f (s i))) (hother : ∀ j, j ≠ i → P j (s j)) (j : ι) :
    P j (s.modify i f j) := by
  by_cases hj : j = i
  · subst hj
    rwa [Store.modify_self]
  · rw [Store.modify_of_ne _ hj]
    exact hother j hj

/-- The memref `prefetcher_t::prefetch` issues: the same bytes one line further. -/
def prefetchRef (blockSize : ℕ) (m : Memref) : Memref :=
  { m with addr := m.addr + BitVec.ofNat 64 blockSize, type := .hardwarePrefetch }

namespace Hierarchy

variable (H : Hierarchy ι)

def geometry (i : ι) : Geometry := (H.dev i).geometry

/-- All devices start out empty. -/
def initialStore : Store ι := fun i => DeviceState.initial (H.geometry i) (H.dev i).policy

/-! ### Removing lines -/

/-- `caching_device_t::invalidate`, down to the children of inclusive devices. -/
def invalidateFuel : ℕ → Store ι → ι → ℕ → Store ι
  | 0, s, i, _ => s.modify i fun d => { d with fault := true }
  | n + 1, s, i, tag =>
    let blockIdx := (H.geometry i).computeBlockIdx tag
    match (s i).findWay (H.geometry i) blockIdx tag with
    | none => s
    | some way =>
      let s := s.modify i fun d =>
        { (d.setTag (blockIdx + way) tagInvalid).setCounter (blockIdx + way) 0 with
          stats := d.stats.invalidate
          -- the short path must not find the line that is gone
          lastTag := if d.lastTag = tag then tagInvalid else d.lastTag }
      if (H.dev i).inclusive then
        (H.dev i).children.foldl (fun s child => invalidateFuel n s child tag) s
      else s

def invalidate (s : Store ι) (i : ι) (tag : ℕ) : Store ι :=
  H.invalidateFuel (H.depth + 1) s i tag

/-- One step of the loop of `cache_t::flush`: every way of the tag's set that
holds the tag becomes invalid. -/
def flushTag (g : Geometry) (d : DeviceState) (tag : ℕ) : DeviceState :=
  let blockIdx := g.computeBlockIdx tag
  { d with blocks := fun j =>
      let b := d.blocks j
      if blockIdx ≤ j ∧ j < blockIdx + g.associativity ∧ b.tag = tag then
        { b with tag := tagInvalid, counter := 0 }
      else b }

def flushTags (g : Geometry) : ℕ → ℕ → DeviceState → DeviceState
  | 0, _, d => d
  | n + 1, tag, d => flushTags g n (tag + 1) (flushTag g d tag)

/-- `cache_t::flush`, on the device and on all its ancestors. -/
def flushFuel : ℕ → Store ι → ι → Memref → Store ι
  | 0, s, i, _ => s.modify i fun d => { d with fault := true }
  | n + 1, s, i, m =>
    let g := H.geometry i
    let tag := g.computeTag m.addr
    let finalTag := g.computeTag (m.addr + m.size - 1)
    let s := s.modify i fun d =>
      flushTags g (finalTag + 1 - tag) tag { d with lastTag := tagInvalid }
    let s := match (H.dev i).parent with
      | none => s
      | some p => flushFuel n s p m
    s.modify i fun d => d.withStats DeviceStats.flush

def flush (s : Store ι) (i : ι) (m : Memref) : Store ι := H.flushFuel (H.rank i + 1) s i m

/-! ### Requests

`req` stands for the request made on another device, or on the same one for a
prefetch. -/

section Step

variable (req : Store ι → ι → Memref → CacheResult × Store ι)

/-- The bookkeeping of a hit: the device's counters and its parent's. -/
def countHit (s : Store ι) (i : ι) (m : Memref) : Store ι :=
  let s := s.modify i fun d => d.withStats fun st => st.access m.type true
  match (H.dev i).parent with
  | none => s
  | some p => s.modify p fun d => d.withStats fun st => st.childAccess true

/-- The bookkeeping of a miss, and the request to the parent. Without a parent the
data comes from memory and the answer so far stands. -/
def askParent (s : Store ι) (i : ι) (m : Memref) (res : CacheResult) : CacheResult × Store ι :=
  let s := s.modify i fun d => d.withStats fun st => st.access m.type false
  match (H.dev i).parent with
  | none => (res, s)
  | some p =>
    let s := s.modify p fun d => d.withStats fun st => st.childAccess false
    let r := req s p m
    (gotFromParent r.1, r.2)

/-- Put the tag into the way the policy gives up. Filling an invalid block counts
it as loaded; an inclusive device makes its children drop the replaced line. -/
def fill (s : Store ι) (i : ι) (blockIdx tag : ℕ) : ℤ × Store ι :=
  let r := (s i).replaceWhichWay (H.geometry i) (H.dev i).policy blockIdx
  let way := r.1
  let n := blockNo blockIdx way
  let victim := (r.2.blocks n).tag
  let s := s.modify i fun _ => r.2
  let s : Store ι :=
    if victim = tagInvalid then
      s.modify i fun d => { d with loadedBlocks := d.loadedBlocks + 1 }
    else if (H.dev i).inclusive then
      (H.dev i).children.foldl (fun s child => H.invalidate s child victim) s
    else s
  (way, s.modify i fun d =>
    { d.setTag n tag with fault := d.fault || decide ((blockIdx : ℤ) + way < 0) })

/-- Issue a hardware prefetch after a miss, unless the request is one itself. -/
def prefetch (s : Store ι) (i : ι) (m : Memref) : Store ι :=
  if typeIsPrefetch m.type then s
  else match (H.dev i).prefetcher with
    | none => s
    | some blockSize => (req s i (prefetchRef blockSize m)).2

/-- Remember the last tag. -/
def remember (s : Store ι) (i : ι) (tag blockIdx : ℕ) (way : ℤ) : Store ι :=
  s.modify i fun d => { d with lastTag := tag, lastWay := way, lastBlockIdx := blockIdx }

/-- The body of the loop over the blocks a request touches. The prefetch comes
before the last tag is remembered, so that this line is and not the prefetched one. -/
def accessBlock (s : Store ι) (i : ι) (tag : ℕ) (m : Memref) (res : CacheResult) :
    CacheResult × Store ι :=
  let g := H.geometry i
  let policy := (H.dev i).policy
  let blockIdx := g.computeBlockIdx tag
  match (s i).findWay g blockIdx tag with
  | some way =>
    let s := H.countHit s i m
    let s := s.modify i fun d => d.accessUpdate g policy blockIdx way
    (.foundL1, remember s i tag blockIdx way)
  | none =>
    -- the parent first: an inclusive one may drop lines of this device
    let r := H.askParent req s i m res
    let f := H.fill r.2 i blockIdx tag
    let s := f.2.modify i fun d => d.accessUpdate g policy blockIdx f.1
    let s := H.prefetch req s i m
    (r.1, remember s i tag blockIdx f.1)

/-- The loop over the blocks of a request, with `n` blocks left. All but the last
piece end at a block boundary. -/
def accessBlocks (i : ι) (finalAddr : BitVec 64) :
    ℕ → ℕ → Memref → CacheResult → Store ι → CacheResult × Store ι
  | 0, _, _, res, s => (res, s)
  | n + 1, tag, m, res, s =>
    let nextAddr := BitVec.ofNat 64 ((tag + 1) <<< (H.geometry i).blockSizeBits)
    -- only the last piece keeps the size that is left
    let piece := if n = 0 then m else { m with size := nextAddr - m.addr }
    let r := H.accessBlock req s i tag piece res
    let rest :=
      if n = 0 then piece else { piece with addr := nextAddr, size := finalAddr - nextAddr + 1 }
    accessBlocks i finalAddr n (tag + 1) rest r.1 r.2

/-- The short path: a single-block request for the tag of the previous request. -/
def shortPath (s : Store ι) (i : ι) (m : Memref) : CacheResult × Store ι :=
  let d := s i
  -- Make sure the last tag is properly in sync.
  let inSync := d.lastTag ≠ tagInvalid ∧
    (d.blocks (blockNo d.lastBlockIdx d.lastWay)).tag = d.lastTag
  let s := s.modify i fun d => { d with fault := d.fault || !decide inSync }
  let s := H.countHit s i m
  (.notFound, s.modify i fun d =>
    d.accessUpdate (H.geometry i) (H.dev i).policy d.lastBlockIdx d.lastWay)

/-- The first and the last tag a request touches. The last address is computed
without overflow checks, as in the source. -/
def firstTag (i : ι) (m : Memref) : ℕ := (H.geometry i).computeTag m.addr

def finalTag (i : ι) (m : Memref) : ℕ := (H.geometry i).computeTag (m.addr + m.size - 1)

/-- `caching_device_t::request`, with the requests it makes in turn left open. -/
def requestStep (s : Store ι) (i : ι) (m : Memref) : CacheResult × Store ι :=
  let tag := H.firstTag i m
  if tag = H.finalTag i m ∧ tag = (s i).lastTag then H.shortPath s i m
  else H.accessBlocks req i (m.addr + m.size - 1) (H.finalTag i m + 1 - tag) tag m .notFound s

end Step

def requestFuel : ℕ → Store ι → ι → Memref → CacheResult × Store ι
  | 0, s, i, _ => (.notFound, s.modify i fun d => { d with fault := true })
  | n + 1, s, i, m => H.requestStep (requestFuel n) s i m

/-- `caching_device_t::request`. The bound leaves one step for each ancestor, one
for the device and one for a prefetch. -/
def request (s : Store ι) (i : ι) (m : Memref) : CacheResult × Store ι :=
  H.requestFuel (H.rank i + 2) s i m

end Hierarchy

end SagePTE.Simulator
