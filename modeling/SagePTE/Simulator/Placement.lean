import SagePTE.Simulator.CacheOps

/-!
# Where the lines of a cache are

A line is only ever in the set of its tag, and in one way of it. Between the lookup that does
not find a line and the moment it is put into the set, the parent is asked, which may take
lines away from the cache; it never puts one there.

The sets themselves cut the block array into disjoint parts, for every geometry that is
admitted. The associativity need not be a power of two, only the number of the sets.

## Main definitions

* `Geometry.setBlocks` — the blocks that are searched for a tag

## Main results

* `Geometry.sets_partition` — the sets are a partition of the block array
* `DeviceState.Trace.placed` — a trace keeps the lines in their places
* `Hierarchy.after_placed` — a cache after any operations
-/

set_option autoImplicit false

namespace SagePTE.Simulator

/-! ### Sets -/

namespace Geometry

open Finset

variable (g : Geometry)

/-- The blocks that are searched for a tag: `compute_block_idx` and all ways. -/
def setBlocks (tag : ℕ) : Finset ℕ := (range g.associativity).image (g.computeBlockIdx tag + ·)

variable {g}

theorem mem_setBlocks {tag i : ℕ} :
    i ∈ g.setBlocks tag ↔ ∃ way < g.associativity, g.computeBlockIdx tag + way = i := by
  simp [setBlocks]

/-- Tags share a set exactly if they are congruent. -/
theorem computeBlockIdx_eq_iff (tag tag' : ℕ) :
    g.computeBlockIdx tag = g.computeBlockIdx tag' ↔
      tag % g.blocksPerWay = tag' % g.blocksPerWay := by
  rw [computeBlockIdx_eq, computeBlockIdx_eq, Nat.mul_left_inj g.associativity_pos.ne',
    setOf_eq_mod, setOf_eq_mod]

/-- The blocks of two sets are apart. -/
theorem disjoint_setBlocks {tag tag' : ℕ}
    (h : tag % g.blocksPerWay ≠ tag' % g.blocksPerWay) :
    Disjoint (g.setBlocks tag) (g.setBlocks tag') := by
  rw [disjoint_left]
  intro i hi hi'
  obtain ⟨way, hway, rfl⟩ := mem_setBlocks.1 hi
  obtain ⟨way', hway', heq⟩ := mem_setBlocks.1 hi'
  obtain ⟨hset, -⟩ := g.block_inj hway' hway heq
  apply h
  rw [← computeBlockIdx_eq_iff]
  exact congrArg (· * g.associativity) hset.symm

/-- A block is in the set with the number that division by the associativity gives. -/
theorem exists_mem_setBlocks {i : ℕ} (hi : i < g.numBlocks) :
    ∃ tag < g.blocksPerWay, i ∈ g.setBlocks tag := by
  have hset : i / g.associativity < g.blocksPerWay :=
    (Nat.div_lt_iff_lt_mul g.associativity_pos).2 hi
  refine ⟨i / g.associativity, hset, mem_setBlocks.2 ⟨i % g.associativity, ?_, ?_⟩⟩
  · exact Nat.mod_lt _ g.associativity_pos
  · rw [computeBlockIdx_eq, setOf_eq_mod, Nat.mod_eq_of_lt hset, mul_comm]
    exact Nat.div_add_mod i g.associativity

/-- With block counts of type `int`, the number of a set is the tag of an address. -/
theorem exists_computeTag_eq (hint : g.numBlocks < 2 ^ 31) {tag : ℕ}
    (htag : tag < g.blocksPerWay) : ∃ addr : BitVec 64, g.computeTag addr = tag := by
  have hbits : 2 ^ g.blockSizeBits ≤ 2 ^ 30 :=
    Nat.pow_le_pow_right Nat.two_pos (Nat.le_of_lt_succ g.bits_lt)
  have hsets : g.blocksPerWay ≤ g.numBlocks := Nat.le_mul_of_pos_right _ g.associativity_pos
  have hlt : tag * 2 ^ g.blockSizeBits < 2 ^ 64 := by
    calc tag * 2 ^ g.blockSizeBits
        ≤ 2 ^ 31 * 2 ^ 30 := Nat.mul_le_mul (by omega) hbits
      _ < 2 ^ 64 := by decide
  refine ⟨BitVec.ofNat 64 (tag * 2 ^ g.blockSizeBits), ?_⟩
  rw [computeTag, BitVec.toNat_ofNat, Nat.mod_eq_of_lt hlt, Nat.shiftRight_eq_div_pow]
  exact Nat.mul_div_cancel _ (Nat.two_pow_pos _)

/-- **The sets partition the block array.** For every associativity, block size and block count
that `init` admits: a block number computed from a tag and a way is in bounds, tags share a set
exactly if they are congruent, the sets of other tags are disjoint, and every block is in a
set, which some address leads to. -/
theorem sets_partition {associativity blockSize numBlocks : ℤ} {g : Geometry}
    (h : Geometry.init associativity blockSize numBlocks = some g) :
    (g.associativity = associativity ∧ g.blocksPerWay * associativity = numBlocks) ∧
      (∀ tag way : ℕ, (way : ℤ) < associativity →
        ((g.computeBlockIdx tag + way : ℕ) : ℤ) < numBlocks) ∧
      (∀ tag tag', g.computeBlockIdx tag = g.computeBlockIdx tag' ↔
        tag % g.blocksPerWay = tag' % g.blocksPerWay) ∧
      (∀ tag tag', tag % g.blocksPerWay ≠ tag' % g.blocksPerWay →
        Disjoint (g.setBlocks tag) (g.setBlocks tag')) ∧
      (∀ i : ℕ, (i : ℤ) < numBlocks → ∃ tag < g.blocksPerWay, i ∈ g.setBlocks tag) ∧
      (numBlocks < 2 ^ 31 → ∀ tag < g.blocksPerWay,
        ∃ addr : BitVec 64, g.computeTag addr = tag) := by
  obtain ⟨rfl, -, rfl⟩ := Geometry.of_init h
  refine ⟨⟨rfl, ?_⟩, fun tag way hway => ?_, computeBlockIdx_eq_iff, fun tag tag' hne => ?_,
    fun i hi => ?_, fun hint tag htag => ?_⟩
  · rw [numBlocks, Nat.cast_mul]
  · exact_mod_cast block_lt_numBlocks _ tag (by exact_mod_cast hway)
  · exact disjoint_setBlocks hne
  · exact exists_mem_setBlocks (by exact_mod_cast hi)
  · exact exists_computeTag_eq (by exact_mod_cast hint) htag

/-- 768 blocks in twelve ways. -/
theorem sets_partition_twelve_ways :
    ∃ g, Geometry.init 12 64 768 = some g ∧ g.blocksPerWay = 64 ∧
      g.computeBlockIdx 65 = 12 ∧ ∀ i < 768, ∃ tag < 64, i ∈ g.setBlocks tag := by
  obtain ⟨g, hg⟩ := Option.isSome_iff_exists.mp (by decide : (Geometry.init 12 64 768).isSome)
  obtain ⟨⟨hassoc, hblocks⟩, -, -, -, hall, -⟩ := sets_partition hg
  have hsets : g.blocksPerWay = 64 := by omega
  refine ⟨g, hg, hsets, ?_, fun i hi => ?_⟩
  · rw [computeBlockIdx_eq, setOf_eq_mod, hsets]
    omega
  · rw [← hsets]
    exact hall i (by exact_mod_cast hi)

end Geometry

/-! ### Lines in their sets -/

namespace DeviceState

/-- Each valid tag is in its own set, and in one way of it. -/
structure Placed (g : Geometry) (d : DeviceState) : Prop where
  inSet : ∀ set < g.blocksPerWay, ∀ way < g.associativity,
    (d.blocks (set * g.associativity + way)).tag ≠ tagInvalid →
      g.computeBlockIdx (d.blocks (set * g.associativity + way)).tag = set * g.associativity
  inOneWay : ∀ set < g.blocksPerWay, ∀ way < g.associativity, ∀ way' < g.associativity,
    (d.blocks (set * g.associativity + way)).tag ≠ tagInvalid →
      (d.blocks (set * g.associativity + way)).tag =
        (d.blocks (set * g.associativity + way')).tag → way = way'

variable {g : Geometry} {policy : ReplacePolicy} {d d' : DeviceState}

/-- Lines that are dropped do not matter. -/
theorem Placed.of_tag (h : d.Placed g)
    (htag : ∀ n, (d'.blocks n).tag = (d.blocks n).tag ∨ (d'.blocks n).tag = tagInvalid) :
    d'.Placed g := by
  have hold {n : ℕ} (hn : (d'.blocks n).tag ≠ tagInvalid) : (d'.blocks n).tag = (d.blocks n).tag :=
    (htag n).resolve_right hn
  refine ⟨fun set hset way hway hvalid => ?_, fun set hset way hway way' hway' hvalid heq => ?_⟩
  · have hkeep := hold hvalid
    rw [hkeep] at hvalid ⊢
    exact h.inSet set hset way hway hvalid
  · have hkeep := hold hvalid
    have hkeep' := hold (heq ▸ hvalid)
    rw [hkeep] at hvalid
    exact h.inOneWay set hset way hway way' hway' hvalid (by rw [← hkeep, heq, hkeep'])

theorem Placed.put (h : d.Placed g) (hpolicy : policy ≠ .fifo) {tag : ℕ} (hmiss : ¬d.Holds g tag) :
    (d.put g policy tag).2.Placed g := by
  obtain ⟨w, hw, -, hblock⟩ := d.exists_putBlock (g := g) hpolicy tag
  have hput (set way : ℕ) := d.put_tag g policy tag (set * g.associativity + way)
  simp only [hblock] at hput
  -- the way that is written to, and the other ways
  have hinj {set way : ℕ} (hway : way < g.associativity)
      (heq : set * g.associativity + way = g.computeBlockIdx tag + w) :
      set = g.setOf tag ∧ way = w := g.block_inj hway hw heq
  have hother {way : ℕ} (hway : way < g.associativity) :
      (d.blocks (g.setOf tag * g.associativity + way)).tag ≠ tag :=
    fun heq => hmiss ⟨way, hway, heq⟩
  refine ⟨fun set hset way hway hvalid => ?_, fun set hset way hway way' hway' hvalid heq => ?_⟩
  · rw [hput] at hvalid ⊢
    split_ifs at hvalid ⊢ with hn
    · rw [(hinj hway hn).1, g.computeBlockIdx_eq]
    · exact h.inSet set hset way hway hvalid
  · rw [hput] at hvalid
    rw [hput, hput] at heq
    split_ifs at hvalid heq with hn hn' hn'
    · rw [(hinj hway hn).2, (hinj hway' hn').2]
    · obtain ⟨rfl, -⟩ := hinj hway hn
      exact absurd heq.symm (hother hway')
    · obtain ⟨rfl, -⟩ := hinj hway' hn'
      exact absurd heq (hother hway)
    · exact h.inOneWay set hset way hway way' hway' hvalid heq

/-- A trace keeps the lines in their places. -/
theorem Trace.placed {events : List LineEvent} (h : Trace g policy d events d')
    (hpolicy : policy ≠ .fifo) (hd : d.Placed g) : d'.Placed g := by
  induction h with
  | start => exact hd
  | keep _ hsame ih => exact ih.of_tag fun n => .inl (by rw [hsame.1])
  | hit _ _ _ _ ih => exact ih.of_tag fun n => .inl (accessUpdate_tag _ _ _ _ _ n)
  | slip _ _ _ _ ih => exact ih.of_tag fun n => .inl (accessUpdate_tag _ _ _ _ _ n)
  | put _ hmiss _ ih => exact ih.put hpolicy hmiss
  | drop _ hdrops ih =>
    exact ih.of_tag fun n => (hdrops.block n).imp_left fun heq => by rw [heq]

theorem placed_initial (g : Geometry) (policy : ReplacePolicy) : (initial g policy).Placed g :=
  ⟨fun _ _ _ _ h => absurd (initial_tag g policy _) h,
    fun _ _ _ _ _ _ h => absurd (initial_tag g policy _) h⟩

end DeviceState

/-- **Lines are where a lookup searches for them, and only once**: after any requests, flushes
and invalidations, on this cache and on all others. -/
theorem Hierarchy.after_placed {ι : Type} [DecidableEq ι] (H : Hierarchy ι) {j : ι}
    (hpolicy : (H.dev j).policy ≠ .fifo) (ops : List (CacheOp ι)) :
    (H.after ops j).Placed (H.geometry j) := by
  obtain ⟨events, htrace, -, -⟩ := after_evolved (H := H) ops j
  exact htrace.placed hpolicy (DeviceState.placed_initial _ _)

/-- Two reads in the default caches, with a flush in between: the line that is still there, and
the places of all lines. -/
theorem after_placed_read_flush :
    let ops : List (CacheOp DevId) := [.request (.l1d 0) (readAt 0x1000),
      .flush (.l1d 0) (readAt 0x1000), .request (.l1d 0) (readAt 0x2000)]
    (defaultHierarchy.after ops (.l1d 0)).Holds (defaultHierarchy.geometry (.l1d 0)) 0x80 ∧
      (defaultHierarchy.after ops (.l1d 0)).Placed (defaultHierarchy.geometry (.l1d 0)) :=
  ⟨by decide, Hierarchy.after_placed _ (by decide) _⟩

end SagePTE.Simulator
