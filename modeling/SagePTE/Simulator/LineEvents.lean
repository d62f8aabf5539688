import SagePTE.Simulator.CachingDevice

/-!
# What happens to the lines of a device

The devices of a hierarchy act on one another: a request asks the parent, a prefetch comes
back to the device, and an inclusive device makes its children drop lines. Seen from one
device all of this comes down to a few events. A line is found, a line is put in the place
of another one, lines are dropped, or the shortcut answers for a line that is gone. A
`DeviceState.Trace` lists the events between two states of a device. Invariants of a single
device need to look at them only.

## Main definitions

* `DeviceState.put` — the part of a miss that concerns the blocks of the device
* `DeviceState.Drops` — the device has lost lines
* `LineEvent`, `DeviceState.Trace` — the events of a device, the latest one first
* `DeviceState.InSync` — the shortcut names a block that holds its tag

## Main results

* `DeviceState.Trace.trans` — traces compose
* `DeviceState.Trace.tag_eq_of_setOf_ne` — events in one set leave the other sets alone
-/

set_option autoImplicit false

namespace SagePTE.Simulator

/-! ### Sets -/

namespace Geometry

variable (g : Geometry)

/-- The number of the set of a tag. -/
def setOf (tag : ℕ) : ℕ := tag &&& (g.blocksPerWay - 1)

theorem computeBlockIdx_eq (tag : ℕ) : g.computeBlockIdx tag = g.setOf tag * g.associativity := rfl

theorem setOf_eq_mod (tag : ℕ) : g.setOf tag = tag % g.blocksPerWay := by
  obtain ⟨k, hk⟩ := g.blocksPerWay_pow
  rw [setOf, hk, Nat.and_two_pow_sub_one_eq_mod]

theorem blocksPerWay_pos : 0 < g.blocksPerWay := by
  obtain ⟨k, hk⟩ := g.blocksPerWay_pow
  rw [hk]
  exact Nat.two_pow_pos k

theorem setOf_lt (tag : ℕ) : g.setOf tag < g.blocksPerWay := by
  rw [setOf_eq_mod]
  exact Nat.mod_lt _ g.blocksPerWay_pos

/-- A block is one way of one set. -/
theorem block_inj {set set' way way' : ℕ} (hway : way < g.associativity)
    (hway' : way' < g.associativity)
    (h : set * g.associativity + way = set' * g.associativity + way') :
    set = set' ∧ way = way' := by
  have heq : way = way' := by
    have hmod := congrArg (· % g.associativity) h
    simpa only [Nat.mul_add_mod_of_lt hway, Nat.mul_add_mod_of_lt hway'] using hmod
  subst heq
  exact ⟨Nat.eq_of_mul_eq_mul_right g.associativity_pos (Nat.add_right_cancel h), rfl⟩

/-- The sets of two tags are the same if they have a block in common. -/
theorem setOf_eq_of_block_eq {tag tag' way way' : ℕ} (hway : way < g.associativity)
    (hway' : way' < g.associativity)
    (h : g.computeBlockIdx tag + way = g.computeBlockIdx tag' + way') :
    g.setOf tag = g.setOf tag' :=
  (g.block_inj hway hway' h).1

/-- The block of a way of a set is in the array. -/
theorem block_lt_numBlocks (tag : ℕ) {way : ℕ} (hway : way < g.associativity) :
    g.computeBlockIdx tag + way < g.numBlocks := by
  have hle : (g.setOf tag + 1) * g.associativity ≤ g.numBlocks :=
    Nat.mul_le_mul_right _ (g.setOf_lt tag)
  rw [Nat.succ_mul] at hle
  rw [computeBlockIdx_eq]
  omega

end Geometry

theorem blockNo_natCast (blockIdx way : ℕ) : blockNo blockIdx (way : ℤ) = blockIdx + way := by
  simp only [blockNo]
  omega

theorem DeviceState.initial_tag (g : Geometry) (policy : ReplacePolicy) (n : ℕ) :
    ((DeviceState.initial g policy).blocks n).tag = tagInvalid := by
  cases policy with
  | lru => rfl
  | lfu => rfl
  | fifo =>
    simp only [DeviceState.initial]
    split_ifs <;> rfl

/-! ### The events of a device -/

/-- An event of a device. -/
inductive LineEvent
  /-- A way of the set holds the tag. -/
  | hit (tag way : ℕ)
  /-- The shortcut answers for the tag, but its block does not hold it. -/
  | slip (tag : ℕ)
  /-- The tag is put into the way that the policy gives up. -/
  | put (tag : ℕ) (way : ℤ)
  /-- So many lines are dropped. -/
  | drop (lines : ℕ)
  deriving DecidableEq, Repr

namespace LineEvent

/-- The tag that is asked for. -/
def asked : LineEvent → Option ℕ
  | hit tag _ => some tag
  | slip tag => some tag
  | put tag _ => some tag
  | drop _ => none

/-- The shortcut has failed. -/
def IsSlip (e : LineEvent) : Prop := ∃ tag, e = slip tag

def IsDrop (e : LineEvent) : Prop := ∃ lines, e = drop lines

end LineEvent

namespace DeviceState

/-- The blocks are the same, and as many are counted as loaded. -/
def SameBlocks (d d' : DeviceState) : Prop :=
  d'.blocks = d.blocks ∧ d'.loadedBlocks = d.loadedBlocks

/-- At most the statistics differ. -/
def OnlyStats (d d' : DeviceState) : Prop := d' = { d with stats := d'.stats }

/-- Some blocks have become invalid, and the shortcut does not name one of them. -/
structure Drops (d d' : DeviceState) : Prop where
  block : ∀ n, d'.blocks n = d.blocks n ∨ (d'.blocks n).tag = tagInvalid
  loadedBlocks : d'.loadedBlocks = d.loadedBlocks
  fault : d'.fault = d.fault
  lastWay : d'.lastWay = d.lastWay
  lastBlockIdx : d'.lastBlockIdx = d.lastBlockIdx
  lastTag : d'.lastTag = tagInvalid ∨ d'.lastTag = d.lastTag ∧
    ∀ n, (d.blocks n).tag = d.lastTag → d'.blocks n = d.blocks n

variable (g : Geometry) (policy : ReplacePolicy)

/-- The number of blocks that hold a line. -/
def lines (d : DeviceState) : ℕ :=
  ((Finset.range g.numBlocks).filter fun n => (d.blocks n).tag ≠ tagInvalid).card

/-- The part of a miss that concerns the blocks of the device: the way that the policy gives
up, and the device with the line in it. -/
def put (d : DeviceState) (tag : ℕ) : ℤ × DeviceState :=
  let blockIdx := g.computeBlockIdx tag
  let r := d.replaceWhichWay g policy blockIdx
  let n := blockNo blockIdx r.1
  let d : DeviceState :=
    if (r.2.blocks n).tag = tagInvalid then { r.2 with loadedBlocks := r.2.loadedBlocks + 1 }
    else r.2
  (r.1, (d.setTag n tag).accessUpdate g policy blockIdx r.1)

/-- The events between two states of a device, the latest one first. -/
inductive Trace (d₀ : DeviceState) : List LineEvent → DeviceState → Prop
  | start : Trace d₀ [] d₀
  /-- Statistics and the shortcut change without an event. -/
  | keep {events : List LineEvent} {d d' : DeviceState} :
      Trace d₀ events d → d.SameBlocks d' → Trace d₀ events d'
  | hit {events : List LineEvent} {d : DeviceState} {tag way : ℕ} :
      Trace d₀ events d → way < g.associativity → tag ≠ tagInvalid →
      (d.blocks (g.computeBlockIdx tag + way)).tag = tag →
      Trace d₀ (.hit tag way :: events) (d.accessUpdate g policy (g.computeBlockIdx tag) way)
  | slip {events : List LineEvent} {d : DeviceState} (tag blockIdx : ℕ) (way : ℤ) :
      Trace d₀ events d → Trace d₀ (.slip tag :: events) (d.accessUpdate g policy blockIdx way)
  | put {events : List LineEvent} {d : DeviceState} {tag : ℕ} :
      Trace d₀ events d → ¬d.Holds g tag → tag ≠ tagInvalid →
      Trace d₀ (.put tag (d.put g policy tag).1 :: events) (d.put g policy tag).2
  | drop {events : List LineEvent} {d d' : DeviceState} :
      Trace d₀ events d → d.Drops d' → Trace d₀ (.drop (d.lines g - d'.lines g) :: events) d'

/-- The shortcut names a block of the tag's set that holds the tag, and no assertion has
failed. -/
structure InSync (d : DeviceState) : Prop where
  fault : d.fault = false
  shortcut : d.lastTag ≠ tagInvalid → d.lastBlockIdx = g.computeBlockIdx d.lastTag ∧
    ∃ way < g.associativity, d.lastWay = way ∧
      (d.blocks (g.computeBlockIdx d.lastTag + way)).tag = d.lastTag

variable {g policy} {d d' d'' : DeviceState}

theorem SameBlocks.refl (d : DeviceState) : d.SameBlocks d := ⟨rfl, rfl⟩

theorem Trace.trans {events events' : List LineEvent} (h : Trace g policy d events d')
    (h' : Trace g policy d' events' d'') : Trace g policy d (events' ++ events) d'' := by
  -- along the later events
  induction h' with
  | start => exact h
  | keep _ hsame ih => exact ih.keep hsame
  | hit _ hway hvalid htag ih => exact ih.hit hway hvalid htag
  | slip tag blockIdx way _ ih => exact ih.slip tag blockIdx way
  | put _ hmiss hvalid ih => exact ih.put hmiss hvalid
  | drop _ hdrops ih => exact ih.drop hdrops

/-! ### Statistics and dropped lines -/

theorem OnlyStats.refl (d : DeviceState) : d.OnlyStats d := rfl

theorem OnlyStats.trans (h : d.OnlyStats d') (h' : d'.OnlyStats d'') : d.OnlyStats d'' := by
  rw [OnlyStats, h', h]

theorem onlyStats_withStats (d : DeviceState) (f : DeviceStats → DeviceStats) :
    d.OnlyStats (d.withStats f) := rfl

theorem OnlyStats.sameBlocks (h : d.OnlyStats d') : d.SameBlocks d' := by
  rw [h]
  exact .refl _

theorem OnlyStats.drops (h : d.OnlyStats d') : d.Drops d' := by
  rw [h]
  exact ⟨fun _ => .inl rfl, rfl, rfl, rfl, rfl, .inr ⟨rfl, fun _ _ => rfl⟩⟩

theorem Drops.trans (h : d.Drops d') (h' : d'.Drops d'') : d.Drops d'' where
  block n := by
    rcases h'.block n with heq | hgone
    · rw [heq]
      exact h.block n
    · exact .inr hgone
  loadedBlocks := h'.loadedBlocks.trans h.loadedBlocks
  fault := h'.fault.trans h.fault
  lastWay := h'.lastWay.trans h.lastWay
  lastBlockIdx := h'.lastBlockIdx.trans h.lastBlockIdx
  lastTag := by
    rcases h'.lastTag with hnone' | ⟨heq', hkept'⟩
    · exact .inl hnone'
    · rcases h.lastTag with hnone | ⟨heq, hkept⟩
      · exact .inl (heq'.trans hnone)
      · refine .inr ⟨heq'.trans heq, fun n hn => ?_⟩
        have hfirst := hkept n hn
        rw [hkept' n (by rw [hfirst, hn, heq]), hfirst]

theorem Drops.not_holds (h : d.Drops d') {tag : ℕ} (hvalid : tag ≠ tagInvalid)
    (hmiss : ¬d.Holds g tag) : ¬d'.Holds g tag := by
  rintro ⟨way, hway, htag⟩
  rcases h.block (g.computeBlockIdx tag + way) with heq | hgone
  · exact hmiss ⟨way, hway, heq ▸ htag⟩
  · exact hvalid (htag.symm.trans hgone)

theorem Drops.inSync (h : d.Drops d') (hd : d.InSync g) : d'.InSync g where
  fault := h.fault.trans hd.fault
  shortcut hlast := by
    rcases h.lastTag with hnone | ⟨heq, hkept⟩
    · exact absurd hnone hlast
    · obtain ⟨hidx, way, hway, hlastWay, htag⟩ := hd.shortcut (heq ▸ hlast)
      rw [heq]
      refine ⟨h.lastBlockIdx.trans hidx, way, hway, h.lastWay.trans hlastWay, ?_⟩
      rw [hkept _ htag]
      exact htag

/-! ### The policies leave everything but the blocks alone -/

theorem accessUpdate_eq (d : DeviceState) (blockIdx : ℕ) (way : ℤ) :
    d.accessUpdate g policy blockIdx way =
      { d with blocks := (d.accessUpdate g policy blockIdx way).blocks } := by
  cases policy with
  | lfu => rfl
  | fifo => rfl
  | lru =>
    simp only [accessUpdate]
    split_ifs <;> rfl

theorem replaceWhichWay_eq (g : Geometry) (policy : ReplacePolicy) (d : DeviceState)
    (blockIdx : ℕ) :
    (d.replaceWhichWay g policy blockIdx).2 =
      { d with blocks := (d.replaceWhichWay g policy blockIdx).2.blocks } := by
  cases policy with
  | lfu => rfl
  | lru => rfl
  | fifo =>
    simp only [replaceWhichWay]
    split <;> rfl

theorem InSync.accessUpdate (h : d.InSync g) (blockIdx : ℕ) (way : ℤ) :
    (d.accessUpdate g policy blockIdx way).InSync g := by
  have htag := d.accessUpdate_tag g policy blockIdx way
  rw [accessUpdate_eq] at htag ⊢
  refine ⟨h.fault, fun hlast => ?_⟩
  obtain ⟨hidx, w, hw, hlastWay, hheld⟩ := h.shortcut hlast
  exact ⟨hidx, w, hw, hlastWay, (htag _).trans hheld⟩

/-! ### Putting a line into its set -/

/-- The block that a line is put into. -/
def putBlock (g : Geometry) (policy : ReplacePolicy) (d : DeviceState) (tag : ℕ) : ℕ :=
  blockNo (g.computeBlockIdx tag) (d.put g policy tag).1

theorem put_tag (g : Geometry) (policy : ReplacePolicy) (d : DeviceState) (tag n : ℕ) :
    ((d.put g policy tag).2.blocks n).tag =
      if n = d.putBlock g policy tag then tag else (d.blocks n).tag := by
  simp only [put, accessUpdate_tag, setTag_tag, putBlock]
  split_ifs <;> simp

theorem put_eq (d : DeviceState) (tag : ℕ) :
    (d.put g policy tag).2 = { d with
      blocks := (d.put g policy tag).2.blocks
      loadedBlocks := (d.put g policy tag).2.loadedBlocks } := by
  simp only [put]
  rw [accessUpdate_eq]
  simp only [setTag]
  rw [replaceWhichWay_eq]
  split_ifs <;> rfl

theorem put_loadedBlocks (d : DeviceState) (tag : ℕ) :
    (d.put g policy tag).2.loadedBlocks =
      if (d.blocks (d.putBlock g policy tag)).tag = tagInvalid then d.loadedBlocks + 1
      else d.loadedBlocks := by
  have hloaded := congrArg DeviceState.loadedBlocks
    (d.replaceWhichWay_eq g policy (g.computeBlockIdx tag))
  simp only [put, putBlock, replaceWhichWay_tag]
  rw [accessUpdate_eq]
  split_ifs <;> simp [setTag, hloaded]

/-- LRU and LFU put a line into a way of its set. -/
theorem exists_putBlock (hpolicy : policy ≠ .fifo) (d : DeviceState) (tag : ℕ) :
    ∃ way < g.associativity, (d.put g policy tag).1 = (way : ℤ) ∧
      d.putBlock g policy tag = g.computeBlockIdx tag + way := by
  obtain ⟨way, hway, hv⟩ := d.exists_replaceWhichWay (g := g) hpolicy (g.computeBlockIdx tag)
  have hfst : (d.put g policy tag).1 = (way : ℤ) := hv
  refine ⟨way, hway, hfst, ?_⟩
  rw [putBlock, hfst, blockNo_natCast]

/-- A shortcut into another set is still in step. -/
theorem InSync.put (h : d.InSync g) (hpolicy : policy ≠ .fifo) {tag : ℕ}
    (hset : d.lastTag ≠ tagInvalid → g.setOf d.lastTag ≠ g.setOf tag) :
    (d.put g policy tag).2.InSync g := by
  have htag := d.put_tag g policy tag
  rw [put_eq] at htag ⊢
  refine ⟨h.fault, fun hlast => ?_⟩
  obtain ⟨hidx, way, hway, hlastWay, hheld⟩ := h.shortcut hlast
  obtain ⟨w, hw, -, hblock⟩ := d.exists_putBlock (g := g) hpolicy tag
  refine ⟨hidx, way, hway, hlastWay, ?_⟩
  rw [htag, if_neg]
  · exact hheld
  · rw [hblock]
    exact fun heq => hset hlast (g.setOf_eq_of_block_eq hway hw heq)

/-- The shortcut is in step with a block that holds the tag. -/
theorem inSync_remember (hfault : d.fault = false) {tag way : ℕ} (hway : way < g.associativity)
    (htag : (d.blocks (g.computeBlockIdx tag + way)).tag = tag) :
    InSync g { d with lastTag := tag, lastWay := way, lastBlockIdx := g.computeBlockIdx tag } :=
  ⟨hfault, fun _ => ⟨rfl, way, hway, rfl, htag⟩⟩

/-! ### Tags along a trace -/

/-- Events in one set leave the tags of the other sets alone. -/
theorem Trace.tag_eq_of_setOf_ne {events : List LineEvent} (h : Trace g policy d events d')
    (hpolicy : policy ≠ .fifo) (hdrop : ∀ e ∈ events, ¬e.IsDrop) {tag way : ℕ}
    (hway : way < g.associativity)
    (hset : ∀ t ∈ events.filterMap LineEvent.asked, g.setOf t ≠ g.setOf tag) :
    (d'.blocks (g.computeBlockIdx tag + way)).tag =
      (d.blocks (g.computeBlockIdx tag + way)).tag := by
  induction h with
  | start => rfl
  | keep _ hsame ih => rw [hsame.1, ih hdrop hset]
  | hit _ _ _ _ ih =>
    rw [accessUpdate_tag]
    exact ih (List.forall_mem_cons.mp hdrop).2 (List.forall_mem_cons.mp hset).2
  | slip tag' blockIdx way' _ ih =>
    rw [accessUpdate_tag]
    exact ih (List.forall_mem_cons.mp hdrop).2 (List.forall_mem_cons.mp hset).2
  | @put events d tag' _ _ _ ih =>
    have hother : g.computeBlockIdx tag + way ≠ d.putBlock g policy tag' := by
      obtain ⟨w, hw, -, hblock⟩ := d.exists_putBlock (g := g) hpolicy tag'
      rw [hblock]
      intro heq
      refine hset tag' ?_ (g.setOf_eq_of_block_eq hway hw heq).symm
      simp [LineEvent.asked]
    rw [put_tag, if_neg hother]
    exact ih (List.forall_mem_cons.mp hdrop).2 (List.forall_mem_cons.mp hset).2
  | drop _ _ => exact absurd ⟨_, rfl⟩ (hdrop _ List.mem_cons_self)

end DeviceState

end SagePTE.Simulator
