import Mathlib.Logic.Function.Iterate
import SagePTE.Simulator.CacheOps

/-!
# The order of a FIFO cache

A FIFO cache keeps a replacement pointer in each set: the counter of one block is 1, those of
the others are 0. A replacement moves the pointer to the way after, and wraps around with a bit
mask. As long as the device loses no lines the pointer is never lost. It goes around the set in
order if the associativity is a power of two, and otherwise never gets all the way around.

Flushes and invalidations clear the counters of the blocks that they make invalid, for the sake
of the other policies. When the pointer is among them the set has none, and
`replace_which_way` answers `-1`.

## Main definitions

* `DeviceState.PointsAt` — the pointer of a set
* `Geometry.nextWay` — where the pointer goes
* `putWays` — the ways that are replaced in a set, in order

## Main results

* `DeviceState.Trace.pointsAt` — the pointer and the replacements along a trace
* `Geometry.iterate_nextWay_eq_mod_iff` — the associativities that the bit mask is right for
* `Hierarchy.fifo_order` — requests to a FIFO cache
-/

set_option autoImplicit false

namespace SagePTE.Simulator

/-! ### The way after -/

namespace Geometry

variable (g : Geometry)

/-- The way that the pointer goes to. -/
def nextWay (way : ℕ) : ℕ := (way + 1) &&& (g.associativity - 1)

theorem nextWay_lt (way : ℕ) : g.nextWay way < g.associativity := by
  have hpos := g.associativity_pos
  have hle : g.nextWay way ≤ g.associativity - 1 := Nat.and_le_right
  omega

theorem nextWay_of_pow {k : ℕ} (hk : g.associativity = 2 ^ k) (way : ℕ) :
    g.nextWay way = (way + 1) % g.associativity := by
  rw [nextWay, hk, Nat.and_two_pow_sub_one_eq_mod]

theorem iterate_nextWay_of_pow {k : ℕ} (hk : g.associativity = 2 ^ k) (n : ℕ) :
    g.nextWay^[n] 0 = n % g.associativity := by
  induction n with
  | zero => rfl
  | succ n ih => rw [Function.iterate_succ_apply', ih, g.nextWay_of_pow hk, Nat.mod_add_mod]

/-- Once around, the pointer is back exactly if the associativity is a power of two. -/
theorem iterate_nextWay_eq_mod_iff {n : ℕ} (hn : g.associativity < n) :
    (∀ i < n, g.nextWay^[i] 0 = i % g.associativity) ↔ ∃ k, g.associativity = 2 ^ k := by
  constructor
  · intro h
    obtain ⟨last, hlast⟩ := Nat.exists_eq_succ_of_ne_zero g.associativity_pos.ne'
    have hend : g.nextWay^[last] 0 = last := by
      rw [h last (by omega), Nat.mod_eq_of_lt (by omega)]
    have hback : g.nextWay^[last + 1] 0 = 0 := by
      rw [h (last + 1) (by omega), hlast, Nat.mod_self]
    rw [Function.iterate_succ_apply', hend, nextWay, ← Nat.succ_eq_add_one, ← hlast] at hback
    exact (Nat.and_sub_one_eq_zero_iff_isPowerOfTwo g.associativity_pos.ne').mp hback
  · rintro ⟨k, hk⟩ i -
    exact g.iterate_nextWay_of_pow hk i

end Geometry

/-! ### The pointer of a set -/

/-- The way that an event replaces in the set. -/
def LineEvent.putIn (g : Geometry) (set : ℕ) : LineEvent → Option ℤ
  | .put tag way => if g.setOf tag = set then some way else none
  | _ => none

/-- The ways that are replaced in the set, the first one first. -/
def putWays (g : Geometry) (set : ℕ) (events : List LineEvent) : List ℤ :=
  events.reverse.filterMap (LineEvent.putIn g set)

theorem putWays_cons (g : Geometry) (set : ℕ) (e : LineEvent) (events : List LineEvent) :
    putWays g set (e :: events) = putWays g set events ++ (e.putIn g set).toList := by
  rw [putWays, putWays, List.reverse_cons, List.filterMap_append]
  cases h : e.putIn g set <;> simp [h]

namespace DeviceState

variable {g : Geometry} {d d' : DeviceState} {set way : ℕ}

/-- The way is the only one of the set with counter 1. -/
def PointsAt (g : Geometry) (d : DeviceState) (set way : ℕ) : Prop :=
  way < g.associativity ∧
    ∀ w < g.associativity, (d.blocks (set * g.associativity + w)).counter = if w = way then 1 else 0

theorem PointsAt.congr (h : d.PointsAt g set way) (hsame : ∀ n, (d'.blocks n).counter =
    (d.blocks n).counter) : d'.PointsAt g set way :=
  ⟨h.1, fun w hw => (hsame _).trans (h.2 w hw)⟩

theorem PointsAt.existsUnique (h : d.PointsAt g set way) :
    ∃! w, w < g.associativity ∧ (d.blocks (set * g.associativity + w)).counter = 1 := by
  refine ⟨way, ⟨h.1, by simp [h.2 way h.1]⟩, ?_⟩
  rintro w ⟨hw, hone⟩
  rw [h.2 w hw] at hone
  by_contra hne
  simp [hne] at hone

/-- The scan finds the pointer. -/
theorem PointsAt.replaceWhichWay (h : d.PointsAt g set way) :
    d.replaceWhichWay g .fifo (set * g.associativity) =
      ((way : ℤ), (d.setCounter (set * g.associativity + way) 0).setCounter
        (set * g.associativity + g.nextWay way) 1) := by
  have hfind : (List.range g.associativity).find?
      (fun w => (d.blocks (set * g.associativity + w)).counter == 1) = some way := by
    rw [List.find?_range_eq_some]
    refine ⟨by simp [h.2 way h.1], List.mem_range.mpr h.1, fun w hw => ?_⟩
    simp [h.2 w (hw.trans h.1), hw.ne]
  simp only [DeviceState.replaceWhichWay, hfind]
  rfl

/-- The pointer of the set moves on, those of the other sets stay. -/
theorem pointsAt_replace (h : d.PointsAt g set way) (set' : ℕ) {way' : ℕ}
    (h' : d.PointsAt g set' way') :
    (d.replaceWhichWay g .fifo (set * g.associativity)).2.PointsAt g set'
      (if set = set' then g.nextWay way' else way') := by
  have hnext := g.nextWay_lt way
  rw [h.replaceWhichWay]
  split_ifs with hset
  · subst hset
    have heq : way' = way := by
      have hone := h'.2 way h.1
      rw [h.2 way h.1, if_pos rfl] at hone
      by_contra hne
      rw [if_neg (Ne.symm hne)] at hone
      cases hone
    subst heq
    refine ⟨hnext, fun w hw => ?_⟩
    simp only [setCounter_counter, Nat.add_left_cancel_iff]
    split_ifs with hw' hold
    · rfl
    · rfl
    · rw [h.2 w hw, if_neg hold]
  · refine h'.imp_right fun hcounter w hw => ?_
    have hother {v : ℕ} (hv : v < g.associativity) :
        set' * g.associativity + w ≠ set * g.associativity + v :=
      fun heq => hset (g.block_inj hw hv heq).1.symm
    simp only [setCounter_counter, if_neg (hother hnext), if_neg (hother h.1)]
    exact hcounter w hw

/-- A line goes where the pointer is. -/
theorem put_fifo_counter (d : DeviceState) (tag n : ℕ) :
    ((d.put g .fifo tag).2.blocks n).counter =
      ((d.replaceWhichWay g .fifo (g.computeBlockIdx tag)).2.blocks n).counter := by
  simp only [put, accessUpdate, setTag_counter]
  split_ifs <;> rfl

theorem PointsAt.put {tag : ℕ} (h : d.PointsAt g (g.setOf tag) way) {set' way' : ℕ}
    (h' : d.PointsAt g set' way') :
    (d.put g .fifo tag).1 = way ∧
      (d.put g .fifo tag).2.PointsAt g set' (if g.setOf tag = set' then g.nextWay way' else way') :=
  ⟨congrArg Prod.fst h.replaceWhichWay,
    (pointsAt_replace h set' h').congr fun n => d.put_fifo_counter tag n⟩

/-- **The pointers along a trace.** Every set has one, and the replacements follow it. -/
theorem Trace.pointsAt {events : List LineEvent} (h : Trace g .fifo d events d')
    (hdrop : ∀ e ∈ events, ¬e.IsDrop) (hd : ∀ set < g.blocksPerWay, d.PointsAt g set 0) (set : ℕ)
    (hset : set < g.blocksPerWay) :
    d'.PointsAt g set (g.nextWay^[(putWays g set events).length] 0) ∧
      putWays g set events =
        (List.range (putWays g set events).length).map fun k => (g.nextWay^[k] 0 : ℤ) := by
  induction h generalizing set with
  | start => exact ⟨hd set hset, rfl⟩
  | keep _ hsame ih =>
    obtain ⟨hat, hways⟩ := ih hdrop set hset
    exact ⟨hat.congr fun n => by rw [hsame.1], hways⟩
  | hit _ _ _ _ ih =>
    rw [putWays_cons]
    simpa [LineEvent.putIn, accessUpdate] using ih (List.forall_mem_cons.mp hdrop).2 set hset
  | slip _ _ _ _ ih =>
    rw [putWays_cons]
    simpa [LineEvent.putIn, accessUpdate] using ih (List.forall_mem_cons.mp hdrop).2 set hset
  | @put events d tag _ _ _ ih =>
    have ih' := fun set hset => ih (List.forall_mem_cons.mp hdrop).2 set hset
    obtain ⟨hat, hways⟩ := ih' set hset
    obtain ⟨hway, hnext⟩ := (ih' (g.setOf tag) (g.setOf_lt tag)).1.put hat
    rw [putWays_cons, LineEvent.putIn]
    by_cases hin : g.setOf tag = set
    · subst hin
      rw [if_pos rfl] at hnext ⊢
      simp only [Option.toList_some, List.length_append, List.length_singleton]
      refine ⟨by rwa [Function.iterate_succ_apply'], ?_⟩
      rw [List.range_succ, List.map_append, ← hways, List.map_singleton, hway]
    · rw [if_neg hin] at hnext ⊢
      simpa using ⟨hnext, hways⟩
  | drop _ _ => exact absurd ⟨_, rfl⟩ (hdrop _ List.mem_cons_self)

theorem pointsAt_initial (g : Geometry) (set : ℕ) : (initial g .fifo).PointsAt g set 0 := by
  refine ⟨g.associativity_pos, fun w hw => ?_⟩
  simp only [initial, Nat.mul_add_mod_of_lt hw]
  split_ifs <;> rfl

end DeviceState

/-! ### Requests to a FIFO cache -/

namespace Hierarchy

open DeviceState

variable {ι : Type} [DecidableEq ι] {H : Hierarchy ι} {j : ι}

/-- **The order of a FIFO cache.** Requests, on whatever devices, are a trace of the cache without
dropped lines, if no inclusive device has it as a child. After every such trace each set has one
block with counter 1, and `replace_which_way` finds it. The ways of a set are replaced cyclically
if the associativity is a power of two; otherwise the order breaks once all ways would have been
used. -/
theorem fifo_order (hpolicy : (H.dev j).policy = .fifo) (hj : H.Undisturbed j) :
    (∀ ops : List (CacheOp ι), (∀ op ∈ ops, op.isRequest = true) →
      ∃ events, Trace (H.geometry j) .fifo (H.initialStore j) events (H.after ops j) ∧
        ∀ e ∈ events, ¬e.IsDrop) ∧
    ∀ events d, Trace (H.geometry j) .fifo (H.initialStore j) events d →
      (∀ e ∈ events, ¬e.IsDrop) → ∀ set < (H.geometry j).blocksPerWay,
        (∃! way, way < (H.geometry j).associativity ∧
          (d.blocks (set * (H.geometry j).associativity + way)).counter = 1) ∧
        (d.replaceWhichWay (H.geometry j) .fifo (set * (H.geometry j).associativity)).1 ≠ -1 ∧
        ((∃ k, (H.geometry j).associativity = 2 ^ k) →
          putWays (H.geometry j) set events =
            (List.range (putWays (H.geometry j) set events).length).map
              fun k => ((k % (H.geometry j).associativity : ℕ) : ℤ)) ∧
        ((H.geometry j).associativity < (putWays (H.geometry j) set events).length →
          putWays (H.geometry j) set events =
            (List.range (putWays (H.geometry j) set events).length).map
              (fun k => ((k % (H.geometry j).associativity : ℕ) : ℤ)) →
          ∃ k, (H.geometry j).associativity = 2 ^ k) := by
  refine ⟨fun ops hops => ?_, fun events d htrace hdrop set hset => ?_⟩
  · obtain ⟨events, htrace, hdrop, -⟩ := after_evolved (H := H) ops j
    rw [hpolicy] at htrace
    exact ⟨events, htrace, hdrop hops hj⟩
  · rw [initialStore, hpolicy] at htrace
    obtain ⟨hat, hways⟩ := htrace.pointsAt hdrop (fun s _ => pointsAt_initial _ s) set hset
    refine ⟨hat.existsUnique, ?_, ?_, fun hlen hcyclic => ?_⟩
    · rw [hat.replaceWhichWay]
      dsimp only
      omega
    · rintro ⟨k, hk⟩
      rw [hways, List.length_map, List.length_range]
      refine List.map_congr_left fun n _ => ?_
      rw [(H.geometry j).iterate_nextWay_of_pow hk n]
    · refine ((H.geometry j).iterate_nextWay_eq_mod_iff hlen).mp fun i hi => ?_
      have heq := hways.symm.trans hcyclic
      exact_mod_cast List.map_inj_left.mp heq i (List.mem_range.mpr hi)

/-- Three reads in one set of two ways: the line of the first is replaced by the third. -/
theorem fifo_order_two_ways :
    let H := single (.lines64 2 0) .fifo none
    let ops : List (CacheOp Unit) := [.request () (readAt 0x0), .request () (readAt 0x40),
      .request () (readAt 0x80)]
    ((H.after ops ()).blocks 0).tag = 2 ∧
      ∃ events, Trace (H.geometry ()) .fifo (H.initialStore ()) events (H.after ops ()) ∧
        putWays (H.geometry ()) 0 events =
          (List.range (putWays (H.geometry ()) 0 events).length).map
            fun k => ((k % 2 : ℕ) : ℤ) := by
  intro H ops
  obtain ⟨hruns, htraces⟩ := fifo_order (H := H) (j := ()) rfl (undisturbed_single _ _ _)
  obtain ⟨events, htrace, hdrop⟩ := hruns ops (by decide)
  exact ⟨by decide, events, htrace, (htraces events _ htrace hdrop 0 (by decide)).2.2.1 ⟨1, rfl⟩⟩

/-- With three ways the second line already replaces the first. With two ways, a flush of the line
that the pointer is at leaves the set without one: the replacement answers `-1`, and the assertion
fails. -/
theorem fifo_order_lost :
    (let H := single (.lines64 3 0) .fifo none
      let ops : List (CacheOp Unit) := [.request () (readAt 0x0), .request () (readAt 0x40)]
      ((H.after ops ()).blocks 0).tag = 1 ∧ ((H.after ops ()).blocks 1).tag = tagInvalid) ∧
    (let H := single (.lines64 2 0) .fifo none
      let ops : List (CacheOp Unit) := [.request () (readAt 0x0), .request () (readAt 0x40),
        .flush () (readAt 0x0)]
      ((H.after ops ()).replaceWhichWay (H.geometry ()) .fifo 0).1 = -1 ∧
        (H.after (ops ++ [.request () (readAt 0x80)]) ()).fault = true) := by
  decide

end Hierarchy

end SagePTE.Simulator
