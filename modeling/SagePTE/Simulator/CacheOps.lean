import Mathlib.Data.PNat.Defs
import SagePTE.Simulator.DeviceRuns

/-!
# Sequences of cache operations

The devices of a hierarchy are used in any order, for requests, flushes and invalidations.
From the start on, all that happens to one of them is a list of line events.

## Main definitions

* `CacheOp` — requests, flushes and invalidations
* `Hierarchy.after` — the devices after a list of operations

## Main results

* `Hierarchy.after_evolved` — a device after any operations on any devices
* `Hierarchy.after_requests_trace` — the tags that a device without prefetcher is asked for
* `Hierarchy.shortcut_inSync` — when the shortcut can be relied on
-/

set_option autoImplicit false

namespace SagePTE.Simulator

open DeviceState

variable {ι : Type}

/-- An operation on one of the devices. -/
inductive CacheOp (ι : Type)
  | request (i : ι) (m : Memref)
  | flush (i : ι) (m : Memref)
  | invalidate (i : ι) (tag : ℕ)

namespace CacheOp

def isRequest : CacheOp ι → Bool
  | request _ _ => true
  | _ => false

end CacheOp

/-! ### A cache that stands alone -/

/-- Lines of 64 bytes, in `2 ^ sets` sets. -/
def Geometry.lines64 (ways : ℕ+) (sets : ℕ) : Geometry where
  associativity := ways
  blocksPerWay := 2 ^ sets
  blockSizeBits := 6
  associativity_pos := ways.pos
  blocksPerWay_pow := ⟨sets, rfl⟩
  two_le_bits := by decide
  bits_lt := by decide

namespace Hierarchy

theorem rank_single_lt (p : Unit) (h : (none : Option Unit) = some p) : 0 < 0 := by
  cases h

theorem rank_single_child (c : Unit) (h : c ∈ ([] : List Unit)) : 0 < 0 := by
  cases h

/-- A cache without parent and children. -/
def single (geometry : Geometry) (policy : ReplacePolicy) (prefetcher : Option ℕ) :
    Hierarchy Unit where
  dev _ := { geometry := geometry, policy := policy, prefetcher := prefetcher }
  rank _ := 0
  depth := 0
  rank_le_depth _ := le_rfl
  rank_parent_lt _ := rank_single_lt
  rank_lt_child _ := rank_single_child

theorem undisturbed_single (geometry : Geometry) (policy : ReplacePolicy)
    (prefetcher : Option ℕ) : (single geometry policy prefetcher).Undisturbed () := by
  intro p hincl
  cases hincl

/-! ### Operations -/

theorem inSync_initialStore (H : Hierarchy ι) (j : ι) :
    (H.initialStore j).InSync (H.geometry j) := by
  rw [initialStore]
  cases (H.dev j).policy <;> exact ⟨rfl, fun h => absurd rfl h⟩

variable [DecidableEq ι] (H : Hierarchy ι)

def perform (s : Store ι) : CacheOp ι → Store ι
  | .request i m => (H.request s i m).2
  | .flush i m => H.flush s i m
  | .invalidate i tag => H.invalidate s i tag

/-- The devices after a list of operations, from the start. -/
def after (ops : List (CacheOp ι)) : Store ι := ops.foldl H.perform H.initialStore

variable {H} {i j : ι}

@[simp] theorem after_nil : H.after [] = H.initialStore := rfl

@[simp] theorem after_concat (ops : List (CacheOp ι)) (op : CacheOp ι) :
    H.after (ops ++ [op]) = H.perform (H.after ops) op := by
  simp [after]

/-- Flushes and invalidations make devices lose lines. -/
theorem perform_drops (s : Store ι) {op : CacheOp ι} (hop : op.isRequest = false) (j : ι) :
    (s j).Drops (H.perform s op j) := by
  cases op with
  | request i m => cases hop
  | flush i m => exact flush_drops s i m j
  | invalidate i tag => exact invalidate_drops s i tag j

/-- A device after one operation. -/
theorem perform_evolved (s : Store ι) (op : CacheOp ι) (j : ι) :
    ∃ events, Trace (H.geometry j) (H.dev j).policy (s j) events (H.perform s op j) ∧
      (op.isRequest = true → H.Undisturbed j → ∀ e ∈ events, ¬e.IsDrop) ∧
      (H.Tame j → (s j).InSync (H.geometry j) →
        (H.perform s op j).InSync (H.geometry j) ∧ ∀ e ∈ events, ¬e.IsSlip) := by
  cases hop : op.isRequest with
  | false =>
    have hdrops := perform_drops (H := H) s hop j
    exact ⟨[.drop _], .drop .start hdrops, by simp,
      fun _ hd => ⟨hdrops.inSync hd, by simp [LineEvent.IsSlip]⟩⟩
  | true =>
    obtain ⟨i, m⟩ | ⟨i, m⟩ | ⟨i, tag⟩ := op
    · obtain ⟨hapart, events, hserved⟩ := request_serves (H := H) s i m
      by_cases hj : j = i
      · subst hj
        exact ⟨events, hserved.trace, fun _ => hserved.drop, hserved.evolved.sync⟩
      · obtain ⟨⟨events', hev⟩, -⟩ := hapart j hj
        exact ⟨events', hev.trace, fun _ => hev.drop, hev.sync⟩
    · cases hop
    · cases hop

/-- **A device after any operations on any devices.** -/
theorem after_evolved (ops : List (CacheOp ι)) (j : ι) :
    ∃ events, Trace (H.geometry j) (H.dev j).policy (H.initialStore j) events (H.after ops j) ∧
      ((∀ op ∈ ops, op.isRequest = true) → H.Undisturbed j → ∀ e ∈ events, ¬e.IsDrop) ∧
      (H.Tame j → (H.after ops j).InSync (H.geometry j) ∧ ∀ e ∈ events, ¬e.IsSlip) := by
  induction ops using List.reverseRecOn with
  | nil => exact ⟨[], .start, by simp, fun _ => ⟨H.inSync_initialStore j, by simp⟩⟩
  | append_singleton ops op ih =>
    obtain ⟨events, htrace, hdrop, hsync⟩ := ih
    obtain ⟨events', htrace', hdrop', hsync'⟩ := perform_evolved (H := H) (H.after ops) op j
    rw [after_concat]
    refine ⟨events' ++ events, htrace.trans htrace', fun hops hj e he => ?_, fun hj => ?_⟩
    · rcases List.mem_append.mp he with he | he
      · exact hdrop' (hops op (by simp)) hj e he
      · exact hdrop (fun o ho => hops o (by simp [ho])) hj e he
    · obtain ⟨hin, hslip⟩ := hsync hj
      obtain ⟨hin', hslip'⟩ := hsync' hj hin
      exact ⟨hin', fun e he => (List.mem_append.mp he).elim (hslip' e) (hslip e)⟩

/-- **A device on its own.** Requests on it alone are for the tags of their lines, if the
device does not prefetch. -/
theorem after_requests_trace (hpre : (H.dev j).prefetcher = none) (ms : List Memref) :
    ∃ events,
      Trace (H.geometry j) (H.dev j).policy (H.initialStore j) events
        (H.after (ms.map (.request j)) j) ∧
      (H.Undisturbed j → ∀ e ∈ events, ¬e.IsDrop) ∧
      (H.Tame j → (H.after (ms.map (.request j)) j).InSync (H.geometry j) ∧
        ∀ e ∈ events, ¬e.IsSlip) ∧
      events.filterMap LineEvent.asked = (ms.flatMap (H.requestedTags j)).reverse := by
  induction ms using List.reverseRecOn with
  | nil => exact ⟨[], .start, by simp, fun _ => ⟨H.inSync_initialStore j, by simp⟩, rfl⟩
  | append_singleton ms m ih =>
    obtain ⟨events, htrace, hdrop, hsync, hasked⟩ := ih
    rw [List.map_append, List.map_singleton, after_concat]
    obtain ⟨-, events', hserved⟩ := request_serves (H := H) (H.after (ms.map (.request j))) j m
    refine ⟨events' ++ events, htrace.trans hserved.trace, fun hj e he => ?_, fun hj => ?_, ?_⟩
    · exact (List.mem_append.mp he).elim (hserved.drop hj e) (hdrop hj e)
    · obtain ⟨hin, hslip⟩ := hsync hj
      obtain ⟨hin', hslip'⟩ := hserved.sync hj (.inl hin)
      exact ⟨hin', fun e he => (List.mem_append.mp he).elim (hslip' e) (hslip e)⟩
    · rw [List.filterMap_append, hasked, hserved.asked (.inl hpre), List.flatMap_append,
        List.reverse_append, List.flatMap_singleton]

/-! ### The shortcut -/

/-- **The shortcut of a device is in step with its blocks**, in a device without prefetcher and
in one whose prefetched lines are in other sets and which is not a child of an inclusive device.
No assertion fails, and the short path never answers for a line that is gone. -/
theorem shortcut_inSync (hj : H.Tame j) (ops : List (CacheOp ι)) :
    (H.after ops j).fault = false ∧
      ((H.after ops j).lastTag ≠ tagInvalid →
        ((H.after ops j).blocks
          (blockNo (H.after ops j).lastBlockIdx (H.after ops j).lastWay)).tag =
            (H.after ops j).lastTag ∧
        (H.after ops j).Holds (H.geometry j) (H.after ops j).lastTag) := by
  obtain ⟨events, -, -, hsync⟩ := after_evolved (H := H) ops j
  obtain ⟨⟨hfault, hshortcut⟩, -⟩ := hsync hj
  refine ⟨hfault, fun hlast => ?_⟩
  obtain ⟨hidx, way, hway, hlastWay, htag⟩ := hshortcut hlast
  rw [hidx, hlastWay, blockNo_natCast]
  exact ⟨htag, way, hway, htag⟩

/-- Two sets of two ways with a next-line prefetcher: three reads. -/
theorem shortcut_inSync_two_sets :
    let H := single (.lines64 2 1) .lru (some 64)
    let ops : List (CacheOp Unit) := [.request () (readAt 0x280), .request () (readAt 0x240),
      .request () (readAt 0x200)]
    (H.after ops ()).lastTag = 8 ∧ (H.after ops ()).Holds (H.geometry ()) 8 := by
  intro H ops
  have htame : H.Tame () := by
    refine ⟨by decide, fun blockSize hsome => ?_⟩
    cases hsome
    exact ⟨rfl, by decide, undisturbed_single _ _ _⟩
  have hlast : (H.after ops ()).lastTag = 8 := by decide +kernel
  have hsync := shortcut_inSync htame ops
  rw [hlast] at hsync
  exact ⟨hlast, (hsync.2 (by decide)).2⟩

/-- One set of two ways with a next-line prefetcher. The read of line 9 replaces line 10, and its
prefetch of line 10 then takes the short path: the assertion fails, and a hit is counted. -/
theorem prefetch_finds_replaced_line :
    let H := single (.lines64 2 0) .lru (some 64)
    let ops : List (CacheOp Unit) := [.request () (readAt 0x280), .request () (readAt 0x240)]
    (H.after ops ()).fault = true ∧ (H.after ops ()).stats.numPrefetchHits = 1 ∧
      ¬(H.after ops ()).Holds (H.geometry ()) 10 := by
  decide +kernel

end Hierarchy

end SagePTE.Simulator
