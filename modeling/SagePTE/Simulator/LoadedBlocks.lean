import Mathlib.Algebra.BigOperators.Group.List.Basic
import Mathlib.Algebra.Order.Field.Rat
import SagePTE.Simulator.CacheOps

/-!
# The count of loaded blocks

A cache counts a block as loaded when a line is put into an invalid block. It does not count
back when a flush or an invalidation makes a block invalid, so the same block can be counted
again and again. The count is the number of valid blocks and of all lines that were ever
dropped. The two agree as long as no line is dropped; otherwise the loaded fraction, which
ends the warmup, overstates what the cache holds and can exceed one.

## Main definitions

* `DeviceState.loadedFraction` — `get_loaded_fraction`
* `droppedLines` — the lines that are dropped along a trace

## Main results

* `DeviceState.Trace.loadedBlocks` — the count along a trace
* `Hierarchy.lines_le_loadedBlocks` — the count is never too small
* `Hierarchy.loadedBlocks_eq_lines_iff` — when it is right
-/

set_option autoImplicit false

namespace SagePTE.Simulator

/-- The number of lines that were dropped. -/
def droppedLines (events : List LineEvent) : ℕ :=
  (events.map fun
    | .drop lines => lines
    | _ => 0).sum

theorem droppedLines_eq_zero {events : List LineEvent} (h : ∀ e ∈ events, ¬e.IsDrop) :
    droppedLines events = 0 := by
  rw [droppedLines, List.sum_eq_zero]
  intro n hn
  obtain ⟨e, he, rfl⟩ := List.mem_map.mp hn
  cases e with
  | drop lines => exact absurd ⟨lines, rfl⟩ (h _ he)
  | _ => rfl

namespace DeviceState

/-- `get_loaded_fraction`. -/
def loadedFraction (g : Geometry) (d : DeviceState) : ℚ := d.loadedBlocks / g.numBlocks

variable {g : Geometry} {policy : ReplacePolicy} {d d' : DeviceState}

theorem lines_congr (h : ∀ n, (d'.blocks n).tag = (d.blocks n).tag) : d'.lines g = d.lines g := by
  simp only [lines, h]

@[simp] theorem accessUpdate_lines (d : DeviceState) (blockIdx : ℕ) (way : ℤ) :
    (d.accessUpdate g policy blockIdx way).lines g = d.lines g :=
  lines_congr fun n => accessUpdate_tag g d policy blockIdx way n

@[simp] theorem accessUpdate_loadedBlocks (d : DeviceState) (blockIdx : ℕ) (way : ℤ) :
    (d.accessUpdate g policy blockIdx way).loadedBlocks = d.loadedBlocks := by
  rw [accessUpdate_eq]

theorem SameBlocks.lines (h : d.SameBlocks d') : d'.lines g = d.lines g :=
  lines_congr fun n => by rw [h.1]

theorem Drops.lines_le (h : d.Drops d') : d'.lines g ≤ d.lines g := by
  refine Finset.card_le_card fun n hn => ?_
  simp only [Finset.mem_filter] at hn ⊢
  refine ⟨hn.1, ?_⟩
  rw [← (h.block n).resolve_right hn.2]
  exact hn.2

theorem lines_le_numBlocks (d : DeviceState) : d.lines g ≤ g.numBlocks :=
  (Finset.card_filter_le _ _).trans (Finset.card_range _).le

/-- A line that is put into an invalid block is one line more. -/
theorem put_lines (hpolicy : policy ≠ .fifo) (d : DeviceState) {tag : ℕ}
    (hvalid : tag ≠ tagInvalid) :
    (d.put g policy tag).2.lines g =
      if (d.blocks (d.putBlock g policy tag)).tag = tagInvalid then d.lines g + 1
      else d.lines g := by
  have hmem : d.putBlock g policy tag ∈ Finset.range g.numBlocks := by
    obtain ⟨way, hway, -, hblock⟩ := d.exists_putBlock (g := g) hpolicy tag
    rw [hblock]
    exact Finset.mem_range.mpr (g.block_lt_numBlocks tag hway)
  have hput (n : ℕ) := d.put_tag g policy tag n
  -- the valid blocks are those of before and the block of the line
  have hset : ((Finset.range g.numBlocks).filter fun n =>
      ((d.put g policy tag).2.blocks n).tag ≠ tagInvalid) =
      insert (d.putBlock g policy tag)
        ((Finset.range g.numBlocks).filter fun n => (d.blocks n).tag ≠ tagInvalid) := by
    ext n
    simp only [Finset.mem_filter, Finset.mem_insert, hput]
    split_ifs with hn
    · simp [hn, hvalid, Finset.mem_range.mp hmem]
    · simp [hn]
  rw [lines, hset]
  split_ifs with hempty
  · rw [Finset.card_insert_of_notMem (by simp [hempty]), lines]
  · rw [Finset.insert_eq_of_mem (by simp [hempty, Finset.mem_range.mp hmem]), lines]

/-- **The count along a trace**: blocks that become valid are counted, dropped lines are not. -/
theorem Trace.loadedBlocks {events : List LineEvent} (h : Trace g policy d events d')
    (hpolicy : policy ≠ .fifo) :
    d'.loadedBlocks + d.lines g = d.loadedBlocks + d'.lines g + droppedLines events := by
  induction h with
  | start => simp [droppedLines]
  | keep _ hsame ih => rw [hsame.2, hsame.lines, ih]
  | hit _ _ _ _ ih => simpa [droppedLines] using ih
  | slip _ _ _ _ ih => simpa [droppedLines] using ih
  | put _ _ hvalid ih =>
    rw [put_loadedBlocks, put_lines hpolicy _ hvalid]
    simp only [droppedLines, List.map_cons, List.sum_cons, Nat.zero_add] at ih ⊢
    split_ifs <;> omega
  | drop _ hdrops ih =>
    have hle := hdrops.lines_le (g := g)
    simp only [droppedLines, List.map_cons, List.sum_cons] at ih ⊢
    rw [hdrops.loadedBlocks]
    omega

theorem lines_initial (g : Geometry) (policy : ReplacePolicy) : (initial g policy).lines g = 0 := by
  rw [lines, Finset.card_eq_zero, Finset.filter_eq_empty_iff]
  exact fun n _ => not_not.mpr (initial_tag g policy n)

theorem loadedBlocks_initial (g : Geometry) (policy : ReplacePolicy) :
    (initial g policy).loadedBlocks = 0 := by
  cases policy <;> rfl

end DeviceState

namespace Hierarchy

variable {ι : Type} [DecidableEq ι] (H : Hierarchy ι) {j : ι}

/-- One operation: what it drops is not counted. -/
theorem perform_loadedBlocks (hpolicy : (H.dev j).policy ≠ .fifo) (s : Store ι) (op : CacheOp ι) :
    ∃ dropped,
      (op.isRequest = true → H.Undisturbed j → dropped = 0) ∧
      (H.perform s op j).loadedBlocks + (s j).lines (H.geometry j) =
        (s j).loadedBlocks + (H.perform s op j).lines (H.geometry j) + dropped := by
  obtain ⟨events, htrace, hdrop, -⟩ := perform_evolved (H := H) s op j
  exact ⟨droppedLines events, fun hop hj => droppedLines_eq_zero (hdrop hop hj),
    htrace.loadedBlocks hpolicy⟩

/-- The count is never too small. -/
theorem lines_le_loadedBlocks (hpolicy : (H.dev j).policy ≠ .fifo) (ops : List (CacheOp ι)) :
    (H.after ops j).lines (H.geometry j) ≤ (H.after ops j).loadedBlocks := by
  induction ops using List.reverseRecOn with
  | nil => rw [after_nil, initialStore, DeviceState.lines_initial]; exact Nat.zero_le _
  | append_singleton ops op ih =>
    obtain ⟨dropped, -, hcount⟩ := H.perform_loadedBlocks hpolicy (H.after ops) op
    rw [after_concat]
    omega

/-- None of the flushes and invalidations takes a line from the cache. -/
def RemovesNone (ops : List (CacheOp ι)) (j : ι) : Prop :=
  ∀ before op later, ops = before ++ op :: later → op.isRequest = false →
    (H.after (before ++ [op]) j).lines (H.geometry j) = (H.after before j).lines (H.geometry j)

theorem removesNone_concat {ops : List (CacheOp ι)} {op : CacheOp ι} :
    H.RemovesNone (ops ++ [op]) j ↔ H.RemovesNone ops j ∧ (op.isRequest = false →
      (H.after (ops ++ [op]) j).lines (H.geometry j) = (H.after ops j).lines (H.geometry j)) := by
  constructor
  · intro h
    exact ⟨fun before o later heq => h before o (later ++ [op]) (by simp [heq]),
      h ops op [] rfl⟩
  · rintro ⟨hops, hop⟩ before o later heq
    rcases List.eq_nil_or_concat' later with rfl | ⟨later', o', rfl⟩
    · obtain ⟨rfl, hlast⟩ := List.append_inj' heq rfl
      cases hlast
      exact hop
    · rw [← List.cons_append, ← List.append_assoc] at heq
      exact hops before o later' (List.append_inj' heq rfl).1

/-- Requests do not count as removals. -/
theorem removesNone_of_requests {ops : List (CacheOp ι)} (hops : ∀ op ∈ ops, op.isRequest = true) :
    H.RemovesNone ops j := by
  rintro before op later rfl hop
  rw [hops op (by simp)] at hop
  cases hop

/-- The count is right as long as nothing is removed. -/
theorem loadedBlocks_eq_lines_iff_removesNone (hpolicy : (H.dev j).policy ≠ .fifo)
    (hj : H.Undisturbed j) (ops : List (CacheOp ι)) :
    (H.after ops j).loadedBlocks = (H.after ops j).lines (H.geometry j) ↔ H.RemovesNone ops j := by
  induction ops using List.reverseRecOn with
  | nil =>
    rw [after_nil, initialStore, DeviceState.lines_initial, DeviceState.loadedBlocks_initial]
    simp [RemovesNone]
  | append_singleton ops op ih =>
    obtain ⟨dropped, hnone, hcount⟩ := H.perform_loadedBlocks hpolicy (H.after ops) op
    have hle := H.lines_le_loadedBlocks hpolicy ops
    rw [removesNone_concat, ← ih, after_concat]
    cases hop : op.isRequest with
    | true =>
      have hzero := hnone hop hj
      simp only [Bool.true_eq_false, false_implies, and_true]
      omega
    | false =>
      have hsame := (perform_drops (H := H) (H.after ops) hop j).loadedBlocks
      simp only [forall_const]
      omega

/-- **The count of loaded blocks.** In a cache that no inclusive device has as a child it is the
number of valid blocks exactly if no flush and no invalidation has taken a line, and then the
loaded fraction is at most one. It is never too small. -/
theorem loadedBlocks_eq_lines_iff (hpolicy : (H.dev j).policy ≠ .fifo) (hj : H.Undisturbed j)
    (ops : List (CacheOp ι)) :
    (H.after ops j).lines (H.geometry j) ≤ (H.after ops j).loadedBlocks ∧
      ((H.after ops j).loadedBlocks = (H.after ops j).lines (H.geometry j) ↔
        H.RemovesNone ops j) ∧
      (H.RemovesNone ops j → (H.after ops j).loadedFraction (H.geometry j) ≤ 1) := by
  have hiff := H.loadedBlocks_eq_lines_iff_removesNone hpolicy hj ops
  refine ⟨H.lines_le_loadedBlocks hpolicy ops, hiff, fun hnone => ?_⟩
  have hle := (H.after ops j).lines_le_numBlocks (g := H.geometry j)
  rw [← hiff.mpr hnone] at hle
  exact div_le_one_of_le₀ (by exact_mod_cast hle) (Nat.cast_nonneg _)

/-- Reads alone are counted right, here in a cache of one block. -/
theorem loadedBlocks_after_reads :
    let H := single (.lines64 1 0) .lru none
    let ops : List (CacheOp Unit) := [.request () (readAt 0x1000), .request () (readAt 0x2000)]
    (H.after ops ()).loadedBlocks = (H.after ops ()).lines (H.geometry ()) ∧
      (H.after ops ()).loadedFraction (H.geometry ()) ≤ 1 := by
  intro H ops
  have hnone : H.RemovesNone ops () := H.removesNone_of_requests (by decide)
  obtain ⟨-, hiff, hle⟩ := loadedBlocks_eq_lines_iff H (j := ()) (by decide)
    (undisturbed_single _ _ _) ops
  exact ⟨hiff.mpr hnone, hle hnone⟩

/-- In a cache of one block, a read, a flush and the read again count two blocks. -/
theorem loaded_twice :
    let H := single (.lines64 1 0) .lru none
    let ops : List (CacheOp Unit) :=
      [.request () (readAt 0x1000), .flush () (readAt 0x1000), .request () (readAt 0x1000)]
    (H.after ops ()).loadedBlocks = 2 ∧ (H.after ops ()).lines (H.geometry ()) = 1 ∧
      1 < (H.after ops ()).loadedFraction (H.geometry ()) := by
  intro H ops
  have hloaded : (H.after ops ()).loadedBlocks = 2 := by decide
  have hblocks : (H.geometry ()).numBlocks = 1 := rfl
  refine ⟨hloaded, by decide, ?_⟩
  rw [DeviceState.loadedFraction, hloaded, hblocks]
  norm_num

end Hierarchy

end SagePTE.Simulator
