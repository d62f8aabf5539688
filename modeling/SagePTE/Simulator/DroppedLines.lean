import SagePTE.Simulator.Effects
import SagePTE.Simulator.LineEvents

/-!
# Devices that lose lines

An invalidation goes down to the children of inclusive devices, and a flush goes up to the
ancestors. Both make lines invalid, and neither leaves a shortcut for a line that is gone. A
device loses lines through requests of others only if an inclusive device has it as a child.

## Main definitions

* `Hierarchy.Undisturbed` — no inclusive device makes the device drop lines
* `Hierarchy.Dropped` — what a device loses while others are served

## Main results

* `Hierarchy.invalidate_drops`, `Hierarchy.flush_drops` — all devices at most lose lines
* `Hierarchy.dropped_foldl_invalidate` — the children of an inclusive device
-/

set_option autoImplicit false

namespace SagePTE.Simulator

open DeviceState

variable {ι : Type}

namespace Hierarchy

variable (H : Hierarchy ι)

/-- No inclusive device has the device among its children. -/
def Undisturbed (j : ι) : Prop :=
  ∀ p, (H.dev p).inclusive = true → j ∉ (H.dev p).children

/-- The device has at most lost lines, and none if nobody makes it lose them. -/
def Dropped (j : ι) (d d' : DeviceState) : Prop :=
  d.Drops d' ∧ (H.Undisturbed j → d.OnlyStats d')

variable {H} {i j : ι} {d d' d'' : DeviceState} {s : Store ι}

theorem Dropped.of_onlyStats (h : d.OnlyStats d') : H.Dropped j d d' := ⟨h.drops, fun _ => h⟩

theorem Dropped.trans (h : H.Dropped j d d') (h' : H.Dropped j d' d'') : H.Dropped j d d'' :=
  ⟨h.1.trans h'.1, fun hj => (h.2 hj).trans (h'.2 hj)⟩

variable [DecidableEq ι]

/-! ### Invalidations -/

/-- `caching_device_t::invalidate` on a block that holds the tag. A shortcut for the tag
becomes invalid with it. -/
def dropLine (tag n : ℕ) (d : DeviceState) : DeviceState :=
  { (d.setTag n tagInvalid).setCounter n 0 with
    stats := d.stats.invalidate
    lastTag := if d.lastTag = tag then tagInvalid else d.lastTag }

theorem drops_dropLine {d : DeviceState} {tag n : ℕ} (hn : (d.blocks n).tag = tag) :
    d.Drops (dropLine tag n d) where
  block j := by
    by_cases hj : j = n
    · subst hj
      right
      simp [dropLine, setTag_tag]
    · left
      simp [dropLine, setCounter, setTag, hj]
  loadedBlocks := rfl
  fault := rfl
  lastWay := rfl
  lastBlockIdx := rfl
  lastTag := by
    by_cases hlast : d.lastTag = tag
    · exact .inl (if_pos hlast)
    · refine .inr ⟨if_neg hlast, fun j hj => ?_⟩
      have hjn : j ≠ n := by
        rintro rfl
        exact hlast (hj.symm.trans hn)
      simp [dropLine, setCounter, setTag, hjn]

theorem invalidateFuel_succ_of_none (n : ℕ) {s : Store ι} {i : ι} {tag : ℕ}
    (h : (s i).findWay (H.geometry i) ((H.geometry i).computeBlockIdx tag) tag = none) :
    H.invalidateFuel (n + 1) s i tag = s := by
  simp only [invalidateFuel, h]

theorem invalidateFuel_succ_of_some (n : ℕ) {s : Store ι} {i : ι} {tag way : ℕ}
    (h : (s i).findWay (H.geometry i) ((H.geometry i).computeBlockIdx tag) tag = some way) :
    H.invalidateFuel (n + 1) s i tag =
      let s := s.modify i (dropLine tag ((H.geometry i).computeBlockIdx tag + way))
      if (H.dev i).inclusive then
        (H.dev i).children.foldl (fun s child => H.invalidateFuel n s child tag) s
      else s := by
  simp only [invalidateFuel, h]
  rfl

/-- An invalidation goes down, to the children of inclusive devices. -/
theorem invalidateFuel_of_not_child (n : ℕ) (s : Store ι) {i : ι} (tag : ℕ) (hne : j ≠ i)
    (hchild : ∀ p, H.rank i ≤ H.rank p → (H.dev p).inclusive = true → j ∉ (H.dev p).children) :
    H.invalidateFuel n s i tag j = s j := by
  induction n generalizing s i with
  | zero => simp [invalidateFuel, hne]
  | succ n ih =>
    cases hfound : (s i).findWay (H.geometry i) ((H.geometry i).computeBlockIdx tag) tag with
    | none => rw [invalidateFuel_succ_of_none n hfound]
    | some way =>
      rw [invalidateFuel_succ_of_some n hfound]
      dsimp only
      split_ifs with hincl
      · refine List.foldlRecOn (motive := fun s' : Store ι => s' j = s j) _ _ (by simp [hne]) ?_
        intro s' hs' c hc
        have hlt := H.rank_lt_child i c hc
        have hnec : j ≠ c := by
          rintro rfl
          exact hchild i le_rfl hincl hc
        rw [ih s' hnec fun p hp => hchild p (by omega), hs']
      · simp [hne]

theorem drops_modify {f : DeviceState → DeviceState} (h : (s i).Drops (f (s i))) (j : ι) :
    (s j).Drops (s.modify i f j) :=
  Store.modify_induction (P := fun j d => (s j).Drops d) h (fun _ _ => (OnlyStats.refl _).drops) j

theorem invalidateFuel_drops (n : ℕ) (s : Store ι) {i : ι} (hn : H.depth < H.rank i + n)
    (tag : ℕ) (j : ι) : (s j).Drops (H.invalidateFuel n s i tag j) := by
  induction n generalizing s i with
  | zero =>
    have hle := H.rank_le_depth i
    omega
  | succ n ih =>
    cases hfound : (s i).findWay (H.geometry i) ((H.geometry i).computeBlockIdx tag) tag with
    | none =>
      rw [invalidateFuel_succ_of_none n hfound]
      exact (OnlyStats.refl _).drops
    | some way =>
      have htag : ((s i).blocks ((H.geometry i).computeBlockIdx tag + way)).tag = tag := by
        simpa using List.find?_some hfound
      -- the device itself, before its children
      have hfirst := drops_modify (drops_dropLine htag) j
      rw [invalidateFuel_succ_of_some n hfound]
      dsimp only
      split_ifs
      · refine List.foldlRecOn (motive := fun s' : Store ι => (s j).Drops (s' j)) _ _ hfirst ?_
        intro s' hs' c hc
        have hlt := H.rank_lt_child i c hc
        exact hs'.trans (ih s' (by omega))
      · exact hfirst

theorem invalidate_drops (s : Store ι) (i : ι) (tag : ℕ) (j : ι) :
    (s j).Drops (H.invalidate s i tag j) :=
  invalidateFuel_drops _ s (by omega) tag j

/-- The children of an inclusive device drop a line. -/
theorem dropped_foldl_invalidate (s : Store ι) (hincl : (H.dev i).inclusive = true) (tag : ℕ)
    (j : ι) :
    H.Dropped j (s j) ((H.dev i).children.foldl (fun s child => H.invalidate s child tag) s j) := by
  refine List.foldlRecOn (motive := fun s' : Store ι => H.Dropped j (s j) (s' j)) _ _
    (.of_onlyStats (.refl _)) fun s' hs' c hc =>
      hs'.trans ⟨invalidate_drops s' c tag j, fun hj => ?_⟩
  have hne : j ≠ c := by
    rintro rfl
    exact hj i hincl hc
  rw [invalidate, invalidateFuel_of_not_child _ s' tag hne fun p _ => hj p]
  exact .refl _

/-- The device itself is above its children. -/
theorem foldl_invalidate_self (s : Store ι) (i : ι) (tag : ℕ) :
    (H.dev i).children.foldl (fun s child => H.invalidate s child tag) s i = s i := by
  refine List.foldlRecOn (motive := fun s' : Store ι => s' i = s i) _ _ rfl fun s' hs' c hc => ?_
  have hlt := H.rank_lt_child i c hc
  have hne : i ≠ c := by
    rintro rfl
    omega
  rw [invalidate, invalidateFuel_of_not_child _ s' tag hne, hs']
  intro p hp _ hmem
  have hlt' := H.rank_lt_child p i hmem
  omega

/-! ### Flushes -/

theorem drops_flushTags (g : Geometry) (n tag : ℕ) (d : DeviceState)
    (hlast : d.lastTag = tagInvalid) : d.Drops (flushTags g n tag d) := by
  induction n generalizing tag d with
  | zero => exact (OnlyStats.refl d).drops
  | succ n ih =>
    have hone : d.Drops (flushTag g d tag) := by
      refine ⟨fun j => ?_, rfl, rfl, rfl, rfl, .inl hlast⟩
      simp only [flushTag]
      split_ifs
      · exact .inr rfl
      · exact .inl rfl
    exact hone.trans (ih (tag + 1) (flushTag g d tag) hlast)

theorem flushSelf_drops (s : Store ι) (i : ι) (m : Memref) (j : ι) :
    (s j).Drops (H.flushSelf s i m j) := by
  have hforget : (s i).Drops { s i with lastTag := tagInvalid } :=
    ⟨fun _ => .inl rfl, rfl, rfl, rfl, rfl, .inl rfl⟩
  exact drops_modify (hforget.trans (drops_flushTags _ _ _ _ rfl)) j

theorem onlyStats_modify_withStats (s : Store ι) (i : ι) (f : DeviceStats → DeviceStats) (j : ι) :
    (s j).OnlyStats (s.modify i (fun d => d.withStats f) j) :=
  Store.modify_induction (P := fun j d => (s j).OnlyStats d) (onlyStats_withStats _ f)
    (fun _ _ => .refl _) j

theorem flushFuel_drops (n : ℕ) (s : Store ι) {i : ι} (hn : H.rank i < n) (m : Memref) (j : ι) :
    (s j).Drops (H.flushFuel n s i m j) := by
  induction n generalizing s i with
  | zero => omega
  | succ n ih =>
    cases hp : (H.dev i).parent with
    | none =>
      rw [flushFuel_succ_of_none hp]
      exact (flushSelf_drops s i m j).trans (onlyStats_modify_withStats _ i _ j).drops
    | some p =>
      have hlt := H.rank_parent_lt i p hp
      rw [flushFuel_succ_of_some hp]
      exact ((flushSelf_drops s i m j).trans (ih _ (by omega))).trans
        (onlyStats_modify_withStats _ i _ j).drops

theorem flush_drops (s : Store ι) (i : ι) (m : Memref) (j : ι) : (s j).Drops (H.flush s i m j) :=
  flushFuel_drops _ s (Nat.lt_succ_self _) m j

end Hierarchy

end SagePTE.Simulator
