import SagePTE.Simulator.Placement

/-!
# Inclusive devices

An inclusive device is meant to hold every line that one of its children holds. A child asks
its parent before it takes a line, and an inclusive device makes its children drop a line before
it replaces it, so that requests and invalidations keep the lines of the children among those
of the parent. A prefetcher in the inclusive device would break this, since its shortcut may
answer for a line that is gone, and a flush does: it goes up from one child and does not come
down to the others.

## Main definitions

* `Hierarchy.Included` — every inclusive device holds the lines of its children
* `Hierarchy.Nested` — what is assumed of the devices and their links

## Main results

* `Hierarchy.clears_invalidate` — an invalidation, from any device down
* `Hierarchy.requestFuel_answers` — a request, at any depth of the recursion
* `Hierarchy.after_included` — requests and invalidations in any order
* `Hierarchy.included_flush_iff` — the flushes that keep the inclusion
-/

set_option autoImplicit false

namespace SagePTE.Simulator

open DeviceState

variable {ι : Type}

/-! ### Lines that are held -/

namespace DeviceState

variable {g : Geometry} {policy : ReplacePolicy} {d d' : DeviceState} {tag : ℕ}

theorem holds_congr (h : ∀ n, (d'.blocks n).tag = (d.blocks n).tag) (tag : ℕ) :
    d'.Holds g tag ↔ d.Holds g tag := by
  simp only [Holds, h]

theorem Drops.holds_of_holds (h : d.Drops d') (hvalid : tag ≠ tagInvalid)
    (hheld : d'.Holds g tag) : d.Holds g tag := by
  by_contra hmiss
  exact h.not_holds hvalid hmiss hheld

/-- A line that is put into the device takes the place of at most one other. -/
theorem holds_put {t : ℕ} (hne : t ≠ (d.blocks (d.putBlock g policy tag)).tag)
    (hheld : d.Holds g t) : (d.put g policy tag).2.Holds g t := by
  obtain ⟨way, hway, htag⟩ := hheld
  refine ⟨way, hway, ?_⟩
  rw [put_tag, if_neg]
  · exact htag
  · intro heq
    rw [heq] at htag
    exact hne htag.symm

theorem holds_put_self (hpolicy : policy ≠ .fifo) (d : DeviceState) (tag : ℕ) :
    (d.put g policy tag).2.Holds g tag := by
  obtain ⟨way, hway, -, hblock⟩ := d.exists_putBlock (g := g) hpolicy tag
  refine ⟨way, hway, ?_⟩
  rw [put_tag, if_pos hblock.symm]

/-- Nothing else is put into the device. -/
theorem holds_of_holds_put {t : ℕ} (hne : t ≠ tag) (hheld : (d.put g policy tag).2.Holds g t) :
    d.Holds g t := by
  obtain ⟨way, hway, htag⟩ := hheld
  refine ⟨way, hway, ?_⟩
  rw [put_tag] at htag
  split_ifs at htag with hblock
  · exact absurd htag.symm hne
  · exact htag

theorem dropLine_tag (d : DeviceState) (tag n j : ℕ) :
    ((Hierarchy.dropLine tag n d).blocks j).tag =
      if j = n then tagInvalid else (d.blocks j).tag := by
  simp only [Hierarchy.dropLine, setCounter_tag, setTag_tag]

/-- A line is in one way only, so it is gone when it is dropped there. -/
theorem Placed.not_holds_dropLine (h : d.Placed g) (hvalid : tag ≠ tagInvalid) {way : ℕ}
    (hway : way < g.associativity) (htag : (d.blocks (g.computeBlockIdx tag + way)).tag = tag) :
    ¬(Hierarchy.dropLine tag (g.computeBlockIdx tag + way) d).Holds g tag := by
  rintro ⟨way', hway', htag'⟩
  rw [dropLine_tag] at htag'
  split_ifs at htag' with hblock
  · exact hvalid htag'.symm
  · apply hblock
    congr 1
    apply h.inOneWay (g.setOf tag) (g.setOf_lt tag) way' hway' way hway
    · rw [← g.computeBlockIdx_eq, htag']
      exact hvalid
    · rw [← g.computeBlockIdx_eq, htag', htag]

/-- The other lines stay. -/
theorem holds_dropLine {t n : ℕ} (hne : t ≠ tag) (htag : (d.blocks n).tag = tag)
    (hheld : d.Holds g t) : (Hierarchy.dropLine tag n d).Holds g t := by
  obtain ⟨way, hway, hheld⟩ := hheld
  refine ⟨way, hway, ?_⟩
  rw [dropLine_tag, if_neg]
  · exact hheld
  · rintro rfl
    exact hne (hheld.symm.trans htag)

end DeviceState

/-- Flushes go up from a device to its ancestors. -/
def CacheOp.isFlush : CacheOp ι → Bool
  | flush _ _ => true
  | _ => false

namespace Hierarchy

variable (H : Hierarchy ι)

/-- The device holds the line. -/
def Has (s : Store ι) (j : ι) (tag : ℕ) : Prop := (s j).Holds (H.geometry j) tag

/-- A line of `c` is also a line of `p`. -/
def Contains (tag : ℕ) (s : Store ι) (p c : ι) : Prop := H.Has s c tag → H.Has s p tag

/-- Every inclusive device holds the lines of its children. -/
def Included (s : Store ι) : Prop :=
  ∀ p, (H.dev p).inclusive = true → ∀ c ∈ (H.dev p).children, ∀ tag, tag ≠ tagInvalid →
    H.Contains tag s p c

/-- What is assumed of the devices and their links. The lines of a device have the size of
those of its parent, an inclusive device is the parent of its children and does not prefetch,
and the order of a FIFO is not disturbed since there is none. -/
structure Nested : Prop where
  policy : ∀ j, (H.dev j).policy ≠ .fifo
  blockSizeBits : ∀ i p, (H.dev i).parent = some p →
    (H.geometry i).blockSizeBits = (H.geometry p).blockSizeBits
  parent : ∀ p, (H.dev p).inclusive = true → ∀ c ∈ (H.dev p).children, (H.dev c).parent = some p
  prefetcher : ∀ p, (H.dev p).inclusive = true → (H.dev p).prefetcher = none

/-- Lines are in their places, and an inclusive device can rely on its shortcut. -/
structure Orderly (s : Store ι) : Prop where
  placed : ∀ j, (s j).Placed (H.geometry j)
  inSync : ∀ j, (H.dev j).inclusive = true → (s j).InSync (H.geometry j)

/-- A line has been taken from some devices. An inclusive device that had it if a child had it
still does so. -/
structure Clears (tag : ℕ) (cs : List ι) (s s' : Store ι) : Prop where
  drops : ∀ j, (s j).Drops (s' j)
  gone : ∀ c ∈ cs, ¬H.Has s' c tag
  contains : ∀ p, (H.dev p).inclusive = true → ∀ c ∈ (H.dev p).children, H.Contains tag s p c →
    H.Contains tag s' p c

variable {H} {s s' s'' : Store ι} {i j p c : ι} {tag : ℕ}

theorem included_initialStore (H : Hierarchy ι) : H.Included H.initialStore := by
  rintro p - c - tag hvalid ⟨way, -, htag⟩
  exact absurd (htag.symm.trans (initial_tag _ _ _)) hvalid

/-! ### Stores with the same lines -/

/-- The blocks of all devices have the same tags. -/
def SameTags (s s' : Store ι) : Prop := ∀ j n, ((s' j).blocks n).tag = ((s j).blocks n).tag

theorem SameTags.trans (h : SameTags s s') (h' : SameTags s' s'') : SameTags s s'' :=
  fun j n => (h' j n).trans (h j n)

theorem SameTags.has_iff (h : SameTags s s') (j : ι) (tag : ℕ) : H.Has s' j tag ↔ H.Has s j tag :=
  holds_congr (h j) tag

theorem SameTags.placed (h : SameTags s s') (hs : ∀ j, (s j).Placed (H.geometry j)) (j : ι) :
    (s' j).Placed (H.geometry j) :=
  (hs j).of_tag fun n => .inl (h j n)

theorem SameTags.included (h : SameTags s s') (hs : H.Included s) : H.Included s' := by
  intro p hp c hc tag hvalid hheld
  rw [h.has_iff] at hheld ⊢
  exact hs p hp c hc tag hvalid hheld

theorem SameTags.of_onlyStats (h : ∀ j, (s j).OnlyStats (s' j)) : SameTags s s' := by
  intro j n
  rw [(h j).sameBlocks.1]

theorem SameTags.modify [DecidableEq ι] {f : DeviceState → DeviceState}
    (h : ∀ n, ((f (s i)).blocks n).tag = ((s i).blocks n).tag) : SameTags s (s.modify i f) :=
  Store.modify_induction (P := fun j d => ∀ n, (d.blocks n).tag = ((s j).blocks n).tag) h
    fun _ _ _ => rfl

/-! ### Invalidations -/

theorem placed_of_drops (h : ∀ j, (s j).Drops (s' j)) (hs : ∀ j, (s j).Placed (H.geometry j))
    (j : ι) : (s' j).Placed (H.geometry j) :=
  (hs j).of_tag fun n => ((h j).block n).imp_left fun heq => by rw [heq]

theorem Clears.cons {cs : List ι} (hvalid : tag ≠ tagInvalid) (h : H.Clears tag [c] s s')
    (h' : H.Clears tag cs s' s'') : H.Clears tag (c :: cs) s s'' where
  drops j := (h.drops j).trans (h'.drops j)
  gone := by
    rw [List.forall_mem_cons]
    exact ⟨(h'.drops c).not_holds hvalid (h.gone c List.mem_cons_self), h'.gone⟩
  contains p hp c hc hcontains := h'.contains p hp c hc (h.contains p hp c hc hcontains)

theorem clears_foldl {f : Store ι → ι → Store ι} (hvalid : tag ≠ tagInvalid) {cs : List ι}
    (hf : ∀ c ∈ cs, ∀ s : Store ι, (∀ j, (s j).Placed (H.geometry j)) →
      H.Clears tag [c] s (f s c))
    {s : Store ι} (hs : ∀ j, (s j).Placed (H.geometry j)) :
    H.Clears tag cs s (cs.foldl f s) := by
  induction cs generalizing s with
  | nil => exact ⟨fun _ => (OnlyStats.refl _).drops, by simp, fun _ _ _ _ => id⟩
  | cons c cs ih =>
    have hfirst := hf c List.mem_cons_self s hs
    exact hfirst.cons hvalid (ih (fun c hc => hf c (List.mem_cons_of_mem _ hc))
      (placed_of_drops hfirst.drops hs))

variable [DecidableEq ι]

/-- An invalidation is for one line. -/
theorem has_invalidateFuel {t : ℕ} (hne : t ≠ tag) (n : ℕ) (s : Store ι) (i j : ι)
    (hheld : H.Has s j t) : H.Has (H.invalidateFuel n s i tag) j t := by
  induction n generalizing s i with
  | zero =>
    refine Store.modify_induction (P := fun j d => H.Has s j t → d.Holds (H.geometry j) t)
      ?_ ?_ j hheld
    · exact id
    · exact fun _ _ => id
  | succ n ih =>
    cases hfound : (s i).findWay (H.geometry i) ((H.geometry i).computeBlockIdx tag) tag with
    | none =>
      rw [invalidateFuel_succ_of_none n hfound]
      exact hheld
    | some way =>
      have htag : ((s i).blocks ((H.geometry i).computeBlockIdx tag + way)).tag = tag := by
        simpa using List.find?_some hfound
      have hfirst : H.Has
          (s.modify i (dropLine tag ((H.geometry i).computeBlockIdx tag + way))) j t := by
        refine Store.modify_induction (P := fun j d => H.Has s j t → d.Holds (H.geometry j) t)
          ?_ ?_ j hheld
        · exact holds_dropLine hne htag
        · exact fun _ _ => id
      rw [invalidateFuel_succ_of_some n hfound]
      dsimp only
      split_ifs
      · exact List.foldlRecOn (motive := fun s' : Store ι => H.Has s' j t) _ _ hfirst
          fun s' hs' c _ => ih s' c hs'
      · exact hfirst

/-- The line is taken from one device. Its own children are not looked at yet. -/
theorem dropLine_contains (hvalid : tag ≠ tagInvalid) {way : ℕ}
    (hway : way < (H.geometry i).associativity)
    (htag : ((s i).blocks ((H.geometry i).computeBlockIdx tag + way)).tag = tag)
    (hs : ∀ j, (s j).Placed (H.geometry j)) {s' : Store ι}
    (hs' : s' = s.modify i (dropLine tag ((H.geometry i).computeBlockIdx tag + way))) :
    (∀ j, (s j).Drops (s' j)) ∧ ¬H.Has s' i tag ∧
      ∀ p, p ≠ i → ∀ c, H.Contains tag s p c → H.Contains tag s' p c := by
  have hdrops : ∀ j, (s j).Drops (s' j) := by
    rw [hs']
    exact drops_modify (drops_dropLine htag)
  refine ⟨hdrops, ?_, ?_⟩
  · rw [Has, hs', Store.modify_self]
    exact (hs i).not_holds_dropLine hvalid hway htag
  · intro p hp c hcontains hheld
    have hheld := hcontains ((hdrops c).holds_of_holds hvalid hheld)
    rwa [Has, hs', Store.modify_of_ne _ hp]

/-- **An invalidation** takes the line from the device, and from the children of an inclusive
device that had it. -/
theorem clears_invalidateFuel (hvalid : tag ≠ tagInvalid) (n : ℕ) {s : Store ι} {i : ι}
    (hn : H.depth < H.rank i + n) (hs : ∀ j, (s j).Placed (H.geometry j)) :
    H.Clears tag [i] s (H.invalidateFuel n s i tag) := by
  induction n generalizing s i with
  | zero =>
    have hle := H.rank_le_depth i
    omega
  | succ n ih =>
    cases hfound : (s i).findWay (H.geometry i) ((H.geometry i).computeBlockIdx tag) tag with
    | none =>
      rw [invalidateFuel_succ_of_none n hfound]
      refine ⟨fun _ => (OnlyStats.refl _).drops, ?_, fun _ _ _ _ => id⟩
      rw [List.forall_mem_singleton]
      exact ((s i).findWay_eq_none_iff _ tag).mp hfound
    | some way =>
      have hway : way < (H.geometry i).associativity :=
        List.mem_range.mp (List.mem_of_find?_eq_some hfound)
      have htag : ((s i).blocks ((H.geometry i).computeBlockIdx tag + way)).tag = tag := by
        simpa using List.find?_some hfound
      rw [invalidateFuel_succ_of_some n hfound]
      dsimp only
      generalize hs₁ : s.modify i (dropLine tag ((H.geometry i).computeBlockIdx tag + way)) = s₁
      obtain ⟨hdrops, hgone, hcontains⟩ := dropLine_contains hvalid hway htag hs hs₁.symm
      split_ifs with hincl
      · -- the children of the device lose the line as well
        have hchild : ∀ c ∈ (H.dev i).children, ∀ s : Store ι,
            (∀ j, (s j).Placed (H.geometry j)) →
              H.Clears tag [c] s (H.invalidateFuel n s c tag) := by
          intro c hc s hs
          have hlt := H.rank_lt_child i c hc
          exact ih (by omega) hs
        have hclears := clears_foldl hvalid hchild (placed_of_drops hdrops hs)
        refine ⟨fun j => (hdrops j).trans (hclears.drops j), ?_, ?_⟩
        · rw [List.forall_mem_singleton]
          exact (hclears.drops i).not_holds hvalid hgone
        · intro p hp c hc hbefore
          by_cases hpi : p = i
          · subst hpi
            intro hheld
            exact absurd hheld (hclears.gone c hc)
          · exact hclears.contains p hp c hc (hcontains p hpi c hbefore)
      · refine ⟨hdrops, by simpa using hgone, ?_⟩
        intro p hp c _ hbefore
        have hpi : p ≠ i := by
          rintro rfl
          exact hincl hp
        exact hcontains p hpi c hbefore

theorem clears_invalidate (hvalid : tag ≠ tagInvalid) (i : ι)
    (hs : ∀ j, (s j).Placed (H.geometry j)) : H.Clears tag [i] s (H.invalidate s i tag) :=
  clears_invalidateFuel hvalid (H.depth + 1) (by omega) hs

theorem invalidate_included (hplaced : ∀ j, (s j).Placed (H.geometry j)) (hs : H.Included s)
    (i : ι) (tag : ℕ) : H.Included (H.invalidate s i tag) := by
  intro p hp c hc t ht
  by_cases heq : t = tag
  · subst heq
    exact (clears_invalidate ht i hplaced).contains p hp c hc (hs p hp c hc t ht)
  · intro hheld
    apply has_invalidateFuel heq
    exact hs p hp c hc t ht ((invalidate_drops s i tag c).holds_of_holds ht hheld)

theorem foldl_invalidate_included (cs : List ι) (hplaced : ∀ j, (s j).Placed (H.geometry j))
    (hs : H.Included s) (tag : ℕ) :
    H.Included (cs.foldl (fun s child => H.invalidate s child tag) s) := by
  refine (List.foldlRecOn (motive := fun s' : Store ι =>
    (∀ j, (s' j).Placed (H.geometry j)) ∧ H.Included s') _ _ ⟨hplaced, hs⟩ ?_).2
  rintro s' ⟨hplaced', hs'⟩ c -
  exact ⟨placed_of_drops (invalidate_drops s' c tag) hplaced',
    invalidate_included hplaced' hs' c tag⟩

/-! ### Replacements -/

/-- The line of the block that is given up. -/
def victim (H : Hierarchy ι) (s : Store ι) (i : ι) (tag : ℕ) : ℕ :=
  ((s i).blocks ((s i).putBlock (H.geometry i) (H.dev i).policy tag)).tag

/-- Before a line is replaced, the children of an inclusive device drop it. -/
theorem fill_children (hplaced : ∀ j, (s j).Placed (H.geometry j)) (hs : H.Included s) (i : ι)
    (tag : ℕ) :
    ∃ s₁ : Store ι, (∀ n, ((s₁ i).blocks n).tag = ((s i).blocks n).tag) ∧
      (∀ j, j ≠ i → (H.fill s i ((H.geometry i).computeBlockIdx tag) tag).2 j = s₁ j) ∧
      H.Included s₁ ∧
      (∀ t, t ≠ H.victim s i tag → ∀ j, H.Has s j t → H.Has s₁ j t) ∧
      ((H.dev i).inclusive = true → H.victim s i tag ≠ tagInvalid →
        ∀ c ∈ (H.dev i).children, ¬H.Has s₁ c (H.victim s i tag)) := by
  generalize hr : (s i).replaceWhichWay (H.geometry i) (H.dev i).policy
    ((H.geometry i).computeBlockIdx tag) = r
  have htag : ∀ n, (r.2.blocks n).tag = ((s i).blocks n).tag := by
    intro n
    rw [← hr, replaceWhichWay_tag]
  have hvictim : (r.2.blocks (blockNo ((H.geometry i).computeBlockIdx tag) r.1)).tag =
      H.victim s i tag := by
    rw [htag, victim, putBlock, put, hr]
  have hsame : SameTags s (s.modify i fun _ => r.2) := .modify htag
  have hincl₀ := hsame.included hs
  have hplaced₀ := hsame.placed hplaced
  simp only [fill, hr, hvictim]
  split_ifs with hinvalid hincl
  · refine ⟨_, hsame i, fun j hj => ?_, hincl₀, fun t _ j => (hsame.has_iff j t).mpr,
      fun _ hvalid => absurd hinvalid hvalid⟩
    rw [Store.modify_of_ne _ hj, Store.modify_of_ne _ hj]
  · refine ⟨_, ?_, fun j hj => Store.modify_of_ne _ hj _, ?_, ?_, ?_⟩
    · intro n
      rw [foldl_invalidate_self]
      exact hsame i n
    · exact foldl_invalidate_included _ hplaced₀ hincl₀ _
    · intro t ht j hheld
      exact List.foldlRecOn (motive := fun s' : Store ι => H.Has s' j t) _ _
        ((hsame.has_iff j t).mpr hheld) fun s' hs' c _ => has_invalidateFuel ht _ s' c j hs'
    · intro _ hvalid
      exact (clears_foldl hvalid (fun c _ s => clears_invalidate hvalid c) hplaced₀).gone
  · exact ⟨_, hsame i, fun j hj => Store.modify_of_ne _ hj _, hincl₀,
      fun t _ j => (hsame.has_iff j t).mpr, fun h => absurd h hincl⟩

/-- **A line is put into a device whose parent has it.** What is replaced is not in the children
of an inclusive device any more. -/
theorem fill_included (hH : H.Nested) (hplaced : ∀ j, (s j).Placed (H.geometry j))
    (hs : H.Included s) {i : ι} {tag : ℕ} (hmiss : ¬H.Has s i tag)
    (hparent : ∀ p, (H.dev p).inclusive = true → i ∈ (H.dev p).children → H.Has s p tag)
    {s' : Store ι}
    (hself : ((s i).put (H.geometry i) (H.dev i).policy tag).2.SameBlocks (s' i))
    (hother : ∀ j, j ≠ i → s' j = (H.fill s i ((H.geometry i).computeBlockIdx tag) tag).2 j) :
    H.Included s' := by
  obtain ⟨s₁, hsame, hfill, hincl, hkept, hgone⟩ := fill_children hplaced hs i tag
  have hother : ∀ j, j ≠ i → ∀ t, H.Has s' j t ↔ H.Has s₁ j t := by
    intro j hj t
    rw [Has, Has, hother j hj, hfill j hj]
  have hi : ∀ t, H.Has s' i t ↔
      ((s i).put (H.geometry i) (H.dev i).policy tag).2.Holds (H.geometry i) t := by
    exact holds_congr fun n => by rw [hself.1]
  have hbefore : ∀ t, H.Has s₁ i t ↔ H.Has s i t := holds_congr hsame
  -- the line is not the one that is replaced
  have hne : tag ≠ H.victim s i tag := by
    intro heq
    obtain ⟨way, hway, -, hblock⟩ := (s i).exists_putBlock (g := H.geometry i) (hH.policy i) tag
    apply hmiss
    refine ⟨way, hway, ?_⟩
    rw [← hblock]
    exact heq.symm
  intro p hp c hc t ht hheld
  have hlt := H.rank_lt_child p c hc
  by_cases hci : c = i
  · subst hci
    have hpc : p ≠ c := by
      rintro rfl
      omega
    rw [hother p hpc]
    rw [hi] at hheld
    by_cases htag : t = tag
    · subst htag
      exact hkept t hne p (hparent p hp hc)
    · exact hincl p hp c hc t ht ((hbefore t).mpr (holds_of_holds_put htag hheld))
  · rw [hother c hci] at hheld
    have hheldp := hincl p hp c hc t ht hheld
    by_cases hpi : p = i
    · subst hpi
      rw [hi]
      apply holds_put
      · rintro rfl
        exact hgone hp ht c hc hheld
      · exact (hbefore t).mp hheldp
    · rw [hother p hpi]
      exact hheldp

/-! ### Lines and shortcuts in order -/

omit [DecidableEq ι] in
theorem Nested.tame (hH : H.Nested) (hincl : (H.dev j).inclusive = true) : H.Tame j := by
  refine ⟨hH.policy j, fun blockSize hpre => ?_⟩
  rw [hH.prefetcher j hincl] at hpre
  cases hpre

omit [DecidableEq ι] in
theorem Orderly.evolved (hs : H.Orderly s) (hH : H.Nested)
    (h : ∀ j, ∃ events, H.Evolved j (s j) (s' j) events) : H.Orderly s' := by
  refine ⟨fun j => ?_, fun j hincl => ?_⟩ <;> obtain ⟨events, hev⟩ := h j
  · exact hev.trace.placed (hH.policy j) (hs.placed j)
  · exact (hev.sync (hH.tame hincl) (hs.inSync j hincl)).1

omit [DecidableEq ι] in
theorem Orderly.drops (hs : H.Orderly s) (h : ∀ j, (s j).Drops (s' j)) : H.Orderly s' :=
  ⟨placed_of_drops h hs.placed, fun j hincl => (h j).inSync (hs.inSync j hincl)⟩

omit [DecidableEq ι] in
theorem Serves.exists_evolved {m : Memref} (h : H.Serves i m s s') (j : ι) :
    ∃ events, H.Evolved j (s j) (s' j) events := by
  by_cases hj : j = i
  · subst hj
    obtain ⟨events, hev⟩ := h.2
    exact ⟨events, hev.evolved⟩
  · exact (h.1 j hj).1

omit [DecidableEq ι] in
theorem Turned.exists_evolved {type : TraceType} {events : List LineEvent}
    (h : H.Turned i type tag (s i) (s' i) events) (hapart : H.Apart i s s') (j : ι) :
    ∃ events, H.Evolved j (s j) (s' j) events := by
  by_cases hj : j = i
  · subst hj
    exact ⟨events, h.trace, h.drop, fun hi hd => h.sync hi (.inl hd), False.elim⟩
  · exact (hapart j hj).1

/-! ### Requests -/

/-- What a request does, with the lines of inclusive devices in mind. -/
structure Answers (H : Hierarchy ι) (i : ι) (m : Memref) (s s' : Store ι) : Prop where
  serves : H.Serves i m s s'
  included : H.Orderly s → H.Included s → H.Included s'
  has : H.Orderly s → H.Included s → (H.dev i).inclusive = true → H.SingleBlock i m →
    H.Has s' i (H.firstTag i m)

variable {req : Store ι → ι → Memref → CacheResult × Store ι} {m : Memref}

omit [DecidableEq ι] in
theorem Nested.firstTag_eq (hH : H.Nested) (hp : (H.dev i).parent = some p) (m : Memref) :
    H.firstTag p m = H.firstTag i m := by
  rw [firstTag, firstTag, Geometry.computeTag, Geometry.computeTag, hH.blockSizeBits i p hp]

omit [DecidableEq ι] in
theorem Nested.finalTag_eq (hH : H.Nested) (hp : (H.dev i).parent = some p) (m : Memref) :
    H.finalTag p m = H.finalTag i m := by
  rw [finalTag, finalTag, Geometry.computeTag, Geometry.computeTag, hH.blockSizeBits i p hp]

omit [DecidableEq ι] in
theorem Nested.singleBlock (hH : H.Nested) (hp : (H.dev i).parent = some p)
    (hm : H.SingleBlock i m) : H.SingleBlock p m := by
  rw [SingleBlock, hH.firstTag_eq hp, hH.finalTag_eq hp]
  exact hm

/-- The parent is asked. An inclusive parent then has the line. -/
theorem askParent_included (hH : H.Nested) (hm : H.SingleBlock i m)
    (hparent : ∀ p, (H.dev i).parent = some p → ∀ s, H.Answers p m s (req s p m).2)
    (hs : H.Orderly s) (hincl : H.Included s) (res : CacheResult) :
    H.Orderly (H.askParent req s i m res).2 ∧ H.Included (H.askParent req s i m res).2 ∧
      ∀ p, (H.dev p).inclusive = true → i ∈ (H.dev p).children →
        H.Has (H.askParent req s i m res).2 p (H.firstTag i m) := by
  have hself := onlyStats_modify_withStats s i fun st => st.access m.type false
  cases hp : (H.dev i).parent with
  | none =>
    simp only [askParent, hp]
    refine ⟨hs.drops fun j => (hself j).drops, (SameTags.of_onlyStats hself).included hincl, ?_⟩
    intro p hp' hc
    rw [hH.parent p hp' i hc] at hp
    cases hp
  | some p =>
    have hcounted (j : ι) := (hself j).trans
      (onlyStats_modify_withStats _ p (fun st => st.childAccess false) j)
    simp only [askParent, hp]
    generalize (s.modify i fun d => d.withStats fun st => st.access m.type false).modify p
      (fun d => d.withStats fun st => st.childAccess false) = s₀ at hcounted ⊢
    have hs₀ := hs.drops fun j => (hcounted j).drops
    have hincl₀ := (SameTags.of_onlyStats hcounted).included hincl
    have hans := hparent p hp s₀
    refine ⟨hs₀.evolved hH hans.serves.exists_evolved, hans.included hs₀ hincl₀, ?_⟩
    intro p' hp' hc
    obtain rfl : p = p' := Option.some.inj (hp.symm.trans (hH.parent p' hp' i hc))
    rw [← hH.firstTag_eq hp]
    exact hans.has hs₀ hincl₀ hp' (hH.singleBlock hp hm)

theorem sameTags_remember (s : Store ι) (i : ι) (tag blockIdx : ℕ) (way : ℤ) :
    SameTags s (remember s i tag blockIdx way) :=
  .modify fun _ => rfl

theorem sameTags_accessUpdate (s : Store ι) (i : ι) (blockIdx : ℕ) (way : ℤ) :
    SameTags s
      (s.modify i fun d => d.accessUpdate (H.geometry i) (H.dev i).policy blockIdx way) :=
  .modify fun n => accessUpdate_tag _ _ _ _ _ n

theorem sameTags_countHit (s : Store ι) (i : ι) (m : Memref) : SameTags s (H.countHit s i m) :=
  .of_onlyStats (countHit_onlyStats s i m)

/-- A turn that finds the line changes no tag. -/
theorem sameTags_accessBlock_hit {way : ℕ}
    (hfound : (s i).findWay (H.geometry i) ((H.geometry i).computeBlockIdx tag) tag = some way)
    (res : CacheResult) : SameTags s (H.accessBlock req s i tag m res).2 := by
  simp only [accessBlock, hfound]
  exact ((sameTags_countHit s i m).trans (sameTags_accessUpdate _ i _ _)).trans
    (sameTags_remember _ i _ _ _)

omit [DecidableEq ι] in
/-- The prefetch that follows a miss. A device that prefetches is not inclusive, so that its
shortcut does not matter here. -/
theorem prefetch_included (hH : H.Nested)
    (hprefetch : ∀ blockSize, (H.dev i).prefetcher = some blockSize →
      typeIsPrefetch m.type = false →
        ∀ s, H.Answers i (prefetchRef blockSize m) s (req s i (prefetchRef blockSize m)).2)
    (hplaced : ∀ j, (s j).Placed (H.geometry j))
    (hsync : ∀ j, j ≠ i → (H.dev j).inclusive = true → (s j).InSync (H.geometry j))
    (hincl : H.Included s) :
    H.Included (H.prefetch req s i m) ∧
      ((H.dev i).inclusive = true → H.prefetch req s i m = s) := by
  cases hpre : (H.dev i).prefetcher with
  | none =>
    have hnone : H.prefetch req s i m = s := by simp [prefetch, hpre]
    rw [hnone]
    exact ⟨hincl, fun _ => rfl⟩
  | some blockSize =>
    have hi : (H.dev i).inclusive ≠ true := by
      intro hi
      rw [hH.prefetcher i hi] at hpre
      cases hpre
    refine ⟨?_, fun h => absurd h hi⟩
    cases htype : typeIsPrefetch m.type with
    | true =>
      have hnone : H.prefetch req s i m = s := by simp [prefetch, htype]
      rw [hnone]
      exact hincl
    | false =>
      have hsome : H.prefetch req s i m = (req s i (prefetchRef blockSize m)).2 := by
        simp [prefetch, hpre, htype]
      rw [hsome]
      refine (hprefetch blockSize hpre htype s).included ⟨hplaced, fun j hj => ?_⟩ hincl
      apply hsync j _ hj
      rintro rfl
      exact hi hj

/-- A turn that does not find the line. -/
theorem accessBlock_miss_included (hH : H.Nested) (hm : H.SingleBlock i m)
    (hparent : ∀ p, (H.dev i).parent = some p → ∀ s, H.Answers p m s (req s p m).2)
    (hprefetch : ∀ blockSize, (H.dev i).prefetcher = some blockSize →
      typeIsPrefetch m.type = false →
        ∀ s, H.Answers i (prefetchRef blockSize m) s (req s i (prefetchRef blockSize m)).2)
    (hs : H.Orderly s) (hincl : H.Included s) (res : CacheResult)
    (hmiss : (s i).findWay (H.geometry i) ((H.geometry i).computeBlockIdx (H.firstTag i m))
      (H.firstTag i m) = none) :
    H.Included (H.accessBlock req s i (H.firstTag i m) m res).2 ∧
      ((H.dev i).inclusive = true →
        H.Has (H.accessBlock req s i (H.firstTag i m) m res).2 i (H.firstTag i m)) := by
  have hvalid : H.firstTag i m ≠ tagInvalid := (H.geometry i).computeTag_ne_tagInvalid _
  obtain ⟨hs₁, hincl₁, hhas₁⟩ := askParent_included hH hm hparent hs hincl res
  obtain ⟨-, hdrop₁⟩ := askParent_apart (fun p hp s => (hparent p hp s).serves) s res
  simp only [accessBlock, hmiss]
  set tag := H.firstTag i m
  set s₁ := (H.askParent req s i m res).2
  have hmiss₁ : ¬H.Has s₁ i tag :=
    hdrop₁.1.not_holds hvalid (((s i).findWay_eq_none_iff _ tag).mp hmiss)
  obtain ⟨-, hself₂, -⟩ := fill_apart (H := H) s₁ i tag
  set f := H.fill s₁ i ((H.geometry i).computeBlockIdx tag) tag
  set s₂ := f.2.modify i fun d =>
    d.accessUpdate (H.geometry i) (H.dev i).policy ((H.geometry i).computeBlockIdx tag) f.1
  have hother₂ : ∀ j, j ≠ i → s₂ j = f.2 j := fun j hj => Store.modify_of_ne _ hj _
  have hdrops₂ : ∀ j, j ≠ i → (s₁ j).Drops (s₂ j) := by
    intro j hj
    rw [hother₂ j hj]
    exact (fill_other s₁ tag _ hj).1
  have hincl₂ : H.Included s₂ := fill_included hH hs₁.placed hincl₁ hmiss₁ hhas₁ hself₂ hother₂
  have hplaced₂ : ∀ j, (s₂ j).Placed (H.geometry j) := by
    intro j
    by_cases hj : j = i
    · subst hj
      exact ((hs₁.placed j).put (hH.policy j) hmiss₁).of_tag fun n => .inl (by rw [hself₂.1])
    · exact (hs₁.placed j).of_tag fun n =>
        ((hdrops₂ j hj).block n).imp_left fun heq => by rw [heq]
  obtain ⟨hincl₃, hsame₃⟩ := prefetch_included hH hprefetch hplaced₂
    (fun j hj hi => (hdrops₂ j hj).inSync (hs₁.inSync j hi)) hincl₂
  have hhas₂ : H.Has s₂ i tag :=
    (holds_congr (fun n => by rw [hself₂.1]) tag).mpr (holds_put_self (hH.policy i) (s₁ i) tag)
  refine ⟨(sameTags_remember _ i _ _ _).included hincl₃, fun hi => ?_⟩
  rw [(sameTags_remember _ i _ _ _).has_iff, hsame₃ hi]
  exact hhas₂

/-- The turns of a request so far: the last one leaves its line in an inclusive device. -/
def Reached (H : Hierarchy ι) (i : ι) (done : List ℕ) (s : Store ι) : Prop :=
  H.Orderly s ∧ H.Included s ∧
    ((H.dev i).inclusive = true → ∀ tag ∈ done.getLast?, H.Has s i tag)

theorem accessBlock_reached (hH : H.Nested) (hm : H.SingleBlock i m)
    (hparent : ∀ p, (H.dev i).parent = some p → ∀ s, H.Answers p m s (req s p m).2)
    (hprefetch : ∀ blockSize, (H.dev i).prefetcher = some blockSize →
      typeIsPrefetch m.type = false →
        ∀ s, H.Answers i (prefetchRef blockSize m) s (req s i (prefetchRef blockSize m)).2)
    {done : List ℕ} (hs : H.Reached i done s) (res : CacheResult) :
    H.Reached i (done ++ [H.firstTag i m]) (H.accessBlock req s i (H.firstTag i m) m res).2 := by
  obtain ⟨hs, hincl, -⟩ := hs
  have hlast : ∀ P : ℕ → Prop, P (H.firstTag i m) →
      ∀ tag ∈ (done ++ [H.firstTag i m]).getLast?, P tag := by simp
  cases hfound : (s i).findWay (H.geometry i) ((H.geometry i).computeBlockIdx (H.firstTag i m))
      (H.firstTag i m) with
  | none =>
    obtain ⟨hapart, events, hturn⟩ := accessBlock_miss hm
      (fun p hp s => (hparent p hp s).serves)
      (fun blockSize hpre hno s => (hprefetch blockSize hpre hno s).serves) s res hfound
    obtain ⟨hincl', hhas⟩ :=
      accessBlock_miss_included hH hm hparent hprefetch hs hincl res hfound
    exact ⟨hs.evolved hH (hturn.exists_evolved hapart), hincl', fun hi => hlast _ (hhas hi)⟩
  | some way =>
    obtain ⟨hapart, hturn⟩ := accessBlock_hit req s i
      ((H.geometry i).computeTag_ne_tagInvalid _) m res hfound
    have hsame : SameTags s (H.accessBlock req s i _ m res).2 :=
      sameTags_accessBlock_hit hfound res
    refine ⟨hs.evolved hH (hturn.exists_evolved hapart), hsame.included hincl, fun _ => ?_⟩
    apply hlast
    rw [hsame.has_iff]
    refine ⟨way, List.mem_range.mp (List.mem_of_find?_eq_some hfound), ?_⟩
    simpa using List.find?_some hfound

theorem sameTags_shortPath (s : Store ι) (i : ι) (m : Memref) :
    SameTags s (H.shortPath s i m).2 := by
  simp only [shortPath]
  refine ((SameTags.modify ?_).trans (sameTags_countHit _ i m)).trans (.modify ?_)
  · exact fun _ => rfl
  · exact fun n => accessUpdate_tag _ _ _ _ _ n

/-- The short path is right about the line if the shortcut is. -/
theorem shortPath_reached (hH : H.Nested) (hm : H.SingleBlock i m) (hs : H.Orderly s)
    (hincl : H.Included s) (hlast : H.firstTag i m = (s i).lastTag) :
    H.Reached i [H.firstTag i m] (H.shortPath s i m).2 := by
  have hsame := sameTags_shortPath (H := H) s i m
  refine ⟨hs.evolved hH (shortPath_serves hm s hlast).exists_evolved, hsame.included hincl, ?_⟩
  intro hi tag htag
  obtain rfl : H.firstTag i m = tag := by simpa using htag
  have hvalid : (s i).lastTag ≠ tagInvalid := by
    rw [← hlast]
    exact (H.geometry i).computeTag_ne_tagInvalid _
  obtain ⟨-, way, hway, -, hheld⟩ := (hs.inSync i hi).shortcut hvalid
  rw [hsame.has_iff, hlast]
  exact ⟨way, hway, hheld⟩

theorem requestStep_answers (hH : H.Nested)
    (hparent : ∀ piece, piece.type = m.type → ∀ p, (H.dev i).parent = some p →
      ∀ s, H.Answers p piece s (req s p piece).2)
    (hprefetch : ∀ piece blockSize, (H.dev i).prefetcher = some blockSize →
      typeIsPrefetch m.type = false →
        ∀ s, H.Answers i (prefetchRef blockSize piece) s (req s i (prefetchRef blockSize piece)).2)
    (s : Store ι) : H.Answers i m s (H.requestStep req s i m).2 := by
  have hreached (hs : H.Orderly s) (hincl : H.Included s) :
      H.Reached i (H.requestedTags i m) (H.requestStep req s i m).2 := by
    refine requestStep_induction req ⟨hs, hincl, by simp⟩ ?_ ?_
    · exact fun hm hlast => shortPath_reached hH hm hs hincl hlast
    · intro done s' piece res hpiece htype hdone
      refine accessBlock_reached hH hpiece (hparent piece htype) ?_ hdone res
      exact fun blockSize hpre hno => hprefetch piece blockSize hpre (htype ▸ hno)
  refine ⟨?_, fun hs hincl => (hreached hs hincl).2.1, fun hs hincl hi hm => ?_⟩
  · exact requestStep_serves (fun piece htype p hp s => (hparent piece htype p hp s).serves)
      (fun piece blockSize hpre hno s => (hprefetch piece blockSize hpre hno s).serves) s
  · apply (hreached hs hincl).2.2 hi
    rw [requestedTags_of_singleBlock hm]
    rfl

/-- **A request**, at any depth of the recursion. -/
theorem requestFuel_answers (hH : H.Nested) (n : ℕ) (s : Store ι) (i : ι) (m : Memref)
    (hn : H.rank i + (if typeIsPrefetch m.type then 1 else 2) ≤ n) :
    H.Answers i m s (H.requestFuel n s i m).2 := by
  induction n generalizing s i m with
  | zero => split_ifs at hn <;> omega
  | succ n ih =>
    refine requestStep_answers hH ?_ ?_ s
    · intro piece htype p hp s
      have hlt := H.rank_parent_lt i p hp
      exact ih s p piece (by rw [htype]; omega)
    · intro piece blockSize _ htype s
      rw [htype] at hn
      refine ih s i (prefetchRef blockSize piece) ?_
      simp only [prefetchRef, typeIsPrefetch] at hn ⊢
      simp at hn ⊢
      omega

theorem request_answers (hH : H.Nested) (s : Store ι) (i : ι) (m : Memref) :
    H.Answers i m s (H.request s i m).2 :=
  requestFuel_answers hH _ s i m (by split_ifs <;> omega)

/-! ### Two caches over an inclusive one -/

theorem rank_sharedPair_lt (i p : Option Bool)
    (h : (if i = none then none else some none : Option (Option Bool)) = some p) :
    (if p = none then 0 else 1) < if i = none then 0 else 1 := by
  split_ifs at h with hi
  cases h
  simp [hi]

theorem rank_sharedPair_child (i c : Option Bool)
    (h : c ∈ (if i = none then [some false, some true] else [] : List (Option Bool))) :
    (if i = none then 0 else 1) < if c = none then 0 else 1 := by
  split_ifs at h with hi
  · rw [if_pos hi, if_neg]
    · exact Nat.zero_lt_one
    · rintro rfl
      simp at h
  · cases h

/-- Two caches of one line each, over an inclusive cache of one line. -/
def sharedPair : Hierarchy (Option Bool) where
  dev i :=
    { geometry := .lines64 1 0
      policy := .lru
      parent := if i = none then none else some none
      inclusive := i = none
      children := if i = none then [some false, some true] else [] }
  rank i := if i = none then 0 else 1
  depth := 1
  rank_le_depth i := by split_ifs <;> omega
  rank_parent_lt := rank_sharedPair_lt
  rank_lt_child := rank_sharedPair_child

theorem nested_sharedPair : sharedPair.Nested where
  policy j := by simp [sharedPair]
  blockSizeBits _ _ _ := rfl
  parent := by
    intro p hp c hc
    obtain rfl : p = none := by simpa [sharedPair] using hp
    have hc : c = some false ∨ c = some true := by simpa [sharedPair] using hc
    rcases hc with rfl | rfl <;> rfl
  prefetcher _ _ := rfl

/-! ### Runs -/

omit [DecidableEq ι] in
theorem orderly_initialStore (H : Hierarchy ι) : H.Orderly H.initialStore :=
  ⟨fun _ => placed_initial _ _, fun j _ => H.inSync_initialStore j⟩

theorem perform_orderly_included (hH : H.Nested) {op : CacheOp ι} (hop : op.isFlush = false)
    (hs : H.Orderly s) (hincl : H.Included s) :
    H.Orderly (H.perform s op) ∧ H.Included (H.perform s op) := by
  cases op with
  | request i m =>
    have hans := request_answers hH s i m
    exact ⟨hs.evolved hH hans.serves.exists_evolved, hans.included hs hincl⟩
  | flush i m => cases hop
  | invalidate i tag =>
    exact ⟨hs.drops (invalidate_drops s i tag), invalidate_included hs.placed hincl i tag⟩

theorem after_orderly_included (hH : H.Nested) (ops : List (CacheOp ι))
    (hops : ∀ op ∈ ops, op.isFlush = false) :
    H.Orderly (H.after ops) ∧ H.Included (H.after ops) := by
  induction ops using List.reverseRecOn with
  | nil => exact ⟨H.orderly_initialStore, H.included_initialStore⟩
  | append_singleton ops op ih =>
    obtain ⟨hs, hincl⟩ := ih fun op hop => hops op (List.mem_append_left _ hop)
    rw [after_concat]
    exact perform_orderly_included hH (hops op (by simp)) hs hincl

/-- **Inclusion.** After any requests and invalidations, on any devices and in any order, every
inclusive device holds every line that one of its children holds. -/
theorem after_included (hH : H.Nested) (ops : List (CacheOp ι))
    (hops : ∀ op ∈ ops, op.isFlush = false) : H.Included (H.after ops) :=
  (after_orderly_included hH ops hops).2

/-- Two reads through an inclusive cache of one line: the second read takes the line of the
first from both caches. -/
theorem after_included_sharedPair :
    let ops : List (CacheOp (Option Bool)) :=
      [.request (some false) (readAt 0x1000), .request (some true) (readAt 0x2000)]
    sharedPair.Included (sharedPair.after ops) ∧
      sharedPair.Has (sharedPair.after ops) none 0x80 ∧
      ¬sharedPair.Has (sharedPair.after ops) (some false) 0x40 := by
  intro ops
  have hincl := after_included nested_sharedPair ops (by decide)
  refine ⟨hincl, hincl none rfl (some true) (by decide) 0x80 (by decide) ?_, ?_⟩
  · unfold Has
    decide +kernel
  · unfold Has
    decide +kernel

/-! ### Flushes -/

theorem holds_flushTags_iff {g : Geometry} {t : ℕ} (ht : t ≠ tagInvalid) (n : ℕ) (tag : ℕ)
    (d : DeviceState) :
    (flushTags g n tag d).Holds g t ↔ d.Holds g t ∧ ¬(tag ≤ t ∧ t < tag + n) := by
  refine ⟨not_holds_flushTags ht n tag d, ?_⟩
  rintro ⟨hheld, hout⟩
  induction n generalizing tag d with
  | zero => exact hheld
  | succ n ih =>
    have hne : t ≠ tag := by omega
    refine ih (tag + 1) (flushTag g d tag) ?_ (by omega)
    obtain ⟨way, hway, htag⟩ := hheld
    refine ⟨way, hway, ?_⟩
    rw [flushTag]
    dsimp only
    rw [if_neg]
    · exact htag
    · rintro ⟨-, -, heq⟩
      exact hne (htag.symm.trans heq)

/-- The device itself loses the lines of the flush. -/
theorem has_flushSelf_iff {t : ℕ} (ht : t ≠ tagInvalid) (s : Store ι) (i j : ι) (m : Memref) :
    H.Has (H.flushSelf s i m) j t ↔ H.Has s j t ∧ (i = j → t ∉ H.requestedTags j m) := by
  by_cases hij : i = j
  · subst hij
    have hrange : t ∉ H.requestedTags i m ↔
        ¬(H.firstTag i m ≤ t ∧ t < H.firstTag i m + (H.finalTag i m + 1 - H.firstTag i m)) := by
      rw [mem_requestedTags]
      omega
    rw [Has, flushSelf, Store.modify_self, holds_flushTags_iff ht, hrange]
    simp [Has, Holds]
  · rw [Has, flushSelf, Store.modify_of_ne _ (Ne.symm hij)]
    simp [Has, hij]

omit [DecidableEq ι] in
theorem isAncestor_iff :
    H.IsAncestor i j ↔ i = j ∨ ∃ p, (H.dev i).parent = some p ∧ H.IsAncestor p j :=
  Relation.ReflTransGen.cases_head_iff

/-- The device and its ancestors lose the lines of the flush, the others lose nothing. -/
theorem has_flushFuel_iff {t : ℕ} (ht : t ≠ tagInvalid) (n : ℕ) (s : Store ι) {i : ι}
    (hn : H.rank i < n) (j : ι) (m : Memref) :
    H.Has (H.flushFuel n s i m) j t ↔
      H.Has s j t ∧ (H.IsAncestor i j → t ∉ H.requestedTags j m) := by
  induction n generalizing s i with
  | zero => omega
  | succ n ih =>
    have hstats (s : Store ι) := SameTags.of_onlyStats (onlyStats_modify_withStats s i
      DeviceStats.flush)
    cases hp : (H.dev i).parent with
    | none =>
      rw [flushFuel_succ_of_none hp, (hstats _).has_iff, has_flushSelf_iff ht, isAncestor_iff]
      simp [hp]
    | some p =>
      have hlt := H.rank_parent_lt i p hp
      rw [flushFuel_succ_of_some hp, (hstats _).has_iff, ih _ (by omega), has_flushSelf_iff ht,
        isAncestor_iff (i := i)]
      simp only [hp, Option.some.injEq, exists_eq_left', or_imp, and_assoc]

theorem has_flush_iff {t : ℕ} (ht : t ≠ tagInvalid) (s : Store ι) (i j : ι) (m : Memref) :
    H.Has (H.flush s i m) j t ↔ H.Has s j t ∧ (H.IsAncestor i j → t ∉ H.requestedTags j m) :=
  has_flushFuel_iff ht _ s (Nat.lt_succ_self _) j m

/-- **When a flush keeps the inclusion.** It goes up from one device, so that it takes the lines
from an inclusive ancestor and not from its other children. None of these may have one of the
lines. -/
theorem included_flush_iff (hH : H.Nested) (hs : H.Included s) (i : ι) (m : Memref) :
    H.Included (H.flush s i m) ↔
      ∀ p, (H.dev p).inclusive = true → H.IsAncestor i p →
        ∀ c ∈ (H.dev p).children, ¬H.IsAncestor i c → ∀ tag ∈ H.requestedTags p m,
          ¬H.Has s c tag := by
  constructor
  · intro hincl p hp hip c hc hic tag htag hheld
    have hvalid : tag ≠ tagInvalid :=
      ((H.mem_requestedTags.mp htag).2.trans_lt ((H.geometry p).computeTag_lt_tagInvalid _)).ne
    have hkept : H.Has (H.flush s i m) c tag :=
      (has_flush_iff hvalid s i c m).mpr ⟨hheld, fun h => absurd h hic⟩
    have hheldp := hincl p hp c hc tag hvalid hkept
    exact ((has_flush_iff hvalid s i p m).mp hheldp).2 hip htag
  · intro hnone p hp c hc tag hvalid hheld
    rw [has_flush_iff hvalid] at hheld ⊢
    refine ⟨hs p hp c hc tag hvalid hheld.1, fun hip htag => ?_⟩
    by_cases hic : H.IsAncestor i c
    · apply hheld.2 hic
      have hparent := hH.parent p hp c hc
      rw [mem_requestedTags] at htag ⊢
      rwa [← hH.firstTag_eq hparent, ← hH.finalTag_eq hparent]
    · exact hnone p hp hip c hc hic tag htag hheld.1

/-- A line that both caches have is flushed from one: the inclusive cache loses it, the other
cache does not. -/
theorem included_flush_sharedPair :
    let s := sharedPair.after
      [.request (some false) (readAt 0x1000), .request (some true) (readAt 0x1000)]
    sharedPair.Included s ∧
      ¬sharedPair.Included (sharedPair.flush s (some false) (readAt 0x1000)) := by
  intro s
  have hs : sharedPair.Included s :=
    (after_orderly_included nested_sharedPair _ (by decide)).2
  refine ⟨hs, ?_⟩
  rw [included_flush_iff nested_sharedPair hs]
  intro hnone
  refine hnone none rfl (.single rfl) (some true) (by decide) ?_ 0x40 (by decide) ?_
  · rw [isAncestor_iff]
    rintro (h | ⟨p, hp, h⟩)
    · cases h
    · cases hp
      exact absurd h.rank_le (by decide)
  · unfold Has
    decide +kernel

end Hierarchy

end SagePTE.Simulator
