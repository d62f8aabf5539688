import SagePTE.Simulator.Lookup

/-!
# What a request changes

A request reaches only devices that parent and child links lead to, so devices
outside a set closed under the links keep their state. On a device without
parent, children and prefetcher, a single-block request changes at most one tag,
to the tag it asks for.

## Main results

* `Hierarchy.request_agrees`, `Hierarchy.flush_agrees` — frame conditions
* `Hierarchy.flush_not_holds` — the lines that a flush removes
* `Hierarchy.Isolated.request_tag` — the tags after a request on a device that
  stands alone
-/

set_option autoImplicit false

namespace SagePTE.Simulator

variable {ι : Type}

/-- The stores agree outside `S`. -/
def Store.Agrees (S : ι → Prop) (s s' : Store ι) : Prop := ∀ j, ¬ S j → s' j = s j

namespace Store.Agrees

variable {S : ι → Prop} {s s' s'' : Store ι}

theorem refl (s : Store ι) : Store.Agrees S s s := fun _ _ => rfl

theorem trans (h : Store.Agrees S s s') (h' : Store.Agrees S s' s'') : Store.Agrees S s s'' :=
  fun j hj => (h' j hj).trans (h j hj)

theorem modify [DecidableEq ι] {i : ι} (h : Store.Agrees S s s') (hi : S i)
    (f : DeviceState → DeviceState) : Store.Agrees S s (s'.modify i f) := by
  refine h.trans fun j hj => ?_
  have hne : j ≠ i := by rintro rfl; exact hj hi
  simp [hne]

theorem foldl {α : Type} {f : Store ι → α → Store ι} {l : List α}
    (hf : ∀ s, ∀ a ∈ l, Store.Agrees S s (f s a)) : Store.Agrees S s (l.foldl f s) := by
  induction l generalizing s with
  | nil => exact refl s
  | cons a l ih =>
    exact (hf s a (by simp)).trans (ih fun s b hb => hf s b (by simp [hb]))

end Store.Agrees

namespace Hierarchy

variable (H : Hierarchy ι)

/-- The links of the devices in `S` stay in `S`. -/
structure Closed (S : ι → Prop) : Prop where
  parent : ∀ i p, S i → (H.dev i).parent = some p → S p
  children : ∀ i c, S i → c ∈ (H.dev i).children → S c

variable [DecidableEq ι] {H} {S : ι → Prop} (hS : H.Closed S)

include hS

theorem invalidateFuel_agrees (n : ℕ) (s : Store ι) {i : ι} (hi : S i) (tag : ℕ) :
    Store.Agrees S s (H.invalidateFuel n s i tag) := by
  induction n generalizing s i with
  | zero => exact (Store.Agrees.refl s).modify hi _
  | succ n ih =>
    simp only [invalidateFuel]
    split
    · exact .refl s
    · split_ifs
      -- an inclusive cache hands the invalidation on to its children
      · refine ((Store.Agrees.refl s).modify hi _).trans (.foldl fun s c hc => ?_)
        exact ih s (hS.children i c hi hc)
      · exact (Store.Agrees.refl s).modify hi _

theorem flushFuel_agrees (n : ℕ) (s : Store ι) {i : ι} (hi : S i) (m : Memref) :
    Store.Agrees S s (H.flushFuel n s i m) := by
  induction n generalizing s i with
  | zero => exact (Store.Agrees.refl s).modify hi _
  | succ n ih =>
    simp only [flushFuel]
    refine Store.Agrees.modify ?_ hi _
    split
    · exact (Store.Agrees.refl s).modify hi _
    -- a flush goes on to the parent
    · next p hp => exact ((Store.Agrees.refl s).modify hi _).trans (ih _ (hS.parent i p hi hp))

theorem flush_agrees (s : Store ι) {i : ι} (hi : S i) (m : Memref) :
    Store.Agrees S s (H.flush s i m) :=
  flushFuel_agrees hS _ s hi m

theorem countHit_agrees (s : Store ι) {i : ι} (hi : S i) (m : Memref) :
    Store.Agrees S s (H.countHit s i m) := by
  simp only [countHit]
  split
  · exact (Store.Agrees.refl s).modify hi _
  · next p hp => exact ((Store.Agrees.refl s).modify hi _).modify (hS.parent i p hi hp) _

theorem shortPath_agrees (s : Store ι) {i : ι} (hi : S i) (m : Memref) :
    Store.Agrees S s (H.shortPath s i m).2 := by
  simp only [shortPath]
  exact (((Store.Agrees.refl s).modify hi _).trans (countHit_agrees hS _ hi m)).modify hi _

theorem fill_agrees (s : Store ι) {i : ι} (hi : S i) (blockIdx tag : ℕ) :
    Store.Agrees S s (H.fill s i blockIdx tag).2 := by
  simp only [fill]
  refine Store.Agrees.modify ?_ hi _
  split_ifs
  · exact ((Store.Agrees.refl s).modify hi _).modify hi _
  -- the victim is invalidated in the children
  · refine ((Store.Agrees.refl s).modify hi _).trans (.foldl fun s c hc => ?_)
    exact invalidateFuel_agrees hS _ s (hS.children i c hi hc) _
  · exact (Store.Agrees.refl s).modify hi _

section Step

variable {req : Store ι → ι → Memref → CacheResult × Store ι}
  (hreq : ∀ s i m, S i → Store.Agrees S s (req s i m).2)

include hreq

theorem askParent_agrees (s : Store ι) {i : ι} (hi : S i) (m : Memref) (res : CacheResult) :
    Store.Agrees S s (H.askParent req s i m res).2 := by
  simp only [askParent]
  split
  · exact Store.Agrees.modify (.refl s) hi fun d => d.withStats fun st => st.access m.type false
  · next p hp =>
    -- the parent counts a child access before it is asked
    have hp := hS.parent i p hi hp
    exact (((Store.Agrees.refl s).modify hi _).modify hp _).trans (hreq _ p m hp)

omit [DecidableEq ι] hS in
theorem prefetch_agrees (s : Store ι) {i : ι} (hi : S i) (m : Memref) :
    Store.Agrees S s (H.prefetch req s i m) := by
  simp only [prefetch]
  split_ifs
  · exact .refl s
  · split
    · exact .refl s
    · exact hreq s i _ hi

theorem accessBlock_agrees (s : Store ι) {i : ι} (hi : S i) (tag : ℕ) (m : Memref)
    (res : CacheResult) : Store.Agrees S s (H.accessBlock req s i tag m res).2 := by
  simp only [accessBlock, remember]
  split
  · dsimp only
    exact ((countHit_agrees hS s hi m).modify hi _).modify hi _
  · dsimp only
    -- a miss: the parent is asked, the block filled, and a prefetch may follow
    refine Store.Agrees.modify ?_ hi _
    refine Store.Agrees.trans ?_ (prefetch_agrees hreq _ hi m)
    exact ((askParent_agrees hS hreq s hi m res).trans (fill_agrees hS _ hi _ tag)).modify hi _

theorem accessBlocks_agrees (finalAddr : BitVec 64) {i : ι} (hi : S i) (n tag : ℕ) (m : Memref)
    (res : CacheResult) (s : Store ι) :
    Store.Agrees S s (H.accessBlocks req i finalAddr n tag m res s).2 := by
  induction n generalizing tag m res s with
  | zero => exact .refl s
  | succ n ih =>
    simp only [accessBlocks]
    exact (accessBlock_agrees hS hreq s hi tag _ res).trans (ih _ _ _ _)

theorem requestStep_agrees (s : Store ι) {i : ι} (hi : S i) (m : Memref) :
    Store.Agrees S s (H.requestStep req s i m).2 := by
  simp only [requestStep]
  split_ifs
  · exact shortPath_agrees hS s hi m
  · exact accessBlocks_agrees hS hreq _ hi _ _ m _ s

end Step

theorem requestFuel_agrees (n : ℕ) (s : Store ι) {i : ι} (hi : S i) (m : Memref) :
    Store.Agrees S s (H.requestFuel n s i m).2 := by
  induction n generalizing s i m with
  | zero => simpa only [requestFuel] using (Store.Agrees.refl s).modify hi _
  | succ n ih => exact requestStep_agrees hS (fun s i m hi => ih s hi m) s hi m

/-- A request leaves every device alone that its links do not lead to. -/
theorem request_agrees (s : Store ι) {i : ι} (hi : S i) (m : Memref) :
    Store.Agrees S s (H.request s i m).2 :=
  requestFuel_agrees hS _ s hi m

end Hierarchy

/-! ### Flushes -/

section Flush

variable {g : Geometry} {d : DeviceState} {tag : ℕ}

theorem holds_of_holds_flushTag {t : ℕ} (hvalid : tag ≠ tagInvalid)
    (h : (Hierarchy.flushTag g d t).Holds g tag) : d.Holds g tag ∧ tag ≠ t := by
  obtain ⟨way, hway, htag⟩ := h
  simp only [Hierarchy.flushTag] at htag
  split_ifs at htag with hgone
  · exact absurd htag.symm hvalid
  · refine ⟨⟨way, hway, htag⟩, ?_⟩
    rintro rfl
    exact hgone ⟨by omega, by omega, htag⟩

/-- No tag of the range is left. -/
theorem not_holds_flushTags (hvalid : tag ≠ tagInvalid) (n t : ℕ) (d : DeviceState)
    (h : (Hierarchy.flushTags g n t d).Holds g tag) : d.Holds g tag ∧ ¬(t ≤ tag ∧ tag < t + n) := by
  induction n generalizing t d with
  | zero => exact ⟨h, by omega⟩
  | succ n ih =>
    obtain ⟨hrest, hout⟩ := ih (t + 1) _ h
    obtain ⟨hbefore, hne⟩ := holds_of_holds_flushTag hvalid hrest
    exact ⟨hbefore, by omega⟩

theorem Geometry.computeTag_lt_tagInvalid (g : Geometry) (addr : BitVec 64) :
    g.computeTag addr < tagInvalid := by
  have hle : g.computeTag addr ≤ addr.toNat := Nat.shiftRight_le _ _
  have hne := g.computeTag_ne_tagInvalid addr
  have hlt := addr.isLt
  simp only [tagInvalid] at hne ⊢
  omega

namespace Hierarchy

variable (H : Hierarchy ι)

/-- The device itself, its parent, and so on. -/
def IsAncestor : ι → ι → Prop :=
  Relation.ReflTransGen fun i p => (H.dev i).parent = some p

variable {H}

theorem IsAncestor.rank_le {i j : ι} (h : H.IsAncestor i j) : H.rank j ≤ H.rank i := by
  induction h with
  | refl => exact le_rfl
  | tail _ hp hle => exact (H.rank_parent_lt _ _ hp).le.trans hle

variable [DecidableEq ι]

/-- The loop of a flush on the device itself. -/
def flushSelf (H : Hierarchy ι) (s : Store ι) (i : ι) (m : Memref) : Store ι :=
  s.modify i fun d => flushTags (H.geometry i) (H.finalTag i m + 1 - H.firstTag i m)
    (H.firstTag i m) { d with lastTag := tagInvalid }

theorem flushFuel_succ_of_none {n : ℕ} {s : Store ι} {i : ι} (hp : (H.dev i).parent = none)
    (m : Memref) : H.flushFuel (n + 1) s i m =
      (H.flushSelf s i m).modify i fun d => d.withStats DeviceStats.flush := by
  simp only [flushFuel, hp]
  rfl

theorem flushFuel_succ_of_some {n : ℕ} {s : Store ι} {i p : ι} (hp : (H.dev i).parent = some p)
    (m : Memref) : H.flushFuel (n + 1) s i m =
      (H.flushFuel n (H.flushSelf s i m) p m).modify i fun d => d.withStats DeviceStats.flush := by
  simp only [flushFuel, hp]
  rfl

/-- A flush goes up, and leaves all other devices of the level alone. -/
theorem flushFuel_of_rank_le (n : ℕ) (s : Store ι) {i j : ι} (hj : H.rank i ≤ H.rank j)
    (hne : j ≠ i) (m : Memref) : H.flushFuel n s i m j = s j := by
  induction n generalizing s i with
  | zero => simp [flushFuel, hne]
  | succ n ih =>
    cases hp : (H.dev i).parent with
    | none => simp [flushFuel_succ_of_none hp, flushSelf, hne]
    | some p =>
      have hlt := H.rank_parent_lt i p hp
      have hnep : j ≠ p := by
        rintro rfl
        omega
      rw [flushFuel_succ_of_some hp, Store.modify_of_ne _ hne, ih _ (by omega) hnep, flushSelf,
        Store.modify_of_ne _ hne]

theorem flushSelf_not_holds (s : Store ι) (i : ι) (m : Memref) {tag : ℕ}
    (hfirst : H.firstTag i m ≤ tag) (hfinal : tag ≤ H.finalTag i m) :
    ¬(H.flushSelf s i m i).Holds (H.geometry i) tag := by
  have hvalid : tag ≠ tagInvalid :=
    (hfinal.trans_lt ((H.geometry i).computeTag_lt_tagInvalid _)).ne
  rw [flushSelf, Store.modify_self]
  intro hholds
  exact (not_holds_flushTags hvalid _ _ _ hholds).2 ⟨hfirst, by omega⟩

/-- After a flush neither the device nor one above it holds a line of the range. -/
theorem flushFuel_not_holds (n : ℕ) (s : Store ι) {i j : ι} (hn : H.rank i < n)
    (hij : H.IsAncestor i j) (m : Memref) {tag : ℕ} (hfirst : H.firstTag j m ≤ tag)
    (hfinal : tag ≤ H.finalTag j m) : ¬(H.flushFuel n s i m j).Holds (H.geometry j) tag := by
  induction n generalizing s i with
  | zero => omega
  | succ n ih =>
    rcases hij.cases_head with rfl | ⟨p, hp, hpj⟩
    · have hself := flushSelf_not_holds s i m hfirst hfinal
      cases hp : (H.dev i).parent with
      | none =>
        rw [flushFuel_succ_of_none hp, Store.modify_self]
        exact hself
      | some p =>
        -- the flush of the parent does not come back to the device
        have hlt := H.rank_parent_lt i p hp
        have hback := flushFuel_of_rank_le n (H.flushSelf s i m) hlt.le
          (by rintro rfl; omega) m
        rw [flushFuel_succ_of_some hp, Store.modify_self, hback]
        exact hself
    · have hlt := H.rank_parent_lt i p hp
      have hle := IsAncestor.rank_le hpj
      have hne : j ≠ i := by
        rintro rfl
        omega
      rw [flushFuel_succ_of_some hp, Store.modify_of_ne _ hne]
      exact ih _ (by omega) hpj

theorem flush_not_holds (s : Store ι) {i j : ι} (hij : H.IsAncestor i j) (m : Memref) {tag : ℕ}
    (hfirst : H.firstTag j m ≤ tag) (hfinal : tag ≤ H.finalTag j m) :
    ¬(H.flush s i m j).Holds (H.geometry j) tag :=
  flushFuel_not_holds _ s (Nat.lt_succ_self _) hij m hfirst hfinal

end Hierarchy

end Flush

/-! ### Devices that stand alone -/

namespace Hierarchy

variable (H : Hierarchy ι)

/-- A device that asks no other one and issues no prefetch. -/
structure Isolated (i : ι) : Prop where
  parent : (H.dev i).parent = none
  prefetcher : (H.dev i).prefetcher = none
  inclusive : (H.dev i).inclusive = false

variable {H} [DecidableEq ι] {i : ι}

theorem Isolated.fill_tag (hi : H.Isolated i) (s : Store ι) (blockIdx tag n : ℕ) :
    (((H.fill s i blockIdx tag).2 i).blocks n).tag = ((s i).blocks n).tag ∨
      (((H.fill s i blockIdx tag).2 i).blocks n).tag = tag := by
  simp only [fill, hi.inclusive, Bool.false_eq_true, if_false]
  split_ifs
  all_goals
    simp only [Store.modify_self, DeviceState.setTag_tag]
    split_ifs
    · exact Or.inr rfl
    · simp

/-- A single-block request on a device that stands alone writes no tag but its own. -/
theorem Isolated.request_tag (hi : H.Isolated i) (s : Store ι) {m : Memref}
    (hm : H.SingleBlock i m) (n : ℕ) :
    (((H.request s i m).2 i).blocks n).tag = ((s i).blocks n).tag ∨
      (((H.request s i m).2 i).blocks n).tag = H.firstTag i m := by
  rw [request, requestFuel, requestStep_of_singleBlock H _ s hm]
  split_ifs
  -- the short path only counts
  · left
    simp [shortPath, countHit, hi.parent]
  · simp only [accessBlock]
    split
    · left
      simp [countHit, hi.parent, remember]
    -- on a miss the block that is filled gets the tag
    · have hfill := hi.fill_tag (s.modify i fun d => d.withStats fun st => st.access m.type false)
        ((H.geometry i).computeBlockIdx (H.firstTag i m)) (H.firstTag i m) n
      simpa [askParent, hi.parent, remember, prefetch, hi.prefetcher] using hfill

end Hierarchy

end SagePTE.Simulator
