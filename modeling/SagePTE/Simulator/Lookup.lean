import SagePTE.Simulator.Knobs

/-!
# What a lookup answers

The answer of a single-block request is assembled by a recursion through devices
that all change as they are asked. It is nevertheless a function of the state
before the call: each device on the way either answers from its shortcut, or from
its blocks, or passes its parent's answer on. `Hierarchy.answer` is that function.

The shortcut answers `NOT_FOUND`. Under the knob constructor a lookup therefore
names the level that holds the line exactly when no shortcut is taken on the way,
or when there is no line to be found.

## Main definitions

* `Hierarchy.answer` — the answer, as a function of the state before the call
* `heldAt` — the level that holds a line
* `ShortPathTaken` — some cache consulted by a lookup answers from its shortcut

## Main results

* `Hierarchy.requestFuel_fst` — requests answer `Hierarchy.answer`
* `request_eq_heldAt_iff` — when a request on an L1 names the level of the line
-/

set_option autoImplicit false

namespace SagePTE.Simulator

variable {ι : Type}

/-- Two stores agree on what lookups read: tags and shortcuts. -/
def Store.SameLines (s s' : Store ι) : Prop :=
  ∀ i, (s i).lastTag = (s' i).lastTag ∧ ∀ n, ((s i).blocks n).tag = ((s' i).blocks n).tag

theorem Store.SameLines.holds_iff {s s' : Store ι} (h : s.SameLines s') (i : ι)
    (g : Geometry) (tag : ℕ) : (s i).Holds g tag ↔ (s' i).Holds g tag := by
  simp only [DeviceState.Holds, (h i).2]

theorem Store.sameLines_withStats [DecidableEq ι] (s : Store ι) (i : ι)
    (f : DeviceStats → DeviceStats) : (s.modify i fun d => d.withStats f).SameLines s := by
  intro j
  by_cases hj : j = i
  · subst hj; simp
  · simp [hj]

theorem Store.SameLines.trans {s s' s'' : Store ι} (h : s.SameLines s')
    (h' : s'.SameLines s'') : s.SameLines s'' :=
  fun i => ⟨(h i).1.trans (h' i).1, fun n => ((h i).2 n).trans ((h' i).2 n)⟩

namespace Hierarchy

variable (H : Hierarchy ι)

/-- All devices along parent links have the same block size. -/
def SameLineSize : Prop :=
  ∀ i p, (H.dev i).parent = some p → (H.geometry p).blockSizeBits = (H.geometry i).blockSizeBits

/-- The request touches one block of the device. -/
def SingleBlock (i : ι) (m : Memref) : Prop := H.firstTag i m = H.finalTag i m

instance (i : ι) (m : Memref) : Decidable (H.SingleBlock i m) :=
  inferInstanceAs (Decidable (_ = _))

/-- The answer of a lookup of `tag` on device `i`, read off the state before it. -/
def answer : ℕ → Store ι → ι → ℕ → CacheResult
  | 0, _, _, _ => .notFound
  | n + 1, s, i, tag =>
    -- the short path returns `res` as it was initialised
    if tag = (s i).lastTag then .notFound
    else if (s i).Holds (H.geometry i) tag then .foundL1
    else match (H.dev i).parent with
      | none => .notFound
      | some p => gotFromParent (answer n s p tag)

theorem answer_congr {s s' : Store ι} (h : s.SameLines s') (n : ℕ) (i : ι) (tag : ℕ) :
    H.answer n s i tag = H.answer n s' i tag := by
  -- along the parent links
  induction n generalizing i with
  | zero => rfl
  | succ n ih => simp only [answer, (h i).1, h.holds_iff i, ih]

variable {H} in
theorem SameLineSize.firstTag_eq (hline : H.SameLineSize) {i p : ι}
    (hp : (H.dev i).parent = some p) (m : Memref) : H.firstTag p m = H.firstTag i m := by
  simp only [firstTag, Geometry.computeTag, hline i p hp]

variable {H} in
theorem SameLineSize.singleBlock (hline : H.SameLineSize) {i p : ι}
    (hp : (H.dev i).parent = some p) {m : Memref} (hm : H.SingleBlock i m) :
    H.SingleBlock p m := by
  simpa only [SingleBlock, firstTag, finalTag, Geometry.computeTag, hline i p hp] using hm

section Requests

variable [DecidableEq ι] (req : Store ι → ι → Memref → CacheResult × Store ι)

/-- A single-block request takes the short path or one turn of the loop. -/
theorem requestStep_of_singleBlock (s : Store ι) {i : ι} {m : Memref}
    (hm : H.SingleBlock i m) :
    H.requestStep req s i m =
      if H.firstTag i m = (s i).lastTag then H.shortPath s i m
      else H.accessBlock req s i (H.firstTag i m) m .notFound := by
  have hfinal : H.finalTag i m = H.firstTag i m := hm.symm
  simp only [requestStep, hfinal, true_and, Nat.add_sub_cancel_left]
  split_ifs
  · rfl
  · simp [accessBlocks]

theorem accessBlock_fst (s : Store ι) (i : ι) (tag : ℕ) (m : Memref) (res : CacheResult) :
    (H.accessBlock req s i tag m res).1 =
      if (s i).Holds (H.geometry i) tag then .foundL1 else (H.askParent req s i m res).1 := by
  simp only [accessBlock]
  -- the loop over ways finds the tag exactly if the device holds it
  cases hway : (s i).findWay (H.geometry i) ((H.geometry i).computeBlockIdx tag) tag with
  | some way => simp [DeviceState.holds_of_findWay _ _ hway]
  | none => simp [(DeviceState.findWay_eq_none_iff _ _ _).mp hway]

/-- The answer of a single-block request, at any depth of the recursion. -/
theorem requestFuel_fst (hline : H.SameLineSize) (n : ℕ) (s : Store ι) (i : ι) (m : Memref)
    (hm : H.SingleBlock i m) :
    (H.requestFuel n s i m).1 = H.answer n s i (H.firstTag i m) := by
  induction n generalizing s i with
  | zero => rfl
  | succ n ih =>
    rw [requestFuel, requestStep_of_singleBlock H _ s hm, answer]
    split_ifs with hlast hholds
    · rfl
    · rw [accessBlock_fst, if_pos hholds]
    · rw [accessBlock_fst, if_neg hholds]
      cases hp : (H.dev i).parent with
      | none => simp only [askParent, hp]
      | some p =>
        -- The parent is asked after the counters moved, which no lookup reads.
        simp only [askParent, hp]
        rw [ih _ p (hline.singleBlock hp hm), hline.firstTag_eq hp]
        congr 1
        exact H.answer_congr ((Store.sameLines_withStats _ _ _).trans
          (Store.sameLines_withStats _ _ _)) n p _

end Requests

end Hierarchy

/-! ### Lookups on the L1 caches of the knob constructor -/

/-- The L1 caches of a core. -/
def IsL1 (core : ℕ) (l1 : DevId) : Prop := l1 = .l1i core ∨ l1 = .l1d core

/-- The state after a sequence of requests on a new hierarchy. -/
def Hierarchy.afterRequests (H : Hierarchy DevId) (earlier : List (DevId × Memref)) :
    Store DevId :=
  earlier.foldl (fun s r => (H.request s r.1 r.2).2) H.initialStore

section Levels

variable (H : Hierarchy DevId) (s : Store DevId) (l1 : DevId) (core tag : ℕ)

/-- The first level, from `l1` downwards, in which the line is valid. -/
def heldAt : CacheResult :=
  if (s l1).Holds (H.geometry l1) tag then .foundL1
  else if (s (.l2 core)).Holds (H.geometry (.l2 core)) tag then .foundL2
  else if (s .llc).Holds (H.geometry .llc) tag then .foundLlc
  else .notFound

/-- A cache consulted by the lookup has the line as its last tag: the L1, the L2
if the line is not in the L1, or the LLC if it is in neither. -/
def ShortPathTaken : Prop :=
  tag = (s l1).lastTag ∨
    ¬ (s l1).Holds (H.geometry l1) tag ∧
      (tag = (s (.l2 core)).lastTag ∨
        ¬ (s (.l2 core)).Holds (H.geometry (.l2 core)) tag ∧ tag = (s .llc).lastTag)

instance : Decidable (ShortPathTaken H s l1 core tag) :=
  inferInstanceAs (Decidable (_ ∨ _ ∧ _))

end Levels

theorem CacheGeometries.sameLineSize {G : CacheGeometries} (hG : G.Aligned)
    (policy : ReplacePolicy) (prefetcher : Option ℕ) :
    (G.hierarchy policy prefetcher).SameLineSize := by
  intro i p hp
  cases i with
  | llc | pw | gpw => cases hp
  | l2 core => cases hp; exact hG.l2_llc.symm
  | l1i core => cases hp; exact hG.l2_llc.trans hG.l1i_llc.symm
  | l1d core => cases hp; exact hG.l2_llc.trans hG.l1d_llc.symm

/-- The answer on an L1, level by level. -/
theorem CacheGeometries.request_fst {G : CacheGeometries} (hG : G.Aligned)
    (policy : ReplacePolicy) (prefetcher : Option ℕ) (s : Store DevId) {core : ℕ} {l1 : DevId}
    (hl1 : IsL1 core l1) {m : Memref} (hm : (G.hierarchy policy prefetcher).SingleBlock l1 m) :
    ((G.hierarchy policy prefetcher).request s l1 m).1 =
      (G.hierarchy policy prefetcher).answer 4 s l1
        ((G.hierarchy policy prefetcher).firstTag l1 m) := by
  have h := Hierarchy.requestFuel_fst _ (sameLineSize hG policy prefetcher) 4 s l1 m hm
  rcases hl1 with rfl | rfl <;> exact h

/-- **When a lookup names the level of the line.** After any sequence of requests,
a single-block request on an L1 answers with the first level that held the line
just before the call if and only if no cache it consults takes its short path, or
no level held the line. -/
theorem request_eq_heldAt_iff {k : CacheKnobs} {H : Hierarchy DevId}
    (hH : k.hierarchy = some H) (earlier : List (DevId × Memref)) {core : ℕ} {l1 : DevId}
    (hl1 : IsL1 core l1) {m : Memref} (hm : H.SingleBlock l1 m) :
    (H.request (H.afterRequests earlier) l1 m).1 =
        heldAt H (H.afterRequests earlier) l1 core (H.firstTag l1 m) ↔
      heldAt H (H.afterRequests earlier) l1 core (H.firstTag l1 m) = .notFound ∨
        ¬ ShortPathTaken H (H.afterRequests earlier) l1 core (H.firstTag l1 m) := by
  obtain ⟨G, policy, prefetcher, hG, rfl⟩ := k.exists_of_hierarchy hH
  generalize (G.hierarchy policy prefetcher).afterRequests earlier = s
  rw [CacheGeometries.request_fst hG policy prefetcher s hl1 hm]
  generalize (G.hierarchy policy prefetcher).firstTag l1 m = tag
  have hparent : ((G.hierarchy policy prefetcher).dev l1).parent = some (.l2 core) := by
    rcases hl1 with rfl | rfl <;> rfl
  have hl2 : ((G.hierarchy policy prefetcher).dev (.l2 core)).parent = some .llc := rfl
  have hllc : ((G.hierarchy policy prefetcher).dev .llc).parent = none := rfl
  simp only [Hierarchy.answer, heldAt, ShortPathTaken, hparent, hl2, hllc]
  split_ifs <;> simp_all

/-- A one-byte read at an address. -/
def readAt (addr : BitVec 64) : Memref := { type := .read, pid := 1, tid := 1, addr, size := 1 }

/-- Reading one line, another and the first again names the L1, which holds it. -/
theorem reread_names_l1 :
    (defaultHierarchy.request
        (defaultHierarchy.afterRequests
          [(.l1d 0, readAt 0x1000), (.l1d 0, readAt 0x9000)]) (.l1d 0) (readAt 0x1000)).1 =
      heldAt defaultHierarchy
        (defaultHierarchy.afterRequests
          [(.l1d 0, readAt 0x1000), (.l1d 0, readAt 0x9000)]) (.l1d 0) 0
        (defaultHierarchy.firstTag (.l1d 0) (readAt 0x1000)) :=
  (request_eq_heldAt_iff defaultHierarchy_eq _ (Or.inr rfl) (by decide)).mpr
    (Or.inr (by decide))

/-- Reading one line twice in a row answers `NOT_FOUND`, although the L1 holds it. -/
theorem repeated_read_not_found :
    (defaultHierarchy.request (defaultHierarchy.afterRequests [(.l1d 0, readAt 0x1000)])
        (.l1d 0) (readAt 0x1000)).1 = .notFound ∧
      heldAt defaultHierarchy (defaultHierarchy.afterRequests [(.l1d 0, readAt 0x1000)])
        (.l1d 0) 0 (defaultHierarchy.firstTag (.l1d 0) (readAt 0x1000)) = .foundL1 := by
  decide

end SagePTE.Simulator
