import SagePTE.Simulator.Tlb

/-!
# Lookups in the TLBs

A TLB holds a page for a process if some way of the page's set does. The shortcut for a
repeated page answers before the set is searched; it is right as long as the last tag and
process are still in the blocks, which every request keeps up. A request of a first-level
TLB then answers whether it or the last-level TLB of the core holds the page, provided that
the end of the access did not wrap around the address space.

## Main definitions

* `tlbAskParent`, `tlbFound`, `tlbFill` — the parts of a request
* `DeviceState.HoldsEntry` — the device holds a tag for a process
* `DeviceState.Synced` — the shortcut is in step with the blocks

## Main results

* `tlbRequest_synced` — requests keep the shortcut in step
* `tlbRequest_fst_iff` — what a request answers
-/

set_option autoImplicit false

namespace SagePTE.Simulator

/-! ### Entries of a device -/

namespace DeviceState

variable (g : Geometry) (d : DeviceState)

/-- The tag and the process of a block. -/
def entry (j : ℕ) : ℕ × ℤ := ((d.blocks j).tag, (d.blocks j).pid)

/-- Some way of the tag's set holds the tag for the process. -/
def HoldsEntry (tag : ℕ) (pid : ℤ) : Prop :=
  ∃ way < g.associativity, d.entry (g.computeBlockIdx tag + way) = (tag, pid)

instance (tag : ℕ) (pid : ℤ) : Decidable (d.HoldsEntry g tag pid) :=
  inferInstanceAs (Decidable (∃ way < g.associativity, _))

/-- The last tag and process are in the blocks, or there are none yet. -/
def Synced : Prop := d.lastTag = tagInvalid ∨ d.HoldsEntry g d.lastTag d.lastPid

variable {g d}

theorem findEntry_eq_none_iff {tag : ℕ} {pid : ℤ} :
    d.findEntry g (g.computeBlockIdx tag) tag pid = none ↔ ¬ d.HoldsEntry g tag pid := by
  simp [findEntry, HoldsEntry, entry]

theorem holdsEntry_of_findEntry {tag way : ℕ} {pid : ℤ}
    (h : d.findEntry g (g.computeBlockIdx tag) tag pid = some way) : d.HoldsEntry g tag pid := by
  by_contra hnot
  rw [findEntry_eq_none_iff.mpr hnot] at h
  cases h

/-- Blocks and shortcut are the same but for the counters. -/
structure SameEntries (d d' : DeviceState) : Prop where
  entry : d'.entry = d.entry
  lastTag : d'.lastTag = d.lastTag
  lastPid : d'.lastPid = d.lastPid

theorem SameEntries.refl (d : DeviceState) : SameEntries d d := ⟨rfl, rfl, rfl⟩

theorem SameEntries.trans {d d' d'' : DeviceState} (h : SameEntries d d')
    (h' : SameEntries d' d'') : SameEntries d d'' :=
  ⟨h'.entry.trans h.entry, h'.lastTag.trans h.lastTag, h'.lastPid.trans h.lastPid⟩

theorem SameEntries.holdsEntry_iff {d' : DeviceState} (h : SameEntries d d') {tag : ℕ} {pid : ℤ} :
    d'.HoldsEntry g tag pid ↔ d.HoldsEntry g tag pid := by
  rw [HoldsEntry, h.entry, HoldsEntry]

theorem SameEntries.synced {d' : DeviceState} (h : SameEntries d d') (hd : d.Synced g) :
    d'.Synced g := by
  rw [Synced, h.lastTag, h.lastPid, h.holdsEntry_iff]
  exact hd

theorem withStats_sameEntries (d : DeviceState) (f : DeviceStats → DeviceStats) :
    SameEntries d (d.withStats f) := ⟨rfl, rfl, rfl⟩

theorem fault_sameEntries (d : DeviceState) (fault : Bool) :
    SameEntries d { d with fault } := ⟨rfl, rfl, rfl⟩

theorem setCounter_sameEntries (d : DeviceState) (n counter : ℕ) :
    SameEntries d (d.setCounter n counter) := by
  refine ⟨funext fun j => ?_, rfl, rfl⟩
  by_cases hj : j = n
  · subst hj
    simp [setCounter, DeviceState.entry]
  · simp [setCounter, DeviceState.entry, Function.update_of_ne hj]

theorem accessUpdate_sameEntries (d : DeviceState) (blockIdx : ℕ) (way : ℤ) :
    SameEntries d (d.accessUpdate g .lfu blockIdx way) :=
  setCounter_sameEntries d _ _

/-- An entry that is written into its set is held. -/
theorem holdsEntry_setEntry (d : DeviceState) {way : ℕ} (hway : way < g.associativity) (tag : ℕ)
    (pid : ℤ) :
    (d.setEntry (blockNo (g.computeBlockIdx tag) (way : ℤ)) tag pid).HoldsEntry g tag pid := by
  refine ⟨way, hway, ?_⟩
  have hno : blockNo (g.computeBlockIdx tag) (way : ℤ) = g.computeBlockIdx tag + way := by
    simp only [blockNo]
    omega
  simp [hno, setEntry, DeviceState.entry]

end DeviceState

/-! ### The cases of a request -/

section Cases

variable (H : Hierarchy TlbId)

/-- The part of an access that lies in its first page. -/
def firstPiece (i : TlbId) (m : Memref) : Memref :=
  if H.firstTag i m = H.finalTag i m then m
  else { m with size :=
    BitVec.ofNat 64 ((H.firstTag i m + 1) <<< (H.geometry i).blockSizeBits) - m.addr }

/-- The statistics of a miss, before the parent is asked. -/
def tlbCountMiss (s : Store TlbId) (i p : TlbId) (type : TraceType) : Store TlbId :=
  (s.modify i fun d => d.withStats fun st => st.baseAccess type false).modify p fun d =>
    d.withStats fun st => st.childAccess false

/-- The bookkeeping of a miss, and the request to the parent. -/
def tlbAskParent (n : ℕ) (s : Store TlbId) (i : TlbId) (m : Memref) : Bool × Store TlbId :=
  let s := s.modify i fun d => d.withStats fun st => st.baseAccess m.type false
  match (H.dev i).parent with
  | none => (false, s)
  | some p =>
    tlbRequestFuel H n (s.modify p fun d => d.withStats fun st => st.childAccess false) p m

/-- The bookkeeping of a hit, and the entry that was found. -/
def tlbFound (s : Store TlbId) (i : TlbId) (m : Memref) (way : ℕ) : Store TlbId :=
  let blockIdx := (H.geometry i).computeBlockIdx (H.firstTag i m)
  let s := tlbCountHit H s i (firstPiece H i m)
  let s := s.modify i fun d => d.accessUpdate (H.geometry i) (H.dev i).policy blockIdx way
  tlbRemember s i (H.firstTag i m) blockIdx way m.pid

/-- The entry is written into the way that is given up. -/
def tlbFill (s : Store TlbId) (i : TlbId) (tag : ℕ) (pid : ℤ) : Store TlbId :=
  let blockIdx := (H.geometry i).computeBlockIdx tag
  let v := (s i).replaceWhichWay (H.geometry i) (H.dev i).policy blockIdx
  let s := s.modify i fun _ => v.2.setEntry (blockNo blockIdx v.1) tag pid
  let s := s.modify i fun d => d.accessUpdate (H.geometry i) (H.dev i).policy blockIdx v.1
  tlbRemember s i tag blockIdx v.1 pid

theorem tlbRequestFuel_succ (n : ℕ) (s : Store TlbId) (i : TlbId) (m : Memref) :
    tlbRequestFuel H (n + 1) s i m =
      if H.firstTag i m = H.finalTag i m ∧ H.firstTag i m = (s i).lastTag ∧
          m.pid = (s i).lastPid then (true, tlbShortPath H s i m)
      else if H.finalTag i m < H.firstTag i m then (false, s)
      else match (s i).findEntry (H.geometry i)
          ((H.geometry i).computeBlockIdx (H.firstTag i m)) (H.firstTag i m) m.pid with
        | some way => (true, tlbFound H s i m way)
        | none =>
          ((tlbAskParent H n s i (firstPiece H i m)).1,
            tlbFill H (tlbAskParent H n s i (firstPiece H i m)).2 i (H.firstTag i m) m.pid) := rfl

variable {H} {i : TlbId}

theorem tlbAskParent_of_none (hp : (H.dev i).parent = none) (n : ℕ) (s : Store TlbId)
    (m : Memref) : tlbAskParent H n s i m =
      (false, s.modify i fun d => d.withStats fun st => st.baseAccess m.type false) := by
  simp only [tlbAskParent, hp]

theorem tlbAskParent_of_some {p : TlbId} (hp : (H.dev i).parent = some p) (n : ℕ)
    (s : Store TlbId) (m : Memref) :
    tlbAskParent H n s i m = tlbRequestFuel H n (tlbCountMiss s i p m.type) p m := by
  simp only [tlbAskParent, hp]
  rfl

end Cases

/-! ### Requests -/

section Requests

variable {H : Hierarchy TlbId}

/-- All TLBs have their shortcuts in step. -/
def TlbsSynced (H : Hierarchy TlbId) (s : Store TlbId) : Prop :=
  ∀ j, (s j).Synced (H.geometry j)

/-- The entries of all TLBs are the same. -/
def Store.SameEntries (s s' : Store TlbId) : Prop := ∀ j, DeviceState.SameEntries (s j) (s' j)

theorem Store.SameEntries.refl (s : Store TlbId) : s.SameEntries s := fun j => .refl (s j)

theorem Store.SameEntries.modify {s s' : Store TlbId} (h : s.SameEntries s') (i : TlbId)
    {f : DeviceState → DeviceState} (hf : ∀ d, DeviceState.SameEntries d (f d)) :
    s.SameEntries (s'.modify i f) :=
  Store.modify_induction (P := fun j d => DeviceState.SameEntries (s j) d) ((h i).trans (hf _))
    fun j _ => h j

theorem TlbsSynced.congr {s s' : Store TlbId} (h : TlbsSynced H s) (hsame : s.SameEntries s') :
    TlbsSynced H s' := fun j => (hsame j).synced (h j)

theorem tlbCountHit_sameEntries {s s' : Store TlbId} (h : s.SameEntries s') (i : TlbId)
    (m : Memref) : s.SameEntries (tlbCountHit H s' i m) := by
  simp only [tlbCountHit]
  have hself := h.modify i fun d => d.withStats_sameEntries fun st => st.baseAccess m.type true
  split
  · exact hself
  · exact hself.modify _ fun d => d.withStats_sameEntries _

theorem tlbCountMiss_sameEntries (s : Store TlbId) (i p : TlbId) (type : TraceType) :
    s.SameEntries (tlbCountMiss s i p type) :=
  ((Store.SameEntries.refl s).modify i fun d => d.withStats_sameEntries _).modify p fun d =>
    d.withStats_sameEntries _

/-- The TLB that was asked remembers an entry that it holds. -/
theorem tlbRemember_synced {s : Store TlbId} (hs : TlbsSynced H s) {i : TlbId} {tag : ℕ} {pid : ℤ}
    (blockIdx : ℕ) (way : ℤ) (hholds : (s i).HoldsEntry (H.geometry i) tag pid) :
    TlbsSynced H (tlbRemember s i tag blockIdx way pid) :=
  Store.modify_induction (P := fun j d => d.Synced (H.geometry j)) (.inr hholds) fun j _ => hs j

variable (hpolicy : ∀ i, (H.dev i).policy = .lfu)

include hpolicy

/-- The state after a miss: the entry replaces another one. -/
theorem tlbFill_synced {s : Store TlbId} (hs : TlbsSynced H s) (i : TlbId) (tag : ℕ) (pid : ℤ) :
    TlbsSynced H (tlbFill H s i tag pid) := by
  intro j
  by_cases hj : j = i
  · subst hj
    obtain ⟨way, hway, hv⟩ := (s j).exists_replaceWhichWay (g := H.geometry j)
      (show ReplacePolicy.lfu ≠ .fifo by decide) ((H.geometry j).computeBlockIdx tag)
    simp only [tlbFill, tlbRemember, Store.modify_self, hpolicy j, hv]
    refine .inr ((DeviceState.accessUpdate_sameEntries (g := H.geometry j) _ _ _).holdsEntry_iff.mpr
      ?_)
    exact DeviceState.holdsEntry_setEntry _ hway tag pid
  · simp only [tlbFill, tlbRemember, Store.modify_of_ne _ hj]
    exact hs j

/-- Requests keep the shortcuts in step. -/
theorem tlbRequestFuel_synced (n : ℕ) {s : Store TlbId} (hs : TlbsSynced H s) (i : TlbId)
    (m : Memref) : TlbsSynced H (tlbRequestFuel H n s i m).2 := by
  induction n generalizing s i m with
  | zero => exact hs.congr ((Store.SameEntries.refl s).modify i fun d => d.fault_sameEntries true)
  | succ n ih =>
    have hupdate (d : DeviceState) (blockIdx : ℕ) (way : ℤ) : DeviceState.SameEntries d
        (d.accessUpdate (H.geometry i) (H.dev i).policy blockIdx way) := by
      rw [hpolicy i]
      exact DeviceState.accessUpdate_sameEntries d blockIdx way
    rw [tlbRequestFuel_succ]
    split_ifs
    · -- the shortcut
      refine hs.congr (Store.SameEntries.modify (tlbCountHit_sameEntries ?_ i m) i fun d =>
        hupdate d _ _)
      exact (Store.SameEntries.refl s).modify i fun d => d.fault_sameEntries _
    · exact hs
    · split
      · -- a hit
        next way hfind =>
        have hsame : s.SameEntries ((tlbCountHit H s i (firstPiece H i m)).modify i fun d =>
            d.accessUpdate (H.geometry i) (H.dev i).policy
              ((H.geometry i).computeBlockIdx (H.firstTag i m)) way) :=
          (tlbCountHit_sameEntries (.refl s) i _).modify i fun d => hupdate d _ _
        exact tlbRemember_synced (hs.congr hsame) _ _
          ((hsame i).holdsEntry_iff.mpr (DeviceState.holdsEntry_of_findEntry hfind))
      · -- a miss: the parent is asked, and then the entry is written
        refine tlbFill_synced hpolicy ?_ i (H.firstTag i m) m.pid
        cases hp : (H.dev i).parent with
        | none =>
          rw [tlbAskParent_of_none hp]
          exact hs.congr ((Store.SameEntries.refl s).modify i fun d => d.withStats_sameEntries _)
        | some p =>
          rw [tlbAskParent_of_some hp]
          exact ih (hs.congr (tlbCountMiss_sameEntries s i p _)) _ _

theorem tlbRequest_synced {s : Store TlbId} (hs : TlbsSynced H s) (i : TlbId) (m : Memref) :
    TlbsSynced H (tlbRequest H s i m).2 :=
  tlbRequestFuel_synced hpolicy _ hs i m

end Requests

/-! ### Answers -/

section Answers

variable {H : Hierarchy TlbId}

@[simp] theorem firstPiece_addr (i : TlbId) (m : Memref) : (firstPiece H i m).addr = m.addr := by
  unfold firstPiece
  split <;> rfl

@[simp] theorem firstPiece_pid (i : TlbId) (m : Memref) : (firstPiece H i m).pid = m.pid := by
  unfold firstPiece
  split <;> rfl

/-- The first piece ends in the page where it starts. -/
theorem finalTag_firstPiece {i : TlbId} {m : Memref} (hle : H.firstTag i m ≤ H.finalTag i m) :
    H.finalTag i (firstPiece H i m) = H.firstTag i m := by
  unfold firstPiece
  split_ifs with heq
  · exact heq.symm
  · -- the next page is still below the end of the address space
    have hlt : H.firstTag i m + 1 ≤ H.finalTag i m := by omega
    have hpos : 0 < 2 ^ (H.geometry i).blockSizeBits := Nat.two_pow_pos _
    have hend : (H.firstTag i m + 1) * 2 ^ (H.geometry i).blockSizeBits < 2 ^ 64 := by
      have hfinal := Nat.div_mul_le_self (m.addr + m.size - 1).toNat
        (2 ^ (H.geometry i).blockSizeBits)
      rw [← Nat.shiftRight_eq_div_pow] at hfinal
      exact ((Nat.mul_le_mul_right _ hlt).trans hfinal).trans_lt (m.addr + m.size - 1).isLt
    generalize H.firstTag i m = tag at hend ⊢
    have hsub (a b : BitVec 64) : a + (b - a) - 1 = b - 1 := by
      rw [BitVec.add_comm, BitVec.sub_add_cancel]
    have hone : (1 : BitVec 64).toNat = 1 := rfl
    rw [Hierarchy.finalTag, Geometry.computeTag, hsub, Nat.shiftLeft_eq,
      Nat.shiftRight_eq_div_pow, BitVec.toNat_sub_of_le, BitVec.toNat_ofNat,
      Nat.mod_eq_of_lt hend, hone]
    · rw [Nat.add_mul, Nat.one_mul]
      have hsplit : tag * 2 ^ (H.geometry i).blockSizeBits +
          2 ^ (H.geometry i).blockSizeBits - 1 =
          2 ^ (H.geometry i).blockSizeBits * tag + (2 ^ (H.geometry i).blockSizeBits - 1) := by
        rw [Nat.mul_comm]
        omega
      rw [hsplit, Nat.mul_add_div hpos, Nat.div_eq_of_lt (by omega), Nat.add_zero]
    · rw [BitVec.le_def, BitVec.toNat_ofNat, Nat.mod_eq_of_lt hend, hone]
      exact Nat.mul_pos (Nat.succ_pos tag) hpos

/-- A request is answered by the TLB that holds the page, or else by its parent. -/
theorem tlbRequestFuel_fst (n : ℕ) {s : Store TlbId} {i : TlbId}
    (hs : (s i).Synced (H.geometry i)) {m : Memref} (hle : H.firstTag i m ≤ H.finalTag i m) :
    (tlbRequestFuel H (n + 1) s i m).1 =
      (decide ((s i).HoldsEntry (H.geometry i) (H.firstTag i m) m.pid) ||
        match (H.dev i).parent with
        | none => false
        | some p => (tlbRequestFuel H n (tlbCountMiss s i p (firstPiece H i m).type) p
            (firstPiece H i m)).1) := by
  rw [tlbRequestFuel_succ, if_neg (not_lt.mpr hle)]
  split_ifs with hshort
  · -- the shortcut is right, as a page never has the tag of an empty block
    obtain ⟨-, htag, hpid⟩ := hshort
    have hvalid : (s i).lastTag ≠ tagInvalid := by
      rw [← htag]
      exact (H.geometry i).computeTag_ne_tagInvalid m.addr
    have hholds := hs.resolve_left hvalid
    rw [← htag, ← hpid] at hholds
    simp [hholds]
  · split
    · next way hfind => simp [DeviceState.holdsEntry_of_findEntry hfind]
    · next hfind =>
      have hnot := DeviceState.findEntry_eq_none_iff.mp hfind
      simp only [hnot, decide_false, Bool.false_or]
      cases hp : (H.dev i).parent with
      | none => rw [tlbAskParent_of_none hp]
      | some p => rw [tlbAskParent_of_some hp]

end Answers

/-! ### The TLBs of a core -/

/-- All TLBs are built for the same page size. -/
theorem TlbKnobs.exists_of_hierarchy {k : TlbKnobs} {H : Hierarchy TlbId}
    (h : k.hierarchy = some H) :
    ∃ G : TlbGeometries, (∀ i j, ((G.hierarchy .lfu).geometry i).blockSizeBits =
      ((G.hierarchy .lfu).geometry j).blockSizeBits) ∧ H = G.hierarchy .lfu := by
  simp only [TlbKnobs.hierarchy, Option.bind_eq_bind, Option.bind_eq_some_iff] at h
  obtain ⟨policy, hpolicy, l1i, hl1i, l1d, hl1d, l2, hl2, hH⟩ := h
  obtain rfl : policy = .lfu := by
    unfold createTlb at hpolicy
    split_ifs at hpolicy
    exact (Option.some.inj hpolicy).symm
  refine ⟨{ l1i, l1d, l2 }, ?_, (Option.some.inj hH).symm⟩
  have hbits {g g' : Geometry} (hg : toInt k.pageSize = 2 ^ g.blockSizeBits)
      (hg' : toInt k.pageSize = 2 ^ g'.blockSizeBits) : g.blockSizeBits = g'.blockSizeBits :=
    Nat.pow_right_injective (le_refl 2) (by exact_mod_cast hg.symm.trans hg')
  have h1 := Geometry.blockSize_of_init hl1i
  have h2 := Geometry.blockSize_of_init hl1d
  have h3 := Geometry.blockSize_of_init hl2
  intro i j
  cases i <;> cases j <;> first | rfl | exact hbits ‹_› ‹_›

section Core

variable {k : TlbKnobs} {H : Hierarchy TlbId} (hH : k.hierarchy = some H)

include hH

theorem TlbKnobs.policy_eq_lfu (i : TlbId) : (H.dev i).policy = .lfu := by
  obtain ⟨G, -, rfl⟩ := k.exists_of_hierarchy hH
  cases i <;> rfl

theorem TlbKnobs.firstTag_eq (i j : TlbId) (m : Memref) : H.firstTag i m = H.firstTag j m := by
  obtain ⟨G, hbits, rfl⟩ := k.exists_of_hierarchy hH
  simp only [Hierarchy.firstTag, Geometry.computeTag, hbits i j]

theorem TlbKnobs.finalTag_eq (i j : TlbId) (m : Memref) : H.finalTag i m = H.finalTag j m := by
  obtain ⟨G, hbits, rfl⟩ := k.exists_of_hierarchy hH
  simp only [Hierarchy.finalTag, Geometry.computeTag, hbits i j]

/-- **The answer of a first-level TLB.** -/
theorem tlbRequest_fst_iff {s : Store TlbId} (hs : TlbsSynced H s) {i : TlbId} {core : ℕ}
    (hi : i = .itlb core ∨ i = .dtlb core) {m : Memref}
    (hle : H.firstTag i m ≤ H.finalTag i m) :
    (tlbRequest H s i m).1 = true ↔
      (s i).HoldsEntry (H.geometry i) (H.firstTag i m) m.pid ∨
        (s (.lltlb core)).HoldsEntry (H.geometry (.lltlb core)) (H.firstTag i m) m.pid := by
  have hparent : (H.dev i).parent = some (.lltlb core) ∧ H.rank i = 1 := by
    obtain ⟨G, -, rfl⟩ := k.exists_of_hierarchy hH
    rcases hi with rfl | rfl <;> exact ⟨rfl, rfl⟩
  have hroot : (H.dev (.lltlb core)).parent = none := by
    obtain ⟨G, -, rfl⟩ := k.exists_of_hierarchy hH
    rfl
  have htag : H.firstTag (.lltlb core) (firstPiece H i m) = H.firstTag i m := by
    rw [TlbKnobs.firstTag_eq hH (.lltlb core) i, Hierarchy.firstTag, firstPiece_addr]
    rfl
  have hpiece : H.firstTag (.lltlb core) (firstPiece H i m) ≤
      H.finalTag (.lltlb core) (firstPiece H i m) := by
    rw [htag, TlbKnobs.finalTag_eq hH (.lltlb core) i, finalTag_firstPiece hle]
  have hsame := tlbCountMiss_sameEntries s i (.lltlb core) (firstPiece H i m).type (.lltlb core)
  rw [tlbRequest, hparent.2, tlbRequestFuel_fst 1 (hs i) hle, hparent.1]
  simp only [tlbRequestFuel_fst 0 (hsame.synced (hs _)) hpiece, hroot, htag, firstPiece_pid,
    hsame.holdsEntry_iff, Bool.or_false, Bool.or_eq_true, decide_eq_true_eq]

end Core

end SagePTE.Simulator
