import Mathlib.Data.BitVec
import Mathlib.Tactic.LinearCombination
import SagePTE.Simulator.RequestLines
import SagePTE.Simulator.WalkCount

/-!
# The lines of the bytes of a reference

A reference is translated once, by the page of its first byte, and goes to the L1 with its
own size. The cache then takes the lines from that of the first byte to that of the last one,
in the frame of the first page and the frames behind it. For a reference that crosses a page
boundary these are the lines of its bytes only if the frames lie as the pages do.

## Main definitions

* `SimConfig.byteAddr` — the host-physical address of a byte
* `SimState.l1Request` — the request that a record makes in the L1
* `SimConfig.FramesFollowPages` — the frames of the touched pages lie as the pages do

## Main results

* `SimState.simulate_of_l1Request` — this is the request that is made
* `requestedTags_eq_byteLines` — when the lines requested are those of the bytes
-/

set_option autoImplicit false

namespace SagePTE.Simulator

/-! ### Addresses -/

/-- The number of the page of an address. -/
def pageNumber (x : BitVec 64) : BitVec 64 := x >>> 12

theorem shiftLeft_twelve (x : BitVec 64) : x <<< 12 = x * 4096#64 :=
  BitVec.shiftLeft_eq_mul_twoPow x 12

theorem and_4095_toNat (x : BitVec 64) : (x &&& 4095).toNat = x.toNat % 4096 := by
  have hmask := Nat.and_two_pow_sub_one_eq_mod x.toNat 12
  simpa using hmask

/-- An address is that of its page and the offset. -/
theorem eq_pageNumber_add (x : BitVec 64) : x = pageNumber x * 4096#64 + (x &&& 4095) := by
  refine BitVec.eq_of_toNat_eq ?_
  have hlt := x.isLt
  rw [BitVec.toNat_add, BitVec.toNat_mul, and_4095_toNat, pageNumber, BitVec.toNat_ushiftRight,
    Nat.shiftRight_eq_div_pow]
  simp only [BitVec.toNat_ofNat]
  omega

/-- A frame address and an offset have no bits in common. -/
theorem frame_or_offset (pa x : BitVec 64) :
    (pa <<< 12) ||| (x &&& 4095) = pa * 4096#64 + (x &&& 4095) := by
  rw [← shiftLeft_twelve]
  refine (BitVec.add_eq_or_of_and_eq_zero _ _ ?_).symm
  apply BitVec.eq_of_getLsbD_eq
  intro i hi
  rw [BitVec.getLsbD_and, BitVec.getLsbD_and, BitVec.getLsbD_shiftLeft]
  by_cases hlow : i < 12
  · simp [hlow]
  · have hmask : (4095 : BitVec 64).getLsbD i = false := by
      have htest := Nat.testBit_two_pow_sub_one 12 i
      simpa [BitVec.getLsbD, hlow] using htest
    rw [hmask]
    simp

/-! ### Requests in the L1 -/

/-- The host frame of the page of an address. -/
def SimConfig.hostFrame (C : SimConfig) (x : BitVec 64) : Option (BitVec 64) :=
  (C.pageTable (pageNumber x <<< 12)).bind fun guestIt =>
    (C.hostPageTable (guestIt.pa <<< 12)).map PageTableInfo.pa

/-- The host-physical address of a byte, by the translation of its own page. -/
def SimConfig.byteAddr (C : SimConfig) (x : BitVec 64) : Option (BitVec 64) :=
  (C.hostFrame x).map fun pa : BitVec 64 => (pa <<< 12) ||| (x &&& 4095)

/-- The bytes of a reference. -/
def byteOf (m : Memref) (j : ℕ) : BitVec 64 := m.addr + BitVec.ofNat 64 j

/-- The frames of the pages that a reference touches lie as the pages do. -/
def SimConfig.FramesFollowPages (C : SimConfig) (m : Memref) : Prop :=
  ∀ j < m.size.toNat, C.hostFrame (byteOf m j) =
    (C.hostFrame m.addr).map (· + (pageNumber (byteOf m j) - pageNumber m.addr))

instance (C : SimConfig) (m : Memref) : Decidable (C.FramesFollowPages m) :=
  inferInstanceAs (Decidable (∀ j < m.size.toNat, _))

variable {C : SimConfig} {m : Memref}

theorem isReference_of_isAccess (h : isAccess m.type = true) : SimState.isReference m = true := by
  simp only [SimState.isReference, isAccess] at h ⊢
  rw [h, Bool.true_or]

theorem hostFrame_addr {p : PageTableInfo × PageTableInfo} (hacc : isAccess m.type = true)
    (hp : C.translations m = some p) : C.hostFrame m.addr = some p.2.pa := by
  have hpage : SimState.virtualPage m = pageNumber m.addr <<< 12 :=
    if_pos (isReference_of_isAccess hacc)
  rw [SimConfig.translations, hpage] at hp
  obtain ⟨guestIt, hguest, hhost⟩ := Option.bind_eq_some_iff.mp hp
  obtain ⟨it, hit, rfl⟩ := Option.map_eq_some_iff.mp hhost
  rw [SimConfig.hostFrame, hguest, Option.bind_some, hit]
  rfl

/-- With such frames, the bytes follow one another. -/
theorem SimConfig.FramesFollowPages.byteAddr_eq (h : C.FramesFollowPages m)
    {p : PageTableInfo × PageTableInfo} (hacc : isAccess m.type = true)
    (hp : C.translations m = some p) {j : ℕ} (hj : j < m.size.toNat) :
    C.byteAddr (byteOf m j) =
      some ((SimState.newMemref p.2 m).addr + BitVec.ofNat 64 j) := by
  have href := isReference_of_isAccess hacc
  have haddr : (SimState.newMemref p.2 m).addr = p.2.pa * 4096#64 + (m.addr &&& 4095) := by
    rw [SimState.newMemref, if_pos href, SimState.pageOffset, if_pos href, shiftLeft_twelve]
  have hfirst := eq_pageNumber_add m.addr
  have hbyte := eq_pageNumber_add (byteOf m j)
  rw [SimConfig.byteAddr, h j hj, hostFrame_addr hacc hp, Option.map_some, Option.map_some,
    frame_or_offset, haddr]
  congr 1
  have hdef : byteOf m j = m.addr + BitVec.ofNat 64 j := rfl
  linear_combination hdef - hbyte + hfirst

namespace SimState

/-- The request that a fetch, read or write makes in the L1: the cache, and the reference at
its host-physical address. -/
def l1Request (C : SimConfig) (σ : SimState) (m : Memref) : Option (DevId × Memref) :=
  match σ.scheduleRef C m with
  | .error _ => none
  | .ok (core, _) =>
    if isAccess m.type then (C.translations m).map fun p =>
      (if typeIsInstr m.type then .l1i core else .l1d core, newMemref p.2 m)
    else none

variable {σ : SimState} {dev : DevId} {ref : Memref}

theorem l1Request_eq_some (h : σ.l1Request C m = some (dev, ref)) :
    ∃ core σ₁ p, σ.scheduleRef C m = .ok (core, σ₁) ∧ isAccess m.type = true ∧
      C.translations m = some p ∧ ref = newMemref p.2 m ∧
      dev = if typeIsInstr m.type then .l1i core else .l1d core := by
  unfold l1Request at h
  split at h
  · cases h
  · next core σ₁ hsched =>
    by_cases hacc : isAccess m.type = true
    swap
    · rw [if_neg hacc] at h
      cases h
    rw [if_pos hacc] at h
    obtain ⟨p, hp, heq⟩ := Option.map_eq_some_iff.mp h
    obtain ⟨hdev, href⟩ := Prod.mk.inj heq
    exact ⟨core, σ₁, p, hsched, hacc, hp, href.symm, hdev.symm⟩

/-- The record is simulated with this request, and behind it there are contention requests
only. -/
theorem simulate_of_l1Request (h : σ.l1Request C m = some (dev, ref)) :
    ∃ (core : ℕ) (σ₂ : SimState) (searchRes : CacheResult), σ.simulate C m =
      .ok ((σ₂.cacheRequest C dev ref).2.contentionAll C core searchRes) := by
  obtain ⟨core, σ₁, p, hsched, hacc, hp, rfl, rfl⟩ := l1Request_eq_some h
  refine ⟨core, σ₁.translated C core p m, ?_⟩
  simp only [simulate, bind, Except.bind, pure, Except.pure, hsched, translate_eq, hp, access,
    newMemref_type]
  by_cases hinstr : typeIsInstr m.type = true
  · rw [if_pos (.inl hinstr), if_pos hinstr]
    exact ⟨_, rfl⟩
  · have hdata : m.type = .read ∨ m.type = .write := by
      simpa [isAccess, hinstr] using hacc
    have hnot : ¬(typeIsInstr m.type = true ∨ m.type = .prefetchInstr) := by
      rintro (h | h)
      · exact hinstr h
      · simp [h] at hdata
    rw [if_neg hnot, if_pos (hdata.imp_right .inl), if_neg hinstr]
    exact ⟨_, rfl⟩

end SimState

/-! ### Lines -/

/-- The lines from that of one byte to that of another are those of the bytes between. -/
theorem exists_byte_of_line {B first size tag : ℕ} (hB : 0 < B) (hsize : 0 < size) :
    (first / B ≤ tag ∧ tag ≤ (first + size - 1) / B) ↔ ∃ j < size, (first + j) / B = tag := by
  constructor
  · rintro ⟨hle, hge⟩
    have hupper : tag * B ≤ first + size - 1 := (Nat.le_div_iff_mul_le hB).mp hge
    have hlower : first < (tag + 1) * B := (Nat.div_lt_iff_lt_mul hB).mp (by omega)
    -- the first byte of the line, or the first byte of all
    refine ⟨max (tag * B) first - first, by omega, ?_⟩
    rw [Nat.add_sub_cancel' (le_max_right _ _)]
    refine Nat.div_eq_of_lt_le (le_max_left _ _) (max_lt ?_ hlower)
    exact Nat.mul_lt_mul_of_pos_right (Nat.lt_succ_self tag) hB
  · rintro ⟨j, hj, rfl⟩
    exact ⟨Nat.div_le_div_right (by omega), Nat.div_le_div_right (by omega)⟩

/-- No line is requested for a reference without bytes at the beginning of a line. -/
theorem not_mem_requestedTags_of_size_eq_zero {ι : Type} {H : Hierarchy ι} {i : ι} {ref : Memref}
    (hsize : ref.size = 0) (hne : ref.addr ≠ 0)
    (haligned : (H.geometry i).blockSize ∣ ref.addr.toNat) (tag : ℕ) :
    tag ∉ H.requestedTags i ref := by
  have hlast : (ref.addr + ref.size - 1).toNat = ref.addr.toNat - 1 := by
    rw [hsize]
    bv_omega
  have hpos : 0 < ref.addr.toNat := by bv_omega
  rw [Hierarchy.mem_requestedTags, Hierarchy.firstTag, Hierarchy.finalTag,
    Geometry.computeTag_eq_div, Geometry.computeTag_eq_div, hlast]
  rintro ⟨hle, hge⟩
  obtain ⟨k, hk⟩ := haligned
  have hbefore : (ref.addr.toNat - 1) / (H.geometry i).blockSize < k :=
    (Nat.div_lt_iff_lt_mul (H.geometry i).blockSize_pos).mpr (by rw [Nat.mul_comm]; omega)
  rw [hk, Nat.mul_div_cancel_left k (H.geometry i).blockSize_pos] at hle
  omega

/-- **The lines of a reference.** If the frames lie as the pages do, and the physical addresses
do not run over the end, then the lines that a fetch, read or write requests in the L1 are the
lines of its bytes, each by its own translation. A reference without bytes has to be at the
beginning of a line, and not at the very first one. -/
theorem requestedTags_eq_byteLines {σ : SimState} {dev : DevId} {ref : Memref}
    (hreq : σ.l1Request C m = some (dev, ref))
    (hsize : m.size = 0 → ref.addr ≠ 0 ∧ (C.H.geometry dev).blockSize ∣ ref.addr.toNat)
    (hframes : C.FramesFollowPages m) (hend : ref.addr.toNat + ref.size.toNat ≤ 2 ^ 64) (tag : ℕ) :
    tag ∈ C.H.requestedTags dev ref ↔ ∃ j < m.size.toNat, ∃ addr,
      C.byteAddr (byteOf m j) = some addr ∧ (C.H.geometry dev).computeTag addr = tag := by
  obtain ⟨core, σ₁, p, -, hacc, hp, rfl, -⟩ := SimState.l1Request_eq_some hreq
  have hsame : (SimState.newMemref p.2 m).size = m.size := by
    rw [SimState.newMemref, if_pos (isReference_of_isAccess hacc)]
  by_cases hzero : m.size = 0
  · obtain ⟨hne, haligned⟩ := hsize hzero
    refine iff_of_false
      (not_mem_requestedTags_of_size_eq_zero (hsame.trans hzero) hne haligned tag) ?_
    rintro ⟨j, hj, -⟩
    rw [hzero] at hj
    exact absurd hj (Nat.not_lt_zero j)
  have hpos : 0 < m.size.toNat := by bv_omega
  rw [hsame] at hend
  clear hsize
  -- the bytes follow one another from the first physical address on
  have hbyte {j : ℕ} (hj : j < m.size.toNat) :
      C.byteAddr (byteOf m j) = some ((SimState.newMemref p.2 m).addr + BitVec.ofNat 64 j) :=
    hframes.byteAddr_eq hacc hp hj
  generalize SimState.newMemref p.2 m = ref at hsame hend hbyte
  have hlast : (ref.addr + ref.size - 1).toNat = ref.addr.toNat + m.size.toNat - 1 := by
    rw [hsame]
    bv_omega
  have hline {j : ℕ} (hj : j < m.size.toNat) :
      (C.H.geometry dev).computeTag (ref.addr + BitVec.ofNat 64 j) =
        (ref.addr.toNat + j) / (C.H.geometry dev).blockSize := by
    rw [Geometry.computeTag_eq_div, BitVec.toNat_add, BitVec.toNat_ofNat]
    congr 1
    omega
  rw [Hierarchy.mem_requestedTags, Hierarchy.firstTag, Hierarchy.finalTag,
    Geometry.computeTag_eq_div, Geometry.computeTag_eq_div, hlast,
    exists_byte_of_line (C.H.geometry dev).blockSize_pos hpos]
  refine exists_congr fun j => and_congr_right fun hj => ?_
  rw [hbyte hj]
  constructor
  · rintro rfl
    exact ⟨_, rfl, hline hj⟩
  · rintro ⟨addr, haddr, rfl⟩
    obtain rfl := Option.some.inj haddr
    exact (hline hj).symm

/-- A read of eight bytes within a page. -/
theorem read_in_page_byteLines :
    let C := sampleConfig [0x7000]
    let m := { readAt 0x703C with size := 8 }
    C.initial.l1Request C m = some (.l1d 0, { m with addr := 0x1503C }) ∧
      ∀ tag, tag ∈ C.H.requestedTags (.l1d 0) { m with addr := 0x1503C } ↔
        ∃ j < m.size.toNat, ∃ addr, C.byteAddr (byteOf m j) = some addr ∧
          (C.H.geometry (.l1d 0)).computeTag addr = tag := by
  intro C m
  have hreq : C.initial.l1Request C m = some (.l1d 0, { m with addr := 0x1503C }) := by
    decide +kernel
  exact ⟨hreq, requestedTags_eq_byteLines hreq (fun h => absurd h (by decide)) (by decide +kernel)
    (by decide)⟩

/-- A read of eight bytes across a page boundary, where both pages are in one frame. The L1 is
asked for a line behind this frame, and not for the line of the last four bytes. -/
theorem read_across_pages_wrong_line :
    let C := sampleConfig [0x7000, 0x8000]
    let m := { readAt 0x7FFC with size := 8 }
    ((C.initial.l1Request C m).map fun r => C.H.requestedTags r.1 r.2) = some [0x57F, 0x580] ∧
      (List.range 8).map (fun j => (C.byteAddr (byteOf m j)).map
        (C.H.geometry (.l1d 0)).computeTag) =
        [some 0x57F, some 0x57F, some 0x57F, some 0x57F,
          some 0x540, some 0x540, some 0x540, some 0x540] := by
  decide +kernel

end SagePTE.Simulator
