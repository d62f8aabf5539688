import SagePTE.Simulator.Lookup

/-!
# The lines of a request

A request goes through the lines from that of its first byte to that of its last byte. Each
turn of the loop cuts the piece for its line off the reference and hands it on, so that every
piece is within one line.

## Main definitions

* `Hierarchy.requestedTags` — the tags of these lines
* `Geometry.AtTurn` — what is left of the reference before a turn

## Main results

* `Hierarchy.requestStep_induction` — properties kept by the turns
-/

set_option autoImplicit false

namespace SagePTE.Simulator

variable {ι : Type}

/-! ### Addresses of lines -/

namespace Geometry

variable (g : Geometry)

theorem computeTag_eq_div (addr : BitVec 64) : g.computeTag addr = addr.toNat / g.blockSize := by
  rw [computeTag, Nat.shiftRight_eq_div_pow, blockSize]

theorem blockSize_pos : 0 < g.blockSize := Nat.two_pow_pos _

/-- The first address of a line. -/
def lineAddr (tag : ℕ) : BitVec 64 := BitVec.ofNat 64 (tag <<< g.blockSizeBits)

theorem toNat_lineAddr {tag : ℕ} {addr : BitVec 64} (h : tag ≤ g.computeTag addr) :
    (g.lineAddr tag).toNat = tag * g.blockSize := by
  have hle : tag * g.blockSize ≤ addr.toNat := by
    rw [computeTag_eq_div] at h
    exact (Nat.le_div_iff_mul_le g.blockSize_pos).mp h
  rw [lineAddr, BitVec.toNat_ofNat, Nat.shiftLeft_eq]
  exact Nat.mod_eq_of_lt (hle.trans_lt addr.isLt)

theorem computeTag_lineAddr {tag : ℕ} {addr : BitVec 64} (h : tag ≤ g.computeTag addr) :
    g.computeTag (g.lineAddr tag) = tag := by
  rw [computeTag_eq_div, g.toNat_lineAddr h, Nat.mul_div_cancel _ g.blockSize_pos]

/-- The byte before a line is in the line before. -/
theorem computeTag_lineAddr_sub_one {tag : ℕ} {addr : BitVec 64}
    (h : tag + 1 ≤ g.computeTag addr) : g.computeTag (g.lineAddr (tag + 1) - 1) = tag := by
  have hpos := g.blockSize_pos
  have haddr := g.toNat_lineAddr h
  have hexpand : (tag + 1) * g.blockSize = tag * g.blockSize + g.blockSize := Nat.succ_mul _ _
  have hsub : (g.lineAddr (tag + 1) - 1).toNat = tag * g.blockSize + (g.blockSize - 1) := by
    bv_omega
  rw [computeTag_eq_div, hsub, Nat.mul_comm, Nat.mul_add_div hpos,
    Nat.div_eq_of_lt (by omega), Nat.add_zero]

/-- What is left of a reference, with `n` lines to go from that of `tag`. -/
structure AtTurn (finalAddr : BitVec 64) (n tag : ℕ) (m : Memref) : Prop where
  first : g.computeTag m.addr = tag
  final : m.addr + m.size - 1 = finalAddr
  count : g.computeTag finalAddr + 1 = tag + n

end Geometry

namespace Hierarchy

variable (H : Hierarchy ι)

/-- The tags of a request, in the order of the loop. -/
def requestedTags (i : ι) (m : Memref) : List ℕ :=
  List.range' (H.firstTag i m) (H.finalTag i m + 1 - H.firstTag i m)

theorem mem_requestedTags {i : ι} {m : Memref} {tag : ℕ} :
    tag ∈ H.requestedTags i m ↔ H.firstTag i m ≤ tag ∧ tag ≤ H.finalTag i m := by
  rw [requestedTags, List.mem_range'_1]
  omega

variable {H} in
theorem requestedTags_of_singleBlock {i : ι} {m : Memref} (hm : H.SingleBlock i m) :
    H.requestedTags i m = [H.firstTag i m] := by
  rw [requestedTags, ← show H.firstTag i m = H.finalTag i m from hm, Nat.add_sub_cancel_left]
  rfl

/-- The piece of the turn that has `n` turns behind it. -/
def piece (i : ι) (n tag : ℕ) (m : Memref) : Memref :=
  if n = 0 then m else { m with size := (H.geometry i).lineAddr (tag + 1) - m.addr }

/-- What the turn leaves of the reference. -/
def restOf (i : ι) (finalAddr : BitVec 64) (n tag : ℕ) (m : Memref) : Memref :=
  if n = 0 then m
  else { m with
    addr := (H.geometry i).lineAddr (tag + 1)
    size := finalAddr - (H.geometry i).lineAddr (tag + 1) + 1 }

theorem piece_type (i : ι) (n tag : ℕ) (m : Memref) : (H.piece i n tag m).type = m.type := by
  rw [piece]
  split_ifs <;> rfl

theorem restOf_type (i : ι) (finalAddr : BitVec 64) (n tag : ℕ) (m : Memref) :
    (H.restOf i finalAddr n tag m).type = m.type := by
  rw [restOf]
  split_ifs <;> rfl

variable {H} in
/-- A piece is within the line of its turn. -/
theorem tags_piece {i : ι} {finalAddr : BitVec 64} {n tag : ℕ} {m : Memref}
    (h : (H.geometry i).AtTurn finalAddr (n + 1) tag m) :
    H.firstTag i (H.piece i n tag m) = tag ∧ H.finalTag i (H.piece i n tag m) = tag := by
  have hcount := h.count
  by_cases hn : n = 0
  · rw [piece, if_pos hn]
    refine ⟨h.first, ?_⟩
    rw [finalTag, h.final]
    omega
  · rw [piece, if_neg hn]
    refine ⟨h.first, ?_⟩
    have hend : m.addr + ((H.geometry i).lineAddr (tag + 1) - m.addr) - 1 =
        (H.geometry i).lineAddr (tag + 1) - 1 := by bv_omega
    have hbelow : tag + 1 ≤ (H.geometry i).computeTag finalAddr := by omega
    rw [finalTag, hend]
    exact (H.geometry i).computeTag_lineAddr_sub_one hbelow

variable {H} in
theorem atTurn_restOf {i : ι} {finalAddr : BitVec 64} {n tag : ℕ} {m : Memref}
    (h : (H.geometry i).AtTurn finalAddr (n + 1) tag m) (hn : n ≠ 0) :
    (H.geometry i).AtTurn finalAddr n (tag + 1) (H.restOf i finalAddr n tag m) := by
  have hcount := h.count
  have hbelow : tag + 1 ≤ (H.geometry i).computeTag finalAddr := by omega
  rw [restOf, if_neg hn]
  refine ⟨(H.geometry i).computeTag_lineAddr hbelow, ?_, by omega⟩
  simp only
  bv_omega

section Turns

variable [DecidableEq ι] (req : Store ι → ι → Memref → CacheResult × Store ι)

theorem accessBlocks_succ (i : ι) (finalAddr : BitVec 64) (n tag : ℕ) (m : Memref)
    (res : CacheResult) (s : Store ι) :
    H.accessBlocks req i finalAddr (n + 1) tag m res s =
      H.accessBlocks req i finalAddr n (tag + 1) (H.restOf i finalAddr n tag m)
        (H.accessBlock req s i tag (H.piece i n tag m) res).1
        (H.accessBlock req s i tag (H.piece i n tag m) res).2 := by
  rw [accessBlocks]
  by_cases hn : n = 0
  · subst hn
    rfl
  · simp only [piece, restOf, if_neg hn]
    rfl

variable {H} in
/-- A property of the tags that are done and the store, kept by each turn. -/
theorem accessBlocks_induction {i : ι} {type : TraceType} {P : List ℕ → Store ι → Prop}
    (hturn : ∀ done s piece res, H.SingleBlock i piece → piece.type = type → P done s →
      P (done ++ [H.firstTag i piece]) (H.accessBlock req s i (H.firstTag i piece) piece res).2)
    (finalAddr : BitVec 64) (n tag : ℕ) (m : Memref) (res : CacheResult) (s : Store ι)
    (done : List ℕ) (h : n ≠ 0 → (H.geometry i).AtTurn finalAddr n tag m) (htype : m.type = type)
    (hs : P done s) :
    P (done ++ List.range' tag n) (H.accessBlocks req i finalAddr n tag m res s).2 := by
  induction n generalizing tag m res s done with
  | zero => simpa [accessBlocks] using hs
  | succ n ih =>
    have hat := h (Nat.succ_ne_zero n)
    obtain ⟨hfirst, hfinal⟩ := tags_piece hat
    have hnext := hturn done s (H.piece i n tag m) res (hfirst.trans hfinal.symm)
      ((H.piece_type i n tag m).trans htype) hs
    rw [hfirst] at hnext
    rw [accessBlocks_succ, List.range'_succ, List.append_cons]
    exact ih _ _ _ _ _ (atTurn_restOf hat) ((H.restOf_type i finalAddr n tag m).trans htype) hnext

variable {H} in
/-- A property of the tags that are done and the store, kept by the short path and by each
turn. -/
theorem requestStep_induction {s : Store ι} {i : ι} {m : Memref} {P : List ℕ → Store ι → Prop}
    (hs : P [] s)
    (hshort : H.SingleBlock i m → H.firstTag i m = (s i).lastTag →
      P [H.firstTag i m] (H.shortPath s i m).2)
    (hturn : ∀ done s piece res, H.SingleBlock i piece → piece.type = m.type → P done s →
      P (done ++ [H.firstTag i piece]) (H.accessBlock req s i (H.firstTag i piece) piece res).2) :
    P (H.requestedTags i m) (H.requestStep req s i m).2 := by
  rw [requestedTags, requestStep]
  split_ifs with hlast
  · rw [← hlast.1, Nat.add_sub_cancel_left]
    exact hshort hlast.1 hlast.2
  · exact accessBlocks_induction req hturn (m.addr + m.size - 1)
      (H.finalTag i m + 1 - H.firstTag i m) (H.firstTag i m) m .notFound s []
      (fun hn => ⟨rfl, rfl, by simp only [finalTag] at hn ⊢; omega⟩) rfl hs

end Turns

end Hierarchy

end SagePTE.Simulator
