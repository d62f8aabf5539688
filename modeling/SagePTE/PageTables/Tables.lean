import Mathlib.Data.BitVec

/-!
# Page tables of a process

The x86-64 page tables of a process, as the kernel's `pXd` accessors see them. A
table is a frame with 512 entries. The page directory and the levels `p4d`, `pud`,
`pmd` and `pte` below it are indexed with nine bits of the address each; without
five-level paging the `p4d` level is folded into the page directory, whose entries
then are the `p4d` entries. A `pud` or `pmd` entry may be a leaf that maps 1 GiB or
2 MiB.

`Mm.mapping` is what the tables mean: the tables on the path of an address and the
frame it is mapped to, whatever a program makes of them.

## Main definitions

* `Entry`, `Mm` — entries and tables
* `Mm.pgdOffset`, `Mm.p4dOffset`, … — the walk, level by level
* `Mm.mapping` — the path and the frame of an address

## Main results

* `mapping_cases` — what a mapping is made of
* `mapping_congr` — a page is mapped as a whole
-/

set_option autoImplicit false

namespace SagePTE.PageTables

/-- An entry, by what `pXd_none`, `pXd_bad`, `pXd_leaf`, `pte_present` and the frame
bits of `PTE_PFN_MASK` return. A physical address has at most 52 bits. -/
structure Entry where
  isNone : Bool
  isBad : Bool
  isLeaf : Bool
  isPresent : Bool
  frame : BitVec 64
  frame_lt : frame < 0x10000000000#64

/-- `mm_struct`: whether five-level paging is on, the frame of the page directory,
and the tables by their frame. -/
structure Mm where
  fiveLevel : Bool
  pgd : BitVec 64
  table : BitVec 64 → BitVec 9 → Entry

/-! ### Sizes and indices -/

def pageSize : BitVec 64 := 0x1000#64
def pmdSize : BitVec 64 := 0x200000#64
def pudSize : BitVec 64 := 0x40000000#64
def p4dSize : BitVec 64 := 0x8000000000#64

def pteIndex (addr : BitVec 64) : BitVec 9 := addr.extractLsb' 12 9
def pmdIndex (addr : BitVec 64) : BitVec 9 := addr.extractLsb' 21 9
def pudIndex (addr : BitVec 64) : BitVec 9 := addr.extractLsb' 30 9
def p4dIndex (addr : BitVec 64) : BitVec 9 := addr.extractLsb' 39 9

namespace Mm

variable (mm : Mm)

/-- `PGDIR_SIZE`. -/
def pgdirSize : BitVec 64 := if mm.fiveLevel then 0x1000000000000#64 else p4dSize

def pgdIndex (addr : BitVec 64) : BitVec 9 :=
  if mm.fiveLevel then addr.extractLsb' 48 9 else p4dIndex addr

/-! ### The levels -/

/-- `pgd_offset`. -/
def pgdOffset (addr : BitVec 64) : Entry := mm.table mm.pgd (mm.pgdIndex addr)

/-- `pgd_none`, which never holds for a folded level. -/
def pgdNone (pgd : Entry) : Bool := mm.fiveLevel && pgd.isNone

/-- `pgd_bad`, which never holds for a folded level. -/
def pgdBad (pgd : Entry) : Bool := mm.fiveLevel && pgd.isBad

/-- `p4d_offset`: the entry of the page directory itself where the level is folded. -/
def p4dOffset (pgd : Entry) (addr : BitVec 64) : Entry :=
  if mm.fiveLevel then mm.table pgd.frame (p4dIndex addr) else pgd

/-- `pud_offset`. -/
def pudOffset (p4d : Entry) (addr : BitVec 64) : Entry := mm.table p4d.frame (pudIndex addr)

/-- `pmd_offset`. -/
def pmdOffset (pud : Entry) (addr : BitVec 64) : Entry := mm.table pud.frame (pmdIndex addr)

/-- `pte_offset_map` and `pte_offset_kernel`. -/
def pteOffset (pmd : Entry) (addr : BitVec 64) : Entry := mm.table pmd.frame (pteIndex addr)

/-! A level looks at the address from its own index bits on. -/

section

variable {a b : BitVec 64}

theorem extractLsb'_congr {j k : ℕ} (h : a >>> j = b >>> j) (hk : j ≤ k) :
    a.extractLsb' k 9 = b.extractLsb' k 9 := by
  ext i hi
  have hbit := congrArg (·.getLsbD (k - j + i)) h
  simp only [BitVec.getLsbD_ushiftRight] at hbit
  -- bit `k + i` of the address is bit `k - j + i` of the shifted one
  rw [BitVec.getElem_extractLsb', BitVec.getElem_extractLsb',
    show k + i = j + (k - j + i) by omega]
  exact hbit

theorem pgdOffset_congr {j : ℕ} (h : a >>> j = b >>> j) (hj : j ≤ 39) :
    mm.pgdOffset a = mm.pgdOffset b := by
  simp only [pgdOffset, pgdIndex, p4dIndex, extractLsb'_congr h (hj.trans (by decide : 39 ≤ 48)),
    extractLsb'_congr h hj]

theorem p4dOffset_congr {j : ℕ} (h : a >>> j = b >>> j) (hj : j ≤ 39) (pgd : Entry) :
    mm.p4dOffset pgd a = mm.p4dOffset pgd b := by
  simp only [p4dOffset, p4dIndex, extractLsb'_congr h hj]

theorem pudOffset_congr {j : ℕ} (h : a >>> j = b >>> j) (hj : j ≤ 30) (p4d : Entry) :
    mm.pudOffset p4d a = mm.pudOffset p4d b := by
  simp only [pudOffset, pudIndex, extractLsb'_congr h hj]

theorem pmdOffset_congr {j : ℕ} (h : a >>> j = b >>> j) (hj : j ≤ 21) (pud : Entry) :
    mm.pmdOffset pud a = mm.pmdOffset pud b := by
  simp only [pmdOffset, pmdIndex, extractLsb'_congr h hj]

theorem pteOffset_congr {j : ℕ} (h : a >>> j = b >>> j) (hj : j ≤ 12) (pmd : Entry) :
    mm.pteOffset pmd a = mm.pteOffset pmd b := by
  simp only [pteOffset, pteIndex, extractLsb'_congr h hj]

end

end Mm

namespace Entry

/-- `pud_pfn`: the frame of a leaf is a multiple of 1 GiB. -/
def pudPfn (pud : Entry) : BitVec 64 :=
  if pud.isLeaf then pud.frame &&& 0xFFFFFFFFFFFC0000#64 else pud.frame

/-- `pmd_pfn`: the frame of a leaf is a multiple of 2 MiB. -/
def pmdPfn (pmd : Entry) : BitVec 64 :=
  if pmd.isLeaf then pmd.frame &&& 0xFFFFFFFFFFFFFE00#64 else pmd.frame

theorem pudPfn_of_leaf {pud : Entry} (h : pud.isLeaf = true) :
    pud.pudPfn = pud.frame &&& ~~~0x3FFFF#64 := if_pos h

theorem pudPfn_of_not_leaf {pud : Entry} (h : pud.isLeaf = false) : pud.pudPfn = pud.frame := by
  simp [pudPfn, h]

theorem pmdPfn_of_leaf {pmd : Entry} (h : pmd.isLeaf = true) :
    pmd.pmdPfn = pmd.frame &&& ~~~0x1FF#64 := if_pos h

theorem pmdPfn_of_not_leaf {pmd : Entry} (h : pmd.isLeaf = false) : pmd.pmdPfn = pmd.frame := by
  simp [pmdPfn, h]

theorem frame_and_lt (e : Entry) (mask : BitVec 64) : e.frame &&& mask < 0x10000000000#64 := by
  have hlt := BitVec.lt_def.mp e.frame_lt
  have hle : (e.frame &&& mask).toNat ≤ e.frame.toNat := by
    rw [BitVec.toNat_and]
    exact Nat.and_le_left
  exact BitVec.lt_def.mpr (hle.trans_lt hlt)

end Entry

/-! ### What the tables map -/

/-- Where an address is mapped: the tables that are indexed on its way, and the
4 KiB frame. -/
inductive Mapping
  | page (pud pmd pte : BitVec 64) (frame : BitVec 64)
  | huge2M (pud pmd : BitVec 64) (frame : BitVec 64)
  | huge1G (pud : BitVec 64) (frame : BitVec 64)
  deriving DecidableEq

/-- The 4 KiB frame an address is mapped to. -/
def Mapping.frame : Mapping → BitVec 64
  | .page _ _ _ frame => frame
  | .huge2M _ _ frame => frame
  | .huge1G _ frame => frame

/-- The translation of an address by the tables: entries that are neither none nor
bad down to a leaf or to a present page. The frame inside a huge page is found from
the index bits that the walk did not use. -/
def Mm.mapping (mm : Mm) (addr : BitVec 64) : Option Mapping :=
  let pgd := mm.pgdOffset addr
  let p4d := mm.p4dOffset pgd addr
  let pud := mm.pudOffset p4d addr
  let pmd := mm.pmdOffset pud addr
  let pte := mm.pteOffset pmd addr
  if mm.pgdNone pgd || mm.pgdBad pgd || p4d.isNone || p4d.isBad || pud.isNone then none
  else if pud.isLeaf then
    some (.huge1G p4d.frame (pud.pudPfn ||| (addr >>> 12 &&& 0x3FFFF#64)))
  else if pud.isBad || pmd.isNone then none
  else if pmd.isLeaf then
    some (.huge2M p4d.frame pud.frame (pmd.pmdPfn ||| (addr >>> 12 &&& 0x1FF#64)))
  else if pmd.isBad || pte.isNone || !pte.isPresent then none
  else some (.page p4d.frame pud.frame pmd.frame pte.frame)

/-- The bits of a frame number that count the frames inside of the leaf. -/
def Mapping.offsetMask : Mapping → BitVec 64
  | .page .. => 0
  | .huge2M .. => 0x1FF#64
  | .huge1G .. => 0x3FFFF#64

/-- The first frame of the leaf. -/
def Mapping.leafFrame (m : Mapping) : BitVec 64 := m.frame &&& ~~~m.offsetMask

/-! ### Mappings -/

/-- A leaf's frame is found again from any frame inside of it. -/
theorem leaf_or_and (pfn va mask : BitVec 64) :
    (pfn &&& ~~~mask ||| (va &&& mask)) &&& ~~~mask = pfn &&& ~~~mask := by
  ext i hi
  simp only [BitVec.getElem_and, BitVec.getElem_or, BitVec.getElem_not]
  cases mask[i] <;> simp

/-- What a mapping is made of. -/
theorem mapping_cases {mm : Mm} {addr : BitVec 64} {m : Mapping} (hm : mm.mapping addr = some m) :
    (∃ p4d pud pmd pte : Entry, m = .page p4d.frame pud.frame pmd.frame pte.frame) ∨
      (∃ p4d pud pmd : Entry, m = .huge2M p4d.frame pud.frame
        (pmd.frame &&& ~~~0x1FF#64 ||| (addr >>> 12 &&& 0x1FF#64))) ∨
      ∃ p4d pud : Entry, m = .huge1G p4d.frame
        (pud.frame &&& ~~~0x3FFFF#64 ||| (addr >>> 12 &&& 0x3FFFF#64)) := by
  -- down the levels, as `mapping` does
  simp only [Mm.mapping] at hm
  split at hm
  · cases hm
  split at hm
  · next hleaf =>
    rw [Entry.pudPfn_of_leaf hleaf] at hm
    exact .inr (.inr ⟨_, _, (Option.some.inj hm).symm⟩)
  split at hm
  · cases hm
  split at hm
  · next hleaf =>
    rw [Entry.pmdPfn_of_leaf hleaf] at hm
    exact .inr (.inl ⟨_, _, _, (Option.some.inj hm).symm⟩)
  split at hm
  · cases hm
  exact .inl ⟨_, _, _, _, (Option.some.inj hm).symm⟩

theorem leafFrame_page (pud pmd pte frame : BitVec 64) :
    (Mapping.page pud pmd pte frame).leafFrame = frame := by
  rw [Mapping.leafFrame, Mapping.frame, Mapping.offsetMask]
  exact BitVec.and_allOnes

/-- The first frame of a leaf is the frame of an entry, up to low bits. -/
theorem leafFrame_lt {mm : Mm} {addr : BitVec 64} {m : Mapping} (hm : mm.mapping addr = some m) :
    m.leafFrame < 0x10000000000#64 := by
  rcases mapping_cases hm with ⟨_, _, _, pte, rfl⟩ | ⟨_, _, pmd, rfl⟩ | ⟨_, pud, rfl⟩
  · rw [leafFrame_page]
    exact pte.frame_lt
  · rw [Mapping.leafFrame, Mapping.frame, Mapping.offsetMask, leaf_or_and]
    exact pmd.frame_and_lt _
  · rw [Mapping.leafFrame, Mapping.frame, Mapping.offsetMask, leaf_or_and]
    exact pud.frame_and_lt _

theorem leaf_or_eq_iff (pfn va mask : BitVec 64) :
    pfn &&& ~~~mask ||| (va &&& mask) = pfn &&& ~~~mask ↔ va &&& mask = 0 := by
  constructor
  · intro h
    ext i hi
    have hbit := congrArg (·[i]) h
    simp only [BitVec.getElem_and, BitVec.getElem_or, BitVec.getElem_not] at hbit ⊢
    -- outside of the mask both sides are zero
    cases hmask : mask[i] <;> simp_all
  · intro h
    rw [h]
    simp

/-- The frame of an address is the first one of its leaf if the bits of the address
that count the frames inside of the leaf are zero. -/
theorem frame_eq_leafFrame_iff {mm : Mm} {addr : BitVec 64} {m : Mapping}
    (hm : mm.mapping addr = some m) :
    m.frame = m.leafFrame ↔ addr >>> 12 &&& m.offsetMask = 0 := by
  rcases mapping_cases hm with ⟨_, _, _, pte, rfl⟩ | ⟨_, _, pmd, rfl⟩ | ⟨_, pud, rfl⟩
  · simp [leafFrame_page, Mapping.frame, Mapping.offsetMask]
  · rw [Mapping.leafFrame, Mapping.frame, Mapping.offsetMask, leaf_or_and]
    exact leaf_or_eq_iff _ _ _
  · rw [Mapping.leafFrame, Mapping.frame, Mapping.offsetMask, leaf_or_and]
    exact leaf_or_eq_iff _ _ _

/-- The tables map a page as a whole. -/
theorem mapping_congr (mm : Mm) {a b : BitVec 64} (h : a >>> 12 = b >>> 12) :
    mm.mapping a = mm.mapping b := by
  simp only [Mm.mapping, mm.pgdOffset_congr h (by decide), mm.p4dOffset_congr h (by decide),
    mm.pudOffset_congr h (by decide), mm.pmdOffset_congr h (by decide),
    mm.pteOffset_congr h le_rfl, h]

/-! ### Small tables -/

/-- An entry that points to a table or to a page. -/
def tableEntry (frame : BitVec 40) : Entry where
  isNone := false
  isBad := false
  isLeaf := false
  isPresent := true
  frame := frame.setWidth 64
  frame_lt := by bv_omega

/-- A page directory all of whose entries point back to it. -/
def loopMm : Mm where
  fiveLevel := false
  pgd := 1
  table := fun _ _ => tableEntry 1

end SagePTE.PageTables
