import Mathlib.Tactic.Positivity
import SagePTE.PageTables.GuestDump

/-!
# The text of a guest dump

In user-space mode the dumper goes through the addresses of a process from zero on. It
may skip a whole region, so that nothing is lost only as long as it skips from the
start of the region: `Mm.OnGrid` says that an address inside of a region can only be
reached if the table of the region is there. Then each address prints its own line
and those that were skipped have none, and the text is the same however the file is
read.

## Main definitions

* `Mm.Good` — tables whose upper entries can be used
* `Mm.OnGrid` — the addresses the dumper gets to
* `DescribesPages` — a header and one line for each page

## Main results

* `Mm.normalTableWalker_of_hasPte` and the lemmas after it — one address
* `Dumper.delivers_from` — the file comes to its end, with this text
* `Dumper.dump_readings` — every way of reading it
-/

set_option autoImplicit false

namespace SagePTE.PageTables

open Numerals SeqFile

/-! ### Lines and pages -/

/-- The frames printed for a mapped address. -/
def Mapping.dumpFields (root va : BitVec 64) (m : Mapping) : List (BitVec 64) :=
  match m with
  | .page pud pmd pte frame => [root, pud, pmd, pte, frame]
  | .huge2M pud pmd frame => [root, pud, pmd, m.leafFrame, frame]
  | .huge1G pud frame =>
    [root, pud, m.leafFrame, m.leafFrame + (pmdIndex va).setWidth 64 * 0x200#64, frame]

/-- The line of a mapped address. -/
def dumpLine (root va : BitVec 64) (m : Mapping) : List Char :=
  [','].intercalate (padLeft 16 '0' (hexText va) :: (m.dumpFields root va).map hexText) ++ ['\n']

/-- What is printed for an address: its line, if it is mapped to a frame other than
zero. -/
def Mm.pageLine (mm : Mm) (va : BitVec 64) : List Char :=
  match mm.mapping va with
  | none => []
  | some m => if m.frame = 0 then [] else dumpLine mm.pgd va m

/-- A text that is the header and then one line for each page below `TASK_SIZE_MAX` that
is mapped to a frame other than zero, with the addresses increasing. -/
def DescribesPages (mm : Mm) (header text : List Char) : Prop :=
  ∃ pages : List (BitVec 64 × Mapping),
    pages.Pairwise (fun p q => p.1 < q.1) ∧
    (∀ va m, (va, m) ∈ pages ↔ va.toNat % 4096 = 0 ∧ va < mm.taskSizeMax ∧
      mm.mapping va = some m ∧ m.frame ≠ 0) ∧
    text = header ++ pages.flatMap fun p => dumpLine mm.pgd p.1 p.2

namespace Mm

variable (mm : Mm)

/-! ### The entries of an address -/

def p4dAt (addr : BitVec 64) : Entry := mm.p4dOffset (mm.pgdOffset addr) addr
def pudAt (addr : BitVec 64) : Entry := mm.pudOffset (mm.p4dAt addr) addr
def pmdAt (addr : BitVec 64) : Entry := mm.pmdOffset (mm.pudAt addr) addr
def pteAt (addr : BitVec 64) : Entry := mm.pteOffset (mm.pmdAt addr) addr

/-- The address has a `pud` table. -/
def HasPud (addr : BitVec 64) : Prop := (mm.p4dAt addr).isNone = false

/-- The address has a `pmd` table or a leaf in its place. -/
def HasPmd (addr : BitVec 64) : Prop := mm.HasPud addr ∧ (mm.pudAt addr).isNone = false

/-- The address has a `pte` table or a leaf in its place. -/
def HasPte (addr : BitVec 64) : Prop :=
  mm.HasPmd addr ∧ ((mm.pudAt addr).isLeaf = true ∨ (mm.pmdAt addr).isNone = false)

/-- The entries that point to tables are not bad, and the tables do not lie in frame
zero. -/
structure Good : Prop where
  p4d : ∀ addr < mm.taskSizeMax, mm.HasPud addr →
    (mm.p4dAt addr).isBad = false ∧ (mm.p4dAt addr).frame ≠ 0
  pud : ∀ addr < mm.taskSizeMax, mm.HasPmd addr → (mm.pudAt addr).isLeaf = false →
    (mm.pudAt addr).isBad = false ∧ (mm.pudAt addr).frame ≠ 0
  pmd : ∀ addr < mm.taskSizeMax, mm.HasPte addr → (mm.pudAt addr).isLeaf = false →
    (mm.pmdAt addr).isLeaf = false → (mm.pmdAt addr).isBad = false ∧ (mm.pmdAt addr).frame ≠ 0

variable {mm} {a b : BitVec 64}

theorem p4dAt_congr {j : ℕ} (h : a >>> j = b >>> j) (hj : j ≤ 39) :
    mm.p4dAt a = mm.p4dAt b := by
  rw [p4dAt, p4dAt, mm.pgdOffset_congr h hj, mm.p4dOffset_congr h hj]

theorem pudAt_congr {j : ℕ} (h : a >>> j = b >>> j) (hj : j ≤ 30) :
    mm.pudAt a = mm.pudAt b := by
  rw [pudAt, pudAt, p4dAt_congr h (by omega), mm.pudOffset_congr h hj]

theorem pmdAt_congr {j : ℕ} (h : a >>> j = b >>> j) (hj : j ≤ 21) :
    mm.pmdAt a = mm.pmdAt b := by
  rw [pmdAt, pmdAt, pudAt_congr h (by omega), mm.pmdOffset_congr h hj]

/-- Addresses of one region have the same tables. -/
theorem hasPud_congr {j : ℕ} (h : a >>> j = b >>> j) (hj : j ≤ 39) :
    mm.HasPud a ↔ mm.HasPud b := by
  rw [HasPud, HasPud, p4dAt_congr h hj]

theorem hasPmd_congr {j : ℕ} (h : a >>> j = b >>> j) (hj : j ≤ 30) :
    mm.HasPmd a ↔ mm.HasPmd b := by
  rw [HasPmd, HasPmd, hasPud_congr h (by omega), pudAt_congr h hj]

theorem hasPte_congr {j : ℕ} (h : a >>> j = b >>> j) (hj : j ≤ 21) :
    mm.HasPte a ↔ mm.HasPte b := by
  rw [HasPte, HasPte, hasPmd_congr h (by omega), pudAt_congr h (by omega), pmdAt_congr h hj]

/-- An address that is mapped has all its tables. -/
theorem hasPte_of_mapping {m : Mapping} (hm : mm.mapping a = some m) : mm.HasPte a := by
  simp only [Mm.mapping] at hm
  split at hm
  · cases hm
  next htop =>
  simp only [Bool.or_eq_true, not_or, Bool.not_eq_true] at htop
  refine ⟨⟨htop.1.1.2, htop.2⟩, ?_⟩
  split at hm
  · next hleaf => exact .inl hleaf
  split at hm
  · cases hm
  next hpud =>
  simp only [Bool.or_eq_true, not_or, Bool.not_eq_true] at hpud
  exact .inr hpud.2

/-! ### Frames inside of a huge page -/

theorem pteIndex_setWidth (a : BitVec 64) : (pteIndex a).setWidth 64 = a >>> 12 &&& 0x1FF#64 := by
  apply BitVec.eq_of_toNat_eq
  rw [BitVec.toNat_and, show (0x1FF#64).toNat = 2 ^ 9 - 1 from rfl, Nat.and_two_pow_sub_one_eq_mod]
  simp only [pteIndex, BitVec.toNat_setWidth, BitVec.extractLsb'_toNat, BitVec.toNat_ushiftRight,
    Nat.shiftRight_eq_div_pow]
  omega

theorem pmdIndex_pteIndex_setWidth (a : BitVec 64) :
    (pmdIndex a).setWidth 64 * 0x200#64 + (pteIndex a).setWidth 64 = a >>> 12 &&& 0x3FFFF#64 := by
  apply BitVec.eq_of_toNat_eq
  rw [BitVec.toNat_and, show (0x3FFFF#64).toNat = 2 ^ 18 - 1 from rfl,
    Nat.and_two_pow_sub_one_eq_mod]
  simp only [pmdIndex, pteIndex, BitVec.toNat_add, BitVec.toNat_mul, BitVec.toNat_setWidth,
    BitVec.extractLsb'_toNat, BitVec.toNat_ushiftRight, Nat.shiftRight_eq_div_pow,
    BitVec.toNat_ofNat]
  omega

/-- Counting on from the first frame of a leaf does not carry into its bits. -/
theorem leaf_add_eq_or (pfn x mask : BitVec 64) :
    (pfn &&& ~~~mask) + (x &&& mask) = pfn &&& ~~~mask ||| (x &&& mask) := by
  apply BitVec.add_eq_or_of_and_eq_zero
  ext i hi
  simp only [BitVec.getElem_and, BitVec.getElem_not, BitVec.getElem_zero]
  cases mask[i] <;> simp

theorem handleNormalPage_pud (path : Path) :
    mm.handleNormalPage a path 2 = (mm.printEntry a { path with
      pmdp := path.pudp + (pmdIndex a).setWidth 64 * 0x200#64
      ptep := path.pudp + (a >>> 12 &&& 0x3FFFF#64) }, a + pageSize) := by
  rw [← pmdIndex_pteIndex_setWidth, ← BitVec.add_assoc]
  rfl

theorem handleNormalPage_pmd (path : Path) :
    mm.handleNormalPage a path 3 = (mm.printEntry a { path with
      ptep := path.pmdp + (a >>> 12 &&& 0x1FF#64) }, a + pageSize) := by
  rw [← pteIndex_setWidth]
  rfl

/-! ### One address -/

section

variable (hfour : mm.fiveLevel = false)

include hfour

theorem walkStep_of_p4dp {path : Path} (hp4d : path.p4dp = 0) : mm.walkStep path = p4dSize := by
  simp only [walkStep, pgdirSize, hfour, hp4d, Bool.false_eq_true, if_false, if_true, ite_self]

/-- The walk with the `p4d` level folded into the page directory. -/
theorem normalTableWalker_eq : mm.normalTableWalker a =
    if (mm.p4dAt a).isNone then mm.finishWalk a { pgdp := (mm.p4dAt a).frame }
    else
      let path : Path := { pgdp := (mm.p4dAt a).frame, p4dp := (mm.p4dAt a).frame }
      if (mm.p4dAt a).isBad then mm.finishWalk a path
      else if (mm.pudAt a).isNone then mm.finishWalk a path
      else
        let path := { path with pudp := (mm.pudAt a).pudPfn }
        if (mm.pudAt a).isLeaf then mm.handleNormalPage a path 2
        else if (mm.pudAt a).isBad then mm.finishWalk a path
        else if (mm.pmdAt a).isNone then mm.finishWalk a path
        else
          let path := { path with pmdp := (mm.pmdAt a).pmdPfn }
          if (mm.pmdAt a).isLeaf then mm.handleNormalPage a path 3
          else if (mm.pmdAt a).isBad then mm.finishWalk a path
          else if !(mm.pteAt a).isNone && (mm.pteAt a).isPresent then
            mm.finishWalk a { path with ptep := (mm.pteAt a).frame }
          else mm.finishWalk a path := by
  -- `pgd_none` and `pgd_bad` never hold here, and `p4d_offset` returns its argument
  have hpgd : mm.pgdOffset a = mm.p4dAt a := by simp [p4dAt, p4dOffset, hfour]
  have hp4d : mm.p4dOffset (mm.p4dAt a) a = mm.p4dAt a := by
    rw [← hpgd]
    simp [p4dOffset, hfour]
  simp only [normalTableWalker, pgdNone, pgdBad, hfour, Bool.false_and, Bool.false_eq_true,
    if_false, hpgd, hp4d]
  rfl

/-- The mapping with the `p4d` level folded into the page directory. -/
theorem mapping_eq : mm.mapping a =
    if (mm.p4dAt a).isNone || (mm.p4dAt a).isBad || (mm.pudAt a).isNone then none
    else if (mm.pudAt a).isLeaf then
      some (.huge1G (mm.p4dAt a).frame ((mm.pudAt a).pudPfn ||| (a >>> 12 &&& 0x3FFFF#64)))
    else if (mm.pudAt a).isBad || (mm.pmdAt a).isNone then none
    else if (mm.pmdAt a).isLeaf then
      some (.huge2M (mm.p4dAt a).frame (mm.pudAt a).frame
        ((mm.pmdAt a).pmdPfn ||| (a >>> 12 &&& 0x1FF#64)))
    else if (mm.pmdAt a).isBad || (mm.pteAt a).isNone || !(mm.pteAt a).isPresent then none
    else some (.page (mm.p4dAt a).frame (mm.pudAt a).frame (mm.pmdAt a).frame
      (mm.pteAt a).frame) := by
  simp only [Mm.mapping, pgdNone, pgdBad, hfour, Bool.false_and, Bool.false_or]
  rfl

/-- Without a `pud` table the walk goes on behind the region of the entry. -/
theorem normalTableWalker_of_not_hasPud (h : ¬mm.HasPud a) :
    mm.normalTableWalker a = ([], a + p4dSize) := by
  have hnone : (mm.p4dAt a).isNone = true := by simpa [HasPud] using h
  rw [normalTableWalker_eq hfour, if_pos hnone, finishWalk, walkStep_of_p4dp hfour rfl]
  rfl

variable (hgood : mm.Good) (ha : a < mm.taskSizeMax)

include hgood ha

/-- Without a `pmd` table the walk goes on behind the region of the `pud` entry. -/
theorem normalTableWalker_of_not_hasPmd (hpud : mm.HasPud a) (h : ¬mm.HasPmd a) :
    mm.normalTableWalker a = ([], a + pudSize) := by
  obtain ⟨hbad, hframe⟩ := hgood.p4d a ha hpud
  have hnone : (mm.pudAt a).isNone = true := by simpa [HasPmd, hpud] using h
  have hp4d : (mm.p4dAt a).isNone = false := hpud
  simp only [normalTableWalker_eq hfour, hp4d, hbad, hnone, Bool.false_eq_true, if_false, if_true,
    finishWalk, walkStep, if_neg hframe]
  rfl

/-- Without a `pte` table the walk goes on behind the region of the `pmd` entry. -/
theorem normalTableWalker_of_not_hasPte (hpmd : mm.HasPmd a) (h : ¬mm.HasPte a) :
    mm.normalTableWalker a = ([], a + pmdSize) := by
  obtain ⟨hbad, hframe⟩ := hgood.p4d a ha hpmd.1
  simp only [HasPte, hpmd, true_and, not_or, Bool.not_eq_true, Bool.not_eq_false] at h
  obtain ⟨hleaf, hnone⟩ := h
  obtain ⟨hbad', hframe'⟩ := hgood.pud a ha hpmd hleaf
  have hp4d : (mm.p4dAt a).isNone = false := hpmd.1
  simp only [normalTableWalker_eq hfour, hp4d, hbad, hpmd.2, hleaf, hbad', hnone,
    Bool.false_eq_true, if_false, if_true, finishWalk, walkStep, if_neg hframe,
    Entry.pudPfn_of_not_leaf hleaf, if_neg hframe']
  rfl

/-- With all tables there the walk prints the line of the address, if there is one, and
goes on with the next page. -/
theorem normalTableWalker_of_hasPte (h : mm.HasPte a) :
    mm.normalTableWalker a = (mm.pageLine a, a + pageSize) := by
  obtain ⟨⟨hpud, hpmd⟩, hpte⟩ := id h
  obtain ⟨hbad, hframe⟩ := hgood.p4d a ha hpud
  have hp4d : (mm.p4dAt a).isNone = false := hpud
  rw [pageLine, mapping_eq hfour, normalTableWalker_eq hfour]
  simp only [hp4d, hbad, hpmd, Bool.or_self, Bool.false_eq_true, if_false]
  cases hleaf : (mm.pudAt a).isLeaf with
  | true =>
    -- a 1 GiB leaf
    simp only [if_true, handleNormalPage_pud, Entry.pudPfn_of_leaf hleaf, leaf_add_eq_or,
      printEntry, dumpLine, Mapping.dumpFields, Mapping.frame, Mapping.leafFrame,
      Mapping.offsetMask, leaf_or_and]
    rfl
  | false =>
    obtain ⟨hbad', hframe'⟩ := hgood.pud a ha ⟨hpud, hpmd⟩ hleaf
    have hpmdNone : (mm.pmdAt a).isNone = false := hpte.resolve_left (by simp [hleaf])
    simp only [hbad', hpmdNone, Bool.or_self, Bool.false_eq_true, if_false,
      Entry.pudPfn_of_not_leaf hleaf]
    cases hleaf' : (mm.pmdAt a).isLeaf with
    | true =>
      -- a 2 MiB leaf
      simp only [if_true, handleNormalPage_pmd, Entry.pmdPfn_of_leaf hleaf', leaf_add_eq_or,
        printEntry, dumpLine, Mapping.dumpFields, Mapping.frame, Mapping.leafFrame,
        Mapping.offsetMask, leaf_or_and]
      rfl
    | false =>
      obtain ⟨hpmdBad, hpmdFrame⟩ := hgood.pmd a ha h hleaf hleaf'
      simp only [hpmdBad, Bool.false_eq_true, if_false, Bool.false_or, finishWalk, walkStep,
        Entry.pmdPfn_of_not_leaf hleaf', if_neg hframe, if_neg hframe', if_neg hpmdFrame]
      cases (mm.pteAt a).isNone <;> cases (mm.pteAt a).isPresent <;> rfl

end

/-! ### The addresses of a dump -/

theorem ushiftRight_eq_of_div {j : ℕ} (h : a.toNat / 2 ^ j = b.toNat / 2 ^ j) :
    a >>> j = b >>> j := by
  apply BitVec.eq_of_toNat_eq
  simpa [Nat.shiftRight_eq_div_pow] using h

/-- The addresses the dumper gets to. Inside of a region it is only if the table of the
region is there. -/
structure OnGrid (mm : Mm) (a : BitVec 64) : Prop where
  page : a.toNat % 4096 = 0
  pud : a.toNat % 2 ^ 39 ≠ 0 → mm.HasPud a
  pmd : a.toNat % 2 ^ 30 ≠ 0 → mm.HasPmd a
  pte : a.toNat % 2 ^ 21 ≠ 0 → mm.HasPte a

theorem onGrid_zero : mm.OnGrid 0 := ⟨rfl, by simp, by simp, by simp⟩

/-- The lines of the pages from number `i` up to `j`. -/
def linesBetween (mm : Mm) (i j : ℕ) : List Char :=
  (List.range' i (j - i)).flatMap fun k => mm.pageLine (BitVec.ofNat 64 (4096 * k))

theorem linesBetween_append {i j k : ℕ} (hij : i ≤ j) (hjk : j ≤ k) :
    mm.linesBetween i j ++ mm.linesBetween j k = mm.linesBetween i k := by
  rw [linesBetween, linesBetween, linesBetween, ← List.flatMap_append,
    show k - i = (j - i) + (k - j) by omega, ← List.range'_append_1 (s := i),
    show i + (j - i) = j by omega]

/-- A region without a table has no lines. -/
theorem linesBetween_eq_nil {j : ℕ} (hj : 12 ≤ j) {n : ℕ} (hn : 4096 * n ≤ 2 ^ 64)
    (hend : 4096 * n ≤ a.toNat + 2 ^ j) (hpage : a.toNat % 2 ^ j = 0)
    (hregion : ∀ b : BitVec 64, a >>> j = b >>> j → ¬mm.HasPte b) :
    mm.linesBetween (a.toNat / 4096) n = [] := by
  refine List.flatMap_eq_nil_iff.mpr fun k hk => ?_
  obtain ⟨hlo, hhi⟩ := List.mem_range'_1.mp hk
  -- the page lies in the region of `a`
  have hk' : (BitVec.ofNat 64 (4096 * k)).toNat = 4096 * k := by
    rw [BitVec.toNat_ofNat]
    exact Nat.mod_eq_of_lt (by omega)
  obtain ⟨q, hq⟩ := Nat.dvd_of_mod_eq_zero hpage
  obtain ⟨c, hc⟩ : 4096 ∣ a.toNat := (pow_dvd_pow 2 hj).trans ⟨q, hq⟩
  have hsame : a >>> j = BitVec.ofNat 64 (4096 * k) >>> j := by
    apply ushiftRight_eq_of_div
    rw [hk', hq, Nat.mul_div_cancel_left q (by positivity)]
    refine (Nat.div_eq_of_lt_le ?_ ?_).symm
    · rw [Nat.mul_comm, ← hq]
      omega
    · rw [Nat.add_mul, Nat.mul_comm q, ← hq]
      omega
  have hnone : mm.mapping (BitVec.ofNat 64 (4096 * k)) = none := by
    by_contra hne
    obtain ⟨m, hm⟩ := Option.ne_none_iff_exists'.mp hne
    exact hregion _ hsame (hasPte_of_mapping hm)
  rw [pageLine, hnone]

/-! ### One step of a dump -/

theorem taskSizeMax_toNat (hfour : mm.fiveLevel = false) :
    mm.taskSizeMax.toNat = 4096 * (2 ^ 35 - 1) := by
  simp only [taskSizeMax, hfour, Bool.false_eq_true, if_false]
  rfl

theorem toNat_add_of_lt (hfour : mm.fiveLevel = false) (ha : a < mm.taskSizeMax)
    (size : BitVec 64) (hsize : size.toNat ≤ 2 ^ 39) : (a + size).toNat = a.toNat + size.toNat := by
  have hlt := BitVec.lt_def.mp ha
  rw [taskSizeMax_toNat hfour] at hlt
  rw [BitVec.toNat_add]
  omega

/-- The next address is on the grid again, and the lines printed are those of the pages
up to it. -/
theorem normalTableWalker_step (hfour : mm.fiveLevel = false) (hgood : mm.Good)
    (ha : a < mm.taskSizeMax) (hgrid : mm.OnGrid a) :
    ∃ a', (mm.normalTableWalker a).2 = a' ∧ a.toNat + 4096 ≤ a'.toNat ∧ mm.OnGrid a' ∧
      (mm.normalTableWalker a).1 =
        mm.linesBetween (a.toNat / 4096) (min (a'.toNat / 4096) (2 ^ 35 - 1)) := by
  have hlt := BitVec.lt_def.mp ha
  rw [taskSizeMax_toNat hfour] at hlt
  have hpage := hgrid.page
  by_cases hpud : mm.HasPud a
  swap
  · -- over the region of a `p4d` entry
    have halign : a.toNat % 2 ^ 39 = 0 := by
      by_contra hne
      exact hpud (hgrid.pud hne)
    have hnat : (a + p4dSize).toNat = a.toNat + 2 ^ 39 :=
      toNat_add_of_lt hfour ha p4dSize (by decide)
    rw [normalTableWalker_of_not_hasPud hfour hpud]
    refine ⟨a + p4dSize, rfl, by omega, ⟨by omega, by omega, by omega, by omega⟩, ?_⟩
    rw [linesBetween_eq_nil (j := 39) (by omega) (by omega) (by omega) halign]
    intro b hb hpte
    exact hpud ((hasPud_congr hb le_rfl).mpr hpte.1.1)
  by_cases hpmd : mm.HasPmd a
  swap
  · -- over the region of a `pud` entry
    have halign : a.toNat % 2 ^ 30 = 0 := by
      by_contra hne
      exact hpmd (hgrid.pmd hne)
    have hnat : (a + pudSize).toNat = a.toNat + 2 ^ 30 :=
      toNat_add_of_lt hfour ha pudSize (by decide)
    rw [normalTableWalker_of_not_hasPmd hfour hgood ha hpud hpmd]
    refine ⟨a + pudSize, rfl, by omega, ⟨by omega, fun hne => ?_, by omega, by omega⟩, ?_⟩
    · exact (hasPud_congr (ushiftRight_eq_of_div (by omega)) le_rfl).mpr hpud
    · rw [linesBetween_eq_nil (j := 30) (by omega) (by omega) (by omega) halign]
      intro b hb hpte
      exact hpmd ((hasPmd_congr hb le_rfl).mpr hpte.1)
  by_cases hpte : mm.HasPte a
  swap
  · -- over the region of a `pmd` entry
    have halign : a.toNat % 2 ^ 21 = 0 := by
      by_contra hne
      exact hpte (hgrid.pte hne)
    have hnat : (a + pmdSize).toNat = a.toNat + 2 ^ 21 :=
      toNat_add_of_lt hfour ha pmdSize (by decide)
    rw [normalTableWalker_of_not_hasPte hfour hgood ha hpmd hpte]
    refine ⟨a + pmdSize, rfl, by omega, ⟨by omega, fun hne => ?_, fun hne => ?_, by omega⟩, ?_⟩
    · exact (hasPud_congr (ushiftRight_eq_of_div (by omega)) le_rfl).mpr hpud
    · exact (hasPmd_congr (ushiftRight_eq_of_div (by omega)) le_rfl).mpr hpmd
    · rw [linesBetween_eq_nil (j := 21) (by omega) (by omega) (by omega) halign]
      intro b hb hpte'
      exact hpte ((hasPte_congr hb le_rfl).mpr hpte')
  · -- one page
    have hnat : (a + pageSize).toNat = a.toNat + 4096 :=
      toNat_add_of_lt hfour ha pageSize (by decide)
    rw [normalTableWalker_of_hasPte hfour hgood ha hpte]
    refine ⟨a + pageSize, rfl, by omega,
      ⟨by omega, fun hne => ?_, fun hne => ?_, fun hne => ?_⟩, ?_⟩
    · exact (hasPud_congr (ushiftRight_eq_of_div (by omega)) le_rfl).mpr hpud
    · exact (hasPmd_congr (ushiftRight_eq_of_div (by omega)) le_rfl).mpr hpmd
    · exact (hasPte_congr (ushiftRight_eq_of_div (by omega)) le_rfl).mpr hpte
    · have hone : min ((a + pageSize).toNat / 4096) (2 ^ 35 - 1) - a.toNat / 4096 = 1 := by omega
      have hself : BitVec.ofNat 64 (4096 * (a.toNat / 4096)) = a := by
        apply BitVec.eq_of_toNat_eq
        rw [BitVec.toNat_ofNat]
        omega
      simp only [linesBetween, hone, List.range'_one, List.flatMap_singleton, hself]

/-! ### The pages of a dump -/

/-- The page with number `k`, if it has a line. -/
def pageAt (mm : Mm) (k : ℕ) : Option (BitVec 64 × Mapping) :=
  (mm.mapping (BitVec.ofNat 64 (4096 * k))).bind fun m =>
    if m.frame = 0 then none else some (BitVec.ofNat 64 (4096 * k), m)

theorem pageAt_eq_some_iff {k : ℕ} {va : BitVec 64} {m : Mapping} :
    mm.pageAt k = some (va, m) ↔
      va = BitVec.ofNat 64 (4096 * k) ∧ mm.mapping va = some m ∧ m.frame ≠ 0 := by
  simp only [pageAt, Option.bind_eq_some_iff, Option.ite_none_left_eq_some, Option.some.injEq,
    Prod.mk.injEq]
  constructor
  · rintro ⟨m', hm, hframe, rfl, rfl⟩
    exact ⟨rfl, hm, hframe⟩
  · rintro ⟨rfl, hm, hframe⟩
    exact ⟨m, hm, hframe, rfl, rfl⟩

theorem pageLine_eq (k : ℕ) :
    mm.pageLine (BitVec.ofNat 64 (4096 * k)) =
      (mm.pageAt k).elim [] fun p => dumpLine mm.pgd p.1 p.2 := by
  rw [pageLine, pageAt]
  cases mm.mapping (BitVec.ofNat 64 (4096 * k)) with
  | none => rfl
  | some m =>
    by_cases hframe : m.frame = 0
    · simp only [Option.bind_some, if_pos hframe, Option.elim_none]
    · simp only [Option.bind_some, if_neg hframe, Option.elim_some]

/-- The lines of the pages below number `n` describe these pages. -/
theorem linesBetween_describes {n : ℕ} (htask : mm.taskSizeMax.toNat = 4096 * n)
    (header : List Char) :
    DescribesPages mm header (header ++ mm.linesBetween 0 n) := by
  have htoNat : ∀ k < n, (BitVec.ofNat 64 (4096 * k)).toNat = 4096 * k := by
    intro k hk
    rw [BitVec.toNat_ofNat]
    exact Nat.mod_eq_of_lt (by omega)
  refine ⟨(List.range n).filterMap mm.pageAt, ?_, ?_, ?_⟩
  · -- the addresses increase with the page numbers
    rw [List.pairwise_filterMap]
    refine List.pairwise_lt_range.imp_of_mem ?_
    rintro i j hi hj hij ⟨va, m⟩ hp ⟨va', m'⟩ hq
    rw [(pageAt_eq_some_iff.mp hp).1, (pageAt_eq_some_iff.mp hq).1, BitVec.lt_def,
      htoNat i (List.mem_range.mp hi), htoNat j (List.mem_range.mp hj)]
    omega
  · intro va m
    rw [List.mem_filterMap]
    constructor
    · rintro ⟨k, hk, hpage⟩
      obtain ⟨rfl, hm, hframe⟩ := pageAt_eq_some_iff.mp hpage
      have hk := List.mem_range.mp hk
      rw [BitVec.lt_def, htoNat k hk, htask]
      exact ⟨by omega, by omega, hm, hframe⟩
    · rintro ⟨hpage, hlt, hm, hframe⟩
      rw [BitVec.lt_def, htask] at hlt
      refine ⟨va.toNat / 4096, List.mem_range.mpr (by omega),
        pageAt_eq_some_iff.mpr ⟨?_, hm, hframe⟩⟩
      apply BitVec.eq_of_toNat_eq
      rw [BitVec.toNat_ofNat]
      omega
  -- page by page, a page without a line adds nothing on either side
  · congr 1
    rw [linesBetween, Nat.sub_zero, ← List.range_eq_range']
    generalize List.range n = ks
    induction ks with
    | nil => rfl
    | cons k ks ih =>
      rw [List.flatMap_cons, pageLine_eq, ih, List.filterMap_cons]
      cases mm.pageAt k <;> rfl

end Mm

namespace Dumper

variable (d : Dumper)

/-! ### The file -/

theorem restartable (hmode : d.isUserspaceMode = true) : d.ptSeqOps.Restartable := by
  intro p v _
  simp only [ptSeqOps, ptSeqNext, hmode, if_true]
  generalize (d.ptSeqShow v).2 = spos
  split
  · rfl
  · split
    · rfl
    · next hlt =>
      -- a position below `TASK_SIZE_MAX` is not the mark of the end
      have hne : spos ≠ BitVec.allOnes 64 := by
        rintro rfl
        refine hlt (BitVec.le_def.mpr ?_)
        rw [BitVec.toNat_allOnes]
        omega
      simp only [ptSeqStart, if_neg hne]
      rfl

/-- One round of the file: the header at the first address, and the lines of a step. -/
theorem advance_eq {a : BitVec 64} (hne : a ≠ BitVec.allOnes 64) :
    d.ptSeqOps.advance a = some ((if a = 0 then d.header else []) ++ (d.mm.normalTableWalker a).1,
      (d.ptSeqNext (d.mm.normalTableWalker a).2 a).2) := by
  have hstart : d.ptSeqOps.start a = some a := by
    simp only [ptSeqOps, ptSeqStart, if_neg hne]
    rfl
  rw [SeqOps.advance, hstart, Option.map_some]
  rfl

/-- From an address on the grid the file comes to its end. -/
theorem delivers_from (hmode : d.isUserspaceMode = true) (hfour : d.mm.fiveLevel = false)
    (hgood : d.mm.Good) (n : ℕ) {a : BitVec 64} (ha : a < d.mm.taskSizeMax)
    (hgrid : d.mm.OnGrid a) (hn : 2 ^ 35 - 1 - a.toNat / 4096 ≤ n) :
    ∃ k ≤ n, Delivers d.ptSeqOps a k
      ((if a = 0 then d.header else []) ++ d.mm.linesBetween (a.toNat / 4096) (2 ^ 35 - 1)) := by
  have htask := Mm.taskSizeMax_toNat hfour
  induction n generalizing a with
  | zero =>
    have hlt := BitVec.lt_def.mp ha
    omega
  | succ n ih =>
    have hlt := BitVec.lt_def.mp ha
    obtain ⟨a', hnext, hstep, hgrid', hline⟩ := Mm.normalTableWalker_step hfour hgood ha hgrid
    have hne : a ≠ BitVec.allOnes 64 := by
      rintro rfl
      rw [BitVec.toNat_allOnes] at hlt
      omega
    have hgrow : ¬a' ≤ a := by
      rw [BitVec.le_def]
      omega
    have hadvance := d.advance_eq hne
    rw [hline, hnext] at hadvance
    by_cases hend : d.mm.taskSizeMax ≤ a'
    · -- the last address below `TASK_SIZE_MAX`
      have hle := BitVec.le_def.mp hend
      have hlast : (d.ptSeqNext a' a).2 = BitVec.allOnes 64 := by
        simp only [ptSeqNext, if_neg hgrow, if_pos hend, hmode, if_true]
      have hmin : min (a'.toNat / 4096) (2 ^ 35 - 1) = 2 ^ 35 - 1 := by omega
      rw [hlast, hmin] at hadvance
      have hnil : Delivers d.ptSeqOps (BitVec.allOnes 64) 0 [] := .nil rfl
      have hall := Delivers.cons hadvance hnil
      rw [List.append_nil] at hall
      exact ⟨1, by omega, hall⟩
    · have hlt' : a' < d.mm.taskSizeMax := by
        rw [BitVec.le_def] at hend
        exact BitVec.lt_def.mpr (by omega)
      have hlt'' := BitVec.lt_def.mp hlt'
      have hnot : ¬a' = 0 := by
        rintro rfl
        simp at hstep
      have hmin : min (a'.toNat / 4096) (2 ^ 35 - 1) = a'.toNat / 4096 := by omega
      have hmore : (d.ptSeqNext a' a).2 = a' := by
        simp only [ptSeqNext, if_neg hgrow, if_neg hend]
      obtain ⟨k, hk, hrest⟩ := ih hlt' hgrid' (by omega)
      rw [hmore, hmin] at hadvance
      rw [if_neg hnot, List.nil_append] at hrest
      have hall := Delivers.cons hadvance hrest
      rw [List.append_assoc, Mm.linesBetween_append (by omega) (by omega)] at hall
      exact ⟨k + 1, by omega, hall⟩

/-- Every way of reading a dump in user-space mode. The file has an end, no reading goes
on behind it, and what has been read when the file ends is the header and one line for
each page. -/
theorem dump_readings (hmode : d.isUserspaceMode = true) (hfour : d.mm.fiveLevel = false)
    (hgood : d.mm.Good) :
    ∃ n text, DescribesPages d.mm d.header text ∧
      (∀ r k out c, Reading d.ptSeqOps 0 r k out c →
        r ≤ k ∧ k ≤ n ∧ out <+: text ∧ (d.ptSeqOps.start c.index = none → out = text)) ∧
      ∃ p, Reading d.ptSeqOps 0 n n text (.closed p) ∧ d.ptSeqOps.start p = none := by
  have htask := Mm.taskSizeMax_toNat hfour
  have hzero : (0 : BitVec 64) < d.mm.taskSizeMax := by
    rw [BitVec.lt_def, htask]
    decide
  obtain ⟨n, -, hd⟩ := d.delivers_from hmode hfour hgood (2 ^ 35 - 1) hzero Mm.onGrid_zero
    (by omega)
  rw [if_pos rfl] at hd
  refine ⟨n, _, Mm.linesBetween_describes htask d.header, ?_, hd.exists_reading⟩
  intro r k out c hreading
  exact hd.reading (d.restartable hmode) hreading

/-- A process whose page directory maps every address, by way of itself. -/
def sampleDumper : Dumper := ⟨'U', 42, loopMm, 0xFFFF888000000000#64⟩

theorem dump_readings_sampleDumper :
    ∃ n text, DescribesPages loopMm sampleDumper.header text ∧
      (∀ r k out c, Reading sampleDumper.ptSeqOps 0 r k out c →
        r ≤ k ∧ k ≤ n ∧ out <+: text ∧
          (sampleDumper.ptSeqOps.start c.index = none → out = text)) ∧
      ∃ p, Reading sampleDumper.ptSeqOps 0 n n text (.closed p) ∧
        sampleDumper.ptSeqOps.start p = none :=
  have hframe : (1 : BitVec 64) ≠ 0 := by decide
  sampleDumper.dump_readings rfl rfl
    ⟨fun _ _ _ => ⟨rfl, hframe⟩, fun _ _ _ _ => ⟨rfl, hframe⟩,
      fun _ _ _ _ _ => ⟨rfl, hframe⟩⟩

end Dumper

end SagePTE.PageTables
