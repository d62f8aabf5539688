import SagePTE.PageTables.Levels
import SagePTE.PageTables.OutputCount
import SagePTE.Simulator.Walk

/-!
# References to host leaf entries

The translator walks QEMU's page tables by virtual address, `guest_ram_base` above the guest
address. The simulator knows the guest address only, and indexes the tables of the record
with it. At the last level both indices are nine bits that differ by the same shift for all
frames, so the references of two frames are the same exactly if their leaf entries are.

Distinct frames can have one leaf entry. The tables are indexed with 48 bits of the address,
or with 57, and the frames may differ above. A `pmd` table may also be used by several `pud`
entries, even where every `pte` table is used by one `pmd` entry.

## Main definitions

* `leafReference` — the reference of the simulator
* `Mm.PteTablesOnce`, `Mm.TablesOnce` — tables that are referenced from one entry

## Main results

* `frameReference_eq_iff` — references and leaf entries
* `leafReference_ne_iff` — the frames whose references differ
-/

set_option autoImplicit false

namespace SagePTE.PageTables

open Simulator

/-! ### The reference -/

/-- The address of `make_request` at the last level of a host walk. -/
def leafReference (info : PageTableInfo) (gpa : BitVec 64) : BitVec 64 :=
  info.pe4 <<< 12 + 8 * Walker.levelIndex gpa 4

/-- The reference for a guest frame, with the record that the simulator loads for it. -/
def frameReference (base : BitVec 64) (mm : Mm) (pfn : BitVec 64) : BitVec 64 :=
  leafReference (translation base (some mm) pfn).record.2 (pfn <<< 12)

theorem toNat_levelIndex (gpa : BitVec 64) :
    (Walker.levelIndex gpa 4).toNat = gpa.toNat / 4096 % 512 := by
  have hmask : (511 : BitVec 64).toNat = 2 ^ 9 - 1 := rfl
  rw [Walker.levelIndex, Walker.levelPrefix, BitVec.toNat_and, BitVec.toNat_ushiftRight, hmask,
    Nat.and_two_pow_sub_one_eq_mod, Nat.shiftRight_eq_div_pow]

/-- A table frame and an index make a reference, and are found from it again. -/
theorem toNat_leafReference {info : PageTableInfo} (h : info.pe4 < 0x10000000000#64)
    (gpa : BitVec 64) :
    (leafReference info gpa).toNat = info.pe4.toNat * 4096 + 8 * (gpa.toNat / 4096 % 512) := by
  have hlt : info.pe4.toNat < 2 ^ 40 := by simpa [BitVec.lt_def] using h
  have height : (8 : BitVec 64).toNat = 8 := rfl
  rw [leafReference, BitVec.toNat_add, BitVec.toNat_shiftLeft, BitVec.toNat_mul, height,
    toNat_levelIndex, Nat.shiftLeft_eq]
  omega

theorem leafReference_eq_iff {info info' : PageTableInfo} (h : info.pe4 < 0x10000000000#64)
    (h' : info'.pe4 < 0x10000000000#64) (gpa gpa' : BitVec 64) :
    leafReference info gpa = leafReference info' gpa' ↔
      info.pe4 = info'.pe4 ∧ gpa.toNat / 4096 % 512 = gpa'.toNat / 4096 % 512 := by
  rw [← BitVec.toNat_inj, toNat_leafReference h, toNat_leafReference h', ← BitVec.toNat_inj]
  omega

/-! ### Indices of shifted addresses -/

theorem toNat_extractLsb' (addr : BitVec 64) (k : ℕ) :
    (addr.extractLsb' k 9).toNat = addr.toNat / 2 ^ k % 512 := by
  rw [BitVec.extractLsb'_toNat, Nat.shiftRight_eq_div_pow]

theorem toNat_shiftLeft_div (pfn : BitVec 64) :
    (pfn <<< 12).toNat / 4096 % 512 = pfn.toNat % 512 := by
  rw [BitVec.toNat_shiftLeft, Nat.shiftLeft_eq]
  omega

/-- The page of a frame in QEMU's address space: the frame, shifted by the base. -/
theorem page_of_frame (base pfn : BitVec 64) :
    (base + pfn <<< 12).toNat / 4096 % 2 ^ 52 = (base.toNat / 4096 + pfn.toNat) % 2 ^ 52 := by
  have hbase := base.isLt
  rw [BitVec.toNat_add, BitVec.toNat_shiftLeft, Nat.shiftLeft_eq]
  omega

theorem pteIndex_eq_iff (base p q : BitVec 64) :
    pteIndex (base + p <<< 12) = pteIndex (base + q <<< 12) ↔ p.toNat % 512 = q.toNat % 512 := by
  have hp := page_of_frame base p
  have hq := page_of_frame base q
  rw [← BitVec.toNat_inj, pteIndex, pteIndex, toNat_extractLsb', toNat_extractLsb']
  omega

/-- The bits of a frame that the tables are indexed with. -/
def Mm.frameBits (mm : Mm) : ℕ := if mm.fiveLevel then 45 else 36

/-- Nine bits more. -/
theorem mod_two_pow_add_nine_eq_iff (x y k : ℕ) :
    x % 2 ^ (k + 9) = y % 2 ^ (k + 9) ↔
      x / 2 ^ k % 512 = y / 2 ^ k % 512 ∧ x % 2 ^ k = y % 2 ^ k := by
  have hpos : 0 < 2 ^ k := Nat.two_pow_pos k
  rw [pow_add, Nat.mod_mul, Nat.mod_mul]
  constructor
  · intro h
    have hdiv := congrArg (· / 2 ^ k) h
    have hmod := congrArg (· % 2 ^ k) h
    simp only [Nat.add_mul_div_left _ _ hpos, Nat.div_eq_of_lt (Nat.mod_lt _ hpos), zero_add,
      Nat.add_mul_mod_self_left, Nat.mod_mod] at hdiv hmod
    exact ⟨hdiv, hmod⟩
  · rintro ⟨hdiv, hmod⟩
    rw [hmod]
    exact congrArg (y % 2 ^ k + 2 ^ k * ·) hdiv

/-- The indices of the four lower levels are the low bits of the page. -/
theorem lowIndices_eq_iff (a b : BitVec 64) :
    (p4dIndex a = p4dIndex b ∧ pudIndex a = pudIndex b ∧ pmdIndex a = pmdIndex b ∧
      pteIndex a = pteIndex b) ↔ a.toNat / 2 ^ 12 % 2 ^ 36 = b.toNat / 2 ^ 12 % 2 ^ 36 := by
  simp only [← BitVec.toNat_inj, p4dIndex, pudIndex, pmdIndex, pteIndex, toNat_extractLsb']
  rw [mod_two_pow_add_nine_eq_iff _ _ 27, mod_two_pow_add_nine_eq_iff _ _ 18,
    mod_two_pow_add_nine_eq_iff _ _ 9]
  simp only [Nat.div_div_eq_div_mul, ← pow_add]
  rfl

/-- The indices of all levels are the low bits of the page. -/
theorem indices_eq_iff (mm : Mm) (base p q : BitVec 64) :
    (mm.pgdIndex (base + p <<< 12) = mm.pgdIndex (base + q <<< 12) ∧
      p4dIndex (base + p <<< 12) = p4dIndex (base + q <<< 12) ∧
      pudIndex (base + p <<< 12) = pudIndex (base + q <<< 12) ∧
      pmdIndex (base + p <<< 12) = pmdIndex (base + q <<< 12) ∧
      pteIndex (base + p <<< 12) = pteIndex (base + q <<< 12)) ↔
      p.toNat % 2 ^ mm.frameBits = q.toNat % 2 ^ mm.frameBits := by
  have hp := page_of_frame base p
  have hq := page_of_frame base q
  have hlow := lowIndices_eq_iff (base + p <<< 12) (base + q <<< 12)
  cases hfive : mm.fiveLevel with
  | true =>
    -- nine more bits of the page
    have htop := mod_two_pow_add_nine_eq_iff ((base + p <<< 12).toNat / 2 ^ 12)
      ((base + q <<< 12).toNat / 2 ^ 12) 36
    rw [Nat.div_div_eq_div_mul, Nat.div_div_eq_div_mul, ← pow_add] at htop
    rw [hlow, Mm.pgdIndex, Mm.pgdIndex, Mm.frameBits, hfive, if_pos rfl, if_pos rfl, if_pos rfl,
      ← BitVec.toNat_inj, toNat_extractLsb', toNat_extractLsb', ← htop]
    omega
  | false =>
    -- the page directory is indexed as the `p4d` is
    have hpgd (a : BitVec 64) : mm.pgdIndex a = p4dIndex a := by
      rw [Mm.pgdIndex, hfive]
      rfl
    rw [hpgd, hpgd, ← and_assoc, and_self, hlow, Mm.frameBits, hfive, if_neg Bool.false_ne_true]
    omega

/-! ### Tables -/

/-- The tables on the way to a page, each from an entry of the one before. -/
theorem tables_of_page {mm : Mm} {a pud pmd pte frame : BitVec 64}
    (h : mm.mapping a = some (.page pud pmd pte frame)) :
    pud = (mm.p4dOffset (mm.pgdOffset a) a).frame ∧ pmd = (mm.table pud (pudIndex a)).frame ∧
      pte = (mm.table pmd (pmdIndex a)).frame := by
  simp only [Mm.mapping] at h
  -- only the last branch is a page
  split at h
  · cases h
  split at h
  · cases h
  split at h
  · cases h
  split at h
  · cases h
  split at h
  · cases h
  obtain ⟨rfl, rfl, rfl, -⟩ := Mapping.page.inj (Option.some.inj h)
  exact ⟨rfl, rfl, rfl⟩

/-- Every `pte` table is referenced from one `pmd` entry, by its table and its index. -/
def Mm.PteTablesOnce (mm : Mm) : Prop :=
  ∀ ⦃a b pud pmd pte frame pud' pmd' frame' : BitVec 64⦄,
    mm.mapping a = some (.page pud pmd pte frame) →
    mm.mapping b = some (.page pud' pmd' pte frame') → pmd = pmd' ∧ pmdIndex a = pmdIndex b

/-- So is every other table below the page directory. -/
structure Mm.TablesOnce (mm : Mm) : Prop where
  pte : mm.PteTablesOnce
  pmd : ∀ ⦃a b pud pmd pte frame pud' pte' frame' : BitVec 64⦄,
    mm.mapping a = some (.page pud pmd pte frame) →
    mm.mapping b = some (.page pud' pmd pte' frame') → pud = pud' ∧ pudIndex a = pudIndex b
  pud : ∀ ⦃a b pud pmd pte frame pmd' pte' frame' : BitVec 64⦄,
    mm.mapping a = some (.page pud pmd pte frame) →
    mm.mapping b = some (.page pud pmd' pte' frame') →
    (mm.fiveLevel = true → (mm.pgdOffset a).frame = (mm.pgdOffset b).frame) ∧
      p4dIndex a = p4dIndex b
  p4d : ∀ ⦃a b pud pmd pte frame pud' pmd' pte' frame' : BitVec 64⦄, mm.fiveLevel = true →
    mm.mapping a = some (.page pud pmd pte frame) →
    mm.mapping b = some (.page pud' pmd' pte' frame') →
    (mm.pgdOffset a).frame = (mm.pgdOffset b).frame → mm.pgdIndex a = mm.pgdIndex b

/-! ### References and leaf entries -/

section Frames

variable {mm : Mm} {base p q pud pmd pte frame pud' pmd' pte' frame' : BitVec 64}

/-- The walk reports the `pte` table of a page, which is the table of its leaf entry. -/
theorem pe4_of_page (hbase : base ≠ 0)
    (hp : mm.mapping (base + p <<< 12) = some (.page pud pmd pte frame)) :
    (translation base (some mm) p).record.2.pe4 = pte ∧ pte < 0x10000000000#64 := by
  rw [translation_of_mapping hbase hp]
  refine ⟨rfl, ?_⟩
  rw [(tables_of_page hp).2.2]
  exact Entry.frame_lt _

variable (hbase : base ≠ 0)
  (hp : mm.mapping (base + p <<< 12) = some (.page pud pmd pte frame))
  (hq : mm.mapping (base + q <<< 12) = some (.page pud' pmd' pte' frame'))

include hbase hp hq

/-- Two frames have one reference exactly if they have one leaf entry. -/
theorem frameReference_eq_iff :
    frameReference base mm p = frameReference base mm q ↔
      pte = pte' ∧ pteIndex (base + p <<< 12) = pteIndex (base + q <<< 12) := by
  obtain ⟨hpe4, hlt⟩ := pe4_of_page hbase hp
  obtain ⟨hpe4', hlt'⟩ := pe4_of_page hbase hq
  rw [frameReference, frameReference, leafReference_eq_iff (hpe4 ▸ hlt) (hpe4' ▸ hlt'), hpe4, hpe4',
    toNat_shiftLeft_div, toNat_shiftLeft_div, pteIndex_eq_iff]

omit hbase in
/-- With tables that are referenced once, one leaf entry means one path. -/
theorem leafEntry_eq_iff (htables : mm.TablesOnce) :
    (pte = pte' ∧ pteIndex (base + p <<< 12) = pteIndex (base + q <<< 12)) ↔
      p.toNat % 2 ^ mm.frameBits = q.toNat % 2 ^ mm.frameBits := by
  rw [← indices_eq_iff mm base p q]
  constructor
  · rintro ⟨rfl, hpte⟩
    obtain ⟨rfl, hpmd⟩ := htables.pte hp hq
    obtain ⟨rfl, hpud⟩ := htables.pmd hp hq
    obtain ⟨hframe, hp4d⟩ := htables.pud hp hq
    refine ⟨?_, hp4d, hpud, hpmd, hpte⟩
    cases hfive : mm.fiveLevel with
    | true => exact htables.p4d hfive hp hq (hframe hfive)
    | false => simpa [Mm.pgdIndex, hfive] using hp4d
  · rintro ⟨hpgd, hp4d, hpud, hpmd, hpte⟩
    refine ⟨?_, hpte⟩
    obtain ⟨hpud₁, hpmd₁, hpte₁⟩ := tables_of_page hp
    obtain ⟨hpud₂, hpmd₂, hpte₂⟩ := tables_of_page hq
    have hpgdOffset : mm.pgdOffset (base + p <<< 12) = mm.pgdOffset (base + q <<< 12) := by
      rw [Mm.pgdOffset, hpgd, Mm.pgdOffset]
    have hp4dOffset : mm.p4dOffset (mm.pgdOffset (base + p <<< 12)) (base + p <<< 12) =
        mm.p4dOffset (mm.pgdOffset (base + q <<< 12)) (base + q <<< 12) := by
      rw [Mm.p4dOffset, hp4d, hpgdOffset, Mm.p4dOffset]
    have hpudEq : pud = pud' := by rw [hpud₁, hpud₂, hp4dOffset]
    have hpmdEq : pmd = pmd' := by rw [hpmd₁, hpmd₂, hpudEq, hpud]
    rw [hpte₁, hpte₂, hpmdEq, hpmd]

/-- **Leaf references.** Where every `pte` table is referenced from one `pmd` entry, the
references of two frames differ unless both walks use the same `pmd` entry and the frames agree
in their last nine bits. Where all tables are referenced from one entry, the references differ
unless the frames agree in the bits that the tables are indexed with. -/
theorem leafReference_ne_iff (hone : mm.PteTablesOnce) :
    (frameReference base mm p ≠ frameReference base mm q ↔
        ¬(pmd = pmd' ∧ pmdIndex (base + p <<< 12) = pmdIndex (base + q <<< 12) ∧
          p.toNat % 512 = q.toNat % 512)) ∧
      (mm.TablesOnce → (frameReference base mm p ≠ frameReference base mm q ↔
        p.toNat % 2 ^ mm.frameBits ≠ q.toNat % 2 ^ mm.frameBits)) := by
  have href := frameReference_eq_iff hbase hp hq
  refine ⟨not_congr (href.trans ?_), fun htables => not_congr (href.trans ?_)⟩
  · rw [pteIndex_eq_iff]
    constructor
    · rintro ⟨rfl, hindex⟩
      obtain ⟨hpmd, hpmdIndex⟩ := hone hp hq
      exact ⟨hpmd, hpmdIndex, hindex⟩
    · rintro ⟨hpmd, hpmdIndex, hindex⟩
      refine ⟨?_, hindex⟩
      rw [(tables_of_page hp).2.2, (tables_of_page hq).2.2, hpmd, hpmdIndex]
  · exact leafEntry_eq_iff hp hq htables

end Frames

/-! ### Small tables -/

/-- An entry that points nowhere. -/
def noneEntry : Entry := { tableEntry 0 with isNone := true }

/-- One table for each level. The page directory and the `pmd` table only have their first entry,
the `pud` table has all entries up to a last one, which point to the same `pmd` table. -/
def thinMm (last : BitVec 9) : Mm where
  fiveLevel := false
  pgd := 1
  table := fun frame i =>
    if frame = 1 then if i = 0 then tableEntry 2 else noneEntry
    else if frame = 2 then if i ≤ last then tableEntry 3 else noneEntry
    else if frame = 3 then if i = 0 then tableEntry 4 else noneEntry
    else tableEntry 5

theorem mapping_thinMm (last : BitVec 9) (a : BitVec 64) :
    (thinMm last).mapping a = if p4dIndex a = 0 ∧ pudIndex a ≤ last ∧ pmdIndex a = 0 then
      some (.page 2 3 4 5) else none := by
  have hpgd : (thinMm last).pgdOffset a = if p4dIndex a = 0 then tableEntry 2 else noneEntry := rfl
  have hp4d (e : Entry) : (thinMm last).p4dOffset e a = e := rfl
  have hnone (e : Entry) : (thinMm last).pgdNone e = false ∧ (thinMm last).pgdBad e = false :=
    ⟨rfl, rfl⟩
  by_cases hp4dIndex : p4dIndex a = 0
  · have hpud : (thinMm last).pudOffset (tableEntry 2) a =
        if pudIndex a ≤ last then tableEntry 3 else noneEntry := rfl
    by_cases hpudIndex : pudIndex a ≤ last
    · have hpmd : (thinMm last).pmdOffset (tableEntry 3) a =
          if pmdIndex a = 0 then tableEntry 4 else noneEntry := rfl
      have hpte : (thinMm last).pteOffset (tableEntry 4) a = tableEntry 5 := rfl
      by_cases hpmdIndex : pmdIndex a = 0
      · rw [if_pos ⟨hp4dIndex, hpudIndex, hpmdIndex⟩]
        simp only [Mm.mapping, hpgd, hp4d, hnone, if_pos hp4dIndex, hpud, if_pos hpudIndex, hpmd,
          if_pos hpmdIndex, hpte]
        rfl
      · rw [if_neg fun h => hpmdIndex h.2.2]
        simp only [Mm.mapping, hpgd, hp4d, hnone, if_pos hp4dIndex, hpud, if_pos hpudIndex, hpmd,
          if_neg hpmdIndex]
        rfl
    · rw [if_neg fun h => hpudIndex h.2.1]
      simp only [Mm.mapping, hpgd, hp4d, hnone, if_pos hp4dIndex, hpud, if_neg hpudIndex]
      rfl
  · rw [if_neg fun h => hp4dIndex h.1]
    simp only [Mm.mapping, hpgd, hp4d, hnone, if_neg hp4dIndex]
    rfl

theorem of_mapping_thinMm {last : BitVec 9} {a pud pmd pte frame : BitVec 64}
    (h : (thinMm last).mapping a = some (.page pud pmd pte frame)) :
    (p4dIndex a = 0 ∧ pudIndex a ≤ last ∧ pmdIndex a = 0) ∧ pud = 2 ∧ pmd = 3 := by
  rw [mapping_thinMm] at h
  split_ifs at h with hindex
  obtain ⟨rfl, rfl, -⟩ := Mapping.page.inj (Option.some.inj h)
  exact ⟨hindex, rfl, rfl⟩

theorem pteTablesOnce_thinMm (last : BitVec 9) : (thinMm last).PteTablesOnce := by
  intro a b pud pmd pte frame pud' pmd' frame' ha hb
  obtain ⟨⟨-, -, hpmd⟩, -, rfl⟩ := of_mapping_thinMm ha
  obtain ⟨⟨-, -, hpmd'⟩, -, rfl⟩ := of_mapping_thinMm hb
  exact ⟨rfl, hpmd.trans hpmd'.symm⟩

theorem tablesOnce_thinMm : (thinMm 0).TablesOnce where
  pte := pteTablesOnce_thinMm 0
  pmd a b pud pmd pte frame pud' pte' frame' ha hb := by
    obtain ⟨⟨-, hpud, -⟩, rfl, -⟩ := of_mapping_thinMm ha
    obtain ⟨⟨-, hpud', -⟩, rfl, -⟩ := of_mapping_thinMm hb
    exact ⟨rfl, (BitVec.le_zero_iff.1 hpud).trans (BitVec.le_zero_iff.1 hpud').symm⟩
  pud a b pud pmd pte frame pmd' pte' frame' ha hb := by
    obtain ⟨⟨hp4d, -, -⟩, -⟩ := of_mapping_thinMm ha
    obtain ⟨⟨hp4d', -, -⟩, -⟩ := of_mapping_thinMm hb
    exact ⟨fun hfive => (Bool.false_ne_true hfive).elim, hp4d.trans hp4d'.symm⟩
  p4d a b pud pmd pte frame pud' pmd' pte' frame' hfive := by cases hfive

/-- Two frames next to each other. -/
theorem leafReference_ne_of_next :
    frameReference 0x1000 (thinMm 0) 1 ≠ frameReference 0x1000 (thinMm 0) 2 :=
  ((leafReference_ne_iff (by decide) (mapping_thinMm 0 _) (mapping_thinMm 0 _)
    (pteTablesOnce_thinMm 0)).2 tablesOnce_thinMm).2 (by decide)

/-- Two frames that are 2³⁶ apart are translated by one leaf entry and have one reference, though
every table is referenced once. So have two frames that are 2¹⁸ apart where two `pud` entries
point to one `pmd` table. -/
theorem distinct_frames_alias :
    (thinMm 0).TablesOnce ∧
      (thinMm 0).mapping (0x1000 + 1#64 <<< 12) = some (.page 2 3 4 5) ∧
      (thinMm 0).mapping (0x1000 + 0x1000000001#64 <<< 12) = some (.page 2 3 4 5) ∧
      frameReference 0x1000 (thinMm 0) 1 = 0x4008 ∧
      frameReference 0x1000 (thinMm 0) 0x1000000001 = 0x4008 ∧
      (thinMm 1).PteTablesOnce ∧
      (thinMm 1).mapping (0x1000 + 1#64 <<< 12) = some (.page 2 3 4 5) ∧
      (thinMm 1).mapping (0x1000 + 0x40001#64 <<< 12) = some (.page 2 3 4 5) ∧
      frameReference 0x1000 (thinMm 1) 1 = 0x4008 ∧
      frameReference 0x1000 (thinMm 1) 0x40001 = 0x4008 :=
  ⟨tablesOnce_thinMm, by decide, by decide, by decide, by decide, pteTablesOnce_thinMm 1,
    by decide, by decide, by decide, by decide⟩

end SagePTE.PageTables
