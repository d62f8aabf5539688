import SagePTE.PageTables.OutputText
import SagePTE.PageTables.Session

/-!
# The frames in an output record

The translator prints one record for each guest frame: the frames that its walk of
QEMU's page tables went through. This module compares them with what the tables mean,
`Mm.mapping`.

The first two chain fields are the frames that the `pgd` and the `p4d` entry point to,
not the frames the entries lie in. Without five-level paging both are the `pud` table,
and the frame of the page directory itself is in no field. The last field is the base
frame of the leaf, also where the leaf is huge and the guest frame lies further on.

## Main definitions

* `Mapping.chain` — the chain in terms of the mapping
* `lineFields` — the fields of a printed line

## Main results

* `translateGpaToHpa_of_mapping` — the walk finds what the tables map
* `Translator.record_names_tables_iff` — when the fields are the tables of the levels
* `Translator.record_names_frame_iff` — when the last field is the host frame
-/

set_option autoImplicit false

namespace SagePTE.PageTables

open Lines Numerals

/-! ### The walk and the mapping -/

theorem shiftLeft_ushiftRight_of_lt {p : BitVec 64} (hp : p < 0x10000000000#64) :
    (p <<< 12) >>> 12 = p := by
  apply BitVec.eq_of_toNat_eq
  have : p.toNat < 2 ^ 40 := by simpa [BitVec.lt_def] using hp
  simp only [BitVec.toNat_ushiftRight, BitVec.toNat_shiftLeft, Nat.shiftLeft_eq,
    Nat.shiftRight_eq_div_pow]
  omega

/-- The chain of a walk, from the frame that the `pgd` entry points to. -/
def Mapping.chain (pgdPfn : BitVec 64) (m : Mapping) : Chain :=
  match m with
  | .page pud pmd pte frame => ⟨pgdPfn, pud, pmd, pte, frame⟩
  | .huge2M pud pmd _ => ⟨pgdPfn, pud, pmd, m.leafFrame, m.leafFrame⟩
  | .huge1G pud _ => ⟨pgdPfn, pud, m.leafFrame, invalidPfn, m.leafFrame⟩

/-- The last frame of the chain is the first one of the leaf. -/
theorem Mapping.chain_pfn5 (pgdPfn : BitVec 64) (m : Mapping) :
    (m.chain pgdPfn).pfn5 = m.leafFrame := by
  cases m with
  | page pud pmd pte frame => exact (leafFrame_page pud pmd pte frame).symm
  | huge2M pud pmd frame => rfl
  | huge1G pud frame => rfl

/-- The frame number of the host address: the leaf's frame and the bits of the address
that count the frames inside of the leaf. -/
theorem hpa_frame {pfn : BitVec 64} (hpfn : pfn < 0x10000000000#64) (va size mask : BitVec 64)
    (hmask : (size - 1) >>> 12 = mask) :
    (pfn <<< 12 ||| (va &&& (size - 1))) >>> 12 = pfn ||| (va >>> 12 &&& mask) := by
  rw [BitVec.ushiftRight_or_distrib, BitVec.ushiftRight_and_distrib, hmask,
    shiftLeft_ushiftRight_of_lt hpfn]

/-- The walk finds what the tables map. -/
theorem translateGpaToHpa_of_mapping {base : BitVec 64} (hbase : base ≠ 0) {mm : Mm}
    {gpa : BitVec 64} {m : Mapping} (hm : mm.mapping (base + gpa) = some m) :
    ∃ hpa, translateGpaToHpa base (some mm) gpa =
        (.ok hpa, m.chain (mm.pgdOffset (base + gpa)).frame) ∧ hpa >>> 12 = m.frame := by
  simp only [Mm.mapping] at hm
  simp only [translateGpaToHpa, if_neg hbase]
  generalize mm.pgdOffset (base + gpa) = pgd at *
  generalize mm.p4dOffset pgd (base + gpa) = p4d at *
  generalize mm.pudOffset p4d (base + gpa) = pud at *
  generalize mm.pmdOffset pud (base + gpa) = pmd at *
  generalize mm.pteOffset pmd (base + gpa) = pte at *
  split at hm
  · cases hm
  next htop =>
  simp only [Bool.or_eq_true, not_or, Bool.not_eq_true] at htop
  obtain ⟨⟨⟨⟨hpgdNone, hpgdBad⟩, hp4dNone⟩, hp4dBad⟩, hpudNone⟩ := htop
  simp only [hpgdNone, hpgdBad, hp4dNone, hp4dBad, hpudNone, Bool.or_self, Bool.false_eq_true,
    if_false]
  split at hm
  · -- a 1 GiB leaf
    next hleaf =>
    obtain rfl := Option.some.inj hm
    rw [Entry.pudPfn_of_leaf hleaf, if_pos hleaf]
    refine ⟨_, ?_, hpa_frame (pud.frame_and_lt _) _ pudSize 0x3FFFF#64 rfl⟩
    simp only [Mapping.chain, Mapping.leafFrame, Mapping.frame, Mapping.offsetMask, leaf_or_and]
  next hnoleaf =>
  rw [if_neg hnoleaf, Entry.pudPfn_of_not_leaf (by simpa using hnoleaf)]
  split at hm
  · cases hm
  next hpud =>
  simp only [Bool.or_eq_true, not_or, Bool.not_eq_true] at hpud
  simp only [hpud.1, hpud.2, Bool.false_eq_true, if_false]
  split at hm
  · -- a 2 MiB leaf
    next hleaf =>
    obtain rfl := Option.some.inj hm
    rw [Entry.pmdPfn_of_leaf hleaf, if_pos hleaf]
    refine ⟨_, ?_, hpa_frame (pmd.frame_and_lt _) _ pmdSize 0x1FF#64 rfl⟩
    simp only [Mapping.chain, Mapping.leafFrame, Mapping.frame, Mapping.offsetMask, leaf_or_and]
  next hnoleaf' =>
  rw [if_neg hnoleaf', Entry.pmdPfn_of_not_leaf (by simpa using hnoleaf')]
  split at hm
  · cases hm
  next hpte =>
  simp only [Bool.or_eq_true, not_or, Bool.not_eq_true, Bool.not_eq_false'] at hpte
  obtain ⟨⟨hpmdBad, hpteNone⟩, hpresent⟩ := hpte
  obtain rfl := Option.some.inj hm
  simp only [hpmdBad, hpteNone, hpresent, Bool.not_true, Bool.or_self, Bool.false_eq_true, if_false]
  refine ⟨_, rfl, (hpa_frame pte.frame_lt _ pageSize 0#64 rfl).trans ?_⟩
  simp [Mapping.frame]

/-- What is stored for a frame that the tables map. -/
theorem translation_of_mapping {base : BitVec 64} (hbase : base ≠ 0) {mm : Mm} {pfn : BitVec 64}
    {m : Mapping} (hm : mm.mapping (base + pfn <<< 12) = some m) :
    translation base (some mm) pfn =
      ⟨pfn, m.frame, m.chain (mm.pgdOffset (base + pfn <<< 12)).frame⟩ := by
  obtain ⟨hpa, hwalk, hframe⟩ := translateGpaToHpa_of_mapping hbase hm
  simp only [translation, hwalk, hframe]

/-- The walk fails where the tables map nothing. -/
theorem translateGpaToHpa_of_mapping_eq_none {base : BitVec 64} (hbase : base ≠ 0) {mm : Mm}
    {gpa : BitVec 64} (hm : mm.mapping (base + gpa) = none) (hpa : BitVec 64) (chain : Chain) :
    translateGpaToHpa base (some mm) gpa ≠ (.ok hpa, chain) := by
  simp only [Mm.mapping] at hm
  simp only [translateGpaToHpa, if_neg hbase]
  generalize mm.pgdOffset (base + gpa) = pgd at *
  generalize mm.p4dOffset pgd (base + gpa) = p4d at *
  generalize mm.pudOffset p4d (base + gpa) = pud at *
  generalize mm.pmdOffset pud (base + gpa) = pmd at *
  generalize mm.pteOffset pmd (base + gpa) = pte at *
  -- every branch of the walk that succeeds is one in which the mapping is not none
  intro heq
  split at heq
  · cases heq
  next hpgd =>
  split at heq
  · cases heq
  next hp4d =>
  split at heq
  · cases heq
  next hpud =>
  have htop :
      ¬(mm.pgdNone pgd || mm.pgdBad pgd || p4d.isNone || p4d.isBad || pud.isNone) = true := by
    simp only [Bool.or_eq_true, not_or] at hpgd hp4d ⊢
    exact ⟨⟨⟨hpgd, hp4d.1⟩, hp4d.2⟩, hpud⟩
  rw [if_neg htop] at hm
  split at heq
  · next hleaf => simp [hleaf] at hm
  next hnoleaf =>
  rw [if_neg hnoleaf] at hm
  split at heq
  · cases heq
  next hpudBad =>
  split at heq
  · cases heq
  next hpmdNone =>
  have hmid : ¬(pud.isBad || pmd.isNone) = true := by
    simp only [Bool.or_eq_true, not_or]
    exact ⟨hpudBad, hpmdNone⟩
  rw [if_neg hmid] at hm
  split at heq
  · next hleaf => simp [hleaf] at hm
  next hnoleaf' =>
  rw [if_neg hnoleaf'] at hm
  split at heq
  · cases heq
  next hpmdBad =>
  split at heq
  · cases heq
  next hpte =>
  have hlast : ¬(pmd.isBad || pte.isNone || !pte.isPresent) = true := by
    simp only [Bool.or_eq_true, not_or] at hpte ⊢
    exact ⟨⟨hpmdBad, hpte.1⟩, hpte.2⟩
  rw [if_neg hlast] at hm
  cases hm

/-- A walk that succeeds has found a mapping. -/
theorem exists_mapping_of_translate {base : BitVec 64} {mm : Mm} {gpa hpa : BitVec 64}
    {chain : Chain} (h : translateGpaToHpa base (some mm) gpa = (.ok hpa, chain)) :
    base ≠ 0 ∧ ∃ m, mm.mapping (base + gpa) = some m := by
  have hbase : base ≠ 0 := by
    rintro rfl
    cases h
  refine ⟨hbase, Option.ne_none_iff_exists'.mp fun hm => ?_⟩
  exact translateGpaToHpa_of_mapping_eq_none hbase hm hpa chain h

/-! ### Addresses of one page -/

/-- With an aligned base the addresses of a guest frame stay on one page. -/
theorem add_ushiftRight_congr {base : BitVec 64} (hbase : base &&& 0xFFF#64 = 0)
    (gpa : BitVec 64) : (base + gpa) >>> 12 = (base + (gpa >>> 12) <<< 12) >>> 12 := by
  apply BitVec.eq_of_toNat_eq
  have hmod : base.toNat % 4096 = 0 := by
    have := congrArg BitVec.toNat hbase
    rw [BitVec.toNat_and] at this
    simpa [Nat.and_two_pow_sub_one_eq_mod base.toNat 12] using this
  simp only [BitVec.toNat_ushiftRight, BitVec.toNat_add, BitVec.toNat_shiftLeft,
    Nat.shiftRight_eq_div_pow, Nat.shiftLeft_eq]
  omega

/-! ### Printed records -/

/-- The fields of a printed line. -/
def lineFields (line : List Char) : List (List Char) :=
  (line.takeWhile (· ≠ '\n')).splitOn ','

theorem pfnText_of_lt {pfn : BitVec 64} (hpfn : pfn < 0x10000000000#64) :
    pfnText pfn = hexText pfn := by
  refine if_neg ?_
  rintro rfl
  revert hpfn
  decide

/-- The fields are found again in the printed line. -/
theorem lineFields_outputShow (t : Translator) (e : Translation) :
    lineFields (t.outputShow (.entry e)) = e.fields := by
  have hnewline : '\n' ∉ [','].intercalate e.fields :=
    Scan.not_mem_intercalate (by decide) (not_mem_fields rfl (by decide) e)
  have hline : (t.outputShow (.entry e)).takeWhile (· ≠ '\n') = [','].intercalate e.fields := by
    rw [Translator.outputShow, List.takeWhile_append_of_pos]
    · simp
    · intro c hc
      simp only [ne_eq, decide_eq_true_eq]
      rintro rfl
      exact hnewline hc
  rw [lineFields, hline]
  exact List.splitOn_intercalate ',' (not_mem_fields rfl (by decide) e)
    (by simp [Translation.fields])

namespace Translator

variable (h : Host)

/-! ### The fields of the levels -/

/-- The record of a guest frame that a 4 KiB page maps names the tables of the levels
exactly if the `pgd` entry points back to the page directory: `PE1` should be the frame
of the page directory, and is that of the `pud` table. -/
theorem record_names_tables_iff {P : Process} {chunks : List (List Char)} (hchunks : chunks ≠ [])
    {t : Translator} (hP : t.getQemuProcess h = some P) (hbase : t.guestRamBase ≠ 0)
    {e : Translation} (he : e ∈ (t.session h chunks).entries)
    {pud pmd pte frame : BitVec 64}
    (hm : P.mm.mapping (t.guestRamBase + e.gpaPfn <<< 12) = some (.page pud pmd pte frame)) :
    lineFields ((t.session h chunks).outputShow (.entry e)) =
        [hexText (e.gpaPfn <<< 12), hexText P.mm.pgd, hexText pud, hexText pmd, hexText pte,
          hexText frame] ↔
      (P.mm.pgdOffset (t.guestRamBase + e.gpaPfn <<< 12)).frame = P.mm.pgd := by
  obtain ⟨-, heq⟩ := session_translated h hchunks hP he
  have hchain := congrArg Translation.chain (heq.trans (translation_of_mapping hbase hm))
  have hpgd := (P.mm.pgdOffset (t.guestRamBase + e.gpaPfn <<< 12)).frame_lt
  rw [lineFields_outputShow, Translation.fields, hchain]
  -- the four lower fields agree, so that all depends on the first one
  rcases mapping_cases hm with ⟨p4dE, pudE, pmdE, pteE, hpage⟩ | ⟨_, _, _, hpage⟩ | ⟨_, _, hpage⟩
  · cases hpage
    simp only [Mapping.chain, pfnText_of_lt hpgd, pfnText_of_lt p4dE.frame_lt,
      pfnText_of_lt pudE.frame_lt, pfnText_of_lt pmdE.frame_lt, pfnText_of_lt pteE.frame_lt,
      List.cons.injEq, true_and, and_true]
    exact ⟨hexText_injective, congrArg hexText⟩
  · cases hpage
  · cases hpage

/-- Tables of which each points to the next one, down to a page. -/
def towerMm : Mm where
  fiveLevel := false
  pgd := 1
  table := fun frame _ =>
    if frame = 1 then tableEntry 2
    else if frame = 2 then tableEntry 3
    else if frame = 3 then tableEntry 4
    else tableEntry 5

/-- The page directory is in frame 1, and no field of the record says so. -/
theorem record_misses_root :
    let t := sampleTranslator.session (hostWith towerMm) [sampleDump]
    ∃ e ∈ t.entries,
      towerMm.mapping (sampleTranslator.guestRamBase + e.gpaPfn <<< 12) = some (.page 2 3 4 5) ∧
        lineFields (t.outputShow (.entry e)) ≠
          [hexText (e.gpaPfn <<< 12), hexText towerMm.pgd, hexText 2, hexText 3, hexText 4,
            hexText 5] := by
  decide +kernel

/-- A page directory all of whose entries point back to it. -/
theorem record_names_tables_of_self_map :
    let P : Process := ⟨loopMm, []⟩
    let t := sampleTranslator.session (hostWith loopMm) [sampleDump]
    let e := translation sampleTranslator.guestRamBase (some loopMm) 0xA
    e ∈ t.entries ∧ lineFields (t.outputShow (.entry e)) =
        [hexText (e.gpaPfn <<< 12), hexText P.mm.pgd, hexText 1, hexText 1, hexText 1,
          hexText 1] := by
  intro P t e
  have he : e ∈ t.entries := by decide +kernel
  refine ⟨he, (record_names_tables_iff (hostWith loopMm) (by simp) (P := P) rfl (by decide)
    he (by decide +kernel)).mpr (by decide +kernel)⟩

/-- The last field of the record of a guest frame is the frame its addresses are mapped
to exactly if a 4 KiB page maps it, or if it lies in the first frame of its huge page. -/
theorem record_names_frame_iff {P : Process} {chunks : List (List Char)} (hchunks : chunks ≠ [])
    {t : Translator} (hP : t.getQemuProcess h = some P)
    (halign : t.guestRamBase &&& 0xFFF#64 = 0) {e : Translation}
    (he : e ∈ (t.session h chunks).entries) {gpa hpa : BitVec 64} {chain : Chain}
    (hgpa : gpa >>> 12 = e.gpaPfn)
    (hwalk : translateGpaToHpa t.guestRamBase (some P.mm) gpa = (.ok hpa, chain)) :
    (lineFields ((t.session h chunks).outputShow (.entry e))).getLast? =
        some (hexText (hpa >>> 12)) ↔
      ∀ m, P.mm.mapping (t.guestRamBase + gpa) = some m →
        (t.guestRamBase + gpa) >>> 12 &&& m.offsetMask = 0 := by
  obtain ⟨-, heq⟩ := session_translated h hchunks hP he
  obtain ⟨hbase, m, hm⟩ := exists_mapping_of_translate hwalk
  -- the whole frame is on one page of QEMU, which the entry was made from
  have hm' : P.mm.mapping (t.guestRamBase + e.gpaPfn <<< 12) = some m := by
    rw [← hm, ← hgpa]
    exact mapping_congr P.mm (add_ushiftRight_congr halign gpa).symm
  have hhpa : hpa >>> 12 = m.frame := by
    obtain ⟨hpa', hwalk', hframe⟩ := translateGpaToHpa_of_mapping hbase hm
    rw [hwalk] at hwalk'
    cases hwalk'
    exact hframe
  have hchain := congrArg Translation.chain (heq.trans (translation_of_mapping hbase hm'))
  have hlast : e.chain.pfn5 = m.leafFrame := by rw [hchain, m.chain_pfn5]
  have hfield : e.fields.getLast? = some (hexText m.leafFrame) := by
    rw [Translation.fields, hlast, pfnText_of_lt (leafFrame_lt hm)]
    rfl
  rw [lineFields_outputShow, hfield, hhpa, Option.some.injEq]
  constructor
  · intro hsame m' hm'
    obtain rfl := Option.some.inj (hm.symm.trans hm')
    exact (frame_eq_leafFrame_iff hm).mp (hexText_injective hsame).symm
  · intro hfirst
    rw [(frame_eq_leafFrame_iff hm).mpr (hfirst m hm)]

/-- A 2 MiB leaf from frame `0x200` on. -/
def hugeMm : Mm where
  fiveLevel := false
  pgd := 1
  table := fun frame _ =>
    if frame = 1 then tableEntry 2
    else if frame = 2 then tableEntry 3
    else { tableEntry 0x200 with isLeaf := true }

/-- Guest frame `0xA` is mapped to host frame `0x20A`, and its record says `0x200`. -/
theorem record_misses_frame :
    let t := sampleTranslator.session (hostWith hugeMm) [sampleDump]
    ∃ e ∈ t.entries, e.gpaPfn = 0xA ∧
      (translateGpaToHpa sampleTranslator.guestRamBase (some hugeMm) 0xA000).1.toOption =
        some 0x20A000 ∧
      (lineFields (t.outputShow (.entry e))).getLast? = some (hexText 0x200) ∧
      (lineFields (t.outputShow (.entry e))).getLast? ≠ some (hexText (0x20A000#64 >>> 12)) := by
  decide +kernel

/-- The last field for an address in a 4 KiB page. -/
theorem record_names_frame_of_page :
    let t := sampleTranslator.session (hostWith towerMm) [sampleDump]
    let e := translation sampleTranslator.guestRamBase (some towerMm) 0xA
    e ∈ t.entries ∧ (lineFields (t.outputShow (.entry e))).getLast? =
      some (hexText (0x5123#64 >>> 12)) := by
  intro t e
  have he : e ∈ t.entries := by decide +kernel
  have hwalk : translateGpaToHpa sampleTranslator.guestRamBase (some towerMm) 0xA123 =
      (.ok 0x5123, ⟨2, 2, 3, 4, 5⟩) := by rfl
  refine ⟨he, (record_names_frame_iff (hostWith towerMm) (by simp) (P := ⟨towerMm, []⟩) rfl
    (by decide) he (by decide) hwalk).mpr ?_⟩
  intro m hm
  obtain rfl : Mapping.page 2 3 4 5 = m := Option.some.inj hm
  rfl

end Translator

end SagePTE.PageTables
