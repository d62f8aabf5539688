import Mathlib.Data.List.Chain
import SagePTE.PageTables.AugmentorGaps

/-!
# The array of unallocated frames

`find_gaps` returns its array and the number of its elements through two pointers. The
array starts with room for 1048576 frames and is enlarged by a fixed schedule. Where it
cannot be enlarged, it is freed and the pointer is set to null, but the number stays. The
loops of `main` that fill `NAN` fields look at the number only.

A gap below the largest 64-bit number is left out, since that number stands for no frame.

## Main definitions

* `Augmentor.capacities`, `Augmentor.Fits` — the schedule, and the numbers of frames it reaches
* `Augmentor.ArraySuffices` — the array is never enlarged in vain
* `Augmentor.FoundGaps` — what `find_gaps` is to return

## Main results

* `Augmentor.foundPfns_of_suffices` — the frames that are found
* `Augmentor.findGaps_error_iff` — a null pointer with a number that is not zero
* `Augmentor.foundGaps_iff` — when `find_gaps` returns what it is to return, and when the
  program follows a null pointer
-/

set_option autoImplicit false

namespace SagePTE.PageTables.Augmentor

open Between Lines

/-! ### The schedule -/

/-- The capacities of the array, one after the other. -/
def capacities : List ℕ :=
  [1048576, 2097152, 4194304, 8388608, 16777216, 33554432, 67108864, 134217728, 268435456,
    536870912, 636870912, 736870912, 836870912, 936870912, 1036870912]

/-- One capacity comes after the other in the loop. -/
def NextCapacity (c c' : ℕ) : Prop :=
  c < c' ∧ c < 1000000000 ∧ c' = if c < 500000000 then c * 2 else c + 100000000

instance (c c' : ℕ) : Decidable (NextCapacity c c') := inferInstanceAs (Decidable (_ ∧ _))

/-- The rest of the schedule, from a capacity on. -/
structure Schedule (c : ℕ) (rest : List ℕ) : Prop where
  chain : (c :: rest).IsChain NextCapacity
  last : 1000000000 ≤ (c :: rest).getLast (List.cons_ne_nil c rest)

theorem schedule_capacities : Schedule 1048576 capacities.tail := ⟨by decide, by decide⟩

/-- A number of frames that the schedule reaches with the memory there is. -/
def FitsFrom (mem : Memory) (c : ℕ) (rest : List ℕ) (n : ℕ) : Prop :=
  n ≤ (c :: rest).getLast (List.cons_ne_nil c rest) ∧
    ∀ p ∈ (c :: rest).zip rest, p.1 < n → mem.grants .unallocated p.2 = true

/-- The whole schedule. -/
def Fits (mem : Memory) (n : ℕ) : Prop := FitsFrom mem 1048576 capacities.tail n

section Schedule

variable {mem : Memory} {c c' : ℕ} {rest : List ℕ} {n : ℕ}

theorem Schedule.tail (h : Schedule c (c' :: rest)) : NextCapacity c c' ∧ Schedule c' rest := by
  obtain ⟨hnext, hchain⟩ := List.isChain_cons_cons.mp h.chain
  exact ⟨hnext, hchain, by simpa using h.last⟩

theorem Schedule.le_last (h : Schedule c rest) :
    c ≤ (c :: rest).getLast (List.cons_ne_nil c rest) := by
  induction rest generalizing c with
  | nil => exact le_refl c
  | cons c' rest ih =>
    obtain ⟨hnext, hrest⟩ := h.tail
    rw [List.getLast_cons_cons]
    exact hnext.1.le.trans (ih hrest)

/-- What the capacity has room for fits. -/
theorem Schedule.fitsFrom_of_le (h : Schedule c rest) (hn : n ≤ c) : FitsFrom mem c rest n := by
  refine ⟨hn.trans h.le_last, fun p hp hlt => ?_⟩
  have hge : c ≤ p.1 := by
    clear hlt hn
    induction rest generalizing c with
    | nil => simp at hp
    | cons c' rest ih =>
      obtain ⟨hnext, hrest⟩ := h.tail
      rw [List.zip_cons_cons, List.mem_cons] at hp
      rcases hp with rfl | hp
      · exact le_refl c
      · exact hnext.1.le.trans (ih hrest hp)
  omega

/-- More frames than the capacity fit where the next capacity is granted. -/
theorem fitsFrom_cons_iff (hn : c < n) :
    FitsFrom mem c (c' :: rest) n ↔
      mem.grants .unallocated c' = true ∧ FitsFrom mem c' rest n := by
  simp only [FitsFrom, List.zip_cons_cons, List.forall_mem_cons, List.getLast_cons_cons, hn,
    true_implies]
  exact and_left_comm

/-- A frame for which there is room. -/
theorem addUnallocated_of_room {g : Gaps} (hroom : g.pfns.length < g.capacity)
    (pfn : BitVec 64) : addUnallocated mem g pfn = .ok { g with pfns := g.pfns ++ [pfn] } :=
  if_pos hroom

/-- A frame too many for the largest capacity. -/
theorem addUnallocated_of_last (h : Schedule c []) {g : Gaps} (hc : g.capacity = c)
    (hfull : g.pfns.length = c) (pfn : BitVec 64) :
    addUnallocated mem g pfn = .error g.pfns.length := by
  have hlast : 1000000000 ≤ c := h.last
  rw [addUnallocated, if_neg (by omega), if_pos (by omega)]

/-- A frame for which the array is enlarged. -/
theorem addUnallocated_of_next (h : Schedule c (c' :: rest)) {g : Gaps} (hc : g.capacity = c)
    (hfull : g.pfns.length = c) (pfn : BitVec 64) :
    addUnallocated mem g pfn = if mem.grants .unallocated c' then .ok ⟨g.pfns ++ [pfn], c'⟩
      else .error g.pfns.length := by
  obtain ⟨⟨-, hbelow, hc'⟩, -⟩ := h.tail
  rw [addUnallocated, if_neg (by omega), if_neg (by omega), hc, hc']

/-- The loop over the frames ends well exactly if they fit. -/
theorem foldlM_addUnallocated_eq_ok_iff (h : Schedule c rest) {g : Gaps} (hc : g.capacity = c)
    (hle : g.pfns.length ≤ c) (pfns : List (BitVec 64)) :
    (∃ g', pfns.foldlM (addUnallocated mem) g = .ok g') ↔
      FitsFrom mem c rest (g.pfns.length + pfns.length) := by
  induction pfns generalizing g c rest with
  | nil =>
    exact iff_of_true ⟨g, rfl⟩ (h.fitsFrom_of_le hle)
  | cons pfn pfns ih =>
    have hlen : g.pfns.length + (pfn :: pfns).length = (g.pfns ++ [pfn]).length + pfns.length := by
      rw [List.length_cons, List.length_append, List.length_singleton]
      omega
    have hmore : (g.pfns ++ [pfn]).length = g.pfns.length + 1 := List.length_append
    rw [List.foldlM_cons, hlen]
    by_cases hroom : g.pfns.length < g.capacity
    · rw [addUnallocated_of_room hroom]
      exact ih (g := { g with pfns := g.pfns ++ [pfn] }) h hc (by dsimp only; omega)
    have hfull : g.pfns.length = c := by omega
    cases rest with
    | nil =>
      rw [addUnallocated_of_last h hc hfull]
      refine iff_of_false ?_ fun hfits => ?_
      · rintro ⟨g', hg'⟩
        cases hg'
      · have hle : (g.pfns ++ [pfn]).length + pfns.length ≤ c := hfits.1
        omega
    | cons c' rest =>
      obtain ⟨⟨hlt, -, -⟩, hrest⟩ := h.tail
      rw [addUnallocated_of_next h hc hfull, fitsFrom_cons_iff (by omega)]
      cases hgrants : mem.grants .unallocated c' with
      | false =>
        refine iff_of_false ?_ (by simp)
        rintro ⟨g', hg'⟩
        cases hg'
      | true =>
        rw [if_pos rfl, and_iff_right rfl]
        exact ih (g := ⟨g.pfns ++ [pfn], c'⟩) hrest rfl (by dsimp only; omega)

end Schedule

/-! ### The null pointer -/

/-- The array is never enlarged in vain: there is nothing to look for, or no array at all, or
all frames of the gaps fit. -/
def ArraySuffices (mem : Memory) (pfns : List (BitVec 64)) : Prop :=
  pfns.length < 2 ∨ mem.grants .unallocated 1048576 = false ∨
    Fits mem (gaps gapPfns pfns).length

section NullPointer

variable {mem : Memory} {pfns : List (BitVec 64)}

/-- The number that is left behind is at least the first capacity. -/
theorem le_of_foldlM_eq_error {g : Gaps} {count : ℕ} (hg : 1048576 ≤ g.capacity)
    (h : pfns.foldlM (addUnallocated mem) g = .error count) : 1048576 ≤ count := by
  induction pfns generalizing g with
  | nil => cases h
  | cons pfn pfns ih =>
    rw [List.foldlM_cons] at h
    cases hstep : addUnallocated mem g pfn with
    | error n =>
      rw [hstep] at h
      cases h
      simp only [addUnallocated] at hstep
      split_ifs at hstep <;> cases hstep <;> omega
    | ok g₁ =>
      rw [hstep] at h
      refine ih ?_ h
      simp only [addUnallocated] at hstep
      split_ifs at hstep <;> cases hstep <;> simp only <;> omega

theorem foldlM_gaps_eq_ok_iff :
    (∃ g, (gaps gapPfns pfns).foldlM (addUnallocated mem) {} = .ok g) ↔
      Fits mem (gaps gapPfns pfns).length := by
  have h : _ ↔ FitsFrom mem _ _ _ := foldlM_addUnallocated_eq_ok_iff schedule_capacities
    (rfl : ({} : Gaps).capacity = 1048576) (Nat.zero_le _) (gaps gapPfns pfns)
  rwa [List.length_nil, Nat.zero_add] at h

/-- There is no array if the memory grants none or if there are no frames for it. -/
theorem findGaps_of_suffices (h : ArraySuffices mem pfns) :
    findGaps mem pfns =
      if mem.grants .unallocated 1048576 = false ∨ gaps gapPfns pfns = [] then (none, 0)
      else (some (gaps gapPfns pfns), (gaps gapPfns pfns).length) := by
  by_cases hshort : pfns.length < 2
  · have hnone : gaps gapPfns pfns = [] := by
      rcases pfns with _ | ⟨pfn, _ | ⟨pfn', pfns⟩⟩
      · rfl
      · rfl
      · exact absurd hshort (by simp)
    rw [findGaps, if_pos hshort, if_pos (.inr hnone)]
  cases hgrants : mem.grants .unallocated 1048576 with
  | false => simp [findGaps, hshort, hgrants]
  | true =>
    have hfits : Fits mem (gaps gapPfns pfns).length := by
      simpa [ArraySuffices, hshort, hgrants] using h
    obtain ⟨g, hg⟩ := foldlM_gaps_eq_ok_iff.mpr hfits
    have hpfns : g.pfns = gaps gapPfns pfns := foldlM_addUnallocated hg
    rw [gaps] at hg
    simp only [findGaps, hshort, if_false, hgrants, Bool.not_true, Bool.false_eq_true, hg, hpfns,
      Bool.true_eq_false, false_or]

theorem foundPfns_of_suffices {all : List (BitVec 64)} (h : ArraySuffices mem (sortedPfns all)) :
    foundPfns mem all = if mem.grants .unallocated 1048576 then gaps gapPfns (sortedPfns all)
      else [] := by
  rw [foundPfns, findGaps_of_suffices h]
  cases mem.grants .unallocated 1048576 with
  | false => rfl
  | true =>
    by_cases hnone : gaps gapPfns (sortedPfns all) = []
    · simp [hnone]
    · simp [hnone]

/-- All gaps are found where they fit the first array. -/
theorem foundPfns_of_length_le {all : List (BitVec 64)}
    (hgrants : mem.grants .unallocated 1048576 = true)
    (hlen : (gaps gapPfns (sortedPfns all)).length ≤ 1048576) :
    foundPfns mem all = gaps gapPfns (sortedPfns all) := by
  have hsuff : ArraySuffices mem (sortedPfns all) :=
    .inr (.inr (schedule_capacities.fitsFrom_of_le hlen))
  rw [foundPfns_of_suffices hsuff, if_pos hgrants]

theorem findGaps_of_not_suffices (h : ¬ArraySuffices mem pfns) :
    ∃ count, 1048576 ≤ count ∧ findGaps mem pfns = (none, count) := by
  simp only [ArraySuffices, not_or, Bool.not_eq_false] at h
  obtain ⟨hlong, hgrants, hfits⟩ := h
  cases hfold : (gaps gapPfns pfns).foldlM (addUnallocated mem) {} with
  | ok g => exact absurd (foldlM_gaps_eq_ok_iff.mp ⟨g, hfold⟩) hfits
  | error count =>
    refine ⟨count, le_of_foldlM_eq_error (le_refl _) hfold, ?_⟩
    rw [gaps] at hfold
    simp [findGaps, hlong, hgrants, hfold]

/-- **The null pointer** comes with a number that is not zero exactly if the array could not
be enlarged. -/
theorem findGaps_error_iff :
    (findGaps mem pfns).1 = none ∧ 0 < (findGaps mem pfns).2 ↔ ¬ArraySuffices mem pfns := by
  by_cases h : ArraySuffices mem pfns
  · rw [findGaps_of_suffices h]
    split_ifs <;> simp [h]
  · obtain ⟨count, hcount, heq⟩ := findGaps_of_not_suffices h
    simp only [heq, h, not_false_eq_true, iff_true, true_and]
    omega

/-- The program follows the null pointer when it fills its first field. -/
theorem finish_eq_crashed_iff (outputOpens : Bool) (r : Reader) :
    finish mem outputOpens r = .crashed ↔
      0 < nanCount r.entries ∧ ¬ArraySuffices mem (sortedPfns r.allPfns) := by
  rw [← findGaps_error_iff, sortedPfns]
  simp only [finish]
  split_ifs with hnull hopen
  · simp [hnull]
  · simp only [false_iff]
    exact fun h => hnull ⟨h.2.1, h.2.2, h.1⟩
  · simp only [false_iff]
    exact fun h => hnull ⟨h.2.1, h.2.2, h.1⟩

end NullPointer

/-! ### The frames of the gaps -/

/-- The frame lies between two neighbours that are not too far apart. -/
def InSmallGap (pfns : List (BitVec 64)) (pfn : BitVec 64) : Prop :=
  ∃ p ∈ pfns.zip pfns.tail,
    p.1 < pfn ∧ pfn < p.2 ∧ p.2.toNat - p.1.toNat - 1 ≤ 100000000

/-- There is such a gap below the largest number. -/
def GapBelowMax (pfns : List (BitVec 64)) : Prop :=
  ∃ p ∈ pfns.zip pfns.tail,
    p.2 = BitVec.allOnes 64 ∧ p.1.toNat + 1 < p.2.toNat ∧
      p.2.toNat - p.1.toNat - 1 ≤ 100000000

/-- What `find_gaps` is to return: the null pointer and zero, or an array of all frames in
small gaps, in increasing order, and its length. -/
def FoundGaps (pfns : List (BitVec 64)) (r : Option (List (BitVec 64)) × ℕ) : Prop :=
  r = (none, 0) ∨ ∃ array, r = (some array, array.length) ∧ array.Pairwise (· < ·) ∧
    ∀ pfn, pfn ∈ array ↔ InSmallGap pfns pfn

theorem ne_allOnes_of_lt {lower upper : BitVec 64} (hlt : lower < upper) :
    lower ≠ BitVec.allOnes 64 := by
  rintro rfl
  have hlt := BitVec.lt_def.mp hlt
  have hupper := upper.isLt
  rw [BitVec.toNat_allOnes] at hlt
  omega

/-- The frames of a gap that is not left out. -/
theorem gapPfns_of_small {lower upper : BitVec 64} (hlt : lower < upper)
    (hupper : upper ≠ BitVec.allOnes 64) (hsmall : upper.toNat - lower.toNat - 1 ≤ 100000000) :
    gapPfns lower upper = (List.range (upper.toNat - lower.toNat - 1)).map fun k =>
      lower + 1 + BitVec.ofNat 64 k := by
  have hsize : (upper - 1 - (lower + 1) + 1).toNat = upper.toNat - lower.toNat - 1 := by bv_omega
  have hfew : ¬100000000#64 < upper - 1 - (lower + 1) + 1 := by
    rw [BitVec.lt_def, hsize]
    exact not_lt.mpr hsmall
  simp only [gapPfns, ne_allOnes_of_lt hlt, hupper, or_self, if_false, hfew, hsize]
  split_ifs with hstart
  · rfl
  · have hnone : upper.toNat - lower.toNat - 1 = 0 := by bv_omega
    rw [hnone]
    rfl

theorem mem_gapPfns {lower upper pfn : BitVec 64} (hlt : lower < upper) :
    pfn ∈ gapPfns lower upper ↔ upper ≠ BitVec.allOnes 64 ∧ lower < pfn ∧ pfn < upper ∧
      upper.toNat - lower.toNat - 1 ≤ 100000000 := by
  constructor
  · intro hmem
    refine ⟨?_, gapPfns_inside.lower hlt hmem, gapPfns_inside.upper hlt hmem, ?_⟩
    · rintro rfl
      simp [gapPfns] at hmem
    · by_contra hlarge
      have hbig : 100000000#64 < upper - 1 - (lower + 1) + 1 := by
        have hsize : (upper - 1 - (lower + 1) + 1).toNat = upper.toNat - lower.toNat - 1 := by
          bv_omega
        rw [BitVec.lt_def, hsize]
        exact not_le.mp hlarge
      have hnil : gapPfns lower upper = [] := by
        simp only [gapPfns, if_pos hbig]
        split_ifs <;> rfl
      rw [hnil] at hmem
      cases hmem
  · rintro ⟨hupper, habove, hbelow, hsmall⟩
    rw [gapPfns_of_small hlt hupper hsmall, List.mem_map]
    have hk : pfn.toNat - lower.toNat - 1 < upper.toNat - lower.toNat - 1 := by bv_omega
    refine ⟨pfn.toNat - lower.toNat - 1, List.mem_range.mpr hk, ?_⟩
    apply BitVec.eq_of_toNat_eq
    rw [toNat_add_one_add hk]
    bv_omega

theorem mem_gaps_gapPfns {pfns : List (BitVec 64)} (hsorted : pfns.Pairwise (· < ·))
    {pfn : BitVec 64} :
    pfn ∈ gaps gapPfns pfns ↔ ∃ p ∈ pfns.zip pfns.tail, p.2 ≠ BitVec.allOnes 64 ∧
      p.1 < pfn ∧ pfn < p.2 ∧ p.2.toNat - p.1.toNat - 1 ≤ 100000000 := by
  rw [mem_gaps]
  refine exists_congr fun p => and_congr_right fun hp => ?_
  exact mem_gapPfns (rel_of_mem_zip_tail hsorted hp)

/-- All frames in small gaps are found unless there is a gap below the largest number. -/
theorem mem_gaps_iff_inSmallGap {pfns : List (BitVec 64)} (hsorted : pfns.Pairwise (· < ·)) :
    (∀ pfn, pfn ∈ gaps gapPfns pfns ↔ InSmallGap pfns pfn) ↔ ¬GapBelowMax pfns := by
  simp only [mem_gaps_gapPfns hsorted]
  constructor
  · rintro hall ⟨p, hp, hmax, hroom, hsmall⟩
    -- the first frame of that gap lies in no other gap
    obtain ⟨pfn, hpfn⟩ : ∃ pfn : BitVec 64, pfn.toNat = p.1.toNat + 1 :=
      ⟨BitVec.ofNat 64 (p.1.toNat + 1),
        by rw [BitVec.toNat_ofNat, Nat.mod_eq_of_lt (hroom.trans p.2.isLt)]⟩
    have habove : p.1 < pfn := BitVec.lt_def.mpr (by omega)
    have hbelow : pfn < p.2 := BitVec.lt_def.mpr (by omega)
    obtain ⟨q, hq, hnot, hqlower, hqupper, -⟩ := (hall pfn).mpr ⟨p, hp, habove, hbelow, hsmall⟩
    have hmem : q.2 ∈ pfns := List.mem_of_mem_tail (List.of_mem_zip hq).2
    have hnext := not_rel_of_mem_zip_tail hsorted hp hmem (BitVec.lt_trans habove hqupper)
    have := q.2.isLt
    apply hnot
    apply BitVec.eq_of_toNat_eq
    rw [hmax, BitVec.lt_def, BitVec.toNat_allOnes] at hnext
    rw [BitVec.toNat_allOnes]
    omega
  · intro hnone pfn
    constructor
    · rintro ⟨p, hp, -, hgap⟩
      exact ⟨p, hp, hgap⟩
    · rintro ⟨p, hp, habove, hbelow, hsmall⟩
      refine ⟨p, hp, fun hmax => hnone ⟨p, hp, hmax, ?_, hsmall⟩, habove, hbelow, hsmall⟩
      have := BitVec.lt_def.mp habove
      have := BitVec.lt_def.mp hbelow
      omega

/-- **The frames that are found.** `find_gaps` returns what it is to return exactly if its
array could be enlarged whenever there was need, and if no small gap below the largest number
is left out, unless there is no array at all: the memory grants none, or there are no frames for
it. The program follows a null pointer exactly if the
array could not be enlarged and there is a field to fill. -/
theorem foundGaps_iff (mem : Memory) {pfns : List (BitVec 64)} (hsorted : pfns.Pairwise (· < ·)) :
    (FoundGaps pfns (findGaps mem pfns) ↔
      ArraySuffices mem pfns ∧ (mem.grants .unallocated 1048576 = false ∨
        gaps gapPfns pfns = [] ∨ ¬GapBelowMax pfns)) ∧
    ∀ outputOpens r, sortedPfns r.allPfns = pfns →
      (finish mem outputOpens r = .crashed ↔
        0 < nanCount r.entries ∧ ¬ArraySuffices mem pfns) := by
  refine ⟨?_, fun outputOpens r hr => hr ▸ finish_eq_crashed_iff outputOpens r⟩
  by_cases hsuff : ArraySuffices mem pfns
  · rw [findGaps_of_suffices hsuff, ← or_assoc]
    split_ifs with hnone
    · simp [hnone, hsuff, FoundGaps]
    · rw [← mem_gaps_iff_inSmallGap hsorted]
      simp only [FoundGaps, hsuff, hnone, reduceCtorEq, Prod.mk.injEq, Option.some.injEq,
        false_and, false_or, true_and]
      constructor
      · rintro ⟨array, ⟨rfl, -⟩, -, hall⟩
        exact hall
      · intro hall
        exact ⟨_, ⟨rfl, rfl⟩, pairwise_gaps gapPfns_inside hsorted, hall⟩
  · obtain ⟨count, hcount, heq⟩ := findGaps_of_not_suffices hsuff
    simp only [heq, hsuff, FoundGaps, reduceCtorEq, Prod.mk.injEq, false_and, exists_false,
      or_false, iff_false, true_and]
    omega

/-! ### A small memory -/

/-- A memory that grants the first array and none that is larger. -/
def smallMemory : Memory where
  grants _ capacity := capacity ≤ 1048576
  grants_lt h := (of_decide_eq_true h).trans_lt (by decide)

/-- The gap between two frames. -/
theorem foundGaps_one_frame :
    FoundGaps [1, 3] (findGaps smallMemory [1, 3]) ∧
      findGaps smallMemory [1, 3] = (some [2], 1) := by
  have hfound : findGaps smallMemory [1, 3] = (some [2], 1) := by decide +kernel
  have hsuff : ArraySuffices smallMemory [1, 3] :=
    .inr (.inr (schedule_capacities.fitsFrom_of_le (by decide +kernel)))
  refine ⟨(foundGaps_iff smallMemory (by decide)).1.mpr ⟨hsuff, .inr (.inr ?_)⟩, hfound⟩
  rintro ⟨p, hp, hmax, -⟩
  rw [List.mem_singleton.mp hp] at hmax
  revert hmax
  decide

/-- Two frames with 1048577 frames between them. -/
theorem not_suffices_smallMemory : ¬ArraySuffices smallMemory [0, 0x100002] := by
  have hlen : (gaps gapPfns [0, 0x100002]).length = 1048577 := by
    rw [gaps_cons_cons, gaps_singleton, List.append_nil,
      gapPfns_of_small (by decide) (by decide) (by decide), List.length_map, List.length_range]
    rfl
  simp only [ArraySuffices, hlen, not_or]
  refine ⟨by decide, by decide, fun hfits => ?_⟩
  have hnext := hfits.2 (1048576, 2097152) (by decide) (by decide)
  revert hnext
  decide

/-- The array is full and cannot be enlarged. The pointer is null and the number is not zero,
and the program crashes at the only field that it has to fill. -/
theorem null_pointer_with_count :
    (findGaps smallMemory [0, 0x100002]).1 = none ∧
      0 < (findGaps smallMemory [0, 0x100002]).2 ∧
      ¬FoundGaps [0, 0x100002] (findGaps smallMemory [0, 0x100002]) ∧
      main smallMemory (some (unlines '\n' [['1'], "7,0,100002,NAN".toList])) true =
        .crashed := by
  obtain ⟨hnull, hcount⟩ := findGaps_error_iff.mpr not_suffices_smallMemory
  refine ⟨hnull, hcount, ?_, ?_⟩
  · rintro (heq | ⟨array, heq, -⟩)
    · rw [heq] at hcount
      cases hcount
    · rw [heq] at hnull
      cases hnull
  · have hlines : pieces '\n' maxLine maxLine (unlines '\n' [['1'], "7,0,100002,NAN".toList]) =
        ["1\n".toList, "7,0,100002,NAN\n".toList] := by decide +kernel
    have hread : (["7,0,100002,NAN\n".toList].foldlM (readLine smallMemory) {}).map
        (fun r => (nanCount r.entries, sortedPfns r.allPfns)) = some (1, [0, 0x100002]) := by
      decide +kernel
    obtain ⟨r, hr, hfields⟩ := Option.map_eq_some_iff.mp hread
    obtain ⟨hnan, hsorted⟩ := Prod.mk.inj hfields
    simp only [main, hlines, hr]
    rw [finish_eq_crashed_iff, hnan, hsorted]
    exact ⟨Nat.one_pos, not_suffices_smallMemory⟩

end SagePTE.PageTables.Augmentor
