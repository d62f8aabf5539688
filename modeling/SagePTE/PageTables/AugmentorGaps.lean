import SagePTE.Lib.Between
import SagePTE.PageTables.Augmentor

/-!
# The frames that the augmentor takes for unallocated

The frames of a file are sorted and made distinct, and `find_gaps` collects the frames
between neighbours. They are in increasing order, and none of them is in the file.

## Main definitions

* `Augmentor.sortedPfns`, `Augmentor.foundPfns` — the frames that `find_gaps` gets and returns

## Main results

* `Augmentor.gapPfns_inside` — the frames of one gap
* `Augmentor.findGaps_cases` — what `find_gaps` returns
* `Augmentor.pairwise_foundPfns`, `Augmentor.not_mem_of_mem_foundPfns` — the frames it returns
-/

set_option autoImplicit false

namespace SagePTE.PageTables.Augmentor

open Between

/-! ### Distinct frames -/

theorem mem_unique {pfns : List (BitVec 64)} {pfn : BitVec 64} :
    pfn ∈ unique pfns ↔ pfn ∈ pfns := by
  fun_induction unique pfns with
  | case1 => rfl
  | case2 => rfl
  | case3 pfn' pfns ih => simp [ih]
  | case4 first second pfns hne ih => simp [ih]

theorem pairwise_unique {pfns : List (BitVec 64)} (h : pfns.Pairwise (· ≤ ·)) :
    (unique pfns).Pairwise (· < ·) := by
  fun_induction unique pfns with
  | case1 => exact .nil
  | case2 => exact List.pairwise_singleton _ _
  | case3 pfn' pfns ih => exact ih (List.pairwise_cons.mp h).2
  | case4 first second pfns hne ih =>
    obtain ⟨hfirst, hrest⟩ := List.pairwise_cons.mp h
    refine List.pairwise_cons.mpr ⟨fun pfn hpfn => ?_, ih hrest⟩
    -- the second frame is larger, and all others are at least as large as that
    have hlt : first < second := BitVec.lt_of_le_ne (hfirst second (by simp)) hne
    rcases List.mem_cons.mp (mem_unique.mp hpfn) with rfl | hpfn
    · exact hlt
    · exact BitVec.lt_def.mpr
        ((BitVec.lt_def.mp hlt).trans_le ((List.pairwise_cons.mp hrest).1 pfn hpfn))

/-- The distinct frames in increasing order, as `find_gaps` gets them. -/
def sortedPfns (pfns : List (BitVec 64)) : List (BitVec 64) :=
  unique (pfns.insertionSort (· ≤ ·))

theorem mem_sortedPfns {pfns : List (BitVec 64)} {pfn : BitVec 64} :
    pfn ∈ sortedPfns pfns ↔ pfn ∈ pfns := by
  rw [sortedPfns, mem_unique, List.mem_insertionSort]

theorem pairwise_sortedPfns (pfns : List (BitVec 64)) : (sortedPfns pfns).Pairwise (· < ·) :=
  pairwise_unique (List.pairwise_insertionSort _ pfns)

/-! ### One gap -/

theorem gapPfns_eq {lower upper x : BitVec 64} (hlt : lower < upper)
    (hx : x ∈ gapPfns lower upper) :
    gapPfns lower upper = (List.range (upper.toNat - lower.toNat - 1)).map fun k =>
      lower + 1 + BitVec.ofNat 64 k := by
  have hsize : (upper - 1 - (lower + 1) + 1).toNat = upper.toNat - lower.toNat - 1 := by bv_omega
  simp only [gapPfns] at hx ⊢
  split_ifs at hx ⊢
  · cases hx
  · cases hx
  · rw [hsize]
  · cases hx

theorem toNat_add_one_add {lower upper : BitVec 64} {k : ℕ}
    (hk : k < upper.toNat - lower.toNat - 1) :
    (lower + 1 + BitVec.ofNat 64 k).toNat = lower.toNat + 1 + k := by
  have hupper := upper.isLt
  have hone : (1 : BitVec 64).toNat = 1 := rfl
  rw [BitVec.toNat_add, BitVec.toNat_add, BitVec.toNat_ofNat, hone]
  omega

theorem gapPfns_inside : Inside (· < ·) gapPfns where
  pairwise {a b} hab := by
    by_cases hnil : gapPfns a b = []
    · rw [hnil]
      exact .nil
    · obtain ⟨x, hx⟩ := List.exists_mem_of_ne_nil _ hnil
      rw [gapPfns_eq hab hx, List.pairwise_map]
      refine List.pairwise_lt_range.imp_of_mem fun {i j} hi hj hij => ?_
      rw [BitVec.lt_def, toNat_add_one_add (List.mem_range.mp hi),
        toNat_add_one_add (List.mem_range.mp hj)]
      omega
  lower {a b x} hab hx := by
    rw [gapPfns_eq hab hx, List.mem_map] at hx
    obtain ⟨k, hk, rfl⟩ := hx
    rw [BitVec.lt_def, toNat_add_one_add (List.mem_range.mp hk)]
    omega
  upper {a b x} hab hx := by
    rw [gapPfns_eq hab hx, List.mem_map] at hx
    obtain ⟨k, hk, rfl⟩ := hx
    have hk := List.mem_range.mp hk
    rw [BitVec.lt_def, toNat_add_one_add hk]
    omega

/-! ### All gaps -/

theorem foldlM_addUnallocated {mem : Memory} {pfns : List (BitVec 64)} {g g' : Gaps}
    (h : pfns.foldlM (addUnallocated mem) g = .ok g') : g'.pfns = g.pfns ++ pfns := by
  induction pfns generalizing g with
  | nil =>
    obtain rfl := Except.ok.inj h
    simp
  | cons pfn pfns ih =>
    rw [List.foldlM_cons] at h
    have hadd : ∀ g₁, addUnallocated mem g pfn = .ok g₁ → g₁.pfns = g.pfns ++ [pfn] := by
      intro g₁ hg₁
      simp only [addUnallocated] at hg₁
      split_ifs at hg₁ <;> cases hg₁ <;> rfl
    cases hstep : addUnallocated mem g pfn with
    | error count =>
      rw [hstep] at h
      cases h
    | ok g₁ =>
      rw [hstep] at h
      rw [ih h, hadd g₁ hstep, List.append_assoc, List.singleton_append]

/-- `find_gaps` returns the null pointer, or all gaps and their number. -/
theorem findGaps_cases (mem : Memory) (pfns : List (BitVec 64)) :
    (findGaps mem pfns).1 = none ∨
      findGaps mem pfns = (some (gaps gapPfns pfns), (gaps gapPfns pfns).length) := by
  simp only [findGaps]
  split_ifs
  · exact .inl rfl
  · exact .inl rfl
  · split
    · exact .inl rfl
    · next g hg =>
      have hpfns : g.pfns = gaps gapPfns pfns := foldlM_addUnallocated hg
      rw [hpfns]
      split_ifs
      · exact .inl rfl
      · exact .inr rfl

/-- The frames that `find_gaps` returns, none for the null pointer. -/
def foundPfns (mem : Memory) (pfns : List (BitVec 64)) : List (BitVec 64) :=
  (findGaps mem (sortedPfns pfns)).1.getD []

theorem foundPfns_cases (mem : Memory) (pfns : List (BitVec 64)) :
    foundPfns mem pfns = [] ∨ foundPfns mem pfns = gaps gapPfns (sortedPfns pfns) := by
  rcases findGaps_cases mem (sortedPfns pfns) with hnone | hsome
  · exact .inl (by rw [foundPfns, hnone, Option.getD_none])
  · exact .inr (by rw [foundPfns, hsome, Option.getD_some])

/-- They are in increasing order. -/
theorem pairwise_foundPfns (mem : Memory) (pfns : List (BitVec 64)) :
    (foundPfns mem pfns).Pairwise (· < ·) := by
  rcases foundPfns_cases mem pfns with hnil | hgaps
  · rw [hnil]
    exact .nil
  · rw [hgaps]
    exact pairwise_gaps gapPfns_inside (pairwise_sortedPfns pfns)

theorem nodup_foundPfns (mem : Memory) (pfns : List (BitVec 64)) : (foundPfns mem pfns).Nodup :=
  (pairwise_foundPfns mem pfns).imp fun hlt => BitVec.ne_of_lt hlt

/-- None of them is a frame of the file. -/
theorem not_mem_of_mem_foundPfns {mem : Memory} {pfns : List (BitVec 64)} {pfn : BitVec 64}
    (h : pfn ∈ foundPfns mem pfns) : pfn ∉ pfns := by
  rcases foundPfns_cases mem pfns with hnil | hgaps
  · rw [hnil] at h
    cases h
  · rw [hgaps] at h
    rw [← mem_sortedPfns]
    exact not_mem_of_mem_gaps gapPfns_inside (pairwise_sortedPfns pfns) h

/-- None of them is the largest number, which stands for no frame. -/
theorem ne_allOnes_of_mem_foundPfns {mem : Memory} {pfns : List (BitVec 64)} {pfn : BitVec 64}
    (h : pfn ∈ foundPfns mem pfns) : pfn ≠ BitVec.allOnes 64 := by
  rcases foundPfns_cases mem pfns with hnil | hgaps
  · rw [hnil] at h
    cases h
  · rw [hgaps] at h
    obtain ⟨upper, -, hlt⟩ :=
      exists_rel_of_mem_gaps gapPfns_inside (pairwise_sortedPfns pfns) h
    have hlt := BitVec.lt_def.mp hlt
    have hupper := upper.isLt
    rintro rfl
    rw [BitVec.toNat_allOnes] at hlt
    omega

end SagePTE.PageTables.Augmentor
