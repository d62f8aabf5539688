import Mathlib.Tactic.NormNum
import SagePTE.Analysis.WholeLog
import SagePTE.Simulator.WalkFormat

/-!
# The report of the analyzer

`analyze` prints averages, shares and speedups, all of them quotients of the averages
of `tally`, and compares them with the values of the paper. This file models every
quotient that it forms and shows that none of them divides by zero on a log of
recorded walks.

As before, `none` is a Python exception. What is printed around the numbers is left
out, and the workload that `infer_workload` reads off the path is an argument.

## Main definitions

* `paper4k`, `paperThp` — `PAPER`
* `sizeReport`, `report`, `analyze` — the numbers of the report
* `usedRecords` — the records that the length filter keeps

## Main results

* `analyze_defined` — the report exists, and the averages it divides by are positive
* `exists_analyze_printedLines` — the report of what a run prints
-/

set_option autoImplicit false

namespace SagePTE.Analysis

open Simulator Dict

/-! ### The values of the paper -/

/-- The keys of `PAPER`. -/
inductive Workload
  | btree | canneal | graph500 | gups | memcached | redis | xsbench
  deriving DecidableEq, Repr

/-- What the paper reports for one workload and page size. -/
structure PaperValues where
  frac : ℚ
  hfinal : List ℚ
  walk : Design → Option ℚ
  e2e : Design → Option ℚ

/-- A dictionary of the table, in the order it is written in. Nested paging has no key. -/
def byDesigns (sagePte dmt ecpt fpt asap agilePaging tpt : ℚ) : Design → Option ℚ
  | .npw => none
  | .sagePte => some sagePte
  | .tpt => some tpt
  | .dmt => some dmt
  | .ecpt => some ecpt
  | .fpt => some fpt
  | .asap => some asap
  | .agilePaging => some agilePaging

/-- `PAPER`, the entries for 4 KB pages. -/
def paper4k : Workload → PaperValues
  | .btree =>
    { frac := 0.4447275661443071
      hfinal := [0.9003, 1.2317, 8.1699, 34.4702]
      walk := byDesigns 1.8107 1.2968 1.2821 1.2442 1.1811 1.2337 1.2605
      e2e := byDesigns 1.2486 1.1133 1.1085 1.0956 1.0732 1.092 1.1012 }
  | .canneal =>
    { frac := 0.7815695864828817
      hfinal := [0.938, 1.3019, 6.0492, 38.7476]
      walk := byDesigns 1.8881 1.1979 1.1969 1.1363 1.106 1.1616 1.1162
      e2e := byDesigns 1.5813 1.1483 1.1475 1.1035 1.081 1.122 1.0885 }
  | .graph500 =>
    { frac := 0.20428433372704805
      hfinal := [0.5679, 0.7639, 6.0993, 20.5378]
      walk := byDesigns 1.3883 2.1198 1.7716 1.585 1.3649 1.585 1.8771
      e2e := byDesigns 1.0606 1.121 1.0977 1.0815 1.0578 1.0815 1.1055 }
  | .gups =>
    { frac := 0.9628
      hfinal := [0.9145, 1.1898, 7.7618, 34.3257]
      walk := byDesigns 1.7919 1.3087 1.3036 1.2806 1.1531 1.2628 1.3252
      e2e := byDesigns 1.7406 1.2938 1.289 1.2674 1.1465 1.2505 1.3094 }
  | .memcached =>
    { frac := 0.13883162668596255
      hfinal := [0.8729, 1.1526, 9.5648, 30.9449]
      walk := byDesigns 1.7402 1.3995 1.3766 1.3206 1.2112 1.3257 1.2343
      e2e := byDesigns 1.0628 1.0413 1.0395 1.0349 1.0248 1.0353 1.0271 }
  | .redis =>
    { frac := 0.47845267237862116
      hfinal := [1.0142, 1.4075, 7.4093, 32.9118]
      walk := byDesigns 1.7305 1.3592 1.3487 1.313 1.2017 1.3004 1.2245
      e2e := byDesigns 1.2531 1.1448 1.1412 1.1287 1.0873 1.1243 1.0962 }
  | .xsbench =>
    { frac := 0.6144562334217507
      hfinal := [0.8936, 1.2019, 6.8299, 35.0806]
      walk := byDesigns 1.7859 1.2989 1.2897 1.223 1.1655 1.2184 1.193
      e2e := byDesigns 1.3706 1.1647 1.1601 1.1262 1.0956 1.1238 1.1104 }

/-- `PAPER`, the entries for 2 MB pages. -/
def paperThp : Workload → PaperValues
  | .btree =>
    { frac := 0.4014285714285717
      hfinal := [2.2231, 5.4602, 33.3233]
      walk := byDesigns 1.6951 1.4264 1.2716 1.1193 1.0761 1.2081 1.3593
      e2e := byDesigns 1.197 1.1364 1.0938 1.0447 1.0292 1.0743 1.1187 }
  | .canneal =>
    { frac := 0.41477434277766256
      hfinal := [2.3657, 4.9802, 35.0453]
      walk := byDesigns 1.7358 1.3685 1.2909 0.9569 1.056 1.1703 1.3149
      e2e := byDesigns 1.2133 1.1257 1.1031 0.9817 1.0225 1.0642 1.1103 }
  | .graph500 =>
    { frac := 0.07927987884844695
      hfinal := [1.1774, 4.5593, 15.4059]
      walk := byDesigns 1.2681 2.9094 1.5024 1.2707 1.1216 1.4729 2.6364
      e2e := byDesigns 1.017 1.0549 1.0272 1.0172 1.0087 1.0261 1.0518 }
  | .gups =>
    { frac := 0.9447
      hfinal := [2.8984, 5.7667, 38.8988]
      walk := byDesigns 1.9071 1.226 1.2169 1.0753 1.0731 1.121 1.2119
      e2e := byDesigns 1.816 1.2109 1.2025 1.0709 1.0687 1.1136 1.1886 }
  | .memcached =>
    { frac := 0.12693070655496
      hfinal := [2.2384, 5.302, 33.6142]
      walk := byDesigns 1.6994 1.4178 1.2925 1.1058 1.1337 1.2396 1.3544
      e2e := byDesigns 1.0551 1.0389 1.0296 1.0123 1.0152 1.0251 1.0344 }
  | .redis =>
    { frac := 0.44707524157988565
      hfinal := [4.7148, 6.0337, 35.0324]
      walk := byDesigns 1.8444 1.3141 1.2725 1.0947 1.1386 1.1617 1.2176
      e2e := byDesigns 1.2573 1.1196 1.1059 1.0402 1.0575 1.0663 1.0868 }
  | .xsbench =>
    { frac := 0.25554253284806605
      hfinal := [1.6227, 5.0707, 28.4832]
      walk := byDesigns 1.5427 1.6656 1.4303 1.1424 1.0898 1.2601 1.5846
      e2e := byDesigns 1.0988 1.1137 1.0833 1.0329 1.0215 1.0557 1.1041 }

/-- The fractions of time spent walking are proper fractions. -/
def PaperValues.Proper (p : PaperValues) : Prop := 0 < p.frac ∧ p.frac < 1

theorem proper_paper4k (w : Workload) : (paper4k w).Proper := by
  cases w <;> norm_num [PaperValues.Proper, paper4k]

theorem proper_paperThp (w : Workload) : (paperThp w).Proper := by
  cases w <;> norm_num [PaperValues.Proper, paperThp]

theorem proper_of_mem_map {paper : Workload → PaperValues} (hpaper : ∀ w, (paper w).Proper)
    (workload : Option Workload) : ∀ p ∈ workload.map paper, p.Proper := by
  intro p hp
  obtain ⟨w, -, rfl⟩ := Option.map_eq_some_iff.mp hp
  exact hpaper w

/-! ### Quotients -/

/-- A division, which raises for a zero divisor. -/
def pyDiv (a b : ℚ) : Option ℚ := if b = 0 then none else some (a / b)

/-- A float that may be `nan`. -/
inductive Num
  | nan | rat (q : ℚ)

/-- `end_to_end` -/
def endToEnd (walkSpeedup walkFraction : ℚ) : Option Num :=
  if walkSpeedup ≤ 0 then some .nan
  else do
    let slow ← pyDiv walkFraction walkSpeedup
    let q ← pyDiv 1 ((1 - walkFraction) + slow)
    some (.rat q)

/-- `pct_delta`, with the reference that a dictionary may lack. -/
def pctDelta (measured : Num) : Option ℚ → Option (Option Num)
  | none => some none
  | some reference =>
    if reference = 0 then some none
    else
      match measured with
      | .nan => some (some .nan)
      | .rat m => (pyDiv m reference).map fun q => some (.rat ((q - 1) * 100))

/-- `bar`: the part of the width that is filled, before rounding. Rounding `nan` raises. -/
def bar (value ceiling : Num) : Option ℚ :=
  match ceiling, value with
  | .rat c, .rat v => if c ≤ 1 then some 0 else (pyDiv (v - 1) (c - 1)).map (max · 0)
  | .rat c, .nan => if c ≤ 1 then some 0 else none
  | .nan, _ => none

/-- `<` of floats. -/
def Num.lt : Num → Num → Bool
  | .rat a, .rat b => a < b
  | _, _ => false

/-- `max` of a list, which raises for an empty one. -/
def maxNum : List Num → Option Num
  | [] => none
  | v :: vs => some (vs.foldl (fun m v => if m.lt v then v else m) v)

/-! ### Tables -/

/-- A row of a table: the speedup of the walks, the value shown, the bar, and the
difference from the paper. -/
structure Row where
  design : Design
  speedup : ℚ
  value : Num
  bar : ℚ
  delta : Option Num

/-- The rows of a table, once their values are known. -/
def tableRows (ref : Design → Option ℚ) (rows : List (Design × ℚ × Num)) : Option (List Row) := do
  let ceiling ← maxNum (rows.map fun row => row.2.2)
  rows.mapM fun row => do
    let gain ← bar row.2.2 ceiling
    let delta ← pctDelta row.2.2 (ref row.1)
    some ⟨row.1, row.2.1, row.2.2, gain, delta⟩

/-- `print_walk_table` -/
def walkTable (byDesign : Design → ℚ) (ref : Design → Option ℚ) : Option (List Row) := do
  let rows ← designOrder.mapM fun n =>
    (pyDiv (byDesign .npw) (byDesign n)).map fun speedup => (n, speedup, Num.rat speedup)
  tableRows ref rows

/-- `print_e2e_table` -/
def e2eTable (byDesign : Design → ℚ) (fraction : ℚ) (ref : Design → Option ℚ) :
    Option (List Row) := do
  let rows ← (designOrder.filter (· ≠ .npw)).mapM fun n => do
    let speedup ← pyDiv (byDesign .npw) (byDesign n)
    let value ← endToEnd speedup fraction
    some (n, speedup, value)
  tableRows ref rows

/-! ### The report -/

/-- The numbers of one page size. -/
structure SizeReport where
  tally : Tally
  walkSpeedup : ℚ
  walkDelta : Option Num
  e2e : Option (Num × Option Num)
  walkTable : List Row
  e2eTable : Option (List Row)

/-- The end-to-end numbers, which need the fraction of the paper. -/
def e2eNumbers (byDesign : Design → ℚ) (walkSpeedup : ℚ) :
    Option PaperValues → Option (Option (Num × Option Num) × Option (List Row))
  | none => some (none, none)
  | some p =>
    if p.frac = 0 then some (none, none)
    else do
      let value ← endToEnd walkSpeedup p.frac
      let delta ← pctDelta value (p.e2e .sagePte)
      let rows ← e2eTable byDesign p.frac p.e2e
      some (some (value, delta), some rows)

/-- The headline and the tables of one page size. -/
def sizeReport (t : Tally) (ref : Option PaperValues) : Option SizeReport := do
  let walkSpeedup ← pyDiv (t.byDesign .npw) (t.byDesign .sagePte)
  let walkDelta ← pctDelta (.rat walkSpeedup) (ref.bind fun p => p.walk .sagePte)
  let walkRows ← walkTable t.byDesign fun n => ref.bind fun p => p.walk n
  let e2e ← e2eNumbers t.byDesign walkSpeedup ref
  some ⟨t, walkSpeedup, walkDelta, e2e.1, walkRows, e2e.2⟩

/-- `print_composition`: the shares of the h-final references and of all of them. -/
structure Composition where
  shares : List ℚ
  total : ℚ

def composition (L : Levels) (t : Tally) : Option Composition := do
  let shares ← (oneTo L.host).mapM fun h =>
    (pyDiv (t.byLabel (.ud h)) (t.byDesign .npw)).map (· * 100)
  let total ← pyDiv ((oneTo L.host).map fun h => t.byLabel (.ud h)).sum (t.byDesign .npw)
  some ⟨shares, total * 100⟩

/-- The whole report. The h-final share of the headline is compared with the sum of the
paper's shares. -/
structure Report where
  rangeCoverage : ℚ
  hfinalShare : ℚ
  hfinalDelta : Option ℚ
  own : SizeReport
  thp : Option SizeReport
  composition : Composition

/-- `range_hits` -/
def rangeHits (records : List Record) : ℤ :=
  ((records.filter fun r => r.flag = some .rangeHit).map Record.count).sum

/-- The second half of `analyze`. A walk of a 4 KB page comes with the walk of a 2 MB page
that it implies. -/
def report (L : Levels) (records : List Record) (ref : Option PaperValues)
    (thpRef : Option (Option PaperValues)) : Option Report := do
  let t ← tally L records
  let own ← sizeReport t ref
  let thp ← thpRef.elim (some none) fun r =>
    (tallyWith deriveThp .huge records).bind fun t' => (sizeReport t' r).map some
  let coverage ← pyDiv (rangeHits records) t.total
  let parts ← composition L t
  some ⟨coverage * 100, parts.total, ref.map fun p => parts.total - p.hfinal.sum, own, thp, parts⟩

/-- How `analyze` can end. -/
inductive Outcome
  | noRecords
  | unsupported (nRefs : ℕ)
  | report (r : Report)

/-- The records that `analyze` keeps: those of the length of the first one. -/
def usedRecords : List Record → List Record
  | [] => []
  | first :: rest => (first :: rest).filter fun r => r.refs.length = first.refs.length

/-- `analyze`, once the log is parsed. -/
def analyzeRecords (records : List Record) (workload : Option Workload) (compare : Bool) :
    Option Outcome :=
  match records with
  | [] => some .noRecords
  | first :: _ =>
    let nRefs := first.refs.length
    let ref := if compare then workload else none
    if nRefs = 24 then
      (report .base (usedRecords records) (ref.map paper4k) (some (ref.map paperThp))).map .report
    else if nRefs = 15 then
      (report .huge (usedRecords records) (ref.map paperThp) none).map .report
    else some (.unsupported nRefs)

/-- `analyze`, on the text of the log. -/
def analyze (text : List Char) (workload : Option Workload) (compare : Bool) : Option Outcome :=
  analyzeRecords (parseLog text) workload compare

/-! ### The records of one length -/

/-- All records have the length of the first one. -/
theorem usedRecords_eq_self {records : List Record} {n : ℕ}
    (h : ∀ r ∈ records, r.refs.length = n) : usedRecords records = records := by
  cases records with
  | nil => rfl
  | cons first rest =>
    have hfirst := h first List.mem_cons_self
    rw [usedRecords, List.filter_eq_self]
    intro r hr
    rw [decide_eq_true_iff, hfirst, h r hr]

/-! ### Quotients that are defined -/

theorem pyDiv_of_pos (a : ℚ) {b : ℚ} (hb : 0 < b) : pyDiv a b = some (a / b) := if_neg hb.ne'

theorem endToEnd_of_pos {s f : ℚ} (hs : 0 < s) (hf : 0 < f ∧ f < 1) :
    ∃ q, endToEnd s f = some (.rat q) := by
  have hslow : 0 < (1 - f) + f / s := add_pos (sub_pos.mpr hf.2) (div_pos hf.1 hs)
  refine ⟨1 / ((1 - f) + f / s), ?_⟩
  simp [endToEnd, not_le.mpr hs, pyDiv_of_pos f hs, pyDiv_of_pos 1 hslow]

theorem exists_pctDelta (v : Num) (reference : Option ℚ) : ∃ r, pctDelta v reference = some r := by
  cases reference with
  | none => exact ⟨none, rfl⟩
  | some reference =>
    by_cases hzero : reference = 0
    · exact ⟨none, if_pos hzero⟩
    · cases v with
      | nan => exact ⟨some .nan, if_neg hzero⟩
      | rat m => exact ⟨_, by simp [pctDelta, hzero, pyDiv]; rfl⟩

theorem exists_bar (v c : ℚ) : ∃ q, bar (.rat v) (.rat c) = some q := by
  by_cases hc : c ≤ 1
  · exact ⟨0, by simp [bar, hc]⟩
  · have hpos : 0 < c - 1 := sub_pos.mpr (not_le.mp hc)
    exact ⟨max ((v - 1) / (c - 1)) 0, by simp [bar, hc, pyDiv_of_pos _ hpos]⟩

/-- The greatest of some numbers is a number. -/
theorem exists_maxNum {vs : List Num} (hne : vs ≠ []) (hvs : ∀ v ∈ vs, ∃ q, v = .rat q) :
    ∃ c, maxNum vs = some (.rat c) := by
  obtain ⟨v, vs, rfl⟩ := List.exists_cons_of_ne_nil hne
  have hfold (l : List Num) (m : Num) (hm : ∃ q, m = .rat q) (hl : ∀ v ∈ l, ∃ q, v = .rat q) :
      ∃ c, l.foldl (fun m v => if m.lt v then v else m) m = .rat c := by
    induction l generalizing m with
    | nil => exact hm
    | cons v l ih =>
      rw [List.forall_mem_cons] at hl
      rw [List.foldl_cons]
      refine ih _ ?_ hl.2
      split_ifs
      · exact hl.1
      · exact hm
  rw [List.forall_mem_cons] at hvs
  obtain ⟨c, hc⟩ := hfold vs v hvs.1 hvs.2
  exact ⟨c, by rw [maxNum, hc]⟩

/-- A table of numbers. -/
theorem exists_tableRows (ref : Design → Option ℚ) {rows : List (Design × ℚ × Num)}
    (hne : rows ≠ []) (hrows : ∀ row ∈ rows, ∃ q, row.2.2 = .rat q) :
    ∃ r, tableRows ref rows = some r := by
  have hvalues : ∀ v ∈ rows.map fun row => row.2.2, ∃ q, v = Num.rat q := by
    intro v hv
    obtain ⟨row, hrow, rfl⟩ := List.mem_map.mp hv
    exact hrows row hrow
  obtain ⟨c, hc⟩ := exists_maxNum (by simpa using hne) hvalues
  rw [tableRows, hc]
  refine exists_mapM_eq_some fun row hrow => ?_
  obtain ⟨q, hq⟩ := hrows row hrow
  obtain ⟨gain, hgain⟩ := exists_bar q c
  obtain ⟨delta, hdelta⟩ := exists_pctDelta (.rat q) (ref row.1)
  exact ⟨⟨row.1, row.2.1, .rat q, gain, delta⟩, by simp [hq, hgain, hdelta]⟩

/-- A table of the given designs, each with a number. -/
theorem exists_mapM_tableRows (ref : Design → Option ℚ) {designs : List Design}
    (hne : designs ≠ []) {f : Design → Option (Design × ℚ × Num)}
    (hf : ∀ n, ∃ s q, f n = some (n, s, .rat q)) :
    ∃ r, (designs.mapM f).bind (tableRows ref) = some r := by
  obtain ⟨rows, hrows⟩ := exists_mapM_eq_some (l := designs) fun n _ => by
    obtain ⟨s, q, hn⟩ := hf n
    exact ⟨_, hn⟩
  have hrows_ne : rows ≠ [] := by
    rw [← List.length_pos_iff, length_of_mapM hrows]
    exact List.length_pos_iff.mpr hne
  rw [hrows, Option.bind_some]
  refine exists_tableRows ref hrows_ne fun row hrow => ?_
  obtain ⟨n, -, hn⟩ := exists_mem_of_mapM hrows hrow
  obtain ⟨s, q, hq⟩ := hf n
  rw [hq] at hn
  cases hn
  exact ⟨q, rfl⟩

section Positive

variable {byDesign : Design → ℚ} (hpos : ∀ n, 0 < byDesign n)

include hpos

theorem exists_walkTable (ref : Design → Option ℚ) : ∃ r, walkTable byDesign ref = some r := by
  refine exists_mapM_tableRows ref (by decide) fun n => ?_
  exact ⟨_, _, by rw [pyDiv_of_pos _ (hpos n), Option.map_some]⟩

theorem exists_e2eTable {f : ℚ} (hf : 0 < f ∧ f < 1) (ref : Design → Option ℚ) :
    ∃ r, e2eTable byDesign f ref = some r := by
  refine exists_mapM_tableRows ref (by decide) fun n => ?_
  obtain ⟨q, hq⟩ := endToEnd_of_pos (div_pos (hpos .npw) (hpos n)) hf
  exact ⟨byDesign .npw / byDesign n, q, by simp [pyDiv_of_pos _ (hpos n), hq]⟩

theorem exists_e2eNumbers {s : ℚ} (hs : 0 < s) {ref : Option PaperValues}
    (href : ∀ p ∈ ref, p.Proper) : ∃ r, e2eNumbers byDesign s ref = some r := by
  cases ref with
  | none => exact ⟨_, rfl⟩
  | some p =>
    have hf := href p rfl
    obtain ⟨q, hq⟩ := endToEnd_of_pos hs hf
    obtain ⟨delta, hdelta⟩ := exists_pctDelta (.rat q) (p.e2e .sagePte)
    obtain ⟨rows, hrows⟩ := exists_e2eTable hpos hf p.e2e
    exact ⟨(some (.rat q, delta), some rows), by simp [e2eNumbers, hf.1.ne', hq, hdelta, hrows]⟩

end Positive

/-- The numbers of one page size exist when every design costs something. -/
theorem exists_sizeReport {t : Tally} (hpos : ∀ n, 0 < t.byDesign n) {ref : Option PaperValues}
    (href : ∀ p ∈ ref, p.Proper) : ∃ r, sizeReport t ref = some r ∧ r.tally = t := by
  obtain ⟨delta, hdelta⟩ := exists_pctDelta (.rat (t.byDesign .npw / t.byDesign .sagePte))
    (ref.bind fun p => p.walk .sagePte)
  obtain ⟨rows, hrows⟩ := exists_walkTable hpos fun n => ref.bind fun p => p.walk n
  obtain ⟨e2e, he2e⟩ := exists_e2eNumbers hpos (div_pos (hpos .npw) (hpos .sagePte)) href
  refine ⟨⟨t, t.byDesign .npw / t.byDesign .sagePte, delta, e2e.1, rows, e2e.2⟩, ?_, rfl⟩
  simp [sizeReport, pyDiv_of_pos _ (hpos .sagePte), hdelta, hrows, he2e]

theorem exists_composition (L : Levels) {t : Tally} (hpos : 0 < t.byDesign .npw) :
    ∃ r, composition L t = some r := by
  obtain ⟨shares, hshares⟩ := exists_mapM_eq_some (l := oneTo L.host)
    (f := fun h => (pyDiv (t.byLabel (.ud h)) (t.byDesign .npw)).map (· * 100))
    fun h _ => ⟨_, by rw [pyDiv_of_pos _ hpos, Option.map_some]⟩
  exact ⟨_, by rw [composition, hshares, pyDiv_of_pos _ hpos]; rfl⟩

/-! ### The report of a log of recorded walks -/

/-- The records of a log of recorded walks. -/
structure RecordedWalk (r : Record) : Prop where
  count_pos : 0 < r.count
  length : r.refs.length = 24
  refs : ∀ x ∈ r.refs, IsRefResult x
  third : ∃ x, r.refs[14]? = some x ∧ (IsCacheResult x ∨ x = .pwc)
  fourth : ∃ x, r.refs[19]? = some x ∧ (IsCacheResult x ∨ x = .pwc)

theorem splitFlag_concat {flag : CacheResult} (h : flag = .rangeHit ∨ flag = .rangeMiss)
    (refs : List CacheResult) : splitFlag (refs ++ [flag]) = (refs, some flag) := by
  rcases h with rfl | rfl <;> simp [splitFlag]

theorem recordedWalk_of_shape {e : List CacheResult × ℕ} (hshape : WalkShape e.1) (hpos : 0 < e.2)
    {r : Record} (hr : histRecord e = some r) : RecordedWalk r := by
  obtain ⟨refs, flag, hv, hflag, hlen, hrefs, hthird, hfourth⟩ := walkShape_refs hshape
  rw [histRecord, hv, splitFlag_concat hflag, if_neg (by simp)] at hr
  cases hr
  exact ⟨Int.natCast_pos.mpr hpos, hlen, hrefs, hthird, hfourth⟩

theorem exists_histRecord {e : List CacheResult × ℕ} (hshape : WalkShape e.1) :
    ∃ r, histRecord e = some r := by
  have hne : e.1 ≠ [] := List.ne_nil_of_length_eq_add_one hshape.1
  exact ⟨_, if_neg hne⟩

/-- Every record that the parser returns is a recorded walk. -/
theorem recordedWalk_of_log {log : Log}
    (hshape : ∀ d ∈ log.interim ++ [log.final], ∀ e ∈ d.hist, WalkShape e.1) :
    ∀ r ∈ parseLog log.text, RecordedWalk r := by
  intro r hr
  have hdump : ∃ d ∈ log.interim ++ [log.final], r ∈ d.records := by
    rw [log.parseLog_text] at hr
    rcases List.mem_append.mp hr with hr | hr
    · obtain ⟨d, hd, hmem⟩ := List.mem_flatMap.mp hr
      exact ⟨d, by simp [hd], hmem⟩
    · exact ⟨log.final, by simp, hr⟩
  obtain ⟨d, hd, hmem⟩ := hdump
  obtain ⟨e, he, hrec⟩ := List.mem_filterMap.mp hmem
  exact recordedWalk_of_shape (hshape d hd e he) (d.count_pos e he) hrec

/-- A log without records has empty histograms. -/
theorem hist_eq_nil_of_log {log : Log}
    (hshape : ∀ d ∈ log.interim ++ [log.final], ∀ e ∈ d.hist, WalkShape e.1)
    (hnil : parseLog log.text = []) : ∀ d ∈ log.interim ++ [log.final], d.hist = [] := by
  rw [log.parseLog_text, List.append_eq_nil_iff, List.flatMap_eq_nil_iff] at hnil
  intro d hd
  have hrecords : d.records = [] := by
    rcases List.mem_append.mp hd with hd | hd
    · exact hnil.1 d hd
    · exact List.mem_singleton.mp hd ▸ hnil.2
  rw [Dump.records, List.filterMap_eq_nil_iff] at hrecords
  refine List.eq_nil_iff_forall_not_mem.mpr fun e he => ?_
  obtain ⟨r, hr⟩ := exists_histRecord (hshape d hd e he)
  rw [hrecords e he] at hr
  cases hr

/-- The report of recorded walks. -/
theorem exists_report {records : List Record} (hne : records ≠ [])
    (hrecords : ∀ r ∈ records, RecordedWalk r) {ref thpRef : Option PaperValues}
    (href : ∀ p ∈ ref, p.Proper) (hthpRef : ∀ p ∈ thpRef, p.Proper) :
    ∃ r thp, report .base records ref (some thpRef) = some r ∧ r.thp = some thp ∧
      tally .base records = some r.own.tally ∧
      tallyWith deriveThp .huge records = some thp.tally ∧ 0 < r.own.tally.total ∧
      0 < thp.tally.total ∧ ∀ n, 0 < r.own.tally.byDesign n ∧ 0 < thp.tally.byDesign n := by
  have hcount : ∀ r ∈ records, 0 < r.count := fun r hr => (hrecords r hr).count_pos
  have hbase : ∀ r ∈ records, ∃ d, r.costs .base some = some d ∧
      ∀ n : Design, 0 < n.formula .base d := fun r hr =>
    base_costs (hrecords r hr).length (hrecords r hr).refs (hrecords r hr).fourth
  have hhuge : ∀ r ∈ records, ∃ d, r.costs .huge deriveThp = some d ∧
      ∀ n : Design, 0 < n.formula .huge d := fun r hr =>
    huge_costs (hrecords r hr).length (hrecords r hr).refs (hrecords r hr).third
  obtain ⟨t, ht, htotal, hpos⟩ := exists_tallyWith hne hcount hbase
  obtain ⟨t', ht', htotal', hpos'⟩ := exists_tallyWith hne hcount hhuge
  obtain ⟨own, hown, rfl⟩ := exists_sizeReport hpos href
  obtain ⟨thp, hthp, rfl⟩ := exists_sizeReport hpos' hthpRef
  obtain ⟨parts, hparts⟩ := exists_composition .base (hpos .npw)
  have hcoverage := pyDiv_of_pos (rangeHits records) (Int.cast_pos.mpr htotal)
  refine ⟨⟨rangeHits records / own.tally.total * 100, parts.total,
    ref.map fun p => parts.total - p.hfinal.sum, own, some thp, parts⟩, thp, ?_, rfl, ht, ht',
    htotal, htotal', fun n => ⟨hpos n, hpos' n⟩⟩
  simp only [report, tally, ht, hown, ht', hthp, hparts, hcoverage, Option.elim_some,
    Option.bind_eq_bind, Option.bind_some, Option.map_some]

/-- The report of a text whose records are recorded walks. -/
theorem analyze_of_recordedWalks {text : List Char} (hwalks : ∀ r ∈ parseLog text, RecordedWalk r)
    (workload : Option Workload) (compare : Bool) :
    (parseLog text = [] ∧ analyze text workload compare = some .noRecords) ∨
      ∃ r thp, analyze text workload compare = some (.report r) ∧ r.thp = some thp ∧
        tally .base (parseLog text) = some r.own.tally ∧
        tallyWith deriveThp .huge (parseLog text) = some thp.tally ∧
        0 < r.own.tally.total ∧ 0 < thp.tally.total ∧
        ∀ n, 0 < r.own.tally.byDesign n ∧ 0 < thp.tally.byDesign n := by
  cases hrecords : parseLog text with
  | nil => exact .inl ⟨rfl, by rw [analyze, hrecords, analyzeRecords]⟩
  | cons first rest =>
    right
    rw [hrecords] at hwalks
    have hlen := (hwalks first (by simp)).length
    have hused := usedRecords_eq_self fun r hr => (hwalks r hr).length
    obtain ⟨r, thp, hr, hthp, hrest⟩ := exists_report (List.cons_ne_nil first rest) hwalks
      (proper_of_mem_map proper_paper4k (if compare then workload else none))
      (proper_of_mem_map proper_paperThp (if compare then workload else none))
    refine ⟨r, thp, ?_, hthp, hrest⟩
    simp only [analyze, hrecords, analyzeRecords, hused, hlen, if_true, hr, Option.map_some]

/-- **The report is defined.** On every log of recorded walks, with or without earlier
dumps and whatever it is compared with, `analyze` divides by no zero. Unless there is no
walk at all, it reports a positive number of walks and a positive average of every
design, for the 4 KB walk and for the 2 MB walk derived from it. -/
theorem analyze_defined (log : Log)
    (hshape : ∀ d ∈ log.interim ++ [log.final], ∀ e ∈ d.hist, WalkShape e.1)
    (workload : Option Workload) (compare : Bool) :
    ((∀ d ∈ log.interim ++ [log.final], d.hist = []) ∧
        analyze log.text workload compare = some .noRecords) ∨
      ∃ r thp, analyze log.text workload compare = some (.report r) ∧ r.thp = some thp ∧
        tally .base (parseLog log.text) = some r.own.tally ∧
        tallyWith deriveThp .huge (parseLog log.text) = some thp.tally ∧
        0 < r.own.tally.total ∧ 0 < thp.tally.total ∧
        ∀ n, 0 < r.own.tally.byDesign n ∧ 0 < thp.tally.byDesign n := by
  rcases analyze_of_recordedWalks (recordedWalk_of_log hshape) workload compare with
    ⟨hnil, hnone⟩ | hreport
  · exact .inl ⟨hist_eq_nil_of_log hshape hnil, hnone⟩
  · exact .inr hreport

/-- A dump of three walks that found everything in the L1 cache. -/
theorem three_uniform_walks_reported :
    ∃ log : Log, log.final.hist = [(uniformWalk .foundL1, 3)] ∧
      ∃ r thp, analyze log.text (some .redis) true = some (.report r) ∧ r.thp = some thp ∧
        0 < r.own.tally.total ∧ ∀ n, 0 < r.own.tally.byDesign n ∧ 0 < thp.tally.byDesign n := by
  let final : Dump := ⟨[], [(uniformWalk .foundL1, 3)], by simp⟩
  let log : Log := ⟨[], final, [], by simp⟩
  have hshape : ∀ d ∈ log.interim ++ [log.final], ∀ e ∈ d.hist, WalkShape e.1 := by
    simpa [log, final] using walkShape_uniformWalk (.inr (.inl rfl))
  refine ⟨log, rfl, ?_⟩
  rcases analyze_defined log hshape (some .redis) true with ⟨hnil, -⟩ | hreport
  · have hfinal := hnil final (by simp [log])
    simp [final] at hfinal
  · obtain ⟨r, thp, hr, hthp, -, -, htotal, -, hpos⟩ := hreport
    exact ⟨r, thp, hr, hthp, htotal, hpos⟩

/-- From the trace to the report: whatever a run over covered page tables prints without
the end of a warm-up, the analyzer has a report of it, or finds no walk. -/
theorem exists_analyze_printedLines {k : CacheKnobs} {C : SimConfig}
    (hH : k.hierarchy = some C.H) (hcov : C.Covered) {trace : List Memref}
    (hno : ∀ s ∈ C.steps trace, s.1.resets C s.2 = false) (notes : ℕ → List Note)
    (trailer : List Note) (workload : Option Workload) (compare : Bool) :
    ∃ outcome, analyze (Lines.unlines '\n' (printedLines C trace notes trailer)) workload compare =
        some outcome ∧ ∀ nRefs, outcome ≠ .unsupported nRefs := by
  obtain ⟨log, hlines, hhist⟩ := exists_log_of_run hno notes trailer
  have hshape : ∀ d ∈ log.interim ++ [log.final], ∀ e ∈ d.hist, WalkShape e.1 := by
    intro d hd
    obtain ⟨i, hi⟩ := hhist d hd
    rw [hi]
    exact run_hm_walkShape hH hcov _
  rw [← hlines]
  rcases analyze_of_recordedWalks (recordedWalk_of_log hshape) workload compare with
    ⟨-, hnone⟩ | ⟨r, _, hreport, -⟩
  · exact ⟨.noRecords, hnone, by simp⟩
  · exact ⟨.report r, hreport, by simp⟩

end SagePTE.Analysis
