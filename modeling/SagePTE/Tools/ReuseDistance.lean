import SagePTE.Lib.Tally
import SagePTE.Simulator.CachingDevice
import SagePTE.Tools.LineHistory

/-!
# The reuse distance tool

The tool goes through a trace and hands the line of each access to the list, which moves the line
to the front and says where it was. The positions are counted in a histogram.

## Main definitions

* `ReuseKnobs`, `ReuseDistance` — the options and the state of the tool
* `ReuseDistance.processMemref`, `ReuseDistance.run` — one reference, and a trace
* `ReuseDistance.median` — the median that is printed
* `ReuseDistance.Tracks` — the tool after some accesses

## Main results

* `ReuseDistance.run_reuseDistance` — the histogram and the counts are those of the trace
* `ReuseDistance.run_fault_of_skipListDistance_eq_one` — a skip distance that is too small
* `ReuseDistance.run_median` — which of the distances is printed as the median
-/

set_option autoImplicit false

namespace SagePTE.Tools

open Simulator MoveToFront LineRefList Fallible

/-! ### The tool -/

/-- `reuse_distance_knobs_t`. -/
structure ReuseKnobs where
  lineSize : BitVec 32 := 64
  distanceThreshold : BitVec 32 := 100
  skipListDistance : BitVec 32 := 500
  verifySkip : Bool := false

/-- `reuse_distance_t`. The keys of `cache_map` stand for its nodes. There is no number of bits
for a line size that is not a power of two. -/
structure ReuseDistance where
  cacheMap : List (BitVec 64)
  distMap : List (ℤ × ℕ)
  refList : LineRefList (BitVec 64)
  lineSizeBits : Option ℕ
  totalRefs : ℕ

/-- The constructor. -/
def ReuseKnobs.create (knobs : ReuseKnobs) : ReuseDistance where
  cacheMap := []
  distMap := []
  refList := .empty (BitVec 64) knobs.distanceThreshold.toNat knobs.skipListDistance.toNat
    knobs.verifySkip
  lineSizeBits := computeLog2 knobs.lineSize.toInt
  totalRefs := 0

/-- The references that are counted. -/
def isCounted (type : TraceType) : Bool :=
  typeIsInstr type || type == .read || type == .write || typeIsPrefetch type

/-- The tag of the line of a reference. -/
def lineOf (bits : ℕ) (m : Memref) : BitVec 64 := m.addr >>> bits

namespace ReuseDistance

/-- An access to a line. -/
def access (t : ReuseDistance) (debug : Option ℕ) (turns : ℕ) (tag : BitVec 64) :
    Except Stop ReuseDistance :=
  if tag ∈ t.cacheMap then do
    let (dist, refList) ← t.refList.moveToFront debug turns tag
    pure { t with refList := refList, distMap := Tally.add t.distMap dist }
  else do
    let refList ← (t.refList.newLineRef tag).addToFront debug turns tag
    pure { t with refList := refList, cacheMap := t.cacheMap ++ [tag] }

/-- `process_memref`. -/
def processMemref (t : ReuseDistance) (debug : Option ℕ) (turns : ℕ) (m : Memref) :
    Except Stop ReuseDistance :=
  if isCounted m.type then do
    let bits ← deref t.lineSizeBits
    access { t with totalRefs := t.totalRefs + 1 } debug turns (lineOf bits m)
  else .ok t

/-- The tool goes through a trace. -/
def run (t : ReuseDistance) (debug : Option ℕ) (turns : ℕ) (trace : List Memref) :
    Except Stop ReuseDistance :=
  trace.foldlM (fun t m => t.processMemref debug turns m) t

/-- `print_results`: the number of reuses. -/
def reuseCount (t : ReuseDistance) : ℕ := (t.distMap.map Prod.snd).sum

/-- `print_results`: the distance that is printed as the median, if there is any. -/
def median (t : ReuseDistance) : Option ℤ :=
  Tally.atRank (t.reuseCount / 2) 0 (Tally.sort t.distMap)

/-! ### What is counted -/

/-- The lines that a trace accesses. -/
def accessedLines (bits : ℕ) (trace : List Memref) : List (BitVec 64) :=
  (trace.filter fun m => isCounted m.type).map (lineOf bits)

/-- The distances of the reuses. -/
def reuseDistances (lines : List (BitVec 64)) : List ℤ := (reuses lines).map fun r => (r.2 : ℤ)

/-- The tool after these lines have been accessed. -/
structure Tracks (t : ReuseDistance) (bits : ℕ) (lines : List (BitVec 64)) : Prop where
  refList : t.refList.Tracks lines
  cacheMap : ∀ x, x ∈ t.cacheMap ↔ x ∈ lines
  distMap : t.distMap = Tally.ofList (reuseDistances lines)
  totalRefs : t.totalRefs = lines.length
  lineSizeBits : t.lineSizeBits = some bits

variable {t : ReuseDistance} {bits turns : ℕ} {lines : List (BitVec 64)} {tag : BitVec 64}

theorem tracks_create {knobs : ReuseKnobs} (hbits : computeLog2 knobs.lineSize.toInt = some bits) :
    knobs.create.Tracks bits [] :=
  ⟨tracks_empty .., by simp [ReuseKnobs.create], rfl, rfl, hbits⟩

/-- One access. -/
theorem Tracks.access (h : t.Tracks bits lines) (hd' : t.refList.skipDistance < 2 ^ 32)
    (hd : tag ∈ lines → distance lines tag ≠ 0 → t.refList.skipDistance ≠ 1)
    (hlen : lines.length + 1 < 2 ^ 63)
    (hturns : lines.length + 1 < turns) (debug : Option ℕ) :
    ∃ t', ReuseDistance.access { t with totalRefs := t.totalRefs + 1 } debug turns tag = .ok t' ∧
      t'.Tracks bits (lines ++ [tag]) ∧ t'.refList.threshold = t.refList.threshold ∧
      t'.refList.skipDistance = t.refList.skipDistance := by
  have htotal : t.totalRefs + 1 = (lines ++ [tag]).length := by
    rw [h.totalRefs, List.length_append, List.length_singleton]
  by_cases htag : tag ∈ lines
  · obtain ⟨L', hmove, htracks, hthreshold, hskip⟩ := h.refList.moveToFront htag (hd htag)
      (Nat.lt_of_succ_lt hturns) debug
    refine ⟨_, (if_pos ((h.cacheMap tag).mpr htag)).trans
      (bind_eq_ok_iff.mpr ⟨_, hmove, rfl⟩), ⟨htracks, ?_, ?_, htotal, h.lineSizeBits⟩, hthreshold,
      hskip⟩
    · intro x
      rw [h.cacheMap, List.mem_append, List.mem_singleton]
      constructor
      · exact .inl
      · rintro (hx | rfl)
        · exact hx
        · exact htag
    · have hdists : reuseDistances (lines ++ [tag]) =
          reuseDistances lines ++ [(distance lines tag : ℤ)] := by
        rw [reuseDistances, reuses_concat_of_mem htag, List.map_append]
        rfl
      rw [hdists, Tally.ofList_concat, ← h.distMap]
  · obtain ⟨L', hadd, htracks, hthreshold, hskip⟩ := h.refList.addToFront htag (by omega)
      (by omega) hturns debug
    refine ⟨_, (if_neg (mt (h.cacheMap tag).mp htag)).trans
      (bind_eq_ok_iff.mpr ⟨_, hadd, rfl⟩), ⟨htracks, ?_, ?_, htotal, h.lineSizeBits⟩, hthreshold,
      hskip⟩
    · intro x
      rw [List.mem_append, List.mem_append, h.cacheMap]
    · rw [reuseDistances, reuses_concat_of_notMem htag]
      exact h.distMap

theorem accessedLines_cons (bits : ℕ) (m : Memref) (trace : List Memref) :
    accessedLines bits (m :: trace) = accessedLines bits [m] ++ accessedLines bits trace := by
  rw [← List.singleton_append, accessedLines, List.filter_append, List.map_append]
  rfl

theorem length_accessedLines_le (bits : ℕ) (trace : List Memref) :
    (accessedLines bits trace).length ≤ trace.length := by
  rw [accessedLines, List.length_map]
  exact List.length_filter_le ..

/-- One reference. -/
theorem Tracks.processMemref (h : t.Tracks bits lines) (hd' : t.refList.skipDistance < 2 ^ 32)
    {m : Memref} (hd : t.refList.skipDistance = 1 →
      ∀ r ∈ reusesAfter lines (accessedLines bits [m]), r.2 = 0)
    (hlen : lines.length + 1 < 2 ^ 63) (hturns : lines.length + 1 < turns) (debug : Option ℕ) :
    ∃ t', t.processMemref debug turns m = .ok t' ∧
      t'.Tracks bits (lines ++ accessedLines bits [m]) ∧
      t'.refList.threshold = t.refList.threshold ∧
      t'.refList.skipDistance = t.refList.skipDistance := by
  cases hcounted : isCounted m.type with
  | true =>
    have hd₁ (hmem : lineOf bits m ∈ lines) (hne : distance lines (lineOf bits m) ≠ 0) :
        t.refList.skipDistance ≠ 1 := by
      intro hone
      refine hne (hd hone (lineOf bits m, distance lines (lineOf bits m)) ?_)
      simp [accessedLines, hcounted, reusesAfter, hmem]
    obtain ⟨t', haccess, htracks⟩ := h.access hd' hd₁ hlen hturns debug
    refine ⟨t', ?_, by simpa [accessedLines, hcounted] using htracks⟩
    exact (if_pos hcounted).trans (bind_eq_ok_iff.mpr ⟨bits, by rw [h.lineSizeBits]; rfl, haccess⟩)
  | false =>
    refine ⟨t, ?_, by simpa [accessedLines, hcounted] using h, rfl, rfl⟩
    rw [ReuseDistance.processMemref, hcounted]
    rfl

/-- All references of a trace. -/
theorem Tracks.run (h : t.Tracks bits lines) (hd' : t.refList.skipDistance < 2 ^ 32)
    {trace : List Memref} (hd : t.refList.skipDistance = 1 →
      ∀ r ∈ reusesAfter lines (accessedLines bits trace), r.2 = 0)
    (hlen : lines.length + trace.length < 2 ^ 63)
    (hturns : lines.length + trace.length < turns) (debug : Option ℕ) :
    ∃ t', t.run debug turns trace = .ok t' ∧ t'.Tracks bits (lines ++ accessedLines bits trace) ∧
      t'.refList.threshold = t.refList.threshold ∧
      t'.refList.skipDistance = t.refList.skipDistance := by
  -- the lines accessed so far grow with the trace, and bound the turns of the loops
  induction trace generalizing t lines with
  | nil => exact ⟨t, rfl, by simpa [accessedLines] using h, rfl, rfl⟩
  | cons m trace ih =>
    rw [List.length_cons] at hlen hturns
    rw [accessedLines_cons, reusesAfter_append] at hd
    obtain ⟨t₁, hstep, htracks₁, hthreshold₁, hskip₁⟩ := h.processMemref hd'
      (fun hone => (List.forall_mem_append.mp (hd hone)).1) (by omega) (by omega : _ < turns) debug
    have hcount := length_accessedLines_le bits [m]
    rw [List.length_singleton] at hcount
    have hlen₁ : (lines ++ accessedLines bits [m]).length ≤ lines.length + 1 := by
      rw [List.length_append]
      omega
    obtain ⟨t', hrun, htracks, hthreshold, hskip⟩ := ih htracks₁ (hskip₁ ▸ hd')
      (fun hone => (List.forall_mem_append.mp (hd (hskip₁ ▸ hone))).2) (by omega) (by omega)
    refine ⟨t', ?_, ?_, hthreshold.trans hthreshold₁, hskip.trans hskip₁⟩
    · rw [ReuseDistance.run, List.foldlM_cons]
      exact bind_eq_ok_iff.mpr ⟨t₁, hstep, hrun⟩
    · rwa [accessedLines_cons, ← List.append_assoc]

theorem exists_run (knobs : ReuseKnobs) (trace : List Memref)
    (hbits : computeLog2 knobs.lineSize.toInt = some bits) (hskip : knobs.skipListDistance ≠ 1)
    (hlen : trace.length < 2 ^ 63) (hturns : trace.length < turns) (debug : Option ℕ) :
    ∃ t, knobs.create.run debug turns trace = .ok t ∧ t.Tracks bits (accessedLines bits trace) ∧
      t.refList.threshold = knobs.distanceThreshold.toNat := by
  have hskip' : knobs.create.refList.skipDistance ≠ 1 := by
    intro hone
    exact hskip (BitVec.eq_of_toNat_eq hone)
  obtain ⟨t, hrun, htracks, hthreshold, -⟩ := (tracks_create hbits).run
    knobs.skipListDistance.isLt (fun hone => absurd hone hskip') (by simpa using hlen)
    (by simpa using hturns) debug
  exact ⟨t, hrun, by simpa using htracks, hthreshold⟩

/-- **The tool measures reuse distances.** For a line size that is a power of two and a skip
distance other than one, no assertion fails and no null pointer is followed, in release and in
debug builds, and the loops end. The histogram then has for each distance the number of accesses
that come after accesses to that many other lines since the last one to the same line. -/
theorem run_reuseDistance (knobs : ReuseKnobs) (trace : List Memref)
    (hbits : computeLog2 knobs.lineSize.toInt = some bits) (hskip : knobs.skipListDistance ≠ 1)
    (hlen : trace.length < 2 ^ 63) (hturns : trace.length < turns) (debug : Option ℕ) :
    ∃ t, knobs.create.run debug turns trace = .ok t ∧
      t.totalRefs = (accessedLines bits trace).length ∧
      (∀ dist : ℤ, (t.distMap.lookup dist).getD 0 =
        (reuses (accessedLines bits trace)).countP (fun r => (r.2 : ℤ) = dist)) ∧
      t.refList.uniqueLines = (accessedLines bits trace).toFinset.card ∧
      t.refList.curTime + (reuses (accessedLines bits trace)).countP (·.2 = 0) =
        (accessedLines bits trace).length ∧
      ∀ line ∈ accessedLines bits trace,
        t.refList.totalRefs line = (accessedLines bits trace).count line ∧
        t.refList.distantRefs line =
          (countedReuses knobs.distanceThreshold.toNat (accessedLines bits trace)).countP
            (·.1 = line) := by
  obtain ⟨t, hrun, htracks, hthreshold⟩ := exists_run knobs trace hbits hskip hlen hturns debug
  refine ⟨t, hrun, htracks.totalRefs, ?_, ?_, htracks.refList.curTime, ?_⟩
  · intro dist
    rw [htracks.distMap, Tally.lookup_ofList, reuseDistances, List.count, List.countP_map]
    congr 1
  · rw [htracks.refList.layout.uniqueLines, length_order]
  · intro line hline
    have hdistant := htracks.refList.distantRefs line hline
    rw [hthreshold] at hdistant
    exact ⟨htracks.refList.totalRefs line hline, hdistant⟩

/-- A read of a line. -/
def readLine (line : BitVec 64) : Memref :=
  { type := .read, pid := 1, tid := 1, addr := line <<< 6, size := 8 }

/-- Line 0 is accessed again after two other lines, and line 2 after one. -/
theorem run_threeLines :
    ∃ t, ({ distanceThreshold := 1, skipListDistance := 2, verifySkip := true } :
        ReuseKnobs).create.run (some 3) 6 ([0, 1, 2, 0, 2].map readLine) = .ok t ∧
      (t.distMap.lookup 2).getD 0 = 1 ∧ (t.distMap.lookup 1).getD 0 = 1 ∧
      t.refList.uniqueLines = 3 ∧ t.refList.distantRefs 0 = 1 ∧ t.refList.distantRefs 2 = 0 := by
  have hbits : computeLog2 (BitVec.toInt (64 : BitVec 32)) = some 6 := by decide
  obtain ⟨t, hrun, -, hdist, hlines, -, hline⟩ := run_reuseDistance
    { distanceThreshold := 1, skipListDistance := 2, verifySkip := true }
    ([0, 1, 2, 0, 2].map readLine) hbits (by decide) (by decide) (by decide : _ < 6) (some 3)
  refine ⟨t, hrun, ?_, ?_, ?_, ?_, ?_⟩
  · rw [hdist]
    decide
  · rw [hdist]
    decide
  · rw [hlines]
    decide
  · rw [(hline 0 (by decide)).2]
    decide
  · rw [(hline 2 (by decide)).2]
    decide

theorem Tracks.median_eq (h : t.Tracks bits lines) :
    t.median = ((reuseDistances lines).insertionSort (· ≤ ·))[(reuses lines).length / 2 - 1]? := by
  have hcount : t.reuseCount = (reuses lines).length := by
    rw [reuseCount, ← Tally.length_expand, h.distMap, (Tally.expand_ofList _).length_eq,
      reuseDistances, List.length_map]
  -- an entry with count zero would be skipped by the loop without being reached
  have hpos : ∀ e ∈ Tally.sort t.distMap, 0 < e.2 := by
    intro e he
    rw [Tally.mem_sort, h.distMap] at he
    exact Tally.pos_of_mem_ofList _ e he
  rw [median, Tally.atRank_eq hpos (Nat.zero_le _), hcount, h.distMap, Tally.expand_sort_ofList,
    Nat.sub_zero]

/-- **The median.** Of an even number of reuses, the tool prints the lower one of the two
distances in the middle. Of an odd number above one it does not print the distance in the
middle, but the one before it. -/
theorem run_median (knobs : ReuseKnobs) (trace : List Memref)
    (hbits : computeLog2 knobs.lineSize.toInt = some bits) (hskip : knobs.skipListDistance ≠ 1)
    (hlen : trace.length < 2 ^ 63) (hturns : trace.length < turns) (debug : Option ℕ) :
    ∃ t, knobs.create.run debug turns trace = .ok t ∧
      t.median = ((reuseDistances (accessedLines bits trace)).insertionSort (· ≤ ·))[
        (reuses (accessedLines bits trace)).length / 2 - 1]? := by
  obtain ⟨t, hrun, htracks, -⟩ := exists_run knobs trace hbits hskip hlen hturns debug
  exact ⟨t, hrun, htracks.median_eq⟩

/-- Three reuses with the distances 1, 2 and 3. -/
theorem run_median_threeReuses :
    reuseDistances (accessedLines 6 ([0, 1, 0, 2, 1, 3, 0].map readLine)) = [1, 2, 3] ∧
      ∃ t, ({} : ReuseKnobs).create.run none 8 ([0, 1, 0, 2, 1, 3, 0].map readLine) = .ok t ∧
        t.median = some 1 := by
  have hbits : computeLog2 (BitVec.toInt (64 : BitVec 32)) = some 6 := by decide
  obtain ⟨t, hrun, hmedian⟩ := run_median {} ([0, 1, 0, 2, 1, 3, 0].map readLine) hbits
    (by decide) (by decide) (by decide : _ < 8) none
  refine ⟨by decide, t, hrun, ?_⟩
  rw [hmedian]
  decide

end ReuseDistance

end SagePTE.Tools
