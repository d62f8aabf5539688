import Mathlib.Algebra.Order.BigOperators.Group.List
import Mathlib.Algebra.Order.Field.Rat
import Mathlib.Tactic.Linarith
import SagePTE.Simulator.Memref

/-!
# Latencies of recorded walks

`parse_walk_stats.py` turns the recorded walks into cycles. A reference costs what
the component that served it costs, each design is a formula over the references of
one walk, and `tally` averages the references and the formulas over all walks,
weighted by how often a walk was seen.

A Python exception is `none`, and a float is the rational number it stands for.

## Main definitions

* `Label`, `labelsFor` — the references of a walk, in the order of a record
* `Design`, `Design.formula` — the designs and their formulas
* `tally` — the weighted averages over a list of records
* `deriveThp` — the walk of a 2 MB page that a walk of a 4 KB page implies
-/

set_option autoImplicit false

namespace SagePTE.Analysis

open Simulator

/-! ### References -/

/-- `LATENCY`. The range flags have no entry. -/
def latency : CacheResult → Option ℤ
  | .pwc => some 1
  | .foundL1 => some 4
  | .foundL2 => some 14
  | .foundLlc => some 54
  | .notFound => some 200
  | .zero => some 0
  | .wrong => some 0
  | .rangeHit | .rangeMiss => none

/-- The name of a reference: `G{g}H{h}`, `G{g}` or `UDH{h}`. -/
inductive Label
  | gh (g h : ℕ) | g (g : ℕ) | ud (h : ℕ)
  deriving DecidableEq, Repr

/-- The guest and host levels of a walk. The prefetcher of ASAP adds its first two
stages, so a walk has at least two of each. -/
structure Levels where
  guest : ℕ
  host : ℕ
  two_le_guest : 2 ≤ guest
  two_le_host : 2 ≤ host

/-- The walk of a 4 KB page. -/
def Levels.base : Levels := ⟨4, 4, by decide, by decide⟩

/-- The walk of a 2 MB page. -/
def Levels.huge : Levels := ⟨3, 3, by decide, by decide⟩

/-- `range(1, n + 1)` -/
def oneTo (n : ℕ) : List ℕ := List.range' 1 n

/-- `labels_for` -/
def labelsFor (L : Levels) : List Label :=
  (oneTo L.guest).flatMap (fun g => (oneTo L.host).map (Label.gh g) ++ [Label.g g]) ++
    (oneTo L.host).map Label.ud

/-! ### Designs -/

/-- The designs, in the order of `DESIGN_ORDER`. -/
inductive Design
  | npw | sagePte | tpt | dmt | ecpt | fpt | asap | agilePaging
  deriving DecidableEq, Repr

/-- `DESIGN_ORDER` -/
def designOrder : List Design := [.npw, .sagePte, .tpt, .dmt, .ecpt, .fpt, .asap, .agilePaging]

/-- `ECPT_VIRT` -/
def ecptVirt : ℤ := 4 + 4 + 4

/-- `ASAP_G3EST` -/
def asapG3Est : ℤ := 0

/-- `ASAP_G4EST` -/
def asapG4Est : ℤ := 0

/-- `asap_prefetch`. There are at least two stages. -/
def asapPrefetch : List ℤ → ℤ
  | s₀ :: s₁ :: stages =>
    stages.zipIdx.foldl (fun done s => max (done + if s.2 = 0 then asapG3Est else asapG4Est) s.1)
      (s₀ + s₁)
  | _ => 0

section Formulas

variable (L : Levels) (d : Label → ℤ)

/-- The levels that FPT touches: those of the parity of the last one. -/
def sameParity (n : ℕ) : List ℕ := (oneTo n).filter fun i => i % 2 = n % 2

/-- The sum of the h-final references. -/
def udSum : ℤ := ((oneTo L.host).map fun j => d (.ud j)).sum

/-- The sum of the guest references. -/
def gSum : ℤ := ((oneTo L.guest).map fun i => d (.g i)).sum

def npw : ℤ := ((labelsFor L).map d).sum

def sagepte : ℤ := npw L d - udSum L d

def dmt : ℤ := d (.gh L.guest L.host) + d (.g L.guest) + d (.ud L.host)

def ecpt : ℤ := d (.gh L.guest L.host) + d (.g L.guest) + d (.ud L.host) + ecptVirt

def fpt : ℤ :=
  ((sameParity L.guest).flatMap fun i => (sameParity L.host).map fun j => d (.gh i j)).sum +
    ((sameParity L.guest).map fun i => d (.g i)).sum +
    ((sameParity L.host).map fun j => d (.ud j)).sum

def asap : ℤ :=
  asapPrefetch ((oneTo L.guest).map fun i =>
      asapPrefetch ((oneTo L.host).map fun j => d (.gh i j)) + d (.g i)) +
    asapPrefetch ((oneTo L.host).map fun j => d (.ud j))

def tpt : ℤ := 2 * gSum L d

def agile : ℤ := gSum L d + udSum L d

/-- `formulas_for` -/
def Design.formula : Design → ℤ
  | .npw => Analysis.npw L d
  | .sagePte => sagepte L d
  | .tpt => Analysis.tpt L d
  | .dmt => Analysis.dmt L d
  | .ecpt => Analysis.ecpt L d
  | .fpt => Analysis.fpt L d
  | .asap => Analysis.asap L d
  | .agilePaging => agile L d

end Formulas

/-! ### Averages -/

/-- A walk record of `parse_log`: the references, the range flag, and the count. -/
structure Record where
  refs : List CacheResult
  flag : Option CacheResult
  count : ℤ
  deriving DecidableEq, Repr

/-- The latencies of a walk under their labels. A record with too many references
is out of the range of `ref_sum`, and one with too few lacks a key that the formula
of nested paging reads. -/
def walkCosts (L : Levels) (refs : List CacheResult) : Option (Label → ℤ) := do
  let lat ← refs.mapM latency
  if lat.length = (labelsFor L).length then
    some fun l => (((labelsFor L).zip lat).lookup l).getD 0
  else none

/-- The accumulators of `tally`. -/
structure Sums where
  total : ℤ
  refSum : Label → ℚ
  designSum : Design → ℚ

/-- What the loop starts from. -/
def Sums.zero : Sums := ⟨0, fun _ => 0, fun _ => 0⟩

/-- One turn of the loop. -/
def Sums.add (L : Levels) (s : Sums) (d : Label → ℤ) (count : ℤ) : Sums where
  total := s.total + count
  refSum l := s.refSum l + d l * count
  designSum n := s.designSum n + n.formula L d * count

/-- The loop over the records. -/
def tallySums (L : Levels) (project : List CacheResult → Option (List CacheResult)) :
    Sums → List Record → Option Sums
  | s, [] => some s
  | s, r :: records => do
    let refs ← project r.refs
    let d ← walkCosts L refs
    tallySums L project (s.add L d r.count) records

/-- The result of `tally`. -/
structure Tally where
  total : ℤ
  byLabel : Label → ℚ
  byDesign : Design → ℚ

/-- The last lines of `tally`, which divide by the number of walks. -/
def Sums.average (s : Sums) : Option Tally :=
  if s.total = 0 then none
  else some ⟨s.total, fun l => s.refSum l / s.total, fun n => s.designSum n / s.total⟩

/-- `tally` with a projection of the references. -/
def tallyWith (project : List CacheResult → Option (List CacheResult)) (L : Levels)
    (records : List Record) : Option Tally :=
  (tallySums L project .zero records).bind Sums.average

/-- `tally` without a projection. -/
def tally (L : Levels) (records : List Record) : Option Tally := tallyWith some L records

/-- `derive_thp` -/
def deriveThp (refs : List CacheResult) : Option (List CacheResult) :=
  (labelsFor .huge).mapM fun l => ((labelsFor .base).zip refs).lookup l

/-! ### Sums over records -/

section Sums

variable {L : Levels} {project : List CacheResult → Option (List CacheResult)}

/-- The latencies that the loop reads from a record. -/
def Record.costs (L : Levels) (project : List CacheResult → Option (List CacheResult))
    (r : Record) : Option (Label → ℤ) :=
  (project r.refs).bind (walkCosts L)

theorem tallySums_cons (s : Sums) (r : Record) (records : List Record) :
    tallySums L project s (r :: records) =
      (r.costs L project).bind fun d => tallySums L project (s.add L d r.count) records := by
  simp only [tallySums, Record.costs, Option.bind_assoc]
  rfl

/-- The loop ends exactly when each record has its latencies. -/
theorem isSome_tallySums (s : Sums) (records : List Record) :
    (tallySums L project s records).isSome ↔ ∀ r ∈ records, (r.costs L project).isSome := by
  induction records generalizing s with
  | nil => simp [tallySums]
  | cons r records ih =>
    rw [tallySums_cons, List.forall_mem_cons]
    cases hd : r.costs L project with
    | none => simp
    | some d => simpa using ih (s.add L d r.count)

theorem tallySums_total {s s' : Sums} {records : List Record}
    (h : tallySums L project s records = some s') :
    s'.total = s.total + (records.map Record.count).sum := by
  induction records generalizing s with
  | nil =>
    cases h
    simp
  | cons r records ih =>
    rw [tallySums_cons, Option.bind_eq_some_iff] at h
    obtain ⟨d, -, h⟩ := h
    rw [ih h, List.map_cons, List.sum_cons, ← add_assoc]
    rfl

theorem tallySums_total_pos {s : Sums} {records : List Record} (hne : records ≠ [])
    (hcount : ∀ r ∈ records, 0 < r.count) (h : tallySums L project .zero records = some s) :
    0 < s.total := by
  rw [tallySums_total h]
  refine lt_of_lt_of_eq (List.sum_pos _ ?_ (by simpa using hne)) (zero_add _).symm
  intro c hc
  obtain ⟨r, hr, rfl⟩ := List.mem_map.mp hc
  exact hcount r hr

/-- A design that costs something on every walk has a positive sum. -/
theorem designSum_le {s s' : Sums} {records : List Record} {n : Design}
    (h : tallySums L project s records = some s') (hcount : ∀ r ∈ records, 0 < r.count)
    (hpos : ∀ r ∈ records, ∀ d, r.costs L project = some d → 0 < n.formula L d) :
    s.designSum n + records.length ≤ s'.designSum n := by
  induction records generalizing s with
  | nil =>
    cases h
    simp
  | cons r records ih =>
    rw [tallySums_cons, Option.bind_eq_some_iff] at h
    obtain ⟨d, hd, h⟩ := h
    rw [List.forall_mem_cons] at hcount hpos
    have hrest := ih h hcount.2 hpos.2
    have hone : (1 : ℚ) ≤ n.formula L d * r.count := by
      exact_mod_cast Int.mul_pos (hpos.1 d hd) hcount.1
    have hadd : (s.add L d r.count).designSum n = s.designSum n + n.formula L d * r.count := rfl
    rw [hadd] at hrest
    rw [List.length_cons, Nat.cast_succ]
    linarith

/-- The averages exist when the records have their latencies and there is a walk. -/
theorem tallyWith_eq_some_iff {t : Tally} {records : List Record} :
    tallyWith project L records = some t ↔
      ∃ s, tallySums L project .zero records = some s ∧ s.total ≠ 0 ∧
        t = ⟨s.total, fun l => s.refSum l / s.total, fun n => s.designSum n / s.total⟩ := by
  rw [tallyWith, Option.bind_eq_some_iff]
  refine exists_congr fun s => and_congr_right fun _ => ?_
  rw [Sums.average]
  split_ifs with htotal
  · simp [htotal]
  · simp [htotal, eq_comm]

theorem tallyWith_total {t : Tally} {records : List Record}
    (h : tallyWith project L records = some t) :
    t.total = (records.map Record.count).sum ∧ t.total ≠ 0 := by
  obtain ⟨s, hs, htotal, rfl⟩ := tallyWith_eq_some_iff.mp h
  refine ⟨?_, htotal⟩
  rw [tallySums_total hs]
  exact zero_add _

/-- Records that all have latencies have averages, and a design that costs something on
every walk has a positive one. -/
theorem exists_tallyWith {records : List Record} (hne : records ≠ [])
    (hcount : ∀ r ∈ records, 0 < r.count)
    (hcosts : ∀ r ∈ records, ∃ d, r.costs L project = some d ∧ ∀ n : Design, 0 < n.formula L d) :
    ∃ t, tallyWith project L records = some t ∧ 0 < t.total ∧ ∀ n, 0 < t.byDesign n := by
  have hsome : (tallySums L project .zero records).isSome := by
    rw [isSome_tallySums]
    intro r hr
    obtain ⟨d, hd, -⟩ := hcosts r hr
    simp [hd]
  obtain ⟨s, hs⟩ := Option.isSome_iff_exists.mp hsome
  have htotal : 0 < s.total := tallySums_total_pos hne hcount hs
  refine ⟨_, tallyWith_eq_some_iff.mpr ⟨s, hs, htotal.ne', rfl⟩, htotal, fun n => ?_⟩
  have hsum := designSum_le hs hcount (n := n) fun r hr d hd => by
    obtain ⟨d', hd', hpos⟩ := hcosts r hr
    rw [hd'] at hd
    cases hd
    exact hpos n
  have hlen : (0 : ℚ) < records.length := Nat.cast_pos.mpr (List.length_pos_iff.mpr hne)
  have hzero : Sums.zero.designSum n = 0 := rfl
  rw [hzero, zero_add] at hsum
  exact div_pos (hlen.trans_le hsum) (by exact_mod_cast htotal)

end Sums

end SagePTE.Analysis
