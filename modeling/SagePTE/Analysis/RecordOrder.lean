import SagePTE.Analysis.Report

/-!
# The order of the records

The averages of `tally` are sums over the records, so their order does not matter. It
matters for the length that `analyze` takes from the first record: records of another
length are left out, whichever length is more frequent.

## Main results

* `tallyWith_perm`, `report_perm` — the averages and the report
* `analyze_perm_iff` — the order of all records matters unless they have one length
-/

set_option autoImplicit false

namespace SagePTE.Analysis

open Simulator

/-! ### Sums -/

section Perm

variable {L : Levels} {project : List CacheResult → Option (List CacheResult)}
  {records records' : List Record}

theorem Sums.add_swap (s : Sums) (d d' : Label → ℤ) (c c' : ℤ) :
    (s.add L d c).add L d' c' = (s.add L d' c').add L d c := by
  simp only [Sums.add, Sums.mk.injEq]
  refine ⟨add_right_comm _ _ _, ?_, ?_⟩
  · funext l
    exact add_right_comm _ _ _
  · funext n
    exact add_right_comm _ _ _

/-- The loop does not depend on the order of the records. -/
theorem tallySums_perm (h : records.Perm records') (s : Sums) :
    tallySums L project s records = tallySums L project s records' := by
  induction h generalizing s with
  | nil => rfl
  | cons r _ ih =>
    rw [tallySums_cons, tallySums_cons]
    exact Option.bind_congr fun d _ => ih (s.add L d r.count)
  | swap r r' records =>
    simp only [tallySums_cons]
    cases r.costs L project with
    | none => cases r'.costs L project <;> rfl
    | some d =>
      cases r'.costs L project with
      | none => rfl
      | some d' =>
        rw [Option.bind_some, Option.bind_some, Option.bind_some, Option.bind_some,
          Sums.add_swap]
  | trans _ _ ih ih' => rw [ih, ih']

theorem tallyWith_perm (h : records.Perm records') :
    tallyWith project L records = tallyWith project L records' := by
  rw [tallyWith, tallySums_perm h, tallyWith]

theorem rangeHits_perm (h : records.Perm records') : rangeHits records = rangeHits records' :=
  ((h.filter _).map Record.count).sum_eq

theorem report_perm (h : records.Perm records') (ref : Option PaperValues)
    (thpRef : Option (Option PaperValues)) :
    report L records ref thpRef = report L records' ref thpRef := by
  have htally : tally L records = tally L records' := tallyWith_perm h
  have hthp : tallyWith deriveThp .huge records = tallyWith deriveThp .huge records' :=
    tallyWith_perm h
  rw [report, report, htally, hthp, rangeHits_perm h]

/-- Records of one length are used in any order, and have one report. -/
theorem analyzeRecords_perm {n : ℕ} (hlen : ∀ r ∈ records, r.refs.length = n)
    (h : records.Perm records') (workload : Option Workload) (compare : Bool) :
    analyzeRecords records workload compare = analyzeRecords records' workload compare := by
  have hlen' : ∀ r ∈ records', r.refs.length = n := fun r hr => hlen r (h.mem_iff.2 hr)
  cases records with
  | nil => rw [List.nil_perm.1 h]
  | cons first rest =>
    cases records' with
    | nil => exact absurd h.length_eq (by simp)
    | cons first' rest' =>
      have hused := usedRecords_eq_self hlen
      have hused' := usedRecords_eq_self hlen'
      simp only [analyzeRecords, hused, hused', hlen first List.mem_cons_self,
        hlen' first' List.mem_cons_self, report_perm h]

end Perm

/-! ### The first record -/

/-- The first record is used, and no record of another length is. -/
theorem not_mem_usedRecords {first r : Record} {rest : List Record}
    (h : r.refs.length ≠ first.refs.length) : r ∉ usedRecords (first :: rest) := by
  intro hmem
  exact h (of_decide_eq_true (List.mem_filter.1 hmem).2)

theorem mem_usedRecords_self (first : Record) (rest : List Record) :
    first ∈ usedRecords (first :: rest) :=
  List.mem_filter.2 ⟨List.mem_cons_self, decide_eq_true rfl⟩

/-- **The order of the records** does not matter exactly if all have one length. -/
theorem analyze_perm_iff (records : List Record) :
    (∀ records', records.Perm records' →
        (usedRecords records).Perm (usedRecords records') ∧
          ∀ workload compare, analyzeRecords records workload compare =
            analyzeRecords records' workload compare) ↔
      ∀ r ∈ records, ∀ r' ∈ records, r.refs.length = r'.refs.length := by
  constructor
  · intro hperm r hr r' hr'
    by_contra hne
    -- with either record in front, the other one is left out
    have hfront {x y : Record} (hx : x ∈ records) (hxy : y.refs.length ≠ x.refs.length) :
        y ∉ usedRecords records := by
      have hused := (hperm _ (List.perm_cons_erase hx)).1
      rw [hused.mem_iff]
      exact not_mem_usedRecords hxy
    cases records with
    | nil => cases hr
    | cons first rest =>
      have hfirst := mem_usedRecords_self first rest
      rcases eq_or_ne first.refs.length r.refs.length with heq | hneq
      · exact hfront hr' (heq ▸ hne) hfirst
      · exact hfront hr hneq hfirst
  · intro hlen records' hp
    cases records with
    | nil =>
      rw [List.nil_perm.1 hp]
      exact ⟨.refl _, fun _ _ => rfl⟩
    | cons first rest =>
      have hall : ∀ r ∈ first :: rest, r.refs.length = first.refs.length := fun r hr =>
        hlen r hr first List.mem_cons_self
      refine ⟨?_, analyzeRecords_perm hall hp⟩
      rw [usedRecords_eq_self hall, usedRecords_eq_self fun r hr => hall r (hp.mem_iff.2 hr)]
      exact hp

/-- One walk of a 4 KB page. -/
def baseWalk : Record := ⟨List.replicate 24 .foundL1, some .rangeMiss, 1⟩

/-- Two walks of a 2 MB page. -/
def hugeWalks : Record := ⟨List.replicate 15 .notFound, some .rangeMiss, 2⟩

/-- The number of walks and the average cost of nested paging in a report. -/
def Outcome.nestedPaging : Outcome → Option (ℤ × ℚ)
  | .report r => some (r.own.tally.total, r.own.tally.byDesign .npw)
  | _ => none

/-- The report is about the record that is printed first. -/
theorem two_lengths_two_reports :
    usedRecords [baseWalk, hugeWalks] = [baseWalk] ∧
      usedRecords [hugeWalks, baseWalk] = [hugeWalks] ∧
      (analyzeRecords [baseWalk, hugeWalks] none false).bind Outcome.nestedPaging =
        some (1, 96) ∧
      (analyzeRecords [hugeWalks, baseWalk] none false).bind Outcome.nestedPaging =
        some (2, 3000) := by
  decide +kernel

end SagePTE.Analysis
