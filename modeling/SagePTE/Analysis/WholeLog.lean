import SagePTE.Analysis.Costs
import SagePTE.Analysis.Log
import SagePTE.Simulator.Steps

/-!
# Averages over a whole log

The histogram of a dump counts all walks since the run began, and each heartbeat
prints it again. Parsing the whole log therefore counts a walk once for every dump
after it. This file says when that makes no difference to `tally`, and that the logs
considered are the ones that runs print.

## Main definitions

* `heartbeatAt`, `printedLines` — the dumps of a run

## Main results

* `exists_log_of_run` — a run without warm-up prints a cumulative log
* `Record.costs_eq_none_iff` — the records for which `tally` raises
* `tally_wholeLog_eq_iff` — the whole log and the last dump
-/

set_option autoImplicit false

namespace SagePTE.Analysis

open Simulator Lines

/-! ### The dumps of a run -/

namespace Grows

theorem refl (h : Histogram) : Grows h h := fun e he => ⟨e, he, rfl, le_refl _⟩

theorem trans {h h' h'' : Histogram} (hl : Grows h h') (hr : Grows h' h'') : Grows h h'' := by
  intro e he
  obtain ⟨e', he', hkey', hle'⟩ := hl e he
  obtain ⟨e'', he'', hkey'', hle''⟩ := hr e' he'
  exact ⟨e'', he'', hkey''.trans hkey', hle'.trans hle''⟩

theorem cons {h h' : Histogram} (e : List CacheResult × ℕ) (hl : Grows h h') :
    Grows (e :: h) (e :: h') := by
  intro a ha
  rcases List.mem_cons.mp ha with rfl | ha
  · exact ⟨a, by simp, rfl, le_refl _⟩
  · obtain ⟨e', he', hkey, hle⟩ := hl a ha
    exact ⟨e', by simp [he'], hkey, hle⟩

/-- One more walk. -/
theorem bump (v : List CacheResult) (h : Histogram) : Grows h (h.bump v) := by
  induction h with
  | nil => simp [Grows]
  | cons e h ih =>
    obtain ⟨u, n⟩ := e
    rw [Histogram.bump]
    split_ifs with hu hlt
    · intro a ha
      rcases List.mem_cons.mp ha with rfl | ha
      · exact ⟨(u, n + 1), by simp, rfl, Nat.le_succ n⟩
      · exact ⟨a, by simp [ha], rfl, le_refl _⟩
    · exact fun a ha => ⟨a, List.mem_cons_of_mem _ ha, rfl, le_refl _⟩
    · exact ih.cons (u, n)

end Grows

theorem count_pos_bump {h : Histogram} (hpos : ∀ e ∈ h, 0 < e.2) (v : List CacheResult) :
    ∀ e ∈ h.bump v, 0 < e.2 := by
  induction h with
  | nil => simp [Histogram.bump]
  | cons e h ih =>
    rw [List.forall_mem_cons] at hpos
    rw [Histogram.bump]
    split_ifs
    · rw [List.forall_mem_cons]
      exact ⟨Nat.succ_pos _, hpos.2⟩
    · rw [List.forall_mem_cons, List.forall_mem_cons]
      exact ⟨Nat.one_pos, hpos⟩
    · rw [List.forall_mem_cons]
      exact ⟨hpos.1, ih hpos.2⟩

/-- `SIMULATOR_HEARTBEAT_FREQ` -/
def heartbeatFreq : ℕ := 22

/-- How many heartbeats a run over the trace has. -/
def heartbeats (trace : List Memref) : ℕ := trace.length / 2 ^ heartbeatFreq

/-- How many records are processed before a heartbeat. The counter is compared before the
record that it has just counted is processed. -/
def heartbeatAt (i : ℕ) : ℕ := (i + 1) * 2 ^ heartbeatFreq - 1

theorem heartbeatAt_mono {i j : ℕ} (h : i ≤ j) : heartbeatAt i ≤ heartbeatAt j := by
  unfold heartbeatAt
  generalize 2 ^ heartbeatFreq = period
  gcongr

/-- The lines a run prints, with any other lines between the histograms. -/
def printedLines (C : SimConfig) (trace : List Memref) (notes : ℕ → List Note)
    (trailer : List Note) : List (List Char) :=
  (List.range (heartbeats trace)).flatMap (fun i =>
      dumpLines (notes i) (C.run (trace.take (heartbeatAt i))).hm) ++
    dumpLines (notes (heartbeats trace)) (C.run trace).hm ++ trailer.map Note.text

section Runs

variable {C : SimConfig} {trace : List Memref}

theorem hm_count_pos (trace : List Memref) : ∀ e ∈ (C.run trace).hm, 0 < e.2 := by
  refine C.run_steps_induction (P := fun σ => ∀ e ∈ σ.hm, 0 < e.2) (by simp [SimConfig.initial])
    fun s _ hpos => ?_
  rw [SimState.processMemref_hm]
  split_ifs
  · simp
  · cases s.1.walkVector C s.2 with
    | none => exact hpos
    | some v => exact count_pos_bump hpos v

/-- Without the end of a warm-up, a histogram only grows. -/
theorem hm_take_grows (hno : ∀ s ∈ C.steps trace, s.1.resets C s.2 = false) {i j : ℕ}
    (hij : i ≤ j) : Grows (C.run (trace.take i)).hm (C.run (trace.take j)).hm := by
  let g (h : Histogram) (s : SimState × Memref) : Histogram :=
    (s.1.walkVector C s.2).elim h fun v => h.bump v
  have hhm (n : ℕ) : (C.run (trace.take n)).hm = ((C.steps trace).take n).foldl g [] := by
    rw [← C.steps_take]
    refine C.apply_run (f := SimState.hm) fun s hs => ?_
    rw [C.steps_take] at hs
    simp [SimState.processMemref_hm, hno s (List.mem_of_mem_take hs), g]
  have hgrows (l : List (SimState × Memref)) (h : Histogram) : Grows h (l.foldl g h) := by
    induction l generalizing h with
    | nil => exact .refl h
    | cons s l ih =>
      refine Grows.trans ?_ (ih (g h s))
      simp only [g]
      cases s.1.walkVector C s.2 with
      | none => exact .refl h
      | some v => exact .bump v h
  have hsplit : (C.steps trace).take j =
      (C.steps trace).take i ++ ((C.steps trace).take j).drop i := by
    conv_lhs => rw [← List.take_append_drop i ((C.steps trace).take j)]
    rw [List.take_take, min_eq_left hij]
  rw [hhm, hhm, hsplit, List.foldl_append]
  exact hgrows _ _

/-- Dumps at any points of a run in which no warm-up ends make a cumulative log. -/
theorem exists_log_of_dumps (hno : ∀ s ∈ C.steps trace, s.1.resets C s.2 = false) (n : ℕ)
    {point : ℕ → ℕ} (hpoint : ∀ {i j}, i ≤ j → point i ≤ point j) (notes : ℕ → List Note)
    (trailer : List Note) :
    ∃ log : Log, log.lines =
        (List.range n).flatMap (fun i => dumpLines (notes i) (C.run (trace.take (point i))).hm) ++
          dumpLines (notes n) (C.run trace).hm ++ trailer.map Note.text ∧
      ∀ d ∈ log.interim ++ [log.final], ∃ i, d.hist = (C.run (trace.take i)).hm := by
  let dump (i : ℕ) : Dump := ⟨notes i, (C.run (trace.take (point i))).hm, hm_count_pos _⟩
  let final : Dump := ⟨notes n, (C.run trace).hm, hm_count_pos _⟩
  have hfinal (i : ℕ) : Grows (dump i).hist final.hist := by
    have hall := hm_take_grows hno (le_max_left (point i) trace.length)
    rwa [List.take_of_length_le (le_max_right _ trace.length)] at hall
  refine ⟨⟨(List.range n).map dump, final, trailer, ?_⟩, ?_, ?_⟩
  · rw [List.pairwise_append, List.pairwise_map]
    refine ⟨List.pairwise_lt_range.imp fun hlt => hm_take_grows hno (hpoint hlt.le),
      List.pairwise_singleton _ _, ?_⟩
    intro d hd d' hd'
    obtain ⟨i, -, rfl⟩ := List.mem_map.mp hd
    rw [List.mem_singleton.mp hd']
    exact hfinal i
  · simp only [Log.lines, List.flatMap_map]
    rfl
  · intro d hd
    rcases List.mem_append.mp hd with hd | hd
    · obtain ⟨i, -, rfl⟩ := List.mem_map.mp hd
      exact ⟨point i, rfl⟩
    · rw [List.mem_singleton.mp hd]
      exact ⟨trace.length, by rw [List.take_length]⟩

/-- **The log of a run.** A run in which no warm-up ends prints a cumulative log, and each
dump shows the histogram of a part of the run. -/
theorem exists_log_of_run (hno : ∀ s ∈ C.steps trace, s.1.resets C s.2 = false)
    (notes : ℕ → List Note) (trailer : List Note) :
    ∃ log : Log, log.lines = printedLines C trace notes trailer ∧
      ∀ d ∈ log.interim ++ [log.final], ∃ i, d.hist = (C.run (trace.take i)).hm :=
  exists_log_of_dumps hno (heartbeats trace) heartbeatAt_mono notes trailer

end Runs

/-! ### The whole log and its last dump -/

theorem Dump.records_count_pos (d : Dump) : ∀ r ∈ d.records, 0 < r.count := by
  intro r hr
  obtain ⟨e, he, hrec⟩ := List.mem_filterMap.mp hr
  rw [histRecord] at hrec
  split_ifs at hrec
  cases hrec
  exact Int.natCast_pos.mpr (d.count_pos e he)

/-- A dump without records has only grown out of dumps without records. -/
theorem Dump.records_eq_nil_of_grows {d d' : Dump} (h : Grows d.hist d'.hist)
    (hnil : d'.records = []) : d.records = [] := by
  rw [records, List.filterMap_eq_nil_iff] at hnil ⊢
  intro e he
  obtain ⟨e', he', hkey, -⟩ := h e he
  have hnone := hnil e' he'
  rw [histRecord, hkey] at hnone
  rw [histRecord]
  split_ifs at hnone ⊢
  rfl

theorem eq_nil_of_sum_count_eq_zero {records : List Record} (hpos : ∀ r ∈ records, 0 < r.count)
    (hsum : (records.map Record.count).sum = 0) : records = [] := by
  cases records with
  | nil => rfl
  | cons r records =>
    rw [List.forall_mem_cons] at hpos
    have hrest : 0 ≤ (records.map Record.count).sum := List.sum_nonneg fun n hn => by
      obtain ⟨r', hr', rfl⟩ := List.mem_map.mp hn
      exact (hpos.2 r' hr').le
    rw [List.map_cons, List.sum_cons] at hsum
    omega

theorem latency_eq_none_iff {ref : CacheResult} :
    latency ref = none ↔ ref = .rangeHit ∨ ref = .rangeMiss := by
  cases ref <;> simp [latency]

theorem mapM_latency_eq_none_iff {refs : List CacheResult} :
    refs.mapM latency = none ↔ .rangeHit ∈ refs ∨ .rangeMiss ∈ refs := by
  constructor
  · intro hnone
    by_contra hno
    obtain ⟨lats, hlats⟩ := Dict.exists_mapM_eq_some (f := latency) (l := refs) fun ref href => by
      rw [← Option.ne_none_iff_exists', ne_eq, latency_eq_none_iff]
      rintro (rfl | rfl)
      · exact hno (.inl href)
      · exact hno (.inr href)
    rw [hnone] at hlats
    cases hlats
  · intro hrange
    cases hlats : refs.mapM latency with
    | none => rfl
    | some lats =>
      rcases hrange with href | href
      · obtain ⟨lat, hlat⟩ := Dict.exists_eq_some_of_mapM hlats href
        cases hlat
      · obtain ⟨lat, hlat⟩ := Dict.exists_eq_some_of_mapM hlats href
        cases hlat

/-- The records for which `tally` raises. -/
theorem Record.costs_eq_none_iff {L : Levels} {r : Record} :
    r.costs L some = none ↔
      r.refs.length ≠ (labelsFor L).length ∨ .rangeHit ∈ r.refs ∨ .rangeMiss ∈ r.refs := by
  rw [← mapM_latency_eq_none_iff, Record.costs, Option.bind_some, walkCosts]
  cases hlats : r.refs.mapM latency with
  | none => simp
  | some lats => simp [Dict.length_of_mapM hlats]

theorem tally_eq_none_of_mem {L : Levels} {records : List Record} {r : Record}
    (hr : r ∈ records) (h : r.costs L some = none) : tally L records = none := by
  have hfails : ¬(tallySums L some .zero records).isSome := by
    rw [isSome_tallySums]
    intro hall
    simpa [h] using hall r hr
  rw [tally, tallyWith, Option.not_isSome_iff_eq_none.mp hfails, Option.bind_none]

theorem exists_tally_eq_some {L : Levels} {records : List Record}
    (hcosts : ∀ r ∈ records, r.costs L some ≠ none)
    (hsum : (records.map Record.count).sum ≠ 0) : ∃ t, tally L records = some t := by
  have hsome : (tallySums L some .zero records).isSome := by
    rw [isSome_tallySums]
    exact fun r hr => Option.isSome_iff_ne_none.mpr (hcosts r hr)
  obtain ⟨s, hs⟩ := Option.isSome_iff_exists.mp hsome
  have htotal : s.total ≠ 0 := by
    rw [tallySums_total hs]
    simpa [Sums.zero] using hsum
  exact ⟨_, tallyWith_eq_some_iff.mpr ⟨s, hs, htotal, rfl⟩⟩

/-- **The whole log.** The direct use of the analyzer gives the averages and the total of
the last dump exactly when no earlier dump has a record, or when it raises for a record of the
last dump, which has another number of references or a range token among them. -/
theorem tally_wholeLog_eq_iff (log : Log) (L : Levels) :
    tally L (parseLog log.text) = ((lastDump log.text).map parseLog).bind (tally L) ↔
      (∀ d ∈ log.interim, d.records = []) ∨
        ∃ r ∈ log.final.records, r.refs.length ≠ (labelsFor L).length ∨
          .rangeHit ∈ r.refs ∨ .rangeMiss ∈ r.refs := by
  simp only [← Record.costs_eq_none_iff]
  rw [log.parseLog_text, log.parseLog_lastDump, Option.bind_some, ← List.flatMap_eq_nil_iff]
  set earlier := log.interim.flatMap Dump.records with hearlier
  have hpos : ∀ r ∈ earlier, 0 < r.count := by
    intro r hr
    obtain ⟨d, -, hd⟩ := List.mem_flatMap.mp hr
    exact d.records_count_pos r hd
  constructor
  · intro heq
    by_cases hcosts : ∃ r ∈ log.final.records, r.costs L some = none
    · exact .inr hcosts
    left
    by_cases hsum : (log.final.records.map Record.count).sum = 0
    · -- a last dump without records has grown out of dumps without records
      have hnil := eq_nil_of_sum_count_eq_zero log.final.records_count_pos hsum
      rw [hearlier, List.flatMap_eq_nil_iff]
      intro d hd
      have hgrows := (List.pairwise_append.mp log.cumulative).2.2 d hd log.final (by simp)
      exact Dump.records_eq_nil_of_grows hgrows hnil
    · -- equal totals leave nothing for the earlier dumps
      obtain ⟨t, hfinal⟩ := exists_tally_eq_some (L := L)
        (fun r hr hnone => hcosts ⟨r, hr, hnone⟩) hsum
      rw [hfinal] at heq
      have hwhole := (tallyWith_total heq).1
      rw [(tallyWith_total hfinal).1, List.map_append, List.sum_append] at hwhole
      exact eq_nil_of_sum_count_eq_zero hpos (by omega)
  · rintro (hnil | ⟨r, hr, hnone⟩)
    · rw [hnil, List.nil_append]
    · rw [tally_eq_none_of_mem hr hnone,
        tally_eq_none_of_mem (List.mem_append_right earlier hr) hnone]

/-- The first walk finds everything in the L1 cache and is printed by one heartbeat. The
second walk goes to memory. The whole log counts three walks, and its average of nested
paging is lower. -/
theorem heartbeat_counts_walk_twice :
    ∃ log : Log,
      (log.interim.map Dump.hist, log.final.hist) =
        ([[(uniformWalk .foundL1, 1)]],
          [(uniformWalk .notFound, 1), (uniformWalk .foundL1, 1)]) ∧
      (tally .base (parseLog log.text)).map (fun t => (t.total, t.byDesign .npw)) =
        some (3, 1664) ∧
      (((lastDump log.text).map parseLog).bind (tally .base)).map
        (fun t => (t.total, t.byDesign .npw)) = some (2, 2448) := by
  let interim : Dump := ⟨[], [(uniformWalk .foundL1, 1)], by simp⟩
  let final : Dump := ⟨[], [(uniformWalk .notFound, 1), (uniformWalk .foundL1, 1)], by simp⟩
  refine ⟨⟨[interim], final, [], ?_⟩, rfl, ?_, ?_⟩
  · simp [Grows, interim, final]
  · rw [Log.parseLog_text]
    decide +kernel
  · rw [Log.parseLog_lastDump]
    decide +kernel

end SagePTE.Analysis
