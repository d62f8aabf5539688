import Mathlib.Data.List.DropRight
import Mathlib.Data.List.Infix
import SagePTE.Analysis.WalkStats
import SagePTE.Lib.Lines
import SagePTE.Lib.Scan
import SagePTE.Simulator.CacheSimulator

/-!
# The log of the simulator

`print_results` writes the counters of all devices, the line `Page Walk Statistics:`
and one line per recorded walk. It runs at every heartbeat and once at the end, so a
log is a sequence of such dumps. `parse_log` takes every line of a log that looks
like a walk record, whichever dump it stands in; `analyze_log.sh` keeps the part of
the log from the last header on.

## Main definitions

* `histLine`, `Dump`, `Log` — what the simulator prints
* `parseLog` — `parse_log`
* `lastDump` — what `analyze_log.sh` hands to the analyzer

## Main results

* `parseLog_text` — the whole log gives the records of all dumps
* `parseLog_lastDump` — the last dump gives its own records
* `parseLog_histogram` — one histogram among any lines without a tab
-/

set_option autoImplicit false

namespace SagePTE.Analysis

open Simulator Lines Numerals Scan

/-! ### Printing -/

/-- `print_hm_stats` -/
def resultName : CacheResult → List Char
  | .notFound => ['M', 'E', 'M', 'O', 'R', 'Y']
  | .foundL1 => ['L', '1']
  | .foundL2 => ['L', '2']
  | .foundLlc => ['L', 'L', 'C']
  | .wrong => ['W', 'R', 'O', 'N', 'G']
  | .rangeHit => ['R', 'A', 'N', 'G', 'E', '_', 'H', 'I', 'T']
  | .rangeMiss => ['R', 'A', 'N', 'G', 'E', '_', 'M', 'I', 'S', 'S']
  | .pwc => ['P', 'W', 'C']
  | .zero => ['Z', 'E', 'R', 'O']

/-- `Page Walk Statistics:` -/
def statsHeader : List Char :=
  ['P', 'a', 'g', 'e', ' ', 'W', 'a', 'l', 'k', ' ',
    'S', 't', 'a', 't', 'i', 's', 't', 'i', 'c', 's', ':']

/-- The line of one entry of the histogram: every name is followed by a comma. -/
def histLine (e : List CacheResult × ℕ) : List Char :=
  unlines ',' (e.1.map resultName) ++ '\t' :: Nat.toDigits 10 e.2

/-- A line that ends a line for a reader in text mode. -/
def isLineEnd (c : Char) : Bool := c = '\n' || c = '\r'

/-- The line is the one that `grep` looks for. -/
def hasHeader (line : List Char) : Bool := decide (statsHeader <:+: line)

/-- A line of a log that is neither a walk record nor a header, such as a counter of a
device. None of them has a tab. -/
structure Note where
  text : List Char
  no_lineEnd : ∀ c ∈ text, isLineEnd c = false
  no_tab : '\t' ∉ text
  no_header : hasHeader text = false

/-- The end of `print_results`, after what was printed before. -/
def dumpLines (notes : List Note) (hist : Histogram) : List (List Char) :=
  notes.map Note.text ++ statsHeader :: hist.map histLine

/-- One run of `print_results`, with what was printed before the histogram. -/
structure Dump where
  notes : List Note
  hist : Histogram
  count_pos : ∀ e ∈ hist, 0 < e.2

/-- The lines of a dump. -/
def Dump.lines (d : Dump) : List (List Char) := dumpLines d.notes d.hist

/-- What one histogram counted is counted in the other. -/
def Grows (h h' : Histogram) : Prop := ∀ e ∈ h, ∃ e' ∈ h', e'.1 = e.1 ∧ e.2 ≤ e'.2

/-- A log: the dumps of the heartbeats, the dump at the end, and what is printed after
it. A histogram only grows from one dump to a later one. -/
structure Log where
  interim : List Dump
  final : Dump
  trailer : List Note
  cumulative : (interim ++ [final]).Pairwise fun d d' => Grows d.hist d'.hist

namespace Log

variable (log : Log)

/-- The lines of a log. -/
def lines : List (List Char) :=
  log.interim.flatMap Dump.lines ++ log.final.lines ++ log.trailer.map Note.text

/-- A log as a file. -/
def text : List Char := unlines '\n' log.lines

end Log

/-! ### Parsing -/

/-- `str.isspace` -/
def isPySpace (c : Char) : Bool :=
  let n := c.toNat
  9 ≤ n ∧ n ≤ 13 ∨ 28 ≤ n ∧ n ≤ 32 ∨ n = 133 ∨ n = 160 ∨ n = 5760 ∨ 8192 ≤ n ∧ n ≤ 8202 ∨
    n = 8232 ∨ n = 8233 ∨ n = 8239 ∨ n = 8287 ∨ n = 12288

/-- `str.strip` -/
def strip (text : List Char) : List Char := (text.dropWhile isPySpace).rdropWhile isPySpace

/-- `int` of a text: a sign, and digits that may be grouped by underscores. Digits of
other scripts are not considered. -/
def pyInt (text : List Char) : Option ℤ :=
  let (negative, digits) := takeSign (strip text)
  let groups := digits.splitOn '_'
  if groups.all fun g => !g.isEmpty && g.all (isDigit 10) then
    some (if negative then -(value 10 groups.flatten : ℤ) else value 10 groups.flatten)
  else none

/-- `TOKENS`: the keys of `LATENCY` and the range flags. -/
def tokens : List (List Char × CacheResult) :=
  [(['P', 'W', 'C'], .pwc), (['L', '1'], .foundL1), (['L', '2'], .foundL2),
    (['L', 'L', 'C'], .foundLlc), (['M', 'E', 'M', 'O', 'R', 'Y'], .notFound),
    (['Z', 'E', 'R', 'O'], .zero), (['W', 'R', 'O', 'N', 'G'], .wrong),
    (['R', 'A', 'N', 'G', 'E', '_', 'H', 'I', 'T'], .rangeHit),
    (['R', 'A', 'N', 'G', 'E', '_', 'M', 'I', 'S', 'S'], .rangeMiss)]

/-- A trailing range flag is taken off. -/
def splitFlag (toks : List CacheResult) : List CacheResult × Option CacheResult :=
  if toks.getLast? = some .rangeHit ∨ toks.getLast? = some .rangeMiss then
    (toks.dropLast, toks.getLast?)
  else (toks, none)

/-- One line of the log, where `none` is `continue`. -/
def parseLine (rawLine : List Char) : Option Record :=
  let line := strip rawLine
  if '\t' ∉ line ∨ ',' ∉ line then none
  else
    (splitLast '\t' line).bind fun parts =>
      (((parts.1.splitOn ',').filter fun t => !t.isEmpty).mapM fun t => tokens.lookup t).bind
        fun toks =>
          if toks = [] then none
          else (pyInt parts.2).map fun count => ⟨(splitFlag toks).1, (splitFlag toks).2, count⟩

/-- `parse_log` -/
def parseLog (text : List Char) : List Record := (text.splitOnP isLineEnd).filterMap parseLine

/-- `analyze_log.sh`: the text from the last line with the header on, if there is one. -/
def lastDump (text : List Char) : Option (List Char) :=
  (fromLast hasHeader (text.splitOn '\n')).map ['\n'].intercalate

/-! ### Lines of the histogram -/

/-- The record that the line of an entry stands for. An entry without results prints a
line that the parser does not take. -/
def histRecord (e : List CacheResult × ℕ) : Option Record :=
  if e.1 = [] then none else some ⟨(splitFlag e.1).1, (splitFlag e.1).2, e.2⟩

theorem lookup_resultName (r : CacheResult) : tokens.lookup (resultName r) = some r := by
  cases r <;> rfl

theorem mapM_lookup_resultName (rs : List CacheResult) :
    ((rs.map resultName).mapM fun t => tokens.lookup t) = some rs := by
  induction rs with
  | nil => rfl
  | cons r rs ih => simp [lookup_resultName, ih]

/-- A name starts with a letter. -/
theorem exists_resultName_eq_cons (r : CacheResult) :
    ∃ c cs, resultName r = c :: cs ∧ isPySpace c = false := by
  cases r <;> exact ⟨_, _, rfl, rfl⟩

theorem resultName_ne_nil (r : CacheResult) : resultName r ≠ [] := by
  obtain ⟨c, cs, h, -⟩ := exists_resultName_eq_cons r
  simp [h]

theorem comma_not_mem_resultName (r : CacheResult) : ',' ∉ resultName r := by
  cases r <;> decide

/-- The letters of a line are those of the names and of the count. -/
theorem not_mem_histLine {c : Char} (hname : ∀ r, c ∉ resultName r) (hcomma : c ≠ ',')
    (htab : c ≠ '\t') (hdigit : digitVal c = none) (e : List CacheResult × ℕ) :
    c ∉ histLine e := by
  have hcount := (isNumeral_decimal e.2).not_mem hdigit
  simp [histLine, unlines, hname, hcomma, htab, hcount]

/-- The tokens of a line, as the parser splits them. -/
theorem filter_splitOn_unlines (rs : List CacheResult) :
    ((unlines ',' (rs.map resultName)).splitOn ',').filter (fun t => !t.isEmpty) =
      rs.map resultName := by
  rw [splitOn_unlines (by simp [comma_not_mem_resultName])]
  simp [List.filter_append, List.filter_eq_self, resultName_ne_nil]

/-- The decimal digits are not spaces. -/
theorem isPySpace_of_isDigit {c : Char} (h : isDigit 10 c = true) : isPySpace c = false := by
  simp only [isDigit, digitVal] at h
  simp only [isPySpace, decide_eq_false_iff_not]
  -- letters have a value above nine
  split_ifs at h with hdec hlow hup
  · omega
  · simp at h
    omega
  · simp at h
    omega
  · cases h

theorem strip_eq_self {text : List Char} (hhead : ∀ c ∈ text.head?, isPySpace c = false)
    (hlast : ∀ c ∈ text.getLast?, isPySpace c = false) : strip text = text := by
  have hdrop : text.dropWhile isPySpace = text := by
    cases text with
    | nil => rfl
    | cons c text => simp [hhead c rfl]
  rw [strip, hdrop, List.rdropWhile_eq_self_iff]
  intro hne
  simp [hlast _ (List.getLast?_eq_getLast_of_ne_nil hne)]

/-- A numeral keeps its ends under `strip`. -/
theorem strip_append_numeral {text digits : List Char}
    (hhead : ∀ c ∈ text.head?, isPySpace c = false) (hdigits : IsNumeral 10 digits) :
    strip (text ++ digits) = text ++ digits := by
  apply strip_eq_self
  · intro c hc
    cases text with
    | nil =>
      obtain ⟨c', cs, rfl, hc'⟩ := hdigits.exists_cons
      cases hc
      exact isPySpace_of_isDigit hc'
    | cons c' text => exact hhead c hc
  · intro c hc
    rw [List.getLast?_append_of_ne_nil _ hdigits.ne_nil] at hc
    exact isPySpace_of_isDigit (hdigits.digits c (List.mem_of_getLast? hc))

theorem mem_of_mem_strip {text : List Char} {c : Char} (h : c ∈ strip text) : c ∈ text :=
  (List.dropWhile_suffix _).subset ((List.rdropWhile_prefix _ _).subset h)

/-- `int` reads back what was printed. -/
theorem pyInt_toDigits (n : ℕ) : pyInt (Nat.toDigits 10 n) = some n := by
  have hnum := isNumeral_decimal n
  have hstrip : strip (Nat.toDigits 10 n) = Nat.toDigits 10 n :=
    @strip_append_numeral [] _ (by simp) hnum
  have hsign : takeSign (Nat.toDigits 10 n) = (false, Nat.toDigits 10 n) := by
    simpa using takeSign_append hnum []
  have hsplit : (Nat.toDigits 10 n).splitOn '_' = [Nat.toDigits 10 n] :=
    List.splitOn_eq_singleton (hnum.not_mem rfl)
  have hdigits : (Nat.toDigits 10 n).all (isDigit 10) = true := List.all_eq_true.mpr hnum.digits
  simp [pyInt, hstrip, hsign, hsplit, hdigits, hnum.ne_nil, value_decimal]

/-- A line without a tab is skipped. -/
theorem parseLine_of_no_tab {line : List Char} (h : '\t' ∉ line) : parseLine line = none := by
  have hstrip : '\t' ∉ strip line := fun hmem => h (mem_of_mem_strip hmem)
  simp [parseLine, hstrip]

/-- The parser takes the line of an entry as the entry. -/
theorem parseLine_histLine (e : List CacheResult × ℕ) : parseLine (histLine e) = histRecord e := by
  obtain ⟨rs, n⟩ := e
  have hnum := isNumeral_decimal n
  cases rs with
  | nil =>
    -- `strip` takes the tab away
    have hstrip : strip (histLine ([], n)) = Nat.toDigits 10 n := by
      have htab : strip (histLine ([], n)) = strip (Nat.toDigits 10 n) := rfl
      rw [htab]
      exact @strip_append_numeral [] _ (by simp) hnum
    have hnotab : '\t' ∉ Nat.toDigits 10 n := hnum.not_mem rfl
    simp [parseLine, hstrip, hnotab, histRecord]
  | cons r rs =>
    obtain ⟨c, cs, hname, hc⟩ := exists_resultName_eq_cons r
    have hstrip : strip (histLine (r :: rs, n)) = histLine (r :: rs, n) := by
      rw [histLine, List.append_cons]
      exact strip_append_numeral (by simp [hname, hc]) hnum
    have hsplit := splitLast_append (hnum.not_mem rfl : '\t' ∉ Nat.toDigits 10 n)
      (unlines ',' ((r :: rs).map resultName))
    have hmem : '\t' ∈ histLine (r :: rs, n) ∧ ',' ∈ histLine (r :: rs, n) := by
      simp [histLine]
    simp only [parseLine, hstrip, hmem, not_true_eq_false, or_self, if_false]
    rw [histLine, hsplit, Option.bind_some, filter_splitOn_unlines, mapM_lookup_resultName]
    simp [histRecord, pyInt_toDigits]

/-! ### Dumps and logs -/

/-- The records of a dump. -/
def Dump.records (d : Dump) : List Record := d.hist.filterMap histRecord

theorem histLine_no_lineEnd (e : List CacheResult × ℕ) : ∀ c ∈ histLine e, isLineEnd c = false := by
  intro c hc
  have hnot (d : Char) (hname : ∀ r, d ∉ resultName r) (hcomma : d ≠ ',') (htab : d ≠ '\t')
      (hdigit : digitVal d = none) : c ≠ d := by
    rintro rfl
    exact not_mem_histLine hname hcomma htab hdigit e hc
  have hnl := hnot '\n' (fun r => by cases r <;> decide) (by decide) (by decide) rfl
  have hcr := hnot '\r' (fun r => by cases r <;> decide) (by decide) (by decide) rfl
  simp [isLineEnd, hnl, hcr]

/-- No name has a small letter, so the line of an entry is no header. -/
theorem hasHeader_histLine (e : List CacheResult × ℕ) : hasHeader (histLine e) = false := by
  rw [hasHeader, decide_eq_false_iff_not]
  intro hwithin
  have hmem : 'g' ∈ histLine e := hwithin.subset (by decide)
  exact not_mem_histLine (fun r => by cases r <;> decide) (by decide) (by decide) rfl e hmem

theorem filterMap_parseLine_notes (notes : List Note) :
    (notes.map Note.text).filterMap parseLine = [] := by
  rw [List.filterMap_eq_nil_iff]
  intro line hline
  obtain ⟨note, -, rfl⟩ := List.mem_map.mp hline
  exact parseLine_of_no_tab note.no_tab

theorem filterMap_parseLine_stats (hist : Histogram) :
    (statsHeader :: hist.map histLine).filterMap parseLine = hist.filterMap histRecord := by
  have hheader : parseLine statsHeader = none := parseLine_of_no_tab (by decide)
  rw [List.filterMap_cons_none hheader, List.filterMap_map]
  congr 1
  funext e
  exact parseLine_histLine e

theorem filterMap_parseLine_dump (d : Dump) : d.lines.filterMap parseLine = d.records := by
  rw [Dump.lines, dumpLines, List.filterMap_append, filterMap_parseLine_notes,
    filterMap_parseLine_stats]
  rfl

theorem Dump.lines_no_lineEnd (d : Dump) : ∀ line ∈ d.lines, ∀ c ∈ line, isLineEnd c = false := by
  intro line hline
  rcases List.mem_append.mp hline with hnote | hstats
  · obtain ⟨note, -, rfl⟩ := List.mem_map.mp hnote
    exact note.no_lineEnd
  · rcases List.mem_cons.mp hstats with rfl | hentry
    · have hall : statsHeader.all (fun c => !isLineEnd c) = true := rfl
      intro c hc
      simpa using List.all_eq_true.mp hall c hc
    · obtain ⟨e, -, rfl⟩ := List.mem_map.mp hentry
      exact histLine_no_lineEnd e

/-- A file of lines is parsed line by line. -/
theorem parseLog_unlines {lines : List (List Char)}
    (h : ∀ line ∈ lines, ∀ c ∈ line, isLineEnd c = false) :
    parseLog (unlines '\n' lines) = lines.filterMap parseLine := by
  have hempty : parseLine [] = none := parseLine_of_no_tab (by simp)
  rw [parseLog, splitOnP_unlines rfl h, List.filterMap_append]
  simp [hempty]

namespace Log

variable (log : Log)

theorem lines_no_lineEnd : ∀ line ∈ log.lines, ∀ c ∈ line, isLineEnd c = false := by
  intro line hline
  rcases List.mem_append.mp hline with hline | htrailer
  · rcases List.mem_append.mp hline with hinterim | hfinal
    · obtain ⟨d, -, hd⟩ := List.mem_flatMap.mp hinterim
      exact d.lines_no_lineEnd line hd
    · exact log.final.lines_no_lineEnd line hfinal
  · obtain ⟨note, -, rfl⟩ := List.mem_map.mp htrailer
    exact note.no_lineEnd

/-- **The whole log.** The parser returns the records of every dump. -/
theorem parseLog_text :
    parseLog log.text = log.interim.flatMap Dump.records ++ log.final.records := by
  rw [text, parseLog_unlines log.lines_no_lineEnd, lines, List.filterMap_append,
    List.filterMap_append, filterMap_parseLine_notes, List.append_nil, filterMap_parseLine_dump,
    List.filterMap_flatMap]
  simp only [filterMap_parseLine_dump]

/-- The lines from the last header on. -/
def lastLines : List (List Char) :=
  statsHeader :: (log.final.hist.map histLine ++ log.trailer.map Note.text)

theorem lines_eq_append : ∃ front, log.lines = front ++ log.lastLines := by
  refine ⟨log.interim.flatMap Dump.lines ++ log.final.notes.map Note.text, ?_⟩
  simp [lines, lastLines, Dump.lines, dumpLines]

/-- The script cuts the log at the header of the last dump. -/
theorem lastDump_text : lastDump log.text = some (unlines '\n' log.lastLines) := by
  obtain ⟨front, hlines⟩ := log.lines_eq_append
  have hnl : ∀ line ∈ log.lines, '\n' ∉ line := fun line hline hmem => by
    cases log.lines_no_lineEnd line hline '\n' hmem
  have hafter : ∀ line ∈ log.final.hist.map histLine ++ log.trailer.map Note.text ++ [[]],
      hasHeader line = false := by
    intro line hline
    rcases List.mem_append.mp hline with hline | hempty
    · rcases List.mem_append.mp hline with hentry | hnote
      · obtain ⟨e, -, rfl⟩ := List.mem_map.mp hentry
        exact hasHeader_histLine e
      · obtain ⟨note, -, rfl⟩ := List.mem_map.mp hnote
        exact note.no_header
    · rw [List.mem_singleton.mp hempty]
      rfl
  rw [lastDump, text, splitOn_unlines hnl, hlines, lastLines, List.append_assoc, List.cons_append,
    fromLast_append rfl hafter, Option.map_some, unlines_eq_intercalate, List.cons_append]

/-- **The last dump.** What `analyze_log.sh` keeps has the records of the last dump. -/
theorem parseLog_lastDump : (lastDump log.text).map parseLog = some log.final.records := by
  obtain ⟨front, hlines⟩ := log.lines_eq_append
  have hlast : ∀ line ∈ log.lastLines, ∀ c ∈ line, isLineEnd c = false := fun line hline =>
    log.lines_no_lineEnd line (by rw [hlines]; exact List.mem_append_right _ hline)
  rw [lastDump_text, Option.map_some, parseLog_unlines hlast, lastLines, ← List.cons_append,
    List.filterMap_append, filterMap_parseLine_stats, filterMap_parseLine_notes, List.append_nil]
  rfl

end Log

/-! ### A histogram among other lines -/

theorem parseLog_append_newline (front back : List Char) :
    parseLog (front ++ '\n' :: back) = parseLog front ++ parseLog back := by
  rw [parseLog, List.splitOnP_append_cons front back rfl, List.filterMap_append]
  rfl

/-- A text without a tab has no record, wherever its lines end. -/
theorem parseLog_of_no_tab {text : List Char} (h : '\t' ∉ text) : parseLog text = [] := by
  rw [parseLog, List.filterMap_eq_nil_iff]
  intro line hline
  exact parseLine_of_no_tab fun htab => h (subset_of_mem_splitOnP hline htab)

theorem parseLog_unlines_eq_flatMap (lines : List (List Char)) :
    parseLog (unlines '\n' lines) = lines.flatMap parseLog := by
  induction lines with
  | nil => exact parseLog_of_no_tab (by simp)
  | cons line lines ih =>
    rw [unlines_cons, parseLog_append_newline, ih, List.flatMap_cons]

theorem flatMap_parseLog_of_no_tab {lines : List (List Char)} (h : ∀ line ∈ lines, '\t' ∉ line) :
    lines.flatMap parseLog = [] :=
  List.flatMap_eq_nil_iff.2 fun line hline => parseLog_of_no_tab (h line hline)

/-- The record of a key that ends in a flag. -/
theorem histRecord_of_flag {e : List CacheResult × ℕ}
    (h : e.1.getLast? = some .rangeHit ∨ e.1.getLast? = some .rangeMiss) :
    histRecord e = some ⟨e.1.dropLast, e.1.getLast?, e.2⟩ := by
  have hne : e.1 ≠ [] := by
    intro hnil
    rw [hnil] at h
    simp at h
  rw [histRecord, if_neg hne, splitFlag, if_pos h]

theorem parseLog_histLine {e : List CacheResult × ℕ}
    (h : e.1.getLast? = some .rangeHit ∨ e.1.getLast? = some .rangeMiss) :
    parseLog (histLine e) = [⟨e.1.dropLast, e.1.getLast?, e.2⟩] := by
  have hsplit : (histLine e).splitOnP isLineEnd = [histLine e] :=
    List.splitOnP_eq_singleton (histLine_no_lineEnd e)
  rw [parseLog, hsplit, List.filterMap_cons_some, List.filterMap_nil]
  rw [parseLine_histLine, histRecord_of_flag h]

/-- **Round trip.** What `print_results` writes is parsed as one record for each key, in the
order of the lines. -/
theorem parseLog_histogram {before after : List (List Char)} {hist : Histogram}
    (hbefore : ∀ line ∈ before, '\t' ∉ line) (hafter : ∀ line ∈ after, '\t' ∉ line)
    (hflag : ∀ e ∈ hist, e.1.getLast? = some .rangeHit ∨ e.1.getLast? = some .rangeMiss) :
    parseLog (unlines '\n' (before ++ statsHeader :: hist.map histLine ++ after)) =
      hist.map fun e => ⟨e.1.dropLast, e.1.getLast?, e.2⟩ := by
  have hheader : parseLog statsHeader = [] := parseLog_of_no_tab (by decide)
  rw [parseLog_unlines_eq_flatMap, List.flatMap_append, List.flatMap_append,
    flatMap_parseLog_of_no_tab hbefore, flatMap_parseLog_of_no_tab hafter, List.flatMap_cons,
    hheader, List.append_nil, List.nil_append, List.nil_append, List.flatMap_map,
    List.map_eq_flatMap]
  exact List.flatMap_congr fun e he => parseLog_histLine (hflag e he)

/-- Two walks, the second of which was found in no range, after a line with a carriage return. -/
theorem parseLog_two_walks :
    parseLog (unlines '\n' ([['1', '0', '%', '\r', '2', '0', '%']] ++ statsHeader ::
      [([.foundL1, .rangeHit], 3), ([.pwc, .notFound, .rangeMiss], 18446744073709551615)].map
        histLine ++ [])) =
      [⟨[.foundL1], some .rangeHit, 3⟩,
        ⟨[.pwc, .notFound], some .rangeMiss, 18446744073709551615⟩] :=
  parseLog_histogram (by decide) (by decide) (by decide)

end SagePTE.Analysis
