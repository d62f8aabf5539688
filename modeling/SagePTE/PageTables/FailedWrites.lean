import SagePTE.PageTables.Counters

/-!
# Writes that fail

A write to the input file fails where a buffer cannot be allocated, where the user's memory
cannot be read, and where the process of QEMU is not there. The last failure comes after the
text of the write has been cut at its last newline: the text behind it has replaced the
partial line, and the complete lines are lost. A write that is repeated then starts from
another partial line than the first time.

## Main definitions

* `Translator.Same` — the same variables
* `Translator.keptLine` — the partial line that a write without a process leaves

## Main results

* `Translator.Same.inputWrite` — a write from the same variables, where memory is there
* `Translator.failed_write_iff` — which failures leave everything as it was
-/

set_option autoImplicit false

namespace SagePTE.PageTables

open Lines

namespace Translator

variable {h : Host} (mm : Option Mm) {t t' : Translator}

/-! ### The same variables -/

/-- The variables are the same. The number of allocations so far is not one of them. -/
def Same (t t' : Translator) : Prop := { t' with allocs := t.allocs } = t

theorem Same.refl (t : Translator) : Same t t := rfl

theorem same_iff_exists : Same t t' ↔ ∃ n, t' = { t with allocs := n } := by
  constructor
  · intro hsame
    refine ⟨t'.allocs, ?_⟩
    rw [← hsame]
  · rintro ⟨n, rfl⟩
    rfl

namespace Same

theorem getOrTranslatePfn (halloc : ∀ n, h.alloc n = true) (hsame : Same t t') (pfn : BitVec 64) :
    (t.getOrTranslatePfn h mm pfn).1 = (t'.getOrTranslatePfn h mm pfn).1 ∧
      Same (t.getOrTranslatePfn h mm pfn).2 (t'.getOrTranslatePfn h mm pfn).2 := by
  obtain ⟨n, rfl⟩ := same_iff_exists.1 hsame
  simp only [Translator.getOrTranslatePfn, alloc, halloc, Bool.not_true, Bool.false_eq_true,
    if_false]
  split
  · exact ⟨rfl, rfl⟩
  · split
    · exact ⟨rfl, rfl⟩
    · cases (translateGpaToHpa t.guestRamBase mm (pfn <<< 12)).1 <;> exact ⟨rfl, rfl⟩

theorem addTranslationEntry (halloc : ∀ n, h.alloc n = true) (hsame : Same t t')
    (e : Translation) : Same (t.addTranslationEntry h e) (t'.addTranslationEntry h e) := by
  obtain ⟨n, rfl⟩ := same_iff_exists.1 hsame
  simp only [Translator.addTranslationEntry, alloc, halloc, Bool.not_true, Bool.false_eq_true,
    if_false]
  split <;> rfl

theorem processPfn (halloc : ∀ n, h.alloc n = true) (hsame : Same t t') (pfn : BitVec 64) :
    Same (t.processPfn h mm pfn) (t'.processPfn h mm pfn) := by
  obtain ⟨hfound, hstate⟩ := hsame.getOrTranslatePfn mm halloc pfn
  unfold Translator.processPfn
  split
  · exact hsame
  · generalize t.getOrTranslatePfn h mm pfn = r at hfound hstate ⊢
    generalize t'.getOrTranslatePfn h mm pfn = r' at hfound hstate ⊢
    obtain ⟨found, s⟩ := r
    obtain ⟨found', s'⟩ := r'
    obtain rfl : found = found' := hfound
    rcases found with - | ⟨e, - | -⟩
    · exact hstate
    · exact hstate
    · exact hstate.addTranslationEntry halloc _

theorem parseAndTranslate (halloc : ∀ n, h.alloc n = true) (hsame : Same t t')
    (line : List Char) :
    (t.parseAndTranslate h mm line).1 = (t'.parseAndTranslate h mm line).1 ∧
      Same (t.parseAndTranslate h mm line).2 (t'.parseAndTranslate h mm line).2 := by
  unfold Translator.parseAndTranslate
  split
  · exact ⟨rfl, hsame⟩
  · split
    · refine ⟨rfl, ?_⟩
      simp only [processEntry, List.foldl_cons, List.foldl_nil]
      iterate 5 refine Same.processPfn mm halloc ?_ _
      exact hsame
    · exact ⟨rfl, hsame⟩

theorem processLine (halloc : ∀ n, h.alloc n = true) (hsame : Same t t') (firstLine : Bool)
    (line : List Char) :
    (Translator.processLine h mm (firstLine, t) line).1 =
        (Translator.processLine h mm (firstLine, t') line).1 ∧
      Same (Translator.processLine h mm (firstLine, t) line).2
        (Translator.processLine h mm (firstLine, t') line).2 := by
  obtain ⟨hres, hstate⟩ := hsame.parseAndTranslate mm halloc line
  by_cases hnil : line = []
  · simp only [Translator.processLine, if_pos hnil]
    exact ⟨trivial, hsame⟩
  · simp only [Translator.processLine, if_neg hnil]
    cases firstLine with
    | true =>
      obtain ⟨n, rfl⟩ := same_iff_exists.1 hsame
      simp only [if_true]
      exact ⟨trivial, rfl⟩
    | false =>
      simp only [Bool.false_eq_true, if_false]
      generalize t.parseAndTranslate h mm line = r at hres hstate ⊢
      generalize t'.parseAndTranslate h mm line = r' at hres hstate ⊢
      obtain ⟨res, s⟩ := r
      obtain ⟨res', s'⟩ := r'
      obtain rfl : res = res' := hres
      obtain ⟨n, rfl⟩ := same_iff_exists.1 hstate
      cases res <;> exact ⟨rfl, rfl⟩

theorem foldl_processLine (halloc : ∀ n, h.alloc n = true) (hsame : Same t t') (firstLine : Bool)
    (lines : List (List Char)) :
    Same (lines.foldl (Translator.processLine h mm) (firstLine, t)).2
      (lines.foldl (Translator.processLine h mm) (firstLine, t')).2 := by
  induction lines generalizing firstLine t t' with
  | nil => exact hsame
  | cons line lines ih =>
    obtain ⟨hflag, hstate⟩ := hsame.processLine mm halloc firstLine line
    have hpair : Translator.processLine h mm (firstLine, t') line =
        ((Translator.processLine h mm (firstLine, t) line).1,
          (Translator.processLine h mm (firstLine, t') line).2) := Prod.ext hflag.symm rfl
    rw [List.foldl_cons, List.foldl_cons, hpair]
    exact ih hstate (Translator.processLine h mm (firstLine, t) line).1

theorem translateLines (halloc : ∀ n, h.alloc n = true) (hsame : Same t t') (mm : Mm)
    (firstLine : Bool) (lines : List (List Char)) :
    Same (t.translateLines h mm firstLine lines) (t'.translateLines h mm firstLine lines) := by
  have hloop := hsame.foldl_processLine (some mm) halloc firstLine lines
  unfold Translator.translateLines
  obtain ⟨n, hn⟩ := same_iff_exists.1 hloop
  dsimp only
  rw [hn]
  rfl

theorem keepRemaining (halloc : ∀ n, h.alloc n = true) (hsame : Same t t')
    (remaining : List Char) :
    Same (t.keepRemaining h remaining) (t'.keepRemaining h remaining) := by
  obtain ⟨n, rfl⟩ := same_iff_exists.1 hsame
  simp only [Translator.keepRemaining, alloc, halloc, if_true]
  split <;> rfl

/-- A write from the same variables, where memory is there, returns the same and leaves the same
variables. -/
theorem inputWrite (halloc : ∀ n, h.alloc n = true) (hsame : Same t t') (buffer : List Char)
    {ppos : ℕ} (hpos : ppos ≠ 0) :
    let r := t.inputWrite h false buffer ppos
    let r' := t'.inputWrite h false buffer ppos
    r.1 = r'.1 ∧ r.2.1 = r'.2.1 ∧ Same r.2.2 r'.2.2 := by
  intro r r'
  obtain ⟨n, rfl⟩ := same_iff_exists.1 hsame
  have hopen : t.openSession ppos = t := if_neg hpos
  have hopen' : { t with allocs := n }.openSession ppos = { t with allocs := n } := if_neg hpos
  have hbuffered : Same (t.buffered ppos) ({ t with allocs := n }.buffered ppos) := by
    rw [buffered, buffered, hopen, hopen']
    rfl
  have hr : r = _ := inputWrite_of_buffers h buffer (halloc _) (halloc _)
  have hr' : r' = _ := inputWrite_of_buffers h buffer (halloc _) (halloc _)
  have hproc : { t with allocs := n }.getQemuProcess h = t.getQemuProcess h := rfl
  rw [hopen] at hr
  rw [hopen', hproc] at hr'
  rw [hr, hr']
  cases splitLast '\n' (cString (t.partialLine ++ buffer)) with
  | none =>
    rw [buffered, buffered, hopen, hopen']
    exact ⟨rfl, rfl, rfl⟩
  | some p =>
    have hkept := hbuffered.keepRemaining halloc p.2
    cases t.getQemuProcess h with
    | none => exact ⟨rfl, rfl, hkept⟩
    | some P => exact ⟨rfl, rfl, hkept.translateLines halloc P.mm _ _⟩

end Same

/-! ### Failures -/

variable (h) in
/-- The partial line after a write that found no process: the text behind the last newline, if
there is memory for it. -/
def keptLine (buffer : List Char) (t : Translator) : List Char :=
  match splitLast '\n' (cString (t.partialLine ++ buffer)) with
  | none => cString (t.partialLine ++ buffer)
  | some (_, remaining) => if h.alloc (t.allocs + 2) then remaining else []

theorem keepRemaining_eq (remaining : List Char) (hline : t.partialLine = []) :
    Same { t with partialLine := if h.alloc t.allocs then remaining else [] }
      (t.keepRemaining h remaining) := by
  by_cases hnil : remaining = []
  · rw [Translator.keepRemaining, if_pos hnil, hnil, ite_self, ← hline]
    exact Same.refl t
  · have hkeep : t.keepRemaining h remaining = if h.alloc t.allocs then
        { t with partialLine := remaining, allocs := t.allocs + 1 }
        else { t with allocs := t.allocs + 1 } := by
      rw [Translator.keepRemaining, if_neg hnil]
      rfl
    rw [hkeep]
    split
    · rfl
    · rw [← hline]
      rfl

/-- With memory for its buffers, a write fails only where it has complete lines and the process
is not there. -/
theorem failed_write_of_buffers {buffer : List Char} {ppos : ℕ} (hpos : ppos ≠ 0)
    (hkbuf : h.alloc t.allocs = true) (hfull : h.alloc (t.allocs + 1) = true) {e : Errno}
    (herr : (t.inputWrite h false buffer ppos).1 = .error e) :
    e = .esrch ∧ (t.inputWrite h false buffer ppos).2.1 = ppos ∧
      Same { t with partialLine := t.keptLine h buffer }
        (t.inputWrite h false buffer ppos).2.2 := by
  have hopen : t.openSession ppos = t := if_neg hpos
  have hwrite : t.inputWrite h false buffer ppos = _ := inputWrite_of_buffers h buffer
    (by rw [hopen]; exact hkbuf) (by rw [hopen]; exact hfull)
  rw [hopen] at hwrite
  rw [hwrite] at herr ⊢
  cases hsplit : splitLast '\n' (cString (t.partialLine ++ buffer)) with
  | none => simp [hsplit] at herr
  | some p =>
    obtain ⟨complete, remaining⟩ := p
    cases hP : t.getQemuProcess h with
    | some P => simp [hsplit, hP] at herr
    | none =>
      simp only [hsplit, hP] at herr ⊢
      cases herr
      refine ⟨rfl, trivial, ?_⟩
      have hkept := keepRemaining_eq (h := h) (t := t.buffered ppos) remaining rfl
      rw [buffered, hopen] at hkept ⊢
      rw [keptLine, hsplit]
      obtain ⟨n, hn⟩ := same_iff_exists.1 hkept
      exact same_iff_exists.2 ⟨n, hn⟩

/-- A write that fails changes nothing but the partial line, and that only where the process is
not there. -/
theorem failed_write_cases {copyFaults : Bool} {buffer : List Char} {ppos : ℕ} (hpos : ppos ≠ 0)
    {e : Errno} (herr : (t.inputWrite h copyFaults buffer ppos).1 = .error e) :
    (t.inputWrite h copyFaults buffer ppos).2.1 = ppos ∧
      Same { t with partialLine := if e = .esrch then t.keptLine h buffer else t.partialLine }
        (t.inputWrite h copyFaults buffer ppos).2.2 := by
  have hopen : t.openSession ppos = t := if_neg hpos
  cases hkbuf : h.alloc t.allocs with
  | false =>
    simp only [inputWrite, hopen, alloc, hkbuf, Bool.not_false, if_true] at herr ⊢
    cases herr
    exact ⟨trivial, rfl⟩
  | true =>
    cases copyFaults with
    | true =>
      simp only [inputWrite, hopen, alloc, hkbuf, Bool.not_true, Bool.false_eq_true, if_false,
        if_true] at herr ⊢
      cases herr
      exact ⟨trivial, rfl⟩
    | false =>
      cases hfull : h.alloc (t.allocs + 1) with
      | false =>
        simp only [inputWrite, hopen, alloc, hkbuf, hfull, Bool.not_true, Bool.not_false,
          Bool.false_eq_true, if_false, if_true] at herr ⊢
        cases herr
        exact ⟨trivial, rfl⟩
      | true =>
        obtain ⟨hsrch, hoffset, hsame⟩ := failed_write_of_buffers hpos hkbuf hfull herr
        rw [if_pos hsrch]
        exact ⟨hoffset, hsame⟩

/-- Where only the partial line may have changed, it decides. -/
theorem same_iff_partialLine_eq {t' : Translator}
    (h : Same { t with partialLine := t'.partialLine } t') :
    Same t t' ↔ t'.partialLine = t.partialLine := by
  constructor
  · intro hunchanged
    obtain ⟨n, hn⟩ := same_iff_exists.1 hunchanged
    rw [hn]
  · intro heq
    rwa [heq] at h

/-- **Failed writes.** A write at another offset than zero that fails leaves the offset, the
store and the counters as they were. It leaves the partial line as it was exactly if the
process was there, or the text behind the last newline is the old partial line. Then the same
write, repeated where memory and process are there, does what it would have done at first. -/
theorem failed_write_iff {copyFaults : Bool} {buffer : List Char} {ppos : ℕ} (hpos : ppos ≠ 0)
    {e : Errno} (herr : (t.inputWrite h copyFaults buffer ppos).1 = .error e) :
    let t' : Translator := (t.inputWrite h copyFaults buffer ppos).2.2
    (t.inputWrite h copyFaults buffer ppos).2.1 = ppos ∧
      Same { t with partialLine := t'.partialLine } t' ∧
      (Same t t' ↔ e ≠ .esrch ∨ t.keptLine h buffer = t.partialLine) ∧
      (Same t t' → ∀ h' : Host, (∀ n, h'.alloc n = true) →
        let again := t'.inputWrite h' false buffer ppos
        let first := t.inputWrite h' false buffer ppos
        again.1 = first.1 ∧ again.2.1 = first.2.1 ∧ Same first.2.2 again.2.2 ∧
          again.2.2.entries = first.2.2.entries) := by
  intro t'
  obtain ⟨hoffset, hsame⟩ := failed_write_cases hpos herr
  obtain ⟨n, hn⟩ := same_iff_exists.1 hsame
  have hline : t'.partialLine = if e = .esrch then t.keptLine h buffer else t.partialLine :=
    congrArg partialLine hn
  refine ⟨hoffset, ?_, ?_, fun hunchanged h' halloc => ?_⟩
  · rw [hline]
    exact hsame
  · rw [same_iff_partialLine_eq (hline ▸ hsame), hline]
    by_cases hsrch : e = .esrch
    · rw [if_pos hsrch]
      exact ⟨.inr, fun hor => hor.resolve_left (not_not.2 hsrch)⟩
    · rw [if_neg hsrch]
      exact iff_of_true rfl (.inl hsrch)
  · obtain ⟨hres, hpos', hstate⟩ := hunchanged.inputWrite halloc buffer hpos
    refine ⟨hres.symm, hpos'.symm, hstate, ?_⟩
    obtain ⟨n', hn'⟩ := same_iff_exists.1 hstate
    rw [hn']
    rfl

/-- A host on which no process is left. -/
def emptyHost : Host where
  process _ := none
  alloc _ := true

/-- A session that has got to the middle of a record. -/
def halfRecord : Translator :=
  (sampleTranslator.inputWrite (hostWith loopMm) false ['1', '\n', '7', ',', 'a', ',', 'b'] 0).2.2

/-- The rest of the record, and the start of the next one. -/
def restOfRecord : List Char := [',', 'c', ',', 'd', ',', 'e', '\n', '8', ',', '1']

/-- No memory for the first buffer: the write can be repeated. -/
theorem failed_write_without_memory :
    let h : Host := ⟨fun _ => none, fun _ => false⟩
    let t' := (halfRecord.inputWrite h false restOfRecord 7).2.2
    Same halfRecord t' ∧ (t'.inputWrite (hostWith loopMm) false restOfRecord 7).2.2.entries =
      (halfRecord.inputWrite (hostWith loopMm) false restOfRecord 7).2.2.entries := by
  intro h t'
  obtain ⟨-, -, hiff, hagain⟩ := @failed_write_iff h halfRecord false restOfRecord 7
    (by decide) .enomem rfl
  have hsame := hiff.2 (.inl (by decide))
  exact ⟨hsame, (hagain hsame (hostWith loopMm) fun _ => rfl).2.2.2⟩

/-- The process is gone for one write. The rest of the record takes the place of the partial line
before it has been used, and the repeated write finds no record. -/
theorem failed_write_without_process :
    let r := halfRecord.inputWrite emptyHost false restOfRecord 7
    r.1 = .error .esrch ∧ halfRecord.partialLine = ['7', ',', 'a', ',', 'b'] ∧
      r.2.2.partialLine = ['8', ',', '1'] ∧
      (r.2.2.inputWrite (hostWith loopMm) false restOfRecord 7).2.2.entries.map
        Translation.gpaPfn = [] ∧
      (halfRecord.inputWrite (hostWith loopMm) false restOfRecord 7).2.2.entries.map
        Translation.gpaPfn = [0xA, 0xB, 0xC, 0xD, 0xE] := by
  decide +kernel

end Translator

end SagePTE.PageTables
