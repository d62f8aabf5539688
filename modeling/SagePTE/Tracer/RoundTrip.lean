import SagePTE.Tracer.RawRun

/-!
# From a run to its trace and back

What the tracer records of a thread is enough to find its fetches and accesses: the conversion
of the raw file of a run succeeds and gives them back, in their order. With several threads it
does so for each of them, however their buffers are interleaved.

## Main results

* `appendInstrs_executes` — a block
* `framed_rawFileOf` — in a raw file of the tracer a buffer starts with a block
* `exists_convertFiles_run` — the file of one run
* `convertFiles_runs` — the files of several runs
-/

set_option autoImplicit false

namespace SagePTE.Tracer

open Simulator Fallible ThreadFile

/-! ### Accesses -/

variable {b : Binary} {f : ThreadFile} {rest : List OfflineEntry}

/-- An address that is there. -/
theorem appendMemref_memref (instr : InstrSummary) (ref : MemOpnd × Bool) {value : BitVec 64}
    (hf : f.Gives (.memref value :: rest)) :
    ∃ f', appendMemref instr ref f =
        .ok ([memrefEntry instr ref none value], signalled rest, f') ∧ f'.Gives rest := by
  obtain ⟨f₁, hread, hf₁, hpre, -⟩ := hf.read_cons
  have hnext : nextAddress f = .ok (none, .memref value, f₁) := by
    simp [nextAddress, hread, meminfo?]
  unfold appendMemref
  rw [hnext]
  cases rest with
  | nil =>
    obtain ⟨f₂, hread₂, hf₂, -⟩ := hf₁.read_nil
    refine ⟨f₂, ?_, hf₂⟩
    simp [bind, Except.bind, hread₂, signalled]
  | cons e rest =>
    obtain ⟨f₂, hread₂, hf₂, hpre₂, -⟩ := hf₁.read_cons
    refine ⟨f₂.unread e, ?_, hf₂.unread hpre₂⟩
    simp [bind, Except.bind, hread₂, signalled]

/-- An entry that is no address is put back. -/
theorem appendMemref_other (instr : InstrSummary) (ref : MemOpnd × Bool) {e : OfflineEntry}
    (hf : f.Gives (e :: rest)) (he : e.isMemref = false) (hinfo : meminfo? e = none) :
    ∃ f', appendMemref instr ref f = .ok ([], false, f') ∧ f'.Gives (e :: rest) := by
  obtain ⟨f₁, hread, hf₁, hpre, -⟩ := hf.read_cons
  have hnext : nextAddress f = .ok (none, e, f₁) := by simp [nextAddress, hread, hinfo]
  refine ⟨f₁.unread e, ?_, hf₁.unread hpre⟩
  unfold appendMemref
  rw [hnext]
  cases e with
  | memref value => simp [OfflineEntry.isMemref] at he
  | _ => rfl

theorem appendMemrefs_other (instr : InstrSummary) (refs : List (MemOpnd × Bool))
    {e : OfflineEntry} (hf : f.Gives (e :: rest)) (he : e.isMemref = false)
    (hinfo : meminfo? e = none) :
    ∃ f', appendMemrefs instr refs f = .ok ([], false, f') ∧ f'.Gives (e :: rest) := by
  induction refs generalizing f with
  | nil => exact ⟨f, rfl, hf⟩
  | cons ref refs ih =>
    obtain ⟨f₁, href, hf₁⟩ := appendMemref_other instr ref hf he hinfo
    obtain ⟨f₂, hrefs, hf₂⟩ := ih hf₁
    refine ⟨f₂, ?_, hf₂⟩
    simp [appendMemrefs, href, hrefs, bind, Except.bind]

/-- The displacement that is added is the one that was not stored. -/
theorem memrefEntry_saveAddr (instr : InstrSummary) (ref : MemOpnd × Bool) (addr : BitVec 64) :
    memrefEntry instr ref none (addr - ref.1.disp.getD 0) =
      ⟨(accessOf instr ref).1, (accessOf instr ref).2, addr⟩ := by
  rw [memrefEntry, BitVec.sub_add_cancel]
  rfl

/-- The addresses of an instruction. Where some are missing, a signal follows those that are
there. -/
theorem appendMemrefs_saved (instr : InstrSummary) {refs : List (MemOpnd × Bool)}
    {addrs : List (BitVec 64)} (hf : f.Gives (List.zipWith saveAddr refs addrs ++ rest))
    (haddrs : addrs.length = refs.length ∨
      addrs ≠ [] ∧ addrs.length ≤ refs.length ∧ signalled rest = true) :
    ∃ f', appendMemrefs instr refs f =
        .ok (List.zipWith (fun ref addr => ⟨(accessOf instr ref).1, (accessOf instr ref).2, addr⟩)
          refs addrs, !addrs.isEmpty && signalled rest, f') ∧ f'.Gives rest := by
  induction refs generalizing f addrs with
  | nil =>
    obtain rfl : addrs = [] := by
      rcases haddrs with h | ⟨-, h, -⟩
      · exact List.eq_nil_of_length_eq_zero h
      · exact List.eq_nil_of_length_eq_zero (Nat.le_zero.mp h)
    exact ⟨f, rfl, hf⟩
  | cons ref refs ih =>
    cases addrs with
    | nil => simp at haddrs
    | cons addr addrs =>
      obtain ⟨f₁, href, hf₁⟩ := appendMemref_memref instr ref hf
      rw [memrefEntry_saveAddr] at href
      unfold appendMemrefs
      rw [href]
      cases addrs with
      | nil =>
        -- the last address that is there
        cases hsignal : signalled rest with
        | true =>
          refine ⟨f₁, ?_, by simpa using hf₁⟩
          simp [bind, Except.bind, hsignal]
        | false =>
          obtain rfl : refs = [] := by simpa [hsignal] using haddrs
          refine ⟨f₁, ?_, by simpa using hf₁⟩
          simp [bind, Except.bind, hsignal, appendMemrefs]
      | cons addr' addrs =>
        obtain ⟨f₂, hrefs, hf₂⟩ := ih hf₁ (by simpa using haddrs)
        refine ⟨f₂, ?_, hf₂⟩
        cases refs with
        | nil => simp at haddrs
        | cons ref' refs =>
          simp [bind, Except.bind, hrefs, signalled, saveAddr, OfflineEntry.isKernelEvent]

/-! ### Blocks -/

/-- The conversion of a thread of an unfiltered trace has written some entries or held them
back, and goes on with the rest of the file. -/
structure Conv.Gave (b : Binary) (c : Conv) (es : List RawEntry) (rep : Bool)
    (rest : List OfflineEntry) (c' : Conv) : Prop where
  out : c'.out ++ c'.delayedBranch = c.out ++ es
  rep : c'.shared.prevInstrWasRepString = rep
  gives : c'.file.Gives rest
  plain : c'.shared.Plain b

variable {c : Conv} {mod : Module} {x : Exec}

theorem appendAccesses_exec (hplain : c.shared.instrsAreSeparate = false)
    (hfile : c.file.Gives (x.saved ++ rest))
    (hx : x.Complete ∨ x.Faulted ∧ signalled rest = true) :
    ∃ f', appendAccesses false x.instr c =
        .ok (x.accesses, !x.addrs.isEmpty && signalled rest, f') ∧ f'.Gives rest := by
  unfold appendAccesses
  cases husesMemory : x.usesMemory with
  | true =>
    have hif : ((!c.shared.instrsAreSeparate || false) &&
        (x.instr.readsMemory || x.instr.writesMemory)) = true := by
      simpa [hplain, Exec.usesMemory] using husesMemory
    rw [if_pos hif]
    apply appendMemrefs_saved x.instr hfile
    rcases hx with hcomplete | ⟨⟨-, hne, hle⟩, hsignal⟩
    · left
      simpa [Exec.Complete, husesMemory] using hcomplete
    · exact .inr ⟨hne, hle, hsignal⟩
  | false =>
    have hif : ¬((!c.shared.instrsAreSeparate || false) &&
        (x.instr.readsMemory || x.instr.writesMemory)) = true := by
      simpa [hplain, Exec.usesMemory] using husesMemory
    have haddrs : x.addrs = [] := by
      rcases hx with hcomplete | ⟨⟨huses, -⟩, -⟩
      · simpa [Exec.Complete, husesMemory] using hcomplete
      · simp [husesMemory] at huses
    rw [if_neg hif]
    refine ⟨c.file, by simp [Exec.accesses, haddrs], ?_⟩
    simpa [Exec.saved, haddrs] using hfile

/-- One instruction. A branch is held back, where none is. -/
theorem appendInstr_exec {pc : BitVec 64} {last stop : Bool} {f' : ThreadFile}
    (hplain : c.shared.Plain b) (hdelayed : c.delayedBranch = [])
    (hcti : x.instr.isCti = true → last = true) (hlength : x.addrs.length + 1 < writeBufferSize)
    (haccesses : appendAccesses false x.instr c = .ok (x.accesses, stop, f'))
    (hf' : f'.Gives rest) :
    ∃ c', appendInstr mod false last x.instr pc c = .ok (stop, c') ∧
      c.Gave b (fetchEntry mod false c.shared.prevInstrWasRepString x.instr pc :: x.accesses)
        x.isRepString rest c' ∧ (x.instr.isCti = false → c'.delayedBranch = []) := by
  have hlast : ¬(x.instr.isCti && !last) = true := by
    cases hisCti : x.instr.isCti with
    | true => simp [hcti hisCti]
    | false => simp
  unfold appendInstr
  rw [if_neg hlast, haccesses]
  generalize fetchEntry mod false c.shared.prevInstrWasRepString x.instr pc = fetch
  have hshort : ¬writeBufferSize ≤ (fetch :: x.accesses).length := by
    have : x.accesses.length ≤ x.addrs.length := by simp [Exec.accesses]
    rw [List.length_cons]
    omega
  cases hisCti : x.instr.isCti with
  | true =>
    refine ⟨{ c with
      file := f'
      shared.prevInstrWasRepString := x.isRepString
      delayedBranch := fetch :: x.accesses }, ?_, ⟨rfl, rfl, hf', hplain.1, hplain.2⟩, by simp⟩
    simp only [bind, Except.bind, Conv.writeInstr, if_neg hshort, if_pos hisCti,
      Conv.writeDelayedBranches, if_pos hdelayed]
    rfl
  | false =>
    refine ⟨{ c with
      file := f'
      shared.prevInstrWasRepString := x.isRepString
      out := c.out ++ fetch :: x.accesses }, ?_, ⟨?_, rfl, hf', hplain.1, hplain.2⟩, ?_⟩
    · simp only [bind, Except.bind, Conv.writeInstr, if_neg hshort, hisCti, Bool.false_eq_true,
        if_false]
      rfl
    · simp [hdelayed]
    · exact fun _ => hdelayed

theorem Exec.Complete.length_le (h : x.Complete) : x.addrs.length ≤ x.instr.memOpnds.length := by
  rw [h]
  split
  · exact Nat.le_refl _
  · exact Nat.zero_le _

/-- An address is no signal. -/
theorem signalled_saved (h : x.addrs.length ≤ x.instr.memOpnds.length) (es : List OfflineEntry) :
    signalled (x.saved ++ es) = (x.addrs.isEmpty && signalled es) := by
  unfold Exec.saved
  cases haddrs : x.addrs with
  | nil => simp
  | cons addr addrs =>
    cases hrefs : x.instr.memOpnds with
    | nil => simp [haddrs, hrefs] at h
    | cons ref refs => rfl

/-- A signal comes directly after an access, if no access is left. -/
theorem Executes.signalled_flatMap {signal : Bool} {n : ℕ} {pc : BitVec 64} {xs : List Exec}
    (h : Executes b signal n pc xs) (rest : List OfflineEntry) :
    signalled (xs.flatMap Exec.saved ++ rest) = (accessless xs && signalled rest) := by
  induction h with
  | done pc => simp [accessless]
  | idle hdecode haddrs => simp [accessless, Exec.saved, haddrs]
  | next hdecode hcti hlength hcomplete hnext ih =>
    rw [List.flatMap_cons, List.append_assoc, signalled_saved hcomplete.length_le, ih]
    simp [accessless, Bool.and_assoc]
  | fault hdecode hcti hlength hfaulted hsignal =>
    rw [List.flatMap_cons, List.append_assoc, signalled_saved hfaulted.2.2]
    simp [accessless]

/-- The entries that follow an item are those of other items, or the footer. -/
def StartsItem (es : List OfflineEntry) : Prop :=
  ∃ e es', es = e :: es' ∧ e.isMemref = false ∧ meminfo? e = none

/-- One instruction of a block, after which the block may be taken to be interrupted. -/
theorem appendInstrs_exec (mod : Module) {n : ℕ} {pc : BitVec 64} {stop : Bool} {f' : ThreadFile}
    (hplain : c.shared.Plain b) (hdelayed : c.delayedBranch = [])
    (hdecode : b.decode pc = some x.instr) (hcti : x.instr.isCti = true → n = 0)
    (hlength : x.addrs.length + 1 < writeBufferSize)
    (haccesses : appendAccesses false x.instr c = .ok (x.accesses, stop, f'))
    (hf' : f'.Gives rest) :
    ∃ c₁, appendInstrs b mod false (n + 1) pc c =
        (if stop then .ok c₁ else appendInstrs b mod false n x.instr.nextPc c₁) ∧
      c.Gave b (fetchEntry mod false c.shared.prevInstrWasRepString x.instr pc :: x.accesses)
        x.isRepString rest c₁ ∧ (x.instr.isCti = false → c₁.delayedBranch = []) := by
  obtain ⟨cache, hget, hsound⟩ := getInstrSummary_eq_some hplain.sound hdecode
  have hplain : Shared.Plain b { c.shared with decodeCache := cache } := ⟨hplain.unfiltered, hsound⟩
  have hlast : x.instr.isCti = true → decide (n = 0) = true := by simpa using hcti
  obtain ⟨c₁, hinstr, hgave, hnocti⟩ : ∃ c₁, appendInstr mod false (n = 0) x.instr pc
      { c with shared.decodeCache := cache } = .ok (stop, c₁) ∧ _ :=
    appendInstr_exec hplain hdelayed hlast hlength haccesses hf'
  refine ⟨c₁, ?_, { hgave with }, hnocti⟩
  rw [appendInstrs, hget]
  simp only [hinstr, bind, Except.bind]

/-- What is written and held back, one after the other. -/
theorem Conv.Gave.trans {c₁ c₂ : Conv} {es es' : List RawEntry} {rep rep' : Bool}
    {rest rest' : List OfflineEntry} (h : c.Gave b es rep rest c₁)
    (hdelayed : c₁.delayedBranch = [])
    (h' : c₁.Gave b es' rep' rest' c₂) : c.Gave b (es ++ es') rep' rest' c₂ := by
  have hout : c₁.out = c.out ++ es := by simpa [hdelayed] using h.out
  exact { h' with out := by rw [h'.out, hout, List.append_assoc] }

/-- **A block.** Its fetches and accesses are written, up to a signal; a branch at its end is
held back. -/
theorem appendInstrs_executes (mod : Module) {n : ℕ} {pc : BitVec 64} {xs : List Exec}
    (hexec : Executes b (signalled rest) n pc xs) (hrest : StartsItem rest)
    (hplain : c.shared.Plain b) (hdelayed : c.delayedBranch = [])
    (hfile : c.file.Gives (xs.flatMap Exec.saved ++ rest)) :
    ∃ c', appendInstrs b mod false n pc c = .ok c' ∧
      c.Gave b (fetches mod c.shared.prevInstrWasRepString pc (kept (signalled rest) xs))
        (repAfter c.shared.prevInstrWasRepString (kept (signalled rest) xs)) rest c' := by
  induction hexec generalizing c with
  | done pc => exact ⟨c, rfl, by simp [fetches, kept, hdelayed], rfl, hfile, hplain⟩
  | @idle pc x hdecode haddrs =>
    obtain ⟨e, es, rfl, he, hinfo⟩ := hrest
    obtain ⟨f', haccesses, hf'⟩ : ∃ f', appendAccesses false x.instr c =
        .ok (x.accesses, false, f') ∧ f'.Gives (e :: es) := by
      have hfile : c.file.Gives (e :: es) := by simpa [Exec.saved, haddrs] using hfile
      have haccesses : x.accesses = [] := by simp [Exec.accesses, haddrs]
      rw [haccesses]
      unfold appendAccesses
      split
      · exact appendMemrefs_other x.instr _ hfile he hinfo
      · exact ⟨c.file, rfl, hfile⟩
    obtain ⟨c₁, happend, hgave, -⟩ := appendInstrs_exec mod hplain hdelayed hdecode
      (fun _ => rfl) (by simp [haddrs, writeBufferSize]) haccesses hf'
    refine ⟨c₁, happend, ?_⟩
    simpa [kept, haddrs, fetches, repAfter] using hgave
  | @next n pc x xs hdecode hcti hlength hcomplete hnext ih =>
    rw [List.flatMap_cons, List.append_assoc] at hfile
    obtain ⟨f', haccesses, hf'⟩ := appendAccesses_exec hplain.unfiltered hfile (.inl hcomplete)
    rw [hnext.signalled_flatMap] at haccesses
    obtain ⟨c₁, happend, hgave, hnocti⟩ := appendInstrs_exec mod hplain hdelayed hdecode
      hcti hlength haccesses hf'
    rw [happend]
    unfold kept
    have hstop : (!x.addrs.isEmpty && (accessless xs && signalled rest)) =
        (signalled rest && !x.addrs.isEmpty && accessless xs) := by
      cases x.addrs.isEmpty <;> cases accessless xs <;> cases signalled rest <;> rfl
    rw [hstop]
    split
    next hinterrupted =>
      -- the signal is taken for a fault of this instruction
      refine ⟨c₁, rfl, ?_⟩
      have hnone : xs.flatMap Exec.saved = [] := by
        simp only [Bool.and_eq_true, accessless, List.all_eq_true, List.isEmpty_iff] at hinterrupted
        rw [List.flatMap_eq_nil_iff]
        intro y hy
        simp [Exec.saved, hinterrupted.2 y hy]
      rw [hnone, List.nil_append] at hgave
      simpa [fetches, repAfter] using hgave
    next =>
      cases hisCti : x.instr.isCti with
      | true =>
        -- a branch is the last instruction
        obtain rfl := hcti hisCti
        cases hnext
        exact ⟨c₁, rfl, by simpa [kept, fetches, repAfter] using hgave⟩
      | false =>
        obtain ⟨c₂, hrest, hgave'⟩ := ih hgave.plain (hnocti hisCti) hgave.gives
        rw [hgave.rep] at hgave'
        exact ⟨c₂, hrest, hgave.trans (hnocti hisCti) hgave'⟩
  | @fault n pc x hdecode hcti hlength hfaulted hsignal =>
    have hfile : c.file.Gives (x.saved ++ rest) := by simpa using hfile
    obtain ⟨f', haccesses, hf'⟩ :=
      appendAccesses_exec hplain.unfiltered hfile (.inr ⟨hfaulted, hsignal⟩)
    obtain ⟨c₁, happend, hgave, -⟩ := appendInstrs_exec mod hplain hdelayed hdecode
      hcti hlength haccesses hf'
    have haddrs : x.addrs.isEmpty = false := by simpa using hfaulted.2.1
    refine ⟨c₁, by simpa [haddrs, hsignal] using happend, ?_⟩
    simpa [kept, hsignal, haddrs, accessless, fetches, repAfter] using hgave

/-! ### One thread -/

/-- The state of the loop in a buffer of the only thread. -/
def single (shared : Shared) (t : Thread) (out : List RawEntry) : Merge :=
  { shared, threads := [t], current := some 0, threadCount := 1, out := out.map (0, ·) }

/-- The entries that say whose the others are and when they were written. -/
def isControl (e : RawEntry) : Bool :=
  e.type = BitVec.ofNat 16 TraceType.thread.ctorIdx ||
    e.type = BitVec.ofNat 16 TraceType.pid.ctorIdx ||
    e.type = BitVec.ofNat 16 TraceType.marker.ctorIdx

/-- The fetches and accesses among some entries. -/
def references (es : List RawEntry) : List RawEntry := es.filter fun e => !isControl e

variable {shared : Shared} {t : Thread} {out : List RawEntry} {u : Thread.Turn} {e : Merge}

theorem step_single (hu : t.readEntry b shared = .ok u) :
    (single shared t out).step b = .ok ((single shared t out).advance 0 u) :=
  Merge.step_eq_ok_iff.mpr ⟨0, single shared t out, t, u, rfl, rfl, hu, rfl⟩

/-- An entry after which the loop goes on with the thread. -/
theorem ends_single_of_same (hu : t.readEntry b shared = .ok u) (hnext : u.next = .same)
    (h : Ends (Merge.step b) Merge.finished (single u.shared u.thread (out ++ u.out)) e) :
    Ends (Merge.step b) Merge.finished (single shared t out) e := by
  have hadvance : (single shared t out).advance 0 u =
      single u.shared u.thread (out ++ u.out) := by
    simp [Merge.advance, single, hnext]
  rw [← hadvance] at h
  refine .more (step_single hu) ?_ h
  rw [hadvance]
  rfl

/-- A scan of the only thread starts its next buffer. -/
theorem ends_of_scan {t' : Thread} (hscan : t.scan = .ok t') (htid : t'.tid ≠ 0)
    (hpid : t'.pid ≠ -1)
    (h : Ends (Merge.step b) Merge.finished
      (single shared t'.opened (out ++ t'.bufferHeader)) e) :
    Ends (Merge.step b) Merge.finished { single shared t out with current := none } e := by
  have hselect : Merge.selectThread { single shared t out with current := none } =
      .ok (0, single shared t'.opened (out ++ t'.bufferHeader)) := by
    have hmap : [t].mapM Thread.scan = .ok [t'] := mapM_eq_ok_iff.mpr (.cons hscan .nil)
    have hids : ¬(t'.tid = 0 ∨ t'.wrotePid = false ∧ t'.pid = -1) := by
      rintro (h0 | ⟨-, hneg⟩)
      · exact htid h0
      · exact hpid hneg
    simp only [Merge.selectThread, single, hmap, bind, Except.bind, nextThread_singleton,
      List.getElem?_cons_zero, if_neg hids]
    simp
  refine (Ends.congr ?_).mpr h
  simp only [Merge.step, hselect]
  rfl

/-- The next buffer of a thread that is being read. -/
theorem ends_single_of_timestamp {usec : BitVec 61} {file : ThreadFile}
    (hread : t.file.read = (some (.timestamp usec), file)) (husec : usec ≠ 0) (htid : t.tid ≠ 0)
    (hpid : t.pid ≠ -1)
    (h : Ends (Merge.step b) Merge.finished
      (single shared { t with time := usec.toNat, file }.opened
        (out ++ { t with time := usec.toNat, file }.bufferHeader)) e) :
    Ends (Merge.step b) Merge.finished (single shared t out) e := by
  have hu : t.readEntry b shared =
      .ok { shared, thread := { t with time := usec.toNat, file }, next := .scan } := by
    simp [Thread.readEntry, hread]
  have hscan : Thread.scan { t with time := usec.toNat, file } =
      .ok { t with time := usec.toNat, file } := by
    have hne : usec.toNat ≠ 0 := fun h0 => husec (BitVec.eq_of_toNat_eq h0)
    simp [Thread.scan, hne]
  refine .more (step_single hu) rfl ?_
  simpa [Merge.advance, single] using ends_of_scan hscan htid hpid h

theorem references_append (es es' : List RawEntry) :
    references (es ++ es') = references es ++ references es' :=
  List.filter_append ..

theorem references_eq_self {es : List RawEntry} (h : ∀ e ∈ es, isControl e = false) :
    references es = es := by
  rw [references, List.filter_eq_self]
  intro e he
  simp [h e he]

/-- The start of a buffer has no references. -/
theorem references_bufferHeader (t : Thread) : references t.bufferHeader = [] := by
  unfold Thread.bufferHeader
  cases t.wrotePid <;> rfl

/-! ### Items -/

/-- A thread in the middle of its run, with the entries that are left. -/
structure Underway (b : Binary) (shared : Shared) (t : Thread) (rest : List OfflineEntry) :
    Prop where
  plain : shared.Plain b
  gives : t.file.Gives rest
  tid : t.tid ≠ 0
  pid : t.pid ≠ -1
  delayedBranch : ∀ e ∈ t.delayedBranch, isControl e = false

/-- The loop ends, and some references are written after what has been written or held back. -/
def Finishes (b : Binary) (shared : Shared) (t : Thread) (out es : List RawEntry) : Prop :=
  ∃ e, Ends (Merge.step b) Merge.finished (single shared t out) e ∧
    references (e.out.map Prod.snd) = references out ++ t.delayedBranch ++ es

/-- The thread after the conversion of an entry. -/
def Thread.after (t : Thread) (c : Conv) : Thread :=
  { t with file := c.file, delayedBranch := c.delayedBranch }

/-- An entry that is converted. What it adds to the references may be held back. -/
theorem Underway.process {entry : OfflineEntry} {rest : List OfflineEntry}
    {new es : List RawEntry} (h : Underway b shared t (entry :: rest))
    (hentry : entry.usec? = none)
    (hprocess : ∀ file, file.Gives rest → ∃ c',
      processOfflineEntry b t.tid entry (t.conv shared entry file) = .ok (false, c') ∧
        references c'.out ++ c'.delayedBranch = t.delayedBranch ++ new ∧
        Finishes b c'.shared (t.after c') (out ++ c'.out) es) :
    Finishes b shared t out (new ++ es) := by
  obtain ⟨file, hread, hfile, -⟩ := h.gives.read_cons
  obtain ⟨c', hprocess, hnew, e, hends, hout⟩ := hprocess file hfile
  have hconvert : t.readEntry b shared = t.convertEntry b shared entry file := by
    cases entry with
    | timestamp usec => simp [OfflineEntry.usec?] at hentry
    | _ => simp [Thread.readEntry, hread]
  have hu : t.readEntry b shared =
      .ok { shared := c'.shared, thread := t.after c', out := c'.out, next := .same } := by
    rw [hconvert, Thread.convertEntry, hprocess]
    rfl
  refine ⟨e, ends_single_of_same hu rfl hends, ?_⟩
  calc references (e.out.map Prod.snd)
      = references out ++ (references c'.out ++ c'.delayedBranch) ++ es := by
        rw [hout, references_append, List.append_assoc (references out)]
        rfl
    _ = references out ++ t.delayedBranch ++ (new ++ es) := by
        rw [hnew]
        simp

/-- The footer. -/
theorem Underway.footer (h : Underway b shared t [.footer]) :
    Finishes b shared t out [writeThreadExit t.tid] := by
  obtain ⟨file, hread, hfile, -⟩ := h.gives.read_cons
  obtain ⟨file', hread', -, heof⟩ := hfile.read_nil
  obtain ⟨u, hu, hnext, huout⟩ : ∃ u, t.readEntry b shared = .ok u ∧ u.next = .ended ∧
      u.out = t.delayedBranch ++ [writeThreadExit t.tid] := by
    have hend : onThreadEnd ((t.conv shared .footer file).write [writeThreadExit t.tid]) =
        .ok { (t.conv shared .footer file).write [writeThreadExit t.tid] with file := file' } := by
      simp [onThreadEnd, Conv.write, hread', heof]
    refine ⟨{
      shared
      thread := { t with file := file', delayedBranch := [] }
      out := t.delayedBranch ++ [writeThreadExit t.tid]
      next := .ended }, ?_, rfl, rfl⟩
    simp only [Thread.readEntry, hread, OfflineEntry.footer, Thread.convertEntry,
      processOfflineEntry, if_true, if_neg h.tid, bind, Except.bind] at hend ⊢
    rw [hend]
    rfl
  refine ⟨_, .last (step_single hu) (by simp [Merge.finished, Merge.advance, single, hnext]), ?_⟩
  calc references (((single shared t out).advance 0 u).out.map Prod.snd)
      = references (out ++ (t.delayedBranch ++ [writeThreadExit t.tid])) := by
        simp [Merge.advance, single, huout, Function.comp_def]
    _ = references out ++ t.delayedBranch ++ [writeThreadExit t.tid] := by
        rw [references_append, references_append, references_eq_self h.delayedBranch,
          List.append_assoc]
        rfl

/-- The start of a buffer. -/
theorem Underway.timestamp {usec : BitVec 61} {rest : List OfflineEntry} {es : List RawEntry}
    (h : Underway b shared t (.timestamp usec :: rest)) (husec : usec ≠ 0)
    (hrest : ∀ t' out', Underway b shared t' rest → t'.tid = t.tid →
      Finishes b shared t' out' es) : Finishes b shared t out es := by
  obtain ⟨file, hread, hfile, -⟩ := h.gives.read_cons
  let t' : Thread := { t with time := usec.toNat, file }
  obtain ⟨e, hends, hout⟩ := hrest t'.opened (out ++ t'.bufferHeader)
    { h with gives := hfile } rfl
  refine ⟨e, ends_single_of_timestamp hread husec h.tid h.pid hends, ?_⟩
  rw [hout, references_append, references_bufferHeader, List.append_nil]
  rfl

theorem Underway.marker {type : BitVec 8} {value : BitVec 48} {rest : List OfflineEntry}
    {es : List RawEntry} (h : Underway b shared t (.marker type value :: rest))
    (hrest : ∀ t' out', Underway b shared t' rest → t'.tid = t.tid →
      Finishes b shared t' out' es) : Finishes b shared t out es := by
  have hfinishes : Finishes b shared t out ([] ++ es) := by
    apply h.process rfl
    intro file hfile
    refine ⟨{ shared, file, delayedBranch := t.delayedBranch,
              out := [writeMarker (type.setWidth 16) (value.setWidth 64)] }, rfl, ?_, ?_⟩
    · exact (List.append_nil _).symm
    · exact hrest _ _ { h with gives := hfile } rfl
  exact hfinishes

/-! ### Items with references -/

theorem isControl_entry (type : TraceType) (size : BitVec 16) (addr : BitVec 64) :
    isControl ⟨BitVec.ofNat 16 type.ctorIdx, size, addr⟩ =
      (type = .thread || type = .pid || type = .marker) := by
  cases type <;> rfl

/-- The types of fetches and data are not those of the other entries. -/
theorem isControl_eq_false {type : TraceType}
    (h : isFetchType type = true ∨ isDataEntry type = true) (size : BitVec 16) (addr : BitVec 64) :
    isControl ⟨BitVec.ofNat 16 type.ctorIdx, size, addr⟩ = false := by
  rw [isControl_entry]
  cases type <;> first | rfl | simp [isFetchType, isDataEntry] at h

theorem isControl_accesses (hb : b.WellTyped) {pc : BitVec 64}
    (hdecode : b.decode pc = some x.instr) : ∀ e ∈ x.accesses, isControl e = false := by
  intro e he
  obtain ⟨i, hi, rfl⟩ := List.mem_iff_getElem.mp he
  simp only [Exec.accesses, List.getElem_zipWith, accessOf]
  split
  next hprefetch =>
    exact isControl_eq_false (.inr (hb.prefetchType pc x.instr hdecode hprefetch)) _ _
  split
  · rfl
  · split <;> rfl

theorem isControl_fetchEntry (hb : b.WellTyped) {pc : BitVec 64}
    (hdecode : b.decode pc = some x.instr) (mod : Module) (rep : Bool) (pc' : BitVec 64) :
    isControl (fetchEntry mod false rep x.instr pc') = false := by
  apply isControl_eq_false
  left
  unfold fetchType
  split
  · cases rep <;> rfl
  next hnot => exact (hb.type pc x.instr hdecode).resolve_right hnot

/-- The instructions of a block have been decoded. -/
theorem Executes.decoded {signal : Bool} {n : ℕ} {pc : BitVec 64} {xs : List Exec}
    (h : Executes b signal n pc xs) : ∀ x ∈ xs, ∃ pc, b.decode pc = some x.instr := by
  induction h with
  | done pc => simp
  | @idle pc x hdecode haddrs => simpa using ⟨pc, hdecode⟩
  | @next n pc x xs hdecode hcti hlength hcomplete hnext ih =>
    exact List.forall_mem_cons.mpr ⟨⟨pc, hdecode⟩, ih⟩
  | @fault n pc x hdecode hcti hlength hfaulted hsignal => simpa using ⟨pc, hdecode⟩

theorem mem_of_mem_kept {signal : Bool} {xs : List Exec} (hx : x ∈ kept signal xs) : x ∈ xs := by
  induction xs with
  | nil => simp [kept] at hx
  | cons y ys ih =>
    unfold kept at hx
    split at hx
    · simp [List.mem_singleton.mp hx]
    · rcases List.mem_cons.mp hx with rfl | hx
      · exact List.mem_cons_self
      · exact List.mem_cons_of_mem y (ih hx)

theorem isControl_fetches (hb : b.WellTyped) {xs : List Exec}
    (hxs : ∀ x ∈ xs, ∃ pc, b.decode pc = some x.instr) (rep : Bool) (pc : BitVec 64) :
    ∀ e ∈ fetches mod rep pc xs, isControl e = false := by
  induction xs generalizing rep pc with
  | nil => simp [fetches]
  | cons x xs ih =>
    rw [List.forall_mem_cons] at hxs
    obtain ⟨⟨pc', hdecode⟩, hxs⟩ := hxs
    rw [fetches, List.forall_mem_cons, List.forall_mem_append]
    exact ⟨isControl_fetchEntry hb hdecode mod rep pc, isControl_accesses hb hdecode,
      ih hxs _ _⟩

/-- A block of a module. -/
theorem Underway.block (hb : b.WellTyped) {modoffs : BitVec 33} {modidx : BitVec 16}
    {count : BitVec 12} {execs : List Exec} {rest : List OfflineEntry} {es : List RawEntry}
    (h : Underway b shared t ((Item.block modoffs modidx count execs).entries ++ rest))
    (hvalid : (Item.block modoffs modidx count execs).Valid b rest) (hrest : StartsItem rest)
    (hnext : ∀ shared' t' out', Underway b shared' t' rest → t'.tid = t.tid →
      shared'.prevInstrWasRepString =
        repAfter shared.prevInstrWasRepString (kept (signalled rest) execs) →
      Finishes b shared' t' out' es) :
    Finishes b shared t out ((Item.block modoffs modidx count execs).executed b
      shared.prevInstrWasRepString (signalled rest) ++ es) := by
  obtain ⟨hcount, hmodule, -, mod, hmod, hbase, hexec⟩ := hvalid
  apply h.process rfl
  intro file hfile
  let c : Conv := { shared := { shared with instrsAreSeparate := false }, file,
                    out := t.delayedBranch }
  obtain ⟨c', hinstrs, hgave⟩ := appendInstrs_executes (c := c) mod hexec hrest
    ⟨rfl, h.plain.sound⟩ rfl hfile
  have hblock : appendBbEntries b modoffs modidx count (t.conv shared (.pc modoffs modidx count)
      file) = .ok { c' with shared.lastBbHandled := true } := by
    have hmapped : ¬(modidx = 0 ∧ modoffs = 0 ∨ mod.mapBase = 0) := by
      rintro (hzero | hzero)
      · exact hmodule hzero
      · exact hbase hzero
    have hn : blockCount count = count.toNat := if_neg hcount
    have hskip : decide (count = 0) = false := decide_eq_false hcount
    simp only [appendBbEntries, hmod, if_neg hmapped, Thread.shared_conv, hskip, hn,
      h.plain.unfiltered, Bool.or_false, Bool.false_and, Bool.false_eq_true, if_false]
    exact bind_eq_ok_iff.mpr ⟨c', hinstrs, rfl⟩
  have hout : c'.out ++ c'.delayedBranch = t.delayedBranch ++ (Item.block modoffs modidx count
      execs).executed b shared.prevInstrWasRepString (signalled rest) := by
    rw [hgave.out, Item.executed, hmod]
    rfl
  -- nothing that was written or held back is about a buffer
  have hcontrol : ∀ e ∈ c'.out ++ c'.delayedBranch, isControl e = false := by
    rw [hgave.out, List.forall_mem_append]
    refine ⟨h.delayedBranch, isControl_fetches hb (fun x hx => ?_) _ _⟩
    exact hexec.decoded x (mem_of_mem_kept hx)
  rw [List.forall_mem_append] at hcontrol
  refine ⟨{ c' with shared.lastBbHandled := true }, ?_, ?_, ?_⟩
  · exact bind_eq_ok_iff.mpr ⟨_, hblock, rfl⟩
  · rw [references_eq_self hcontrol.1]
    exact hout
  · refine hnext _ _ _ ?_ rfl hgave.rep
    exact ⟨⟨hgave.plain.1, hgave.plain.2⟩, hgave.gives, h.tid, h.pid, hcontrol.2⟩

/-- The values of a block outside of the modules. -/
theorem Underway.values {values : List (BitVec 64)} {rest : List OfflineEntry}
    {es : List RawEntry} (h : Underway b shared t (values.map .memref ++ rest))
    (hhandled : shared.lastBbHandled = false)
    (hnext : ∀ shared' t' out', Underway b shared' t' rest → t'.tid = t.tid →
      shared'.prevInstrWasRepString = shared.prevInstrWasRepString →
      Finishes b shared' t' out' es) :
    Finishes b shared t out (values.map (entryOf .read 1) ++ es) := by
  induction values generalizing t out with
  | nil => exact hnext shared t out h rfl rfl
  | cons value values ih =>
    have hfinishes : Finishes b shared t out
        ([entryOf .read 1 value] ++ (values.map (entryOf .read 1) ++ es)) := by
      apply h.process rfl
      intro file hfile
      refine ⟨{ shared, file, out := t.delayedBranch ++ [entryOf .read 1 value] }, ?_, ?_, ?_⟩
      · simp [processOfflineEntry, hhandled, Thread.conv, OfflineEntry.isMarker, Conv.write]
      · rw [references_append, references_eq_self h.delayedBranch, List.append_nil]
        rfl
      · exact ih ⟨h.plain, hfile, h.tid, h.pid, by simp [Thread.after]⟩ hnext
    exact hfinishes

/-- A block outside of the modules. -/
theorem Underway.foreign {count : BitVec 12} {values : List (BitVec 64)}
    {rest : List OfflineEntry} {es : List RawEntry}
    (h : Underway b shared t ((Item.foreign count values).entries ++ rest))
    (hmodvec : b.modvec ≠ [])
    (hnext : ∀ shared' t' out', Underway b shared' t' rest → t'.tid = t.tid →
      shared'.prevInstrWasRepString = shared.prevInstrWasRepString →
      Finishes b shared' t' out' es) :
    Finishes b shared t out (values.map (entryOf .read 1) ++ es) := by
  have hfinishes : Finishes b shared t out ([] ++ (values.map (entryOf .read 1) ++ es)) := by
    apply h.process rfl
    intro file hfile
    obtain ⟨mod, hmod⟩ : ∃ mod, b.modvec[0]? = some mod := by
      cases hmods : b.modvec with
      | nil => exact absurd hmods hmodvec
      | cons mod mods => exact ⟨mod, rfl⟩
    refine ⟨{ shared := { shared with lastBbHandled := false }, file, out := t.delayedBranch },
      ?_, ?_, ?_⟩
    · simp [processOfflineEntry, appendBbEntries, hmod, Thread.conv, OfflineEntry.isMarker, bind,
        Except.bind]
    · rw [references_eq_self h.delayedBranch]
    · refine Underway.values ?_ rfl hnext
      exact ⟨⟨h.plain.1, h.plain.2⟩, hfile, h.tid, h.pid, by simp [Thread.after]⟩
  exact hfinishes

theorem isControl_writeIflush {start size : BitVec 64} :
    ∀ e ∈ writeIflush start size, isControl e = false := by
  unfold writeIflush
  extract_lets short
  rw [List.forall_mem_cons]
  refine ⟨rfl, ?_⟩
  split
  · rw [List.forall_mem_singleton]
    rfl
  · simp

theorem Underway.iflush {start last : BitVec 61} {rest : List OfflineEntry} {es : List RawEntry}
    (h : Underway b shared t ((Item.iflush start last).entries ++ rest))
    (hnext : ∀ t' out', Underway b shared t' rest → t'.tid = t.tid →
      Finishes b shared t' out' es) :
    Finishes b shared t out
      (writeIflush (start.setWidth 64) (last.setWidth 64 - start.setWidth 64) ++ es) := by
  apply h.process rfl
  intro file hfile
  obtain ⟨file', hread, hfile', -⟩ := hfile.read_cons
  refine ⟨{ shared, file := file', out := t.delayedBranch ++
    writeIflush (start.setWidth 64) (last.setWidth 64 - start.setWidth 64) }, ?_, ?_, ?_⟩
  · simp [processOfflineEntry, Thread.conv, OfflineEntry.isMarker, hread, Conv.write]
  · rw [references_append, references_eq_self h.delayedBranch,
      references_eq_self isControl_writeIflush, List.append_nil]
  · exact hnext _ _ ⟨h.plain, hfile', h.tid, h.pid, by simp [Thread.after]⟩ rfl

/-! ### Runs -/

theorem runEntries_cons (item : Item) (items : List Item) :
    runEntries (item :: items) = item.entries ++ runEntries items := by
  simp [runEntries]

/-- What follows an item is no address. -/
theorem startsItem_runEntries (items : List Item) : StartsItem (runEntries items) := by
  cases items with
  | nil => exact ⟨.footer, [], rfl, rfl, rfl⟩
  | cons item items =>
    rw [runEntries_cons]
    cases item <;> exact ⟨_, _, rfl, rfl, rfl⟩

/-- The items that are left, to the end of the loop. -/
theorem Underway.finishes (hb : b.WellTyped) {items : List Item} (hvalid : ValidRun b items)
    (h : Underway b shared t (runEntries items)) :
    Finishes b shared t out
      (executed b shared.prevInstrWasRepString items ++ [writeThreadExit t.tid]) := by
  induction items generalizing shared t out with
  | nil => exact h.footer
  | cons item items ih =>
    obtain ⟨hitem, hitems⟩ := hvalid
    rw [runEntries_cons] at h
    rw [executed, List.append_assoc]
    -- the items that are left, from the state after this one
    have hnext : ∀ shared' t' out', Underway b shared' t' (runEntries items) → t'.tid = t.tid →
        shared'.prevInstrWasRepString =
          item.repAfter shared.prevInstrWasRepString (signalled (runEntries items)) →
        Finishes b shared' t' out' (executed b
          (item.repAfter shared.prevInstrWasRepString (signalled (runEntries items))) items ++
            [writeThreadExit t.tid]) := by
      intro shared' t' out' h' htid hrep
      rw [← hrep, ← htid]
      exact ih hitems h'
    cases item with
    | timestamp usec =>
      exact h.timestamp hitem fun t' out' h' htid => hnext shared t' out' h' htid rfl
    | marker type value =>
      exact h.marker fun t' out' h' htid => hnext shared t' out' h' htid rfl
    | block modoffs modidx count execs =>
      exact h.block hb hitem (startsItem_runEntries items) hnext
    | foreign count values => exact h.foreign hitem.2.1 hnext
    | iflush start last =>
      exact h.iflush fun t' out' h' htid => hnext shared t' out' h' htid rfl

/-! ### Files -/

/-- Entries are read back as they were written, if the addresses among them are. -/
theorem ofWord_words {es : List OfflineEntry}
    (h : ∀ value, .memref value ∈ es → OfflineEntry.Canonical value) :
    (es.map OfflineEntry.word).map OfflineEntry.ofWord = es := by
  rw [List.map_map]
  conv_rhs => rw [← List.map_id es]
  apply List.map_congr_left
  intro e he
  apply (OfflineEntry.ofWord_word_iff e).mpr
  rintro value rfl
  exact h value he

theorem canonical_of_valid {item : Item} {rest : List OfflineEntry} (hitem : item.Valid b rest)
    {value : BitVec 64} (hvalue : .memref value ∈ item.entries) : OfflineEntry.Canonical value := by
  cases item with
  | timestamp usec => simp [Item.entries] at hvalue
  | marker type value => simp [Item.entries, OfflineEntry.marker] at hvalue
  | block modoffs modidx count execs =>
    obtain ⟨x, hx, hsaved⟩ : ∃ x ∈ execs, .memref value ∈ x.saved := by
      simpa [Item.entries] using hvalue
    exact hitem.2.2.1 x hx _ hsaved value rfl
  | foreign count values =>
    have hvalue : value ∈ values := by simpa [Item.entries] using hvalue
    exact hitem.2.2 value hvalue
  | iflush start last => simp [Item.entries] at hvalue

theorem canonical_of_validRun {items : List Item} (hvalid : ValidRun b items) {value : BitVec 64}
    (hvalue : .memref value ∈ runEntries items) : OfflineEntry.Canonical value := by
  induction items with
  | nil => simp [runEntries, OfflineEntry.footer] at hvalue
  | cons item items ih =>
    rw [runEntries_cons, List.mem_append] at hvalue
    rcases hvalue with hvalue | hvalue
    · exact canonical_of_valid hvalid.1 hvalue
    · exact ih hvalid.2 hvalue

theorem ofWord_rawFileOf {items : List Item} (hvalid : ValidRun b items) (tid pid : BitVec 32) :
    (rawFileOf tid pid items).map OfflineEntry.ofWord =
      threadHeader tid pid ++ runEntries items := by
  apply ofWord_words
  intro value hvalue
  rcases List.mem_append.mp hvalue with hvalue | hvalue
  · simp [threadHeader] at hvalue
  · exact canonical_of_validRun hvalid hvalue

/-- No address comes before the first block of a run. -/
theorem opensBlock_runEntries (items : List Item) : opensBlock (runEntries items) = true := by
  induction items with
  | nil => rfl
  | cons item items ih =>
    rw [runEntries_cons]
    cases item with
    | timestamp usec | block modoffs modidx count execs | foreign count values => rfl
    | marker type value | iflush start last => exact ih

theorem framed_memrefs {es rest : List OfflineEntry} (hes : ∀ e ∈ es, e.isMemref = true)
    (hrest : framed rest = true) : framed (es ++ rest) = true := by
  induction es with
  | nil => exact hrest
  | cons e es ih =>
    rw [List.forall_mem_cons] at hes
    cases e with
    | memref value => exact ih hes.2
    | _ => simp [OfflineEntry.isMemref] at hes

theorem isMemref_saved (x : Exec) : ∀ e ∈ x.saved, e.isMemref = true := by
  intro e he
  obtain ⟨i, hi, rfl⟩ := List.mem_iff_getElem.mp he
  simp [Exec.saved, saveAddr, OfflineEntry.isMemref]

/-- In the raw file of a run a buffer starts with a block. -/
theorem framed_runEntries {items : List Item} (hvalid : ValidRun b items) :
    framed (runEntries items) = true := by
  induction items with
  | nil => rfl
  | cons item items ih =>
    obtain ⟨hitem, hitems⟩ := hvalid
    rw [runEntries_cons]
    cases item with
    | timestamp usec =>
      have husec : usec ≠ 0#61 := hitem
      simpa [Item.entries, framed, husec, opensBlock_runEntries] using ih hitems
    | marker type value | iflush start last => exact ih hitems
    | block modoffs modidx count execs =>
      have hcount : count ≠ 0#12 := hitem.1
      have hrest : framed (execs.flatMap Exec.saved ++ runEntries items) = true := by
        refine framed_memrefs (fun e he => ?_) (ih hitems)
        obtain ⟨x, -, he⟩ := List.mem_flatMap.mp he
        exact isMemref_saved x e he
      simpa [Item.entries, framed, hcount] using hrest
    | foreign count values =>
      have hcount : count ≠ 0#12 := hitem.1
      have hrest : framed (values.map .memref ++ runEntries items) = true := by
        refine framed_memrefs (fun e he => ?_) (ih hitems)
        obtain ⟨value, -, rfl⟩ := List.mem_map.mp he
        rfl
      simpa [Item.entries, framed, hcount] using hrest

theorem framed_rawFileOf {items : List Item} (hvalid : ValidRun b items) (tid pid : BitVec 32) :
    framed ((rawFileOf tid pid items).map OfflineEntry.ofWord) = true := by
  rw [ofWord_rawFileOf hvalid]
  exact framed_runEntries hvalid

/-- A run of a thread: its ids, the time of its first buffer and what it did from there. -/
structure Run where
  tid : BitVec 32
  pid : BitVec 32
  usec : BitVec 61
  items : List Item

namespace Run

/-- The raw file of a run. -/
def file (r : Run) : List (BitVec 64) := rawFileOf r.tid r.pid (.timestamp r.usec :: r.items)

/-- The runs that the tracer can record. The ids are not those that the conversion rejects. -/
structure Valid (b : Binary) (r : Run) : Prop where
  tid : r.tid ≠ 0
  pid : r.pid ≠ -1
  items : ValidRun b (.timestamp r.usec :: r.items)

end Run

variable {r : Run}

theorem openThreadFile_file (hr : r.Valid b) :
    openThreadFile r.file = .ok {
      tid := r.tid
      pid := r.pid
      file := { rest := runEntries (.timestamp r.usec :: r.items) } } := by
  have hsetWidth : ∀ x : BitVec 32, (x.setWidth 61).setWidth 32 = x := by
    intro x
    rw [BitVec.setWidth_setWidth_of_le x (by decide), BitVec.setWidth_eq]
  rw [openThreadFile, Run.file, ofWord_rawFileOf hr.items]
  simp [threadHeader, checkThreadFile, readHeader, readIds, bind, Except.bind, hsetWidth]

/-- The conversion of the file of a run gives back the run's references. -/
theorem exists_convertFiles_run (hb : b.WellTyped) (hr : r.Valid b) :
    ∃ out, convertFiles b [r.file] = .ok out ∧
      references (out.map Prod.snd) = executed b false r.items ++ [writeThreadExit r.tid] := by
  obtain ⟨husec, hitems⟩ := hr.items
  let t : Thread := {
    tid := r.tid
    pid := r.pid
    time := r.usec.toNat
    file := { rest := runEntries r.items } }
  have hscan : Thread.scan {
      tid := r.tid
      pid := r.pid
      file := { rest := runEntries (.timestamp r.usec :: r.items) } } = .ok t := by
    rw [runEntries_cons]
    rfl
  have hunderway : Underway b {} t.opened (runEntries r.items) :=
    ⟨⟨rfl, by simp [Shared.Sound]⟩, gives_ofRest _, hr.tid, hr.pid, by simp [t, Thread.opened]⟩
  obtain ⟨e, hends, hout⟩ : Finishes b {} t.opened ([] ++ t.bufferHeader)
    (executed b false r.items ++ [writeThreadExit r.tid]) := hunderway.finishes hb hitems
  have hends := ends_of_scan hscan hr.tid hr.pid hends
  refine ⟨e.out, ?_, ?_⟩
  · exact convertFiles_singleton_eq_ok_iff.mpr ⟨_, e, openThreadFile_file hr, hends, rfl⟩
  · rw [hout, references_append, references_bufferHeader]
    rfl

/-! ### Several threads -/

theorem isControl_asFetched (e : RawEntry) : isControl (asFetched e) = isControl e := by
  unfold asFetched
  split
  next h =>
    unfold isControl
    rw [h]
    rfl
  · rfl

theorem references_map_asFetched (es : List RawEntry) :
    references (es.map asFetched) = (references es).map asFetched := by
  simp [references, List.filter_map, Function.comp_def, isControl_asFetched]

/-- **The round trip.** The conversion of the raw files of some runs succeeds. What it writes for
a thread are the fetches and accesses of the thread in the order in which they were executed,
however the buffers of the threads are interleaved, up to the fetches of string instructions;
only what a block did after its last access is lost if a signal follows. -/
theorem convertFiles_runs (hb : b.WellTyped) {runs : List Run} (hne : runs ≠ [])
    (hruns : ∀ r ∈ runs, r.Valid b) :
    ∃ out, convertFiles b (runs.map Run.file) = .ok out ∧
      ∀ i r, runs[i]? = some r →
        (references ((out.filter (·.1 = i)).map Prod.snd)).map asFetched =
          (executed b false r.items ++ [writeThreadExit r.tid]).map asFetched := by
  have hframed : ∀ words ∈ runs.map Run.file,
      framed (words.map OfflineEntry.ofWord) = true := by
    rw [List.forall_mem_map]
    intro r hr
    exact framed_rawFileOf (hruns r hr).items r.tid r.pid
  obtain ⟨out, hout⟩ : ∃ out, convertFiles b (runs.map Run.file) = .ok out := by
    refine (exists_convertFiles_iff hframed).mpr ⟨by simpa using hne, ?_⟩
    rw [List.forall_mem_map]
    intro r hr
    obtain ⟨out, hout, -⟩ := exists_convertFiles_run hb (hruns r hr)
    exact ⟨out, hout⟩
  refine ⟨out, hout, fun i r hr => ?_⟩
  have hfile : (runs.map Run.file)[i]? = some r.file := by simp [hr]
  obtain ⟨alone, halone, hsame⟩ := convertFiles_alone hframed hout hfile
  obtain ⟨out', hout', hrefs⟩ := exists_convertFiles_run hb (hruns r (List.mem_of_getElem? hr))
  obtain rfl : alone = out' := Except.ok.inj (halone.symm.trans hout')
  have hmap : ((out.filter (·.1 = i)).map Prod.snd).map asFetched =
      (alone.map Prod.snd).map asFetched := by
    simpa [Function.comp_def] using hsame
  rw [← references_map_asFetched, hmap, references_map_asFetched, hrefs]

/-- A run that executes a block to its end, and again up to a signal. -/
def sampleRun (tid : BitVec 32) (usec : BitVec 61) (addr : BitVec 64) : Run where
  tid
  pid := 9
  usec
  items := [.block 16 0 2 [⟨loadInstr, [addr]⟩, ⟨jumpInstr, []⟩],
    .block 16 0 2 [⟨loadInstr, [addr]⟩], .marker 0 0]

theorem valid_sampleRun {tid : BitVec 32} {usec : BitVec 61} {addr : BitVec 64} (htid : tid ≠ 0)
    (husec : usec ≠ 0) (haddr : OfflineEntry.Canonical (addr - 16)) :
    (sampleRun tid usec addr).Valid loadJump := by
  have hcanonical : ∀ e ∈ Exec.saved ⟨loadInstr, [addr]⟩, ∀ value, e = .memref value →
      OfflineEntry.Canonical value := by
    intro e he value hvalue
    obtain rfl : addr - 16 = value := by
      simpa [Exec.saved, InstrSummary.memOpnds, loadInstr, saveAddr, hvalue, eq_comm] using he
    exact haddr
  have hpid : (9 : BitVec 32) ≠ -1 := by decide
  have hlength : [addr].length + 1 < writeBufferSize := by simp [writeBufferSize]
  have hcti : loadInstr.isCti = true → 1 = 0 := by simp [loadInstr]
  refine ⟨htid, hpid, husec, ⟨by decide, by decide, ?_, _, rfl, by decide, ?_⟩,
    ⟨by decide, by decide, ?_, _, rfl, by decide, ?_⟩, trivial, trivial⟩
  · rw [List.forall_mem_cons, List.forall_mem_singleton]
    exact ⟨hcanonical, by simp [Exec.saved]⟩
  · exact .next rfl hcti hlength rfl (.next rfl (by simp) (by decide) rfl (.done _))
  · rw [List.forall_mem_singleton]
    exact hcanonical
  · exact .fault rfl hcti hlength ⟨rfl, by simp, Nat.le_refl 1⟩ rfl

/-- Two threads that execute a block and are interrupted by a signal. -/
theorem convertFiles_sampleRuns :
    ∃ out, convertFiles loadJump ([sampleRun 1 5 0x1000, sampleRun 2 7 0x2000].map Run.file) =
        .ok out ∧
      ∀ i r, [sampleRun 1 5 0x1000, sampleRun 2 7 0x2000][i]? = some r →
        (references ((out.filter (·.1 = i)).map Prod.snd)).map asFetched =
          (executed loadJump false r.items ++ [writeThreadExit r.tid]).map asFetched := by
  refine convertFiles_runs wellTyped_loadJump (by simp) ?_
  rw [List.forall_mem_cons, List.forall_mem_singleton]
  exact ⟨valid_sampleRun (by decide) (by decide) (by decide),
    valid_sampleRun (by decide) (by decide) (by decide)⟩

end SagePTE.Tracer
