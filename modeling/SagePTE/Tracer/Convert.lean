import SagePTE.Lib.Fallible
import SagePTE.Simulator.TraceFile
import SagePTE.Tracer.OfflineEntry

/-!
# Converting raw entries

`trace_converter_t` turns the raw entries of one thread into entries of the final trace. The
raw file holds one entry for a basic block and one for each address; the instructions and the
sizes of their accesses are found by decoding the binaries. Which entry an address belongs to
is not stored: the addresses follow the block, in the order of its memory operands.

## Main definitions

* `Binary` — the mapped modules and the decoder
* `appendMemref` — one memory operand
* `appendInstrs`, `appendBbEntries` — the instructions of a block
* `processOfflineEntry` — one raw entry, and those that belong to it

## Main results

* `skips_processOfflineEntry` — the entries that are read further, and those that are put back
-/

set_option autoImplicit false

namespace SagePTE.Tracer

open Simulator

/-! ### Instructions and modules -/

/-- What `append_memref` uses of an operand: its size and, where only the base register was
stored, the displacement. -/
structure MemOpnd where
  size : BitVec 16
  disp : Option (BitVec 64)
  deriving DecidableEq, Repr

/-- `instr_summary_t`. -/
structure InstrSummary where
  type : TraceType
  prefetchType : TraceType
  length : BitVec 8
  nextPc : BitVec 64
  readsMemory : Bool
  writesMemory : Bool
  isPrefetch : Bool
  isFlush : Bool
  isCti : Bool
  memSrcs : List MemOpnd
  memDests : List MemOpnd
  deriving DecidableEq, Repr

/-- The operands in the order of the two loops over them, with whether they are written. -/
def InstrSummary.memOpnds (instr : InstrSummary) : List (MemOpnd × Bool) :=
  instr.memSrcs.map (·, false) ++ instr.memDests.map (·, true)

/-- `module_t`. A module that is not mapped has the base zero. -/
structure Module where
  origBase : BitVec 64
  mapBase : BitVec 64
  deriving DecidableEq, Repr

/-- The modules of the traced program and what decoding finds at an address. -/
structure Binary where
  modvec : List Module
  decode : BitVec 64 → Option InstrSummary

/-! ### The state of the conversion -/

/-- How a conversion fails: with a message, with an assertion, or with an index that the
vector of modules does not have. -/
inductive Failure
  | error (message : String)
  | abort
  | undefined
  deriving DecidableEq, Repr

/-- What the threads of a conversion share: three flags and the decoded instructions. -/
structure Shared where
  lastBbHandled : Bool := true
  prevInstrWasRepString : Bool := false
  instrsAreSeparate : Bool := false
  decodeCache : List (BitVec 64 × InstrSummary) := []

/-- The state of the conversion of one thread: what is shared, the file, the branch that is
held back, and what has been written. -/
structure Conv where
  shared : Shared
  file : ThreadFile
  delayedBranch : List RawEntry := []
  out : List RawEntry := []

/-- An entry of a type. -/
def entryOf (type : TraceType) (size : BitVec 16) (addr : BitVec 64) : RawEntry :=
  ⟨BitVec.ofNat 16 type.ctorIdx, size, addr⟩

/-- `write`. -/
def Conv.write (c : Conv) (es : List RawEntry) : Conv := { c with out := c.out ++ es }

/-- `write_delayed_branches`. -/
def Conv.writeDelayedBranches (c : Conv) (es : List RawEntry) : Except Failure Conv :=
  if c.delayedBranch = [] then .ok { c with delayedBranch := es }
  else .error (.error "Failed to flush delayed branch")

/-- `WRITE_BUFFER_SIZE`. -/
def writeBufferSize : ℕ := 64

/-! ### Memory operands -/

/-- The type and the size of an access that has no entry of its own for them. -/
def accessOf (instr : InstrSummary) (ref : MemOpnd × Bool) : BitVec 16 × BitVec 16 :=
  let number (type : TraceType) := BitVec.ofNat 16 type.ctorIdx
  if instr.isPrefetch then (number instr.prefetchType, 1)
  else if instr.isFlush then (number .dataFlush, ref.1.size)
  else (number (if ref.2 then .write else .read), ref.1.size)

/-- The type and the size of an entry of `OFFLINE_EXT_TYPE_MEMINFO`. -/
def meminfo? : OfflineEntry → Option (BitVec 16 × BitVec 16)
  | .extended valueA valueB ext =>
    if ext = OfflineEntry.extMeminfo then some (valueB.setWidth 16, valueA.setWidth 16) else none
  | _ => none

/-- The entry in which `append_memref` looks for the address, after one with a type. -/
def nextAddress (f : ThreadFile) :
    Except Failure (Option (BitVec 16 × BitVec 16) × OfflineEntry × ThreadFile) :=
  match f.read with
  | (none, _) => .error (.error "Trace ends mid-block")
  | (some e, f) =>
    match meminfo? e with
    | none => .ok (none, e, f)
    | some info =>
      match f.read with
      | (none, _) => .error (.error "Trace ends mid-block")
      | (some e, f) => .ok (some info, e, f)

/-- The entry of an access. -/
def memrefEntry (instr : InstrSummary) (ref : MemOpnd × Bool)
    (info : Option (BitVec 16 × BitVec 16)) (value : BitVec 64) : RawEntry :=
  let access := info.getD (accessOf instr ref)
  ⟨access.1, access.2, value + ref.1.disp.getD 0⟩

/-- `append_memref`: the entry, if there is an address for it, and whether a signal
interrupted the block after it. -/
def appendMemref (instr : InstrSummary) (ref : MemOpnd × Bool) (f : ThreadFile) :
    Except Failure (List RawEntry × Bool × ThreadFile) := do
  let r ← nextAddress f
  match r.2.1 with
  | .memref value =>
    let es := [memrefEntry instr ref r.1 value]
    -- the entry after the address says whether the access faulted
    match r.2.2.read with
    | (none, f) => .ok (es, false, f)
    | (some next, f) => .ok (es, next.isKernelEvent, f.unread next)
  | e => .ok ([], false, r.2.2.unread e)

/-- The operands of an instruction, up to the first one after which it was interrupted. -/
def appendMemrefs (instr : InstrSummary) :
    List (MemOpnd × Bool) → ThreadFile → Except Failure (List RawEntry × Bool × ThreadFile)
  | [], f => .ok ([], false, f)
  | ref :: refs, f => do
    let r ← appendMemref instr ref f
    if r.2.1 then .ok r
    else
      let r' ← appendMemrefs instr refs r.2.2
      .ok (r.1 ++ r'.1, r'.2)

/-! ### Blocks -/

/-- `get_instr_summary`, with its cache. -/
def getInstrSummary (b : Binary) (pc : BitVec 64) (s : Shared) : Option (InstrSummary × Shared) :=
  match s.decodeCache.lookup pc with
  | some instr => some (instr, s)
  | none =>
    (b.decode pc).map fun instr => (instr, { s with decodeCache := (pc, instr) :: s.decodeCache })

/-- The type of a fetch: the iterations of a string instruction after the first are not
fetched. -/
def fetchType (repString : Bool) (type : TraceType) : TraceType :=
  if type = .instrMaybeFetch then (if repString then .instrNoFetch else .instr) else type

/-- The entry of a fetch. A filtered trace has an instruction of size zero before each address. -/
def fetchEntry (mod : Module) (skipIcache repString : Bool) (instr : InstrSummary)
    (decodePc : BitVec 64) : RawEntry :=
  entryOf (fetchType repString instr.type) (if skipIcache then 0 else instr.length.setWidth 16)
    (decodePc - mod.mapBase + mod.origBase)

/-- The accesses of an instruction. The instructions of a filtered trace have none. -/
def appendAccesses (skipIcache : Bool) (instr : InstrSummary) (c : Conv) :
    Except Failure (List RawEntry × Bool × ThreadFile) :=
  if (!c.shared.instrsAreSeparate || skipIcache) && (instr.readsMemory || instr.writesMemory) then
    appendMemrefs instr instr.memOpnds c.file
  else .ok ([], false, c.file)

/-- The entries of an instruction are written, or held back if it is a branch. -/
def Conv.writeInstr (c : Conv) (instr : InstrSummary) (es : List RawEntry) : Except Failure Conv :=
  if writeBufferSize ≤ es.length then .error (.error "Too many entries")
  else if instr.isCti then c.writeDelayedBranches es
  else .ok (c.write es)

/-- One instruction of a block. `last` says whether it is the block's last one. The answer is
whether the block was interrupted. -/
def appendInstr (mod : Module) (skipIcache last : Bool) (instr : InstrSummary)
    (decodePc : BitVec 64) (c : Conv) : Except Failure (Bool × Conv) :=
  if instr.isCti && !last then .error (.error "invalid cti")
  else do
    let fetch := fetchEntry mod skipIcache c.shared.prevInstrWasRepString instr decodePc
    let r ← appendAccesses skipIcache instr c
    let c ← { c with
      file := r.2.2
      shared.prevInstrWasRepString := instr.type = TraceType.instrMaybeFetch }.writeInstr
        instr (fetch :: r.1)
    .ok (r.2.1, c)

/-- The loop of `append_bb_entries` over the instructions that are left. -/
def appendInstrs (b : Binary) (mod : Module) (skipIcache : Bool) :
    ℕ → BitVec 64 → Conv → Except Failure Conv
  | 0, _, c => .ok c
  | n + 1, decodePc, c =>
    match getInstrSummary b decodePc c.shared with
    | none => .ok c
    | some (instr, shared) => do
      let r ← appendInstr mod skipIcache (n = 0) instr decodePc { c with shared }
      if r.1 then .ok r.2 else appendInstrs b mod skipIcache n instr.nextPc r.2

/-- The number of instructions of a block. A count of zero comes before each address of a
filtered trace. -/
def blockCount (count : BitVec 12) : ℕ := if count = 0 then 1 else count.toNat

/-- `append_bb_entries`. A block outside of the modules is skipped. -/
def appendBbEntries (b : Binary) (modoffs : BitVec 33) (modidx : BitVec 16) (count : BitVec 12)
    (c : Conv) : Except Failure Conv :=
  match b.modvec[modidx.toNat]? with
  | none => .error .undefined
  | some mod =>
    if modidx = 0 ∧ modoffs = 0 ∨ mod.mapBase = 0 then
      .ok { c with shared.lastBbHandled := false }
    else
      let separate : Bool := c.shared.instrsAreSeparate || count = 0
      if separate && blockCount count ≠ 1 then .error (.error "cannot mix 0-count and >1-count")
      else do
        let c ← appendInstrs b mod (count = 0) (blockCount count)
          (mod.mapBase + modoffs.setWidth 64) { c with shared.instrsAreSeparate := separate }
        .ok { c with shared.lastBbHandled := true }

/-! ### Entries -/

/-- `write_thread_exit`. -/
def writeThreadExit (tid : BitVec 32) : RawEntry := entryOf .threadExit 4 (tid.signExtend 64)

/-- `write_marker`. -/
def writeMarker (type : BitVec 16) (value : BitVec 64) : RawEntry := entryOf .marker type value

/-- `write_iflush`. A size that does not fit is written as an end. -/
def writeIflush (start size : BitVec 64) : List RawEntry :=
  let short : BitVec 16 := if size.toNat < 2 ^ 16 then size.setWidth 16 else 0
  entryOf .instrFlush short start ::
    if short = 0 then [entryOf .instrFlushEnd 0 (start + size)] else []

/-- `on_thread_end`, up to the count of threads. -/
def onThreadEnd (c : Conv) : Except Failure Conv :=
  match c.file.read with
  | (some _, _) => .error (.error "Footer is not the final entry")
  | (none, file) =>
    if file.atEof then .ok { c with file } else .error (.error "Footer is not the final entry")

/-- `process_offline_entry`. The answer is whether the entry ended the thread. -/
def processOfflineEntry (b : Binary) (tid : BitVec 32) (e : OfflineEntry) (c : Conv) :
    Except Failure (Bool × Conv) :=
  match e with
  | .extended valueA valueB ext =>
    if ext = OfflineEntry.extFooter then
      if tid = 0 then .error (.error "Missing thread id")
      else do
        let c ← onThreadEnd (c.write [writeThreadExit tid])
        .ok (true, c)
    else if ext = OfflineEntry.extMarker then
      .ok (false, c.write [writeMarker (valueB.setWidth 16) (valueA.setWidth 64)])
    else .error (.error ("Invalid extension type " ++ toString ext.toNat))
  | .memref value =>
    -- the block is not known, and neither are the type and the size
    if c.shared.lastBbHandled then .error (.error "memref entry found outside of bb")
    else .ok (false, c.write [entryOf .read 1 value])
  | .pc modoffs modidx instrCount => do
    let c ← appendBbEntries b modoffs modidx instrCount c
    .ok (false, c)
  | .iflush first =>
    match c.file.read with
    | (some (.iflush last), file) =>
      .ok (false, { c with file }.write
        (writeIflush (first.setWidth 64) (last.setWidth 64 - first.setWidth 64)))
    | _ => .error (.error "Flush missing 2nd entry")
  | .thread _ => .error (.error "Unknown trace type 2")
  | .pid _ => .error (.error "Unknown trace type 3")
  | .timestamp _ => .error (.error "Unknown trace type 4")

/-! ### The file -/

section Skips

open Fallible ThreadFile

theorem usec?_of_meminfo? {e : OfflineEntry} {info : BitVec 16 × BitVec 16}
    (h : meminfo? e = some info) : e.usec? = none := by
  cases e with
  | timestamp usec => simp [meminfo?] at h
  | _ => rfl

/-- The entry in which the address is looked for has been read, and nothing is put back. -/
theorem gives_nextAddress {f f' : ThreadFile} {info : Option (BitVec 16 × BitVec 16)}
    {e : OfflineEntry} {es : List OfflineEntry} (h : nextAddress f = .ok (info, e, f'))
    (hes : f.Gives es) :
    ∃ skipped es', es = skipped ++ e :: es' ∧ f'.Gives es' ∧ f'.preRead = [] ∧
      ∀ e ∈ skipped, e.usec? = none := by
  unfold nextAddress at h
  split at h
  · simp at h
  next e₁ f₁ hread =>
    obtain ⟨es₁, rfl, hes₁, hpre₁, -⟩ := hes.of_read_some hread
    split at h
    · obtain ⟨-, rfl, rfl⟩ : _ ∧ e₁ = e ∧ f₁ = f' := by simpa using h
      exact ⟨[], es₁, rfl, hes₁, hpre₁, by simp⟩
    next info' hinfo =>
      split at h
      · simp at h
      next e₂ f₂ hread₂ =>
        obtain ⟨-, rfl, rfl⟩ : _ ∧ e₂ = e ∧ f₂ = f' := by simpa using h
        obtain ⟨es₂, rfl, hes₂, hpre₂, -⟩ := hes₁.of_read_some hread₂
        exact ⟨[e₁], es₂, rfl, hes₂, hpre₂, by simpa using usec?_of_meminfo? hinfo⟩

theorem skips_appendMemref {instr : InstrSummary} {ref : MemOpnd × Bool} {f : ThreadFile}
    {r : List RawEntry × Bool × ThreadFile} (h : appendMemref instr ref f = .ok r) :
    f.Skips r.2.2 := by
  intro es hes
  obtain ⟨⟨info, e, f₁⟩, hnext, h⟩ := bind_eq_ok_iff.mp h
  obtain ⟨skipped, es₁, rfl, hes₁, hpre₁, hnone⟩ := gives_nextAddress hnext hes
  dsimp only at h
  split at h
  next value =>
    -- the address is passed over, and the entry after it is only looked at
    have hnone : ∀ e ∈ skipped ++ [.memref value], e.usec? = none := by
      intro e he
      rcases List.mem_append.mp he with he | he
      · exact hnone e he
      · simp [List.mem_singleton.mp he, OfflineEntry.usec?]
    have hafter : f₁.Skips r.2.2 := by
      split at h
      next f₂ hread =>
        obtain rfl := Except.ok.inj h
        exact .of_read_none hread
      next next f₂ hread =>
        obtain rfl := Except.ok.inj h
        exact .of_read_unread hread
    obtain ⟨skipped₁, es₂, rfl, hes₂, hnone₁⟩ := hafter es₁ hes₁
    refine ⟨skipped ++ [.memref value] ++ skipped₁, es₂, by simp, hes₂, ?_⟩
    intro e he
    rcases List.mem_append.mp he with he | he
    · exact hnone e he
    · exact hnone₁ e he
  · obtain rfl := Except.ok.inj h
    exact ⟨skipped, e :: es₁, rfl, hes₁.unread hpre₁, hnone⟩

theorem skips_appendMemrefs {instr : InstrSummary} {refs : List (MemOpnd × Bool)}
    {f : ThreadFile} {r : List RawEntry × Bool × ThreadFile}
    (h : appendMemrefs instr refs f = .ok r) : f.Skips r.2.2 := by
  induction refs generalizing f r with
  | nil =>
    obtain rfl := Except.ok.inj h
    exact .refl f
  | cons ref refs ih =>
    obtain ⟨r₁, href, h⟩ := bind_eq_ok_iff.mp h
    split at h
    · obtain rfl := Except.ok.inj h
      exact skips_appendMemref href
    · obtain ⟨r₂, hrefs, h⟩ := bind_eq_ok_iff.mp h
      obtain rfl := Except.ok.inj h
      have hr := ih hrefs
      exact (skips_appendMemref href).trans hr

theorem skips_appendInstr {mod : Module} {skipIcache last : Bool} {instr : InstrSummary}
    {pc : BitVec 64} {c : Conv} {r : Bool × Conv}
    (h : appendInstr mod skipIcache last instr pc c = .ok r) : c.file.Skips r.2.file := by
  unfold appendInstr at h
  split at h
  · simp at h
  obtain ⟨r₁, haccesses, h⟩ := bind_eq_ok_iff.mp h
  obtain ⟨c₂, hwrite, h⟩ := bind_eq_ok_iff.mp h
  obtain rfl := Except.ok.inj h
  have hfile : c₂.file = r₁.2.2 := by
    unfold Conv.writeInstr Conv.writeDelayedBranches at hwrite
    split_ifs at hwrite <;> obtain rfl := Except.ok.inj hwrite <;> rfl
  rw [hfile]
  unfold appendAccesses at haccesses
  split at haccesses
  · exact skips_appendMemrefs haccesses
  · obtain rfl := Except.ok.inj haccesses
    exact .refl _

theorem skips_appendInstrs {b : Binary} {mod : Module} {skipIcache : Bool} {n : ℕ}
    {pc : BitVec 64} {c c' : Conv} (h : appendInstrs b mod skipIcache n pc c = .ok c') :
    c.file.Skips c'.file := by
  induction n generalizing pc c with
  | zero =>
    obtain rfl := Except.ok.inj h
    exact .refl _
  | succ n ih =>
    unfold appendInstrs at h
    split at h
    · obtain rfl := Except.ok.inj h
      exact .refl _
    next instr shared _ =>
      obtain ⟨r, hinstr, h⟩ := bind_eq_ok_iff.mp h
      have hr := skips_appendInstr hinstr
      split at h
      · obtain rfl := Except.ok.inj h
        exact hr
      · exact hr.trans (ih h)

theorem skips_appendBbEntries {b : Binary} {modoffs : BitVec 33} {modidx : BitVec 16}
    {count : BitVec 12} {c c' : Conv} (h : appendBbEntries b modoffs modidx count c = .ok c') :
    c.file.Skips c'.file := by
  unfold appendBbEntries at h
  split at h
  · simp at h
  · split at h
    · obtain rfl := Except.ok.inj h
      exact .refl _
    · dsimp only at h
      split at h
      · simp at h
      · obtain ⟨c₁, hinstrs, h⟩ := bind_eq_ok_iff.mp h
        obtain rfl := Except.ok.inj h
        have hc₁ := skips_appendInstrs hinstrs
        exact hc₁

/-- The conversion of an entry does not pass over a timestamp. -/
theorem skips_processOfflineEntry {b : Binary} {tid : BitVec 32} {e : OfflineEntry} {c : Conv}
    {r : Bool × Conv} (h : processOfflineEntry b tid e c = .ok r) :
    c.file.Skips r.2.file := by
  unfold processOfflineEntry at h
  split at h
  · split at h
    · split at h
      · simp at h
      · obtain ⟨c₁, hend, h⟩ := bind_eq_ok_iff.mp h
        obtain rfl := Except.ok.inj h
        unfold onThreadEnd at hend
        split at hend
        · simp at hend
        next f' hread =>
          split at hend
          · obtain rfl := Except.ok.inj hend
            exact .of_read_none hread
          · simp at hend
    · split at h
      · obtain rfl := Except.ok.inj h
        exact .refl _
      · simp at h
  · split at h
    · simp at h
    · obtain rfl := Except.ok.inj h
      exact .refl _
  · obtain ⟨c₁, hbb, h⟩ := bind_eq_ok_iff.mp h
    obtain rfl := Except.ok.inj h
    exact skips_appendBbEntries hbb
  · split at h
    next last f' hread =>
      obtain rfl := Except.ok.inj h
      exact .of_read_some hread rfl
    · simp at h
  all_goals simp at h

end Skips

/-- A load with a base register and a displacement. -/
def loadInstr : InstrSummary where
  type := .instr
  prefetchType := .prefetch
  length := 4
  nextPc := 0x7f0014
  readsMemory := true
  writesMemory := false
  isPrefetch := false
  isFlush := false
  isCti := false
  memSrcs := [⟨8, some 16⟩]
  memDests := []

/-- A jump. -/
def jumpInstr : InstrSummary :=
  { loadInstr with
    type := .instrDirectJump, length := 2, nextPc := 0x7f0016
    readsMemory := false, isCti := true, memSrcs := [] }

/-- A module with one block, of the two instructions. -/
def loadJump : Binary where
  modvec := [⟨0x400000, 0x7f0000⟩]
  decode pc :=
    if pc = 0x7f0010 then some loadInstr else if pc = 0x7f0014 then some jumpInstr else none

end SagePTE.Tracer
