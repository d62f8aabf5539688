import SagePTE.Lib.Bytes
import SagePTE.Simulator.Memref

/-!
# Trace files

A trace file is a sequence of `trace_entry_t` records, between a header and a footer.
The record and the enumeration of its types are defined twice: by the tracer, and by
the simulator, whose record has one more field and whose enumeration has the types of
page-table references in between. `file_reader_t` reads records of the simulator's
layout.

## Main definitions

* `TracerType`, `tracerFile` — the tracer's enumeration and its files
* `simulatorFile` — the simulator's files
* `ReaderState.handle` — one turn of `reader_t::operator++`
* `readFile` — `file_reader_t`, from `init` to the end of the trace

## Main results

* `readFile_simulatorFile` — the simulator's files are read as the entries written
* `tracerFile_memrefs_iff` — the tracer's files are not
-/

set_option autoImplicit false

namespace SagePTE.Simulator

open Bytes

/-! ### The two layouts -/

/-- `trace_type_t` of the tracer, in the order of the enumeration. -/
inductive TracerType
  | read | write
  | prefetch | prefetchT0 | prefetchT1 | prefetchT2 | prefetchNta
  | prefetchRead | prefetchWrite | prefetchInstr
  | instr | instrDirectJump | instrIndirectJump | instrConditionalJump
  | instrDirectCall | instrIndirectCall | instrReturn | instrBundle
  | instrFlush | instrFlushEnd | dataFlush | dataFlushEnd
  | thread | threadExit | pid | header | footer
  | hardwarePrefetch | marker | instrNoFetch | instrMaybeFetch | instrSysenter
  deriving DecidableEq, Repr, Inhabited

/-- The type of the same name in the simulator's enumeration. -/
def TracerType.toSimulator : TracerType → TraceType
  | .read => .read
  | .write => .write
  | .prefetch => .prefetch
  | .prefetchT0 => .prefetchT0
  | .prefetchT1 => .prefetchT1
  | .prefetchT2 => .prefetchT2
  | .prefetchNta => .prefetchNta
  | .prefetchRead => .prefetchRead
  | .prefetchWrite => .prefetchWrite
  | .prefetchInstr => .prefetchInstr
  | .instr => .instr
  | .instrDirectJump => .instrDirectJump
  | .instrIndirectJump => .instrIndirectJump
  | .instrConditionalJump => .instrConditionalJump
  | .instrDirectCall => .instrDirectCall
  | .instrIndirectCall => .instrIndirectCall
  | .instrReturn => .instrReturn
  | .instrBundle => .instrBundle
  | .instrFlush => .instrFlush
  | .instrFlushEnd => .instrFlushEnd
  | .dataFlush => .dataFlush
  | .dataFlushEnd => .dataFlushEnd
  | .thread => .thread
  | .threadExit => .threadExit
  | .pid => .pid
  | .header => .header
  | .footer => .footer
  | .hardwarePrefetch => .hardwarePrefetch
  | .marker => .marker
  | .instrNoFetch => .instrNoFetch
  | .instrMaybeFetch => .instrMaybeFetch
  | .instrSysenter => .instrSysenter

/-- An entry of a decoded trace. The conversion writes types that both enumerations have. -/
structure TraceEntry where
  type : TracerType
  size : BitVec 16
  addr : BitVec 64
  deriving DecidableEq, Repr

/-- The tracer's record: type, size and address. -/
def tracerRecord (e : TraceEntry) : List Byte :=
  toLe 2 e.type.ctorIdx ++ toLe 2 e.size.toNat ++ toLe 8 e.addr.toNat

/-- The simulator's record, with a field that the conversion does not set. -/
def simulatorRecord (e : TraceEntry) (physAddr : BitVec 64) : List Byte :=
  toLe 2 e.type.toSimulator.ctorIdx ++ toLe 2 e.size.toNat ++ toLe 8 e.addr.toNat ++
    toLe 8 physAddr.toNat

/-- `TRACE_ENTRY_VERSION`, the same in both. -/
def traceEntryVersion : BitVec 64 := 1

/-- A decoded trace with the header and the footer that the conversion adds. -/
def wholeTrace (body : List TraceEntry) : List TraceEntry :=
  ⟨.header, 0, traceEntryVersion⟩ :: (body ++ [⟨.footer, 0, 0⟩])

/-- The file that the tracer's `drraw2trace` writes. -/
def tracerFile (body : List TraceEntry) : List Byte := ((wholeTrace body).map tracerRecord).flatten

/-- The file that the simulator's `drraw2trace` writes. -/
def simulatorFile (physAddr : ℕ → BitVec 64) (body : List TraceEntry) : List Byte :=
  ((wholeTrace body).zipIdx.map fun p => simulatorRecord p.1 (physAddr p.2)).flatten

/-! ### The reader -/

/-- What the reader uses of a record in memory. -/
@[ext]
structure RawEntry where
  type : BitVec 16
  size : BitVec 16
  addr : BitVec 64
  deriving DecidableEq, Repr

/-- `sizeof(trace_entry_t)` in the simulator. -/
def entrySize : ℕ := 20

/-- The record that `read_next_entry` puts over the bytes. -/
def decodeEntry (bytes : List Byte) : RawEntry where
  type := BitVec.ofNat 16 (fromLe (bytes.take 2))
  size := BitVec.ofNat 16 (fromLe ((bytes.drop 2).take 2))
  addr := BitVec.ofNat 64 (fromLe ((bytes.drop 4).take 8))

/-- The simulator's enumeration, to look a number up in it. -/
def traceTypes : List TraceType :=
  [.read, .write, .pe1, .pe2, .pe3, .pe4,
    .pe1Pe1, .pe1Pe2, .pe1Pe3, .pe1Pe4, .pe1Pa, .pe2Pe1, .pe2Pe2, .pe2Pe3, .pe2Pe4, .pe2Pa,
    .pe3Pe1, .pe3Pe2, .pe3Pe3, .pe3Pe4, .pe3Pa, .pe4Pe1, .pe4Pe2, .pe4Pe3, .pe4Pe4, .pe4Pa,
    .paPe1, .paPe2, .paPe3, .paPe4, .contL1, .contLlc,
    .prefetch, .prefetchT0, .prefetchT1, .prefetchT2, .prefetchNta,
    .prefetchRead, .prefetchWrite, .prefetchInstr,
    .instr, .instrDirectJump, .instrIndirectJump, .instrConditionalJump,
    .instrDirectCall, .instrIndirectCall, .instrReturn, .instrBundle,
    .instrFlush, .instrFlushEnd, .dataFlush, .dataFlushEnd,
    .thread, .threadExit, .pid, .header, .footer,
    .hardwarePrefetch, .marker, .instrNoFetch, .instrMaybeFetch, .instrSysenter]

/-- How reading ends: at the footer, at a record that is cut off or of an unknown type, or
with a failing `assert`. A bundle without instructions never ends and reads past its
lengths. -/
inductive Ending
  | eof | bail | abort | overrun
  deriving DecidableEq, Repr

/-- The state of `reader_t`. The program counters of data references are left out. -/
structure ReaderState where
  curRef : Memref
  curTid : ℤ := 0
  curPid : ℤ := 0
  nextPc : BitVec 64
  prevInstrAddr : BitVec 64 := 0
  tid2pid : ℤ → ℤ := fun _ => 0

/-- The entries that are passed on as data references. -/
def isDataEntry : TraceType → Bool
  | .read | .write | .prefetch | .prefetchT0 | .prefetchT1 | .prefetchT2 | .prefetchNta
  | .prefetchRead | .prefetchWrite | .prefetchInstr => true
  | _ => false

namespace ReaderState

variable (checks : Bool) (ρ : ReaderState) (e : RawEntry)

/-- `assert(cur_tid != 0 && cur_pid != 0)`, where the asserts are compiled in. -/
def requireThread (next : ReaderState × List Memref) : Except Ending (ReaderState × List Memref) :=
  if checks && (ρ.curTid = 0 || ρ.curPid = 0) then .error .abort else .ok next

/-- The current reference with the fields that most entries set. -/
def refOf (type : TraceType) : Memref :=
  { ρ.curRef with
    type, pid := ρ.curPid, tid := ρ.curTid, addr := e.addr, size := e.size.setWidth 64 }

/-- An instruction fetch. One of size zero only sets the program counter. -/
def fetch (type : TraceType) : Except Ending (ReaderState × List Memref) :=
  if e.size = 0 then ρ.requireThread checks (ρ, [])
  else
    let ref := ρ.refOf e type
    ρ.requireThread checks
      ({ ρ with curRef := ref, nextPc := e.addr + e.size.setWidth 64, prevInstrAddr := e.addr },
        [ref])

/-- One instruction of a bundle: the byte of the entry at the index is its length. -/
def bundleStep (s : ReaderState × List Memref) (i : ℕ) : ReaderState × List Memref :=
  let size : BitVec 64 := (e.addr.extractLsb' (8 * i) 8).setWidth 64
  let ref := { s.1.curRef with addr := s.1.nextPc, size }
  ({ s.1 with curRef := ref, nextPc := s.1.nextPc + size }, s.2 ++ [ref])

/-- A bundle of instructions. -/
def bundle : Except Ending (ReaderState × List Memref) :=
  if checks && !(typeIsInstr ρ.curRef.type && e.size ≤ 8) then .error .abort
  else if e.size = 0 ∨ 8 < e.size then .error .overrun
  else .ok ((List.range e.size.toNat).foldl (bundleStep e) (ρ, []))

/-- A record of an unknown type, where `assert(false)` stands before the loop is left. -/
def unknown : Except Ending (ReaderState × List Memref) :=
  .error (if checks then .abort else .bail)

/-- One record: the new state and the references that are passed on. -/
def handle : Except Ending (ReaderState × List Memref) :=
  match traceTypes[e.type.toNat]? with
  | none => unknown checks
  | some type =>
    if isDataEntry type then
      let ref := ρ.refOf e type
      ρ.requireThread checks ({ ρ with curRef := ref }, [ref])
    else
      match type with
      | .footer => .error .eof
      | .instrMaybeFetch =>
        ρ.fetch checks e (if ρ.prevInstrAddr = e.addr then .instrNoFetch else .instr)
      | .instr | .instrDirectJump | .instrIndirectJump | .instrConditionalJump
      | .instrDirectCall | .instrIndirectCall | .instrReturn | .instrSysenter
      | .instrNoFetch => ρ.fetch checks e type
      | .instrBundle => ρ.bundle checks e
      | .instrFlush | .dataFlush =>
        let ref := ρ.refOf e type
        -- a flush of size zero waits for its end
        ρ.requireThread checks ({ ρ with curRef := ref }, if e.size = 0 then [] else [ref])
      | .instrFlushEnd | .dataFlushEnd =>
        let ref := { ρ.curRef with size := e.addr - ρ.curRef.addr }
        .ok ({ ρ with curRef := ref }, [ref])
      | .thread =>
        let tid := e.addr.toInt
        .ok ({ ρ with curTid := tid, curPid := ρ.tid2pid tid }, [])
      | .threadExit =>
        let tid := e.addr.toInt
        let pid := ρ.tid2pid tid
        let ref := { ρ.curRef with type, pid, tid }
        let ρ' := { ρ with curTid := tid, curPid := pid, curRef := ref }
        ρ'.requireThread checks (ρ', [ref])
      | .pid =>
        let pid := e.addr.toInt
        .ok ({ ρ with curPid := pid, tid2pid := Function.update ρ.tid2pid ρ.curTid pid }, [])
      | .marker =>
        -- `TRACE_MARKER_TYPE_CPU_ID` is the fourth sub-type
        let markerType : MarkerType := if e.size = 3 then .cpuId else .other
        let ref := { ρ.curRef with
          type, pid := ρ.curPid, tid := ρ.curTid, markerType, markerValue := e.addr }
        ρ.requireThread checks ({ ρ with curRef := ref }, [ref])
      | _ => unknown checks

/-- The references of a sequence of records. Without a footer the trace is cut off. -/
def readAll : ReaderState → List RawEntry → List Memref × Ending
  | _, [] => ([], if checks then .abort else .bail)
  | ρ, e :: es =>
    match ρ.handle checks e with
    | .error ending => ([], ending)
    | .ok next => let r := readAll next.1 es; (next.2 ++ r.1, r.2)

end ReaderState

/-- `file_reader_t`: `init` and all references up to the end. It is `none` where `init`
fails. `unset` holds what the constructor leaves unset. -/
def readFile (checks : Bool) (unset : ReaderState) (bytes : List Byte) :
    Option (List Memref × Ending) :=
  match (records entrySize bytes).map decodeEntry with
  | [] => none
  | first :: rest =>
    if first.type = BitVec.ofNat 16 TraceType.header.ctorIdx ∧ first.addr = traceEntryVersion then
      some (ReaderState.readAll checks { curRef := unset.curRef, nextPc := unset.nextPc } rest)
    else none

/-! ### Files of the simulator's layout -/

/-- The record that the reader finds for an entry of a decoded trace. -/
def TraceEntry.raw (e : TraceEntry) : RawEntry :=
  ⟨BitVec.ofNat 16 e.type.toSimulator.ctorIdx, e.size, e.addr⟩

theorem TracerType.ctorIdx_lt (t : TracerType) :
    t.ctorIdx < 256 ^ 2 ∧ t.toSimulator.ctorIdx < 256 ^ 2 := by
  cases t <;> decide

theorem length_tracerRecord (e : TraceEntry) : (tracerRecord e).length = 12 := by
  simp [tracerRecord]

theorem length_simulatorRecord (e : TraceEntry) (physAddr : BitVec 64) :
    (simulatorRecord e physAddr).length = entrySize := by
  simp [simulatorRecord, entrySize]

/-- The first two bytes of a record are its type. -/
theorem decodeEntry_type {n : ℕ} (hn : n < 256 ^ 2) (rest : List Byte) :
    (decodeEntry (toLe 2 n ++ rest)).type = BitVec.ofNat 16 n := by
  have htake : (toLe 2 n ++ rest).take 2 = toLe 2 n := List.take_left' (length_toLe 2 n)
  rw [decodeEntry, htake, fromLe_toLe hn]

theorem decodeEntry_simulatorRecord (e : TraceEntry) (physAddr : BitVec 64) :
    decodeEntry (simulatorRecord e physAddr) = e.raw := by
  have hsize : e.size.toNat < 256 ^ 2 := e.size.isLt
  have haddr : e.addr.toNat < 256 ^ 8 := e.addr.isLt
  have hsizeField : ((simulatorRecord e physAddr).drop 2).take 2 = toLe 2 e.size.toNat := by
    simp [simulatorRecord]
  have haddrField : ((simulatorRecord e physAddr).drop 4).take 8 = toLe 8 e.addr.toNat := by
    simp [simulatorRecord, List.drop_append, List.take_append]
  ext1
  · rw [simulatorRecord, List.append_assoc, List.append_assoc]
    exact decodeEntry_type e.type.ctorIdx_lt.2 _
  · rw [decodeEntry, hsizeField, fromLe_toLe hsize, BitVec.ofNat_toNat, BitVec.setWidth_eq]
    rfl
  · rw [decodeEntry, haddrField, fromLe_toLe haddr, BitVec.ofNat_toNat, BitVec.setWidth_eq]
    rfl

theorem decodeEntry_simulatorFile (physAddr : ℕ → BitVec 64) (body : List TraceEntry) :
    (records entrySize (simulatorFile physAddr body)).map decodeEntry =
      (wholeTrace body).map TraceEntry.raw := by
  have hlen : ∀ r ∈ (wholeTrace body).zipIdx.map fun p => simulatorRecord p.1 (physAddr p.2),
      r.length = entrySize := by
    intro r hr
    obtain ⟨p, -, rfl⟩ := List.mem_map.mp hr
    exact length_simulatorRecord _ _
  rw [simulatorFile, records_flatten (by decide) hlen, List.map_map]
  have hraw : (decodeEntry ∘ fun p : TraceEntry × ℕ => simulatorRecord p.1 (physAddr p.2)) =
      TraceEntry.raw ∘ Prod.fst := by
    funext p
    exact decodeEntry_simulatorRecord p.1 _
  rw [hraw, ← List.map_map, List.zipIdx_map_fst]

/-- The references of a decoded trace. -/
def traceRefs (checks : Bool) (unset : ReaderState) (body : List TraceEntry) :
    List Memref × Ending :=
  ReaderState.readAll checks { curRef := unset.curRef, nextPc := unset.nextPc }
    (List.map TraceEntry.raw (body ++ [⟨.footer, 0, 0⟩]))

/-- **The simulator's files.** The reader accepts them and handles the entries that were
written, whatever the field that nothing sets holds. -/
theorem readFile_simulatorFile (checks : Bool) (unset : ReaderState) (physAddr : ℕ → BitVec 64)
    (body : List TraceEntry) :
    readFile checks unset (simulatorFile physAddr body) = some (traceRefs checks unset body) := by
  have hheader : (TraceEntry.raw ⟨.header, 0, traceEntryVersion⟩).type =
      BitVec.ofNat 16 TraceType.header.ctorIdx := rfl
  rw [readFile, decodeEntry_simulatorFile, wholeTrace, List.map_cons]
  exact if_pos (And.intro hheader rfl)

/-! ### Files of the tracer's layout -/

/-- **The tracer's files.** The first number of the file is not the simulator's number of a
header, and `init` fails. -/
theorem readFile_tracerFile (checks : Bool) (unset : ReaderState) (body : List TraceEntry) :
    readFile checks unset (tracerFile body) = none := by
  have hlong : entrySize ≤ (tracerFile body).length := by
    simp [tracerFile, wholeTrace, length_tracerRecord, entrySize]
    omega
  obtain ⟨rest, hrest⟩ := exists_records_eq_cons (by decide) hlong
  -- the header's number, of the tracer's enumeration, stands in the first two bytes
  obtain ⟨tail, htail⟩ : ∃ tail, (tracerFile body).take entrySize =
      toLe 2 TracerType.header.ctorIdx ++ tail :=
    ⟨_, rfl⟩
  have htype := decodeEntry_type TracerType.header.ctorIdx_lt.1 tail
  have hne : BitVec.ofNat 16 TracerType.header.ctorIdx ≠
      BitVec.ofNat 16 TraceType.header.ctorIdx := by decide
  rw [readFile, hrest, htail, List.map_cons]
  exact if_neg fun h => hne (htype.symm.trans h.1)

/-- The references that a reader passes on. -/
def delivered (r : Option (List Memref × Ending)) : List Memref := (r.map Prod.fst).getD []

/-- **The two layouts.** The reader rejects the tracer's file of every decoded trace, and
accepts the simulator's file. The two are read as the same references exactly when the
trace has no reference at all. -/
theorem tracerFile_memrefs_iff (checks : Bool) (unset : ReaderState) (physAddr : ℕ → BitVec 64)
    (body : List TraceEntry) :
    readFile checks unset (tracerFile body) = none ∧
      readFile checks unset (simulatorFile physAddr body) = some (traceRefs checks unset body) ∧
      (delivered (readFile checks unset (tracerFile body)) =
          delivered (readFile checks unset (simulatorFile physAddr body)) ↔
        (traceRefs checks unset body).1 = []) := by
  refine ⟨readFile_tracerFile checks unset body,
    readFile_simulatorFile checks unset physAddr body, ?_⟩
  rw [readFile_tracerFile, readFile_simulatorFile]
  exact eq_comm

/-- A trace of one read. -/
theorem one_read_not_delivered :
    let unset : ReaderState := { curRef := default, nextPc := 0 }
    let body : List TraceEntry := [⟨.thread, 0, 1⟩, ⟨.pid, 0, 1⟩, ⟨.read, 8, 0x7010⟩]
    delivered (readFile true unset (tracerFile body)) = [] ∧
      delivered (readFile true unset (simulatorFile (fun _ => 0) body)) =
        [⟨.read, 1, 1, 0x7010, 8, .other, 0⟩] := by
  decide +kernel

end SagePTE.Simulator
