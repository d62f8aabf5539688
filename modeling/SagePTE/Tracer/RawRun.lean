import SagePTE.Tracer.ReadBack

/-!
# What the tracer records

The tracer records a run of a thread without the run's instructions: one entry for a block, and
one for each address, of which it stores the base register alone where there is one. What a
block was and what its addresses were used for is found when the files are converted.

## Main definitions

* `Exec` — an instruction that was executed, with its addresses
* `Executes` — the instructions of a block, up to a fault
* `Item`, `rawFileOf` — what a thread did, and the raw file of it
* `executed` — the fetches and accesses of a run
* `kept` — what is seen of a block before a signal
-/

set_option autoImplicit false

namespace SagePTE.Tracer

open Simulator

/-! ### Blocks -/

/-- An instruction that was executed, and the addresses of its memory operands. -/
structure Exec where
  instr : InstrSummary
  addrs : List (BitVec 64)
  deriving DecidableEq, Repr

/-- `insert_save_addr`. Of an operand with a base register and no index, only the register is
stored. -/
def saveAddr (ref : MemOpnd × Bool) (addr : BitVec 64) : OfflineEntry :=
  .memref (addr - ref.1.disp.getD 0)

namespace Exec

variable (x : Exec)

/-- The entries that the instrumentation of `event_app_instruction` stores for the operands. -/
def saved : List OfflineEntry := List.zipWith saveAddr x.instr.memOpnds x.addrs

/-- The accesses themselves. -/
def accesses : List RawEntry :=
  List.zipWith (fun ref addr => ⟨(accessOf x.instr ref).1, (accessOf x.instr ref).2, addr⟩)
    x.instr.memOpnds x.addrs

/-- Whether the instruction has memory operands. -/
def usesMemory : Bool := x.instr.readsMemory || x.instr.writesMemory

/-- The instruction was executed to its end. -/
def Complete : Prop := x.addrs.length = if x.usesMemory then x.instr.memOpnds.length else 0

/-- The instruction was interrupted at an access, which has been stored. -/
def Faulted : Prop :=
  x.usesMemory = true ∧ x.addrs ≠ [] ∧ x.addrs.length ≤ x.instr.memOpnds.length

/-- The instruction is a string instruction, of which only the first iteration is fetched. -/
def isRepString : Bool := x.instr.type = .instrMaybeFetch

instance : Decidable x.Complete := inferInstanceAs (Decidable (_ = _))

instance : Decidable x.Faulted := inferInstanceAs (Decidable (_ ∧ _ ∧ _))

end Exec

/-- The instructions of a block from some address on. A block ends after its instructions, or,
where a signal follows, with one that faulted. Its last instruction may have made no access,
such as a string instruction without iterations. Only the last instruction is a branch. -/
inductive Executes (b : Binary) (signal : Bool) : ℕ → BitVec 64 → List Exec → Prop
  | done (pc : BitVec 64) : Executes b signal 0 pc []
  | next {n : ℕ} {pc : BitVec 64} {x : Exec} {xs : List Exec}
      (hdecode : b.decode pc = some x.instr) (hcti : x.instr.isCti = true → n = 0)
      (hlength : x.addrs.length + 1 < writeBufferSize) (hcomplete : x.Complete)
      (hnext : Executes b signal n x.instr.nextPc xs) : Executes b signal (n + 1) pc (x :: xs)
  | idle {pc : BitVec 64} {x : Exec} (hdecode : b.decode pc = some x.instr)
      (haddrs : x.addrs = []) : Executes b signal 1 pc [x]
  | fault {n : ℕ} {pc : BitVec 64} {x : Exec}
      (hdecode : b.decode pc = some x.instr) (hcti : x.instr.isCti = true → n = 0)
      (hlength : x.addrs.length + 1 < writeBufferSize) (hfaulted : x.Faulted)
      (hsignal : signal = true) : Executes b signal (n + 1) pc [x]

/-- No access is left. -/
def accessless (xs : List Exec) : Bool := xs.all fun x => x.addrs.isEmpty

/-- What the conversion can tell of a block. A signal after an access is taken for a fault of
the instruction that made the access. -/
def kept (signal : Bool) : List Exec → List Exec
  | [] => []
  | x :: xs =>
    if signal && !x.addrs.isEmpty && accessless xs then [x] else x :: kept signal xs

/-- The fetches and accesses of some instructions. `rep` says whether the last instruction was
a string instruction. -/
def fetches (mod : Module) : Bool → BitVec 64 → List Exec → List RawEntry
  | _, _, [] => []
  | rep, pc, x :: xs =>
    fetchEntry mod false rep x.instr pc ::
      (x.accesses ++ fetches mod x.isRepString x.instr.nextPc xs)

/-- Whether the last instruction was a string instruction, after some more. -/
def repAfter (rep : Bool) (xs : List Exec) : Bool := xs.foldl (fun _ x => x.isRepString) rep

/-! ### Runs -/

/-- What a thread does, as far as the tracer records it: a buffer is started, a marker is
written, a block of a module is executed, a block outside of the modules is executed, of which
only the stored values are known, or instructions are flushed. -/
inductive Item
  | timestamp (usec : BitVec 61)
  | marker (type : BitVec 8) (value : BitVec 48)
  | block (modoffs : BitVec 33) (modidx : BitVec 16) (count : BitVec 12) (execs : List Exec)
  | foreign (count : BitVec 12) (values : List (BitVec 64))
  | iflush (start last : BitVec 61)
  deriving DecidableEq, Repr

/-- The raw entries of an item: `insert_save_pc` with `insert_save_addr`, `append_marker`,
`append_iflush`, and the timestamp of `append_unit_header`. -/
def Item.entries : Item → List OfflineEntry
  | .timestamp usec => [.timestamp usec]
  | .marker type value => [.marker type value]
  | .block modoffs modidx count execs => .pc modoffs modidx count :: execs.flatMap Exec.saved
  | .foreign count values => .pc 0 0 count :: values.map .memref
  | .iflush start last => [.iflush start, .iflush last]

/-- The raw entries of a run, to the footer of `append_thread_exit`. -/
def runEntries (items : List Item) : List OfflineEntry :=
  items.flatMap Item.entries ++ [.footer]

/-- `append_thread_header`. -/
def threadHeader (tid pid : BitVec 32) : List OfflineEntry :=
  [.extended 2 0 OfflineEntry.extHeader, .thread (tid.setWidth 61), .pid (pid.setWidth 61)]

/-- The raw file of a run. -/
def rawFileOf (tid pid : BitVec 32) (items : List Item) : List (BitVec 64) :=
  (threadHeader tid pid ++ runEntries items).map OfflineEntry.word

/-- A signal or an exception is the next thing in a file. -/
def signalled (es : List OfflineEntry) : Bool := es.head?.any OfflineEntry.isKernelEvent

/-- The items that the tracer can record, before some entries. -/
def Item.Valid (b : Binary) (rest : List OfflineEntry) : Item → Prop
  | .timestamp usec => usec ≠ 0
  | .marker _ _ => True
  | .block modoffs modidx count execs =>
    count ≠ 0 ∧ ¬(modidx = 0 ∧ modoffs = 0) ∧
      (∀ x ∈ execs, ∀ e ∈ x.saved, ∀ value, e = .memref value → OfflineEntry.Canonical value) ∧
      ∃ mod, b.modvec[modidx.toNat]? = some mod ∧ mod.mapBase ≠ 0 ∧
        Executes b (signalled rest) count.toNat (mod.mapBase + modoffs.setWidth 64) execs
  | .foreign count values =>
    count ≠ 0 ∧ b.modvec ≠ [] ∧ ∀ value ∈ values, OfflineEntry.Canonical value
  | .iflush _ _ => True

/-- The runs that the tracer can record. -/
def ValidRun (b : Binary) : List Item → Prop
  | [] => True
  | item :: items => item.Valid b (runEntries items) ∧ ValidRun b items

/-- The fetches and accesses of an item. -/
def Item.executed (b : Binary) (rep signal : Bool) : Item → List RawEntry
  | .block modoffs modidx _ execs =>
    let mod := b.modvec[modidx.toNat]?.getD ⟨0, 0⟩
    fetches mod rep (mod.mapBase + modoffs.setWidth 64) (kept signal execs)
  | .foreign _ values => values.map (entryOf .read 1)
  | .iflush start last =>
    writeIflush (start.setWidth 64) (last.setWidth 64 - start.setWidth 64)
  | _ => []

/-- Whether the last instruction was a string instruction, after an item. -/
def Item.repAfter (rep signal : Bool) : Item → Bool
  | .block _ _ _ execs => Tracer.repAfter rep (kept signal execs)
  | _ => rep

/-- The fetches and accesses of a run, in the order in which they were executed. -/
def executed (b : Binary) : Bool → List Item → List RawEntry
  | _, [] => []
  | rep, item :: items =>
    item.executed b rep (signalled (runEntries items)) ++
      executed b (item.repAfter rep (signalled (runEntries items))) items

end SagePTE.Tracer
