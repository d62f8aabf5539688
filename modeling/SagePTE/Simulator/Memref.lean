import Mathlib.Data.Int.Notation
import Mathlib.Data.Nat.Notation

/-!
# Trace records and lookup results

The simulator consumes one stream of records. Every record carries a type, the
process and thread it belongs to, and, for memory references, the address and
size of the access. A lookup in the cache hierarchy answers with a code that
names the level at which the line was found.

## Main definitions

* `TraceType`, `typeIsInstr`, `typeIsPrefetch` — record types and their classes
* `Memref` — one record of the trace
* `CacheResult`, `gotFromParent` — the answer of a lookup, and what a device
  makes of its parent's answer
-/

set_option autoImplicit false

namespace SagePTE.Simulator

/-- `trace_type_t`, in the order of the enumeration. -/
inductive TraceType
  | read | write
  | pe1 | pe2 | pe3 | pe4
  | pe1Pe1 | pe1Pe2 | pe1Pe3 | pe1Pe4 | pe1Pa
  | pe2Pe1 | pe2Pe2 | pe2Pe3 | pe2Pe4 | pe2Pa
  | pe3Pe1 | pe3Pe2 | pe3Pe3 | pe3Pe4 | pe3Pa
  | pe4Pe1 | pe4Pe2 | pe4Pe3 | pe4Pe4 | pe4Pa
  | paPe1 | paPe2 | paPe3 | paPe4
  | contL1 | contLlc
  | prefetch | prefetchT0 | prefetchT1 | prefetchT2 | prefetchNta
  | prefetchRead | prefetchWrite | prefetchInstr
  | instr | instrDirectJump | instrIndirectJump | instrConditionalJump
  | instrDirectCall | instrIndirectCall | instrReturn | instrBundle
  | instrFlush | instrFlushEnd | dataFlush | dataFlushEnd
  | thread | threadExit | pid | header | footer
  | hardwarePrefetch | marker | instrNoFetch | instrMaybeFetch | instrSysenter
  deriving DecidableEq, Repr, Inhabited

/-- `type_is_instr`: the instruction fetches, without the non-fetched ones and
without bundles. -/
def typeIsInstr : TraceType → Bool
  | .instr | .instrDirectJump | .instrIndirectJump | .instrConditionalJump
  | .instrDirectCall | .instrIndirectCall | .instrReturn | .instrSysenter => true
  | _ => false

/-- `type_is_prefetch`: the software prefetches and the hardware one. -/
def typeIsPrefetch : TraceType → Bool
  | .prefetch | .prefetchT0 | .prefetchT1 | .prefetchT2 | .prefetchNta
  | .prefetchRead | .prefetchWrite | .prefetchInstr | .hardwarePrefetch => true
  | _ => false

@[simp] theorem typeIsPrefetch_hardwarePrefetch :
    typeIsPrefetch .hardwarePrefetch = true := rfl

/-- `trace_marker_type_t`, as far as the simulators tell markers apart: only the
cpu marker has an effect. -/
inductive MarkerType | cpuId | other
  deriving DecidableEq, Repr, Inhabited

/-- `memref_t`. The source's union shares `type`, `pid`, `tid`, `addr` and `size`
between its data, instruction and flush members; a marker has its own sub-type
and value. -/
structure Memref where
  type : TraceType
  pid : ℤ
  tid : ℤ
  addr : BitVec 64
  size : BitVec 64
  markerType : MarkerType := .other
  markerValue : BitVec 64 := 0
  deriving DecidableEq, Repr, Inhabited

/-- `cache_result_t`, in the order of the enumeration. -/
inductive CacheResult
  | notFound | foundL1 | foundL2 | foundLlc | wrong | rangeHit | rangeMiss | pwc | zero
  deriving DecidableEq, Repr, Inhabited

/-- `got_from_parent`: any answer but `NOT_FOUND` moves to the next enumerator.
`ZERO` is the last one and is never the answer of a lookup; it stays put. -/
def gotFromParent : CacheResult → CacheResult
  | .notFound => .notFound
  | .foundL1 => .foundL2
  | .foundL2 => .foundLlc
  | .foundLlc => .wrong
  | .wrong => .rangeHit
  | .rangeHit => .rangeMiss
  | .rangeMiss => .pwc
  | .pwc => .zero
  | .zero => .zero

@[simp] theorem gotFromParent_notFound : gotFromParent .notFound = .notFound := rfl

@[simp] theorem gotFromParent_foundL1 : gotFromParent .foundL1 = .foundL2 := rfl

@[simp] theorem gotFromParent_foundL2 : gotFromParent .foundL2 = .foundLlc := rfl

end SagePTE.Simulator
