import Mathlib.Data.Rat.Init
import SagePTE.Simulator.Tlb
import SagePTE.Simulator.Walk

/-!
# The cache simulator

`cache_simulator_t` takes one record of the trace at a time. A record passes the
skip and warm-up counters and the scheduler, is looked up in the TLBs and in both
page tables, walks the tables if the TLBs missed, and at last goes to an L1 cache
at its host-physical address. After each record, contention requests may be
injected and the end of the warm-up is checked.

## Main definitions

* `Histogram` — `hm_full_statistic`
* `SimConfig`, `SimState` — what is fixed and what changes during a run
* `SimState.translate` — lookup of the translations and the walk on a TLB miss
* `SimState.processMemref` — `cache_simulator_t::process_memref`
* `SimConfig.run` — the simulator fed with a whole trace
-/

set_option autoImplicit false

namespace SagePTE.Simulator

/-! ### The histogram of walks -/

/-- The order of `std::vector<cache_result_t>`. -/
def resLt : List CacheResult → List CacheResult → Bool
  | _, [] => false
  | [], _ :: _ => true
  | a :: as, b :: bs =>
    decide (a.ctorIdx < b.ctorIdx) || (decide (a.ctorIdx = b.ctorIdx) && resLt as bs)

/-- `hm_full_statistic`: result vectors with their counts, sorted by vector. -/
abbrev Histogram := List (List CacheResult × ℕ)

/-- Count one more walk. -/
def Histogram.bump (v : List CacheResult) : Histogram → Histogram
  | [] => [(v, 1)]
  | (u, n) :: rest =>
    if u = v then (u, n + 1) :: rest
    else if resLt v u then (v, 1) :: (u, n) :: rest
    else (u, n) :: bump v rest

/-! ### Configuration and state -/

/-- What is fixed once the simulator is built. `rand` is the generator's sequence
after `srand(42)`, and `unsetSearchRes` the value an unset `search_res` has. -/
structure SimConfig where
  H : Hierarchy DevId
  tlbs : Hierarchy TlbId
  sched : SchedulerKnobs := {}
  pageTable : PageTable
  hostPageTable : PageTable
  beyondTraceType : Fin 5 → TraceType := fun _ => .read
  skipRefs : BitVec 64 := 0
  warmupRefs : BitVec 64 := 0
  warmupFraction : ℚ := 0
  simRefs : BitVec 64 := BitVec.ofNat 64 (2 ^ 63)
  contentionL1 : BitVec 32 := 0
  contentionLlc : BitVec 32 := 0
  rand : ℕ → ℕ := fun _ => 0
  unsetSearchRes : CacheResult := .notFound

/-- The tables and caches a walk uses. -/
def SimConfig.walker (C : SimConfig) : Walker where
  H := C.H
  hostPageTable := C.hostPageTable
  beyondTraceType := C.beyondTraceType

/-- The state of `cache_simulator_t`. The walk state holds the caches and
`page_walk_res`; `randPos` counts the random numbers drawn, and `hung` is set when
a contention loop does not end. -/
structure SimState where
  walk : WalkState
  sched : Scheduler := {}
  tlb : TlbSim
  skipRefs : BitVec 64
  warmupRefs : BitVec 64
  simRefs : BitVec 64
  isWarmedUp : Bool := false
  hm : Histogram := []
  randPos : ℕ := 0
  errorString : String := ""
  hung : Bool := false

/-- The state the constructor leaves. The TLB simulator gets the same counters. -/
def SimConfig.initial (C : SimConfig) : SimState where
  walk := { store := C.H.initialStore }
  tlb := {
    store := C.tlbs.initialStore
    skipRefs := C.skipRefs
    warmupRefs := C.warmupRefs
    simRefs := C.simRefs }
  skipRefs := C.skipRefs
  warmupRefs := C.warmupRefs
  simRefs := C.simRefs

namespace SimState

variable (C : SimConfig) (σ : SimState)

/-! ### Warm-up -/

/-- `check_warmed_up`. Every call with a warm-up count left takes one off it. -/
def checkWarmedUp : Bool × SimState :=
  if σ.isWarmedUp then (true, σ)
  else if 0 < C.warmupFraction ∧ C.warmupFraction ≤
      ((σ.walk.store .llc).loadedBlocks : ℚ) / (C.H.geometry .llc).numBlocks then
    (true, { σ with isWarmedUp := true })
  else if σ.warmupRefs ≠ 0 then
    -- `knobs.warmup_refs--`, also in the calls that only ask
    let σ := { σ with warmupRefs := σ.warmupRefs - 1 }
    if σ.warmupRefs = 0 then (true, { σ with isWarmedUp := true }) else (false, σ)
  else (false, σ)

/-- Whether the run has no warm-up at all and no references left. The knob counts
down, so the first test reads what is left of it. -/
def noRefsLeft : Bool := σ.warmupRefs = 0 && C.warmupFraction = 0 && σ.simRefs = 0

/-- Reset the statistics of `all_caches`; the page-walk caches are not among them. -/
def resetStats : SimState :=
  { σ with walk := { σ.walk with store := fun i => match i with
      | .llc => (σ.walk.store i).withStats DeviceStats.reset
      | .l2 core | .l1i core | .l1d core =>
        if core < C.sched.numCores then (σ.walk.store i).withStats DeviceStats.reset
        else σ.walk.store i
      | .pw _ | .gpw _ => σ.walk.store i } }

/-- The end of a reference: either the warm-up ends here, or one more simulated
reference is taken off the budget. -/
def countRef : SimState :=
  if σ.isWarmedUp then { σ with simRefs := σ.simRefs - 1 }
  else
    let r := σ.checkWarmedUp C
    -- the reference that ends the warm-up is not counted
    if r.1 then { r.2.resetStats C with hm := [] }
    else { r.2 with simRefs := r.2.simRefs - 1 }

/-! ### From the trace to a core

A stage answers with `Except.error` when `process_memref` returns in it. -/

/-- The counters that drop records, the scheduler, and markers. -/
def scheduleRef (m : Memref) : Except (Bool × SimState) (ℕ × SimState) :=
  if σ.skipRefs ≠ 0 then .error (true, { σ with skipRefs := σ.skipRefs - 1 })
  else if σ.noRefsLeft C then .error (true, σ)
  else
    let r := σ.checkWarmedUp C
    if r.1 ∧ r.2.simRefs = 0 then .error (true, r.2)
    else
      let σ := { r.2 with sched := r.2.sched.processMarker C.sched m }
      if m.type = .marker then .error (true, σ)
      else
        let c := σ.sched.coreFor C.sched m.tid
        .ok (c.1, { σ with sched := c.2 })

/-! ### Translation -/

/-- A record whose address is translated: an instruction fetch or a data access,
prefetches included. -/
def isReference (m : Memref) : Bool :=
  typeIsInstr m.type || m.type == .read || m.type == .write || typeIsPrefetch m.type

/-- `virtual_full_page_addr`, zero for a record that is no reference. -/
def virtualPage (m : Memref) : BitVec 64 := if isReference m then (m.addr >>> 12) <<< 12 else 0

/-- `page_offset`, likewise. -/
def pageOffset (m : Memref) : BitVec 64 := if isReference m then m.addr &&& 4095 else 0

/-- The walk on a TLB miss, counted in the histogram. -/
def recordWalk (core : ℕ) (guestIt it : PageTableInfo) (m : Memref) : SimState :=
  let walk := C.walker.tlbMiss core guestIt it (virtualPage m) (pageOffset m) σ.walk
  { σ with walk, hm := σ.hm.bump walk.pageWalkRes }

/-- The TLB request. -/
def tlbLookup (m : Memref) : Bool × SimState :=
  let t := σ.tlb.processMemref C.tlbs C.sched m
  (t.1.2, { σ with tlb := t.2 })

/-- `new_memref`: a reference at its host-physical address. -/
def newMemref (it : PageTableInfo) (m : Memref) : Memref :=
  if isReference m then { m with addr := (it.pa <<< 12) + pageOffset m } else m

/-- The TLB request, the lookup in both page tables, and the walk on a TLB miss.
The answer is the record at its host-physical address. -/
def translate (core : ℕ) (m : Memref) : Except (Bool × SimState) (Memref × SimState) :=
  let t := σ.tlbLookup C m
  match C.pageTable (virtualPage m) with
  | none => .error (true, t.2)
  | some guestIt =>
    match C.hostPageTable (guestIt.pa <<< 12) with
    -- `vt_num_not_found`
    | none => .error (true, t.2)
    | some it =>
      .ok (newMemref it m, if t.1 then t.2 else t.2.recordWalk C core guestIt it m)

/-! ### Caches -/

/-- A request on one cache. -/
def cacheRequest (dev : DevId) (m : Memref) : CacheResult × SimState :=
  let r := C.H.request σ.walk.store dev m
  (r.1, { σ with walk := { σ.walk with store := r.2 } })

def cacheFlush (dev : DevId) (m : Memref) : SimState :=
  { σ with walk := { σ.walk with store := C.H.flush σ.walk.store dev m } }

/-- The L1 cache a translated record goes to. The answer is kept for data accesses
only. -/
def access (core : ℕ) (m : Memref) : Except (Bool × SimState) (CacheResult × SimState) :=
  -- `search_res` is assigned in the data branch only
  if typeIsInstr m.type ∨ m.type = .prefetchInstr then
    .ok (C.unsetSearchRes, (σ.cacheRequest C (.l1i core) m).2)
  else if m.type = .read ∨ m.type = .write ∨ typeIsPrefetch m.type then
    .ok (σ.cacheRequest C (.l1d core) m)
  else if m.type = .instrFlush then .ok (C.unsetSearchRes, σ.cacheFlush C (.l1i core) m)
  else if m.type = .dataFlush then .ok (C.unsetSearchRes, σ.cacheFlush C (.l1d core) m)
  else if m.type = .threadExit then
    .ok (C.unsetSearchRes, { σ with sched := σ.sched.handleThreadExit m.tid })
  else if m.type = .instrNoFetch then .ok (C.unsetSearchRes, σ)
  else .error (false, { σ with errorString := TlbSim.unhandled m.type })

/-! ### Contention -/

def drawRand : ℕ × SimState := (C.rand σ.randPos, { σ with randPos := σ.randPos + 1 })

/-- One contention request at a random 48-bit address. -/
def contend (dev : DevId) (type : TraceType) : SimState :=
  let r := σ.drawRand C
  (r.2.cacheRequest C dev (Walker.reference type (BitVec.ofNat 64 (r.1 % 2 ^ 48)))).2

/-- The loop of unconditional contention requests, in 32-bit arithmetic. -/
def contendLoop (dev : DevId) (type : TraceType) (value : BitVec 32) :
    ℕ → BitVec 32 → SimState → BitVec 32 × SimState
  | 0, i, σ => (i, { σ with hung := true })
  | n + 1, i, σ =>
    if i ≤ value then contendLoop dev type value n (i + 100) (σ.contend C dev type) else (i, σ)

/-- One more request with the probability of the fraction, in percent. -/
def contendFraction (dev : DevId) (type : TraceType) (fractionPart : ℤ) : SimState :=
  if 0 < fractionPart then
    let roll := σ.drawRand C
    if ((roll.1 % 100 : ℕ) : ℤ) ≤ fractionPart then roll.2.contend C dev type else roll.2
  else σ

/-- The contention code, once for each of the two options. -/
def contention (dev : DevId) (type : TraceType) (value : BitVec 32) : SimState :=
  if value = 0 then σ
  else if 100 ≤ value then
    -- the counter wraps around for a value close to `2 ^ 32`
    let r := contendLoop C dev type value (2 ^ 30 + 1) 100 σ
    r.2.contendFraction C dev type (100 - (r.1 - value)).toInt
  else σ.contendFraction C dev type value.toInt

/-- The contention on the L1, and on the LLC when the access went that far. -/
def contentionAll (core : ℕ) (searchRes : CacheResult) : SimState :=
  let σ := σ.contention C (.l1d core) .contL1 C.contentionL1
  -- the access reached the LLC
  if searchRes = .foundLlc ∨ searchRes = .notFound then
    σ.contention C .llc .contLlc C.contentionLlc
  else σ

/-! ### One record, and a trace -/

/-- `cache_simulator_t::process_memref`, with the early returns as errors. -/
def process (m : Memref) : Except (Bool × SimState) SimState := do
  let (core, σ) ← σ.scheduleRef C m
  let (m, σ) ← σ.translate C core m
  let (searchRes, σ) ← σ.access C core m
  return (σ.contentionAll C core searchRes).countRef C

/-- `cache_simulator_t::process_memref`. -/
def processMemref (m : Memref) : Bool × SimState :=
  match σ.process C m with
  | .error r => r
  | .ok σ => (true, σ)

end SimState

/-- The state after a trace. The analyzer stops at the first record that is not
handled. -/
def SimConfig.runFrom (C : SimConfig) : SimState → List Memref → SimState
  | σ, [] => σ
  | σ, m :: trace =>
    let r := σ.processMemref C m
    if r.1 then runFrom C r.2 trace else r.2

def SimConfig.run (C : SimConfig) (trace : List Memref) : SimState := C.runFrom C.initial trace

end SagePTE.Simulator
