import SagePTE.Simulator.Knobs
import SagePTE.Simulator.Scheduler

/-!
# The TLB simulator

Each core has an instruction TLB and a data TLB over a last-level TLB. A TLB is a
caching device whose entries also carry a process id. The cache simulator hands
every record on to the TLB simulator first and learns whether it hit.

## Main definitions

* `TlbId`, `TlbKnobs.hierarchy` — the TLBs the constructor creates
* `tlbRequest` — `tlb_t::request`
* `TlbSim.processMemref` — `tlb_simulator_t::process_memref`
-/

set_option autoImplicit false

namespace SagePTE.Simulator

/-- `itlbs`, `dtlbs` and `lltlbs`. -/
inductive TlbId
  | itlb (core : ℕ)
  | dtlb (core : ℕ)
  | lltlb (core : ℕ)
  deriving DecidableEq, Repr

/-- The knobs of `tlb_simulator_knobs_t` that shape the TLBs. -/
structure TlbKnobs where
  pageSize : ℕ := 4 * 1024
  l1iEntries : ℕ := 32
  l1dEntries : ℕ := 32
  l1iAssoc : ℕ := 32
  l1dAssoc : ℕ := 32
  l2Entries : ℕ := 1024
  l2Assoc : ℕ := 4
  replacePolicy : String := "LFU"

/-- `create_tlb`: only LFU is there. -/
def createTlb (policy : String) : Option ReplacePolicy :=
  if policy = "" ∨ policy = "LFU" then some .lfu else none

/-- The geometries of the TLBs of one core. -/
structure TlbGeometries where
  l1i : Geometry
  l1d : Geometry
  l2 : Geometry

def TlbGeometries.dev (G : TlbGeometries) (policy : ReplacePolicy) : TlbId → DeviceConfig TlbId
  | .itlb core => { geometry := G.l1i, policy, parent := some (.lltlb core) }
  | .dtlb core => { geometry := G.l1d, policy, parent := some (.lltlb core) }
  | .lltlb _ => { geometry := G.l2, policy }

/-- The number of ancestors of a TLB. -/
def TlbId.rank : TlbId → ℕ
  | .itlb _ | .dtlb _ => 1
  | .lltlb _ => 0

def TlbGeometries.hierarchy (G : TlbGeometries) (policy : ReplacePolicy) : Hierarchy TlbId where
  dev := G.dev policy
  rank := TlbId.rank
  depth := 1
  rank_le_depth i := by cases i <;> simp [TlbId.rank]
  rank_parent_lt i p h := by
    cases i <;> simp [TlbGeometries.dev] at h <;> subst h <;> simp [TlbId.rank]
  rank_lt_child i c h := by
    cases i <;> simp [TlbGeometries.dev] at h

/-- The TLBs `tlb_simulator_t` builds from its knobs, if it succeeds. -/
def TlbKnobs.hierarchy (k : TlbKnobs) : Option (Hierarchy TlbId) := do
  let policy ← createTlb k.replacePolicy
  let l1i ← Geometry.init (toInt k.l1iAssoc) (toInt k.pageSize) (toInt k.l1iEntries)
  let l1d ← Geometry.init (toInt k.l1dAssoc) (toInt k.pageSize) (toInt k.l1dEntries)
  let l2 ← Geometry.init (toInt k.l2Assoc) (toInt k.pageSize) (toInt k.l2Entries)
  some (TlbGeometries.hierarchy { l1i, l1d, l2 } policy)

private theorem defaultTlbs_isSome : ({} : TlbKnobs).hierarchy.isSome = true := by decide

/-- The TLBs of the default knobs. -/
def defaultTlbs : Hierarchy TlbId := ({} : TlbKnobs).hierarchy.get defaultTlbs_isSome

theorem defaultTlbs_eq : ({} : TlbKnobs).hierarchy = some defaultTlbs :=
  (Option.some_get defaultTlbs_isSome).symm

/-! ### Requests -/

/-- The search of one set: the first way that holds the tag for the process. -/
def DeviceState.findEntry (g : Geometry) (d : DeviceState) (blockIdx tag : ℕ) (pid : ℤ) :
    Option ℕ :=
  (List.range g.associativity).find? fun way =>
    (d.blocks (blockIdx + way)).tag == tag && (d.blocks (blockIdx + way)).pid == pid

/-- Write tag and process id of one block. -/
def DeviceState.setEntry (d : DeviceState) (n tag : ℕ) (pid : ℤ) : DeviceState :=
  { d with blocks := Function.update d.blocks n { d.blocks n with tag := tag, pid := pid } }

section Requests

variable (H : Hierarchy TlbId)

/-- The bookkeeping of a TLB hit. -/
def tlbCountHit (s : Store TlbId) (i : TlbId) (m : Memref) : Store TlbId :=
  let s := s.modify i fun d => d.withStats fun st => st.baseAccess m.type true
  match (H.dev i).parent with
  | none => s
  | some p => s.modify p fun d => d.withStats fun st => st.childAccess true

/-- The short path: the tag and process of the previous request. -/
def tlbShortPath (s : Store TlbId) (i : TlbId) (m : Memref) : Store TlbId :=
  let d := s i
  -- Make sure the last tag and process are properly in sync.
  let entry := d.blocks (blockNo d.lastBlockIdx d.lastWay)
  let inSync := d.lastTag ≠ tagInvalid ∧ entry.tag = d.lastTag ∧ entry.pid = d.lastPid
  let s := s.modify i fun d => { d with fault := d.fault || !decide inSync }
  let s := tlbCountHit H s i m
  s.modify i fun d => d.accessUpdate (H.geometry i) (H.dev i).policy d.lastBlockIdx d.lastWay

/-- Remember the last tag and process. -/
def tlbRemember (s : Store TlbId) (i : TlbId) (tag blockIdx : ℕ) (way pid : ℤ) : Store TlbId :=
  s.modify i fun d =>
    { d with lastTag := tag, lastWay := way, lastBlockIdx := blockIdx, lastPid := pid }

/-- `tlb_t::request` with its three arguments. The loop over the pages returns at
the end of its first turn. -/
def tlbRequestFuel : ℕ → Store TlbId → TlbId → Memref → Bool × Store TlbId
  | 0, s, i, _ => (false, s.modify i fun d => { d with fault := true })
  | n + 1, s, i, m =>
    let g := H.geometry i
    let policy := (H.dev i).policy
    let tag := H.firstTag i m
    let finalTag := H.finalTag i m
    if tag = finalTag ∧ tag = (s i).lastTag ∧ m.pid = (s i).lastPid then
      (true, tlbShortPath H s i m)
    -- the last address wrapped around and the loop has no turn
    else if finalTag < tag then (false, s)
    else
      let blockIdx := g.computeBlockIdx tag
      let nextAddr := BitVec.ofNat 64 ((tag + 1) <<< g.blockSizeBits)
      let piece := if tag = finalTag then m else { m with size := nextAddr - m.addr }
      match (s i).findEntry g blockIdx tag m.pid with
      | some way =>
        let s := tlbCountHit H s i piece
        let s := s.modify i fun d => d.accessUpdate g policy blockIdx way
        (true, tlbRemember s i tag blockIdx way m.pid)
      | none =>
        let s := s.modify i fun d => d.withStats fun st => st.baseAccess piece.type false
        let r := match (H.dev i).parent with
          | none => (false, s)
          | some p =>
            let s := s.modify p fun d => d.withStats fun st => st.childAccess false
            tlbRequestFuel n s p piece
        -- `loaded_blocks` is not counted and no child is invalidated
        let v := (r.2 i).replaceWhichWay g policy blockIdx
        let s := r.2.modify i fun _ => v.2.setEntry (blockNo blockIdx v.1) tag m.pid
        let s := s.modify i fun d => d.accessUpdate g policy blockIdx v.1
        (r.1, tlbRemember s i tag blockIdx v.1 m.pid)

def tlbRequest (s : Store TlbId) (i : TlbId) (m : Memref) : Bool × Store TlbId :=
  tlbRequestFuel H (H.rank i + 1) s i m

end Requests

/-! ### The simulator -/

/-- The state of `tlb_simulator_t`. The reference counts are the knobs' own, which
the simulator counts down. -/
structure TlbSim where
  store : Store TlbId
  sched : Scheduler := {}
  skipRefs : BitVec 64 := 0
  warmupRefs : BitVec 64 := 0
  simRefs : BitVec 64 := BitVec.ofNat 64 (2 ^ 63)
  errorString : String := ""

namespace TlbSim

variable (H : Hierarchy TlbId) (k : SchedulerKnobs) (t : TlbSim)

/-- The text both simulators report for a record they do not know. -/
def unhandled (type : TraceType) : String := "Unhandled memref type " ++ toString type.ctorIdx

/-- The TLB a record goes to, and the record's other effects. `none` is a record
of unknown type. -/
def access (core : ℕ) (m : Memref) : Option (Bool × TlbSim) :=
  if typeIsInstr m.type then
    let r := tlbRequest H t.store (.itlb core) m
    some (r.1, { t with store := r.2 })
  else if m.type = .read ∨ m.type = .write then
    let r := tlbRequest H t.store (.dtlb core) m
    some (r.1, { t with store := r.2 })
  else if m.type = .threadExit then
    some (false, { t with sched := t.sched.handleThreadExit m.tid })
  else if typeIsPrefetch m.type ∨ m.type = .instrFlush ∨ m.type = .dataFlush ∨
      m.type = .marker ∨ m.type = .instrNoFetch then
    some (false, t)
  else none

/-- The counters for warm-up and simulated references. -/
def countRef : TlbSim :=
  if t.warmupRefs ≠ 0 then
    let warmupRefs := t.warmupRefs - 1
    { t with
      warmupRefs
      -- the statistics are reset when the count reaches zero
      store := if warmupRefs ≠ 0 then t.store else fun i => match i with
        | .itlb core | .dtlb core | .lltlb core =>
          if core < k.numCores then (t.store i).withStats DeviceStats.reset else t.store i }
  else { t with simRefs := t.simRefs - 1 }

/-- `tlb_simulator_t::process_memref`: whether the record was handled, and whether
it hit. Records that are not looked up count as hits when they end the call early,
and as misses else. -/
def processMemref (m : Memref) : (Bool × Bool) × TlbSim :=
  if t.skipRefs ≠ 0 then ((true, true), { t with skipRefs := t.skipRefs - 1 })
  else if t.warmupRefs = 0 ∧ t.simRefs = 0 then ((true, true), t)
  else
    let t := { t with sched := t.sched.processMarker k m }
    if m.type = .marker then ((true, true), t)
    else
      let c := t.sched.coreFor k m.tid
      let t := { t with sched := c.2 }
      match t.access H c.1 m with
      | none => ((false, true), { t with errorString := unhandled m.type })
      | some r => ((true, r.1), r.2.countRef k)

/-! ### The schedule -/

variable {H k t}

theorem countRef_sched (t : TlbSim) : (t.countRef k).sched = t.sched := by
  unfold countRef
  split_ifs <;> rfl

theorem access_sched {core : ℕ} {m : Memref} {r : Bool × TlbSim}
    (hr : t.access H core m = some r) :
    r.2.sched = if m.type = .threadExit then t.sched.handleThreadExit m.tid else t.sched := by
  simp only [access] at hr
  split_ifs at hr with hinstr hdata hexit hother <;> cases hr
  · rw [if_neg (by rintro hexit; simp [hexit, typeIsInstr] at hinstr)]
  · rw [if_neg (by rintro hexit; simp [hexit] at hdata)]
  · rw [if_pos hexit]
  · rw [if_neg hexit]

end TlbSim

end SagePTE.Simulator
