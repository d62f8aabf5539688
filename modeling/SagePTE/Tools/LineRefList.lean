import Mathlib.Algebra.Group.Nat.Defs
import SagePTE.Lib.Linked

/-!
# The list of the reuse distance tool

The tool keeps the cache lines that have been accessed in a doubly linked list, the most
recently accessed line first. The position of a line in the list is the reuse distance of its
next access. To find it without a walk from the front, some of the nodes form a second list, the
skip list, and know their position. A further pointer, the gate, points to the last line within
a threshold, so that the time of a line tells whether its access is a distant one.

A node is allocated when its line is first accessed and stays until the end, so that the tag of
a line stands for the pointer to its node. Each field of the nodes is a function of the pointer.
A failed assertion and an access through a null pointer end the run, and the loops have a bound
on the number of their turns.

## Main definitions

* `LineRefList` — the nodes with the pointers into them
* `LineRefList.addToFront` — a line that is accessed for the first time
* `LineRefList.moveToFront` — a line that is accessed again, and its reuse distance
-/

set_option autoImplicit false

namespace SagePTE.Tools

open Function Linked

/-- How an operation can stop: at a failed assertion or a null pointer, or because a loop has
not ended yet. -/
inductive Stop | fault | running
  deriving DecidableEq, Repr

/-- `assert`. -/
def require (p : Prop) [Decidable p] : Except Stop Unit := if p then .ok () else .error .fault

/-- The node that a pointer points to. -/
def deref {α : Type} : Option α → Except Stop α
  | none => .error .fault
  | some x => .ok x

/-- `DEBUG_VERBOSE`: the verbosity of a debug build, or nothing in a release build. -/
def debugVerbose (debug : Option ℕ) (level : ℕ) : Bool := debug.any (level ≤ ·)

/-- The fields of the nodes, `line_ref_t`. -/
structure LineRefs (α : Type) where
  prev : α → Option α
  next : α → Option α
  timeStamp : α → ℕ
  totalRefs : α → ℕ
  distantRefs : α → ℕ
  prevSkip : α → Option α
  nextSkip : α → Option α
  depth : α → ℤ

/-- `line_ref_list_t`. -/
structure LineRefList (α : Type) extends LineRefs α where
  head : Option α
  gate : Option α
  curTime : ℕ
  uniqueLines : ℕ
  threshold : ℕ
  skipDistance : ℕ
  verifySkip : Bool

/-- The list of the constructor. Its nodes are not allocated yet. -/
def LineRefList.empty (α : Type) (reuseThreshold skipDist : ℕ) (verify : Bool) :
    LineRefList α where
  prev _ := none
  next _ := none
  timeStamp _ := 0
  totalRefs _ := 1
  distantRefs _ := 0
  prevSkip _ := none
  nextSkip _ := none
  depth _ := -1
  head := none
  gate := none
  curTime := 0
  uniqueLines := 0
  threshold := reuseThreshold
  skipDistance := skipDist
  verifySkip := verify

namespace LineRefList

variable {α : Type} [DecidableEq α]

/-- The constructor of `line_ref_t`. It leaves the time stamp as it is. -/
def newLineRef (L : LineRefList α) (ref : α) : LineRefList α :=
  { L with
    prev := update L.prev ref none
    next := update L.next ref none
    totalRefs := update L.totalRefs ref 1
    distantRefs := update L.distantRefs ref 0
    prevSkip := update L.prevSkip ref none
    nextSkip := update L.nextSkip ref none
    depth := update L.depth ref (-1) }

omit [DecidableEq α] in
/-- `ref_is_distant`. -/
def refIsDistant (L : LineRefList α) (ref : α) : Bool :=
  match L.gate with
  | none => false
  | some gate => L.timeStamp ref < L.timeStamp gate

/-- The assertions of `print_list`, from a node on. -/
def printList (L : LineRefList α) : ℕ → Option α → Except Stop Unit
  | _, none => .ok ()
  | 0, some _ => .error .running
  | turns + 1, some node => do
    if L.depth node ≠ -1 then
      require (∀ skip ∈ L.nextSkip node, L.prevSkip skip = some node)
    else
      require (L.nextSkip node = none ∧ L.prevSkip node = none)
    L.printList turns (L.next node)

/-- `print_list`, as a debug build calls it after each operation. -/
def debugPrint (L : LineRefList α) (debug : Option ℕ) (turns : ℕ) : Except Stop Unit :=
  if debugVerbose debug 3 then L.printList turns L.head else .ok ()

/-- `move_skip_fields`. -/
def moveSkipFields (L : LineRefList α) (src dst : α) : LineRefList α :=
  let L := { L with prevSkip := update L.prevSkip dst (L.prevSkip src) }
  let L := { L with nextSkip := update L.nextSkip dst (L.nextSkip src) }
  let L := { L with depth := update L.depth dst (L.depth src) }
  let L := { L with nextSkip := setAt L.nextSkip (L.prevSkip src) (some dst) }
  let L := { L with prevSkip := setAt L.prevSkip (L.nextSkip src) (some dst) }
  let L := { L with prevSkip := update L.prevSkip src none }
  let L := { L with nextSkip := update L.nextSkip src none }
  { L with depth := update L.depth src (-1) }

/-- `gate = gate->prev`. -/
def stepGate (L : LineRefList α) : Except Stop (LineRefList α) := do
  let gate ← deref L.gate
  pure { L with gate := L.prev gate }

/-- `head->time_stamp = cur_time++`, where the head is `ref`. -/
def stamp (L : LineRefList α) (ref : α) : LineRefList α :=
  { L with timeStamp := update L.timeStamp ref L.curTime, curTime := L.curTime + 1 }

/-! ### A new line -/

/-- Update head. -/
def pushFront (L : LineRefList α) (ref : α) : LineRefList α :=
  { L with
    next := update L.next ref L.head
    prev := setAt L.prev L.head (some ref)
    head := some ref }

/-- Move gate forward if necessary. -/
def advanceGate (L : LineRefList α) : Except Stop (LineRefList α) :=
  let L := if L.gate = none then { L with gate := L.head } else L
  if L.threshold < L.uniqueLines then L.stepGate else .ok L

/-- The loop over the nodes in front of the first skip node. It counts them, and remembers the
node at which the count is the skip distance. -/
def scanFront (L : LineRefList α) :
    ℕ → Option α → ℕ → Option α → Except Stop (ℕ × Option α × Option α)
  | _, none, count, skip => .ok (count, none, skip)
  | 0, some _, _, _ => .error .running
  | turns + 1, some node, count, skip =>
    if L.depth node = -1 then
      L.scanFront turns (L.next node) (count + 1)
        (if count + 1 = L.skipDistance then some node else skip)
    else .ok (count, some node, skip)

/-- `2 * skip_distance - 1`, in 64 bits. -/
def skipSpan (L : LineRefList α) : ℕ := (2 * L.skipDistance + (2 ^ 64 - 1)) % 2 ^ 64

/-- Add a new skip node if necessary. -/
def addSkip (L : LineRefList α) (count : ℕ) (node skip : Option α) :
    Except Stop (LineRefList α) :=
  if L.skipSpan ≤ count then do
    let skip ← deref skip
    let L := { L with depth := update L.depth skip (L.skipDistance - 1) }
    require (∀ x ∈ node, L.prevSkip x = none)
    let L := { L with prevSkip := setAt L.prevSkip node (some skip) }
    let L := { L with nextSkip := update L.nextSkip skip node }
    require (L.prevSkip skip = none)
    pure L
  else .ok L

/-- Update skip list depths, from a node on. -/
def deepen : LineRefList α → ℕ → Option α → Except Stop (LineRefList α)
  | L, _, none => .ok L
  | _, 0, some _ => .error .running
  | L, turns + 1, some node =>
    deepen { L with depth := update L.depth node (L.depth node + 1) } turns (L.nextSkip node)

/-- `add_to_front` from the count of the unique lines on. -/
def addSkips (L : LineRefList α) (debug : Option ℕ) (turns : ℕ) (ref : α) :
    Except Stop (LineRefList α) := do
  let L := { L with uniqueLines := L.uniqueLines + 1 }
  let L := L.stamp ref
  let (count, node, skip) ← L.scanFront turns L.head 0 none
  let L ← L.addSkip count node skip
  let L ← L.deepen turns node
  L.debugPrint debug turns
  pure L

/-- `add_to_front`. -/
def addToFront (L : LineRefList α) (debug : Option ℕ) (turns : ℕ) (ref : α) :
    Except Stop (LineRefList α) := do
  let L ← (L.pushFront ref).advanceGate
  L.addSkips debug turns ref

/-! ### A line that is accessed again -/

/-- The gate when a line moves to the front, and the count of the distant references. -/
def passGate (L : LineRefList α) (ref : α) : Except Stop (LineRefList α) :=
  if L.refIsDistant ref then
    { L with distantRefs := update L.distantRefs ref (L.distantRefs ref + 1) }.stepGate
  else if L.gate = some ref then L.stepGate
  else .ok L

/-- The loop from a node back to the nearest skip node, with a count of its turns. -/
def climb (L : LineRefList α) : ℕ → Option α → ℤ → Except Stop (ℤ × Option α)
  | _, none, dist => .ok (dist, none)
  | 0, some _, _ => .error .running
  | turns + 1, some skip, dist =>
    if L.depth skip = -1 then L.climb turns (L.prev skip) (dist + 1)
    else .ok (dist, some skip)

/-- Compute reuse distance. -/
def reuseDistance (L : LineRefList α) (turns : ℕ) (ref : α) :
    Except Stop (ℤ × Option α) := do
  let (dist, skip) ← L.climb turns (some ref) 0
  match skip with
  | some skip => pure (dist + L.depth skip, some skip)
  | none => pure (dist - 1, none)

/-- Compute reuse distance with a full list walk. -/
def bruteDistance (L : LineRefList α) (ref : α) : ℕ → Option α → ℤ → Except Stop ℤ
  | _, none, _ => .error .fault
  | 0, some prev, dist => if prev = ref then .ok dist else .error .running
  | turns + 1, some prev, dist =>
    if prev = ref then .ok dist else L.bruteDistance ref turns (L.next prev) (dist + 1)

/-- The sanity check of a debug build. -/
def verifyDistance (L : LineRefList α) (debug : Option ℕ) (turns : ℕ) (ref : α) (dist : ℤ) :
    Except Stop Unit :=
  if debugVerbose debug 0 && L.verifySkip then do
    let bruteDist ← L.bruteDistance ref turns L.head 0
    require (bruteDist = dist)
  else .ok ()

/-- The loop that shifts the skip nodes one earlier, from a skip node back to the first one. -/
def shiftSkips : LineRefList α → ℕ → Option α → Except Stop (LineRefList α)
  | L, _, none => .ok L
  | _, 0, some _ => .error .running
  | L, turns + 1, some skip => do
    let next := L.prevSkip skip
    let dst ← deref (L.prev skip)
    shiftSkips (L.moveSkipFields skip dst) turns next

/-- Shift skip nodes between where `ref` was and head. -/
def shiftFrom (L : LineRefList α) (turns : ℕ) (ref : α) (skip : Option α) :
    Except Stop (LineRefList α) :=
  match skip with
  | some skip => L.shiftSkips turns (some skip)
  | none => do
    require (L.depth ref = -1)
    pure L

/-- Remove `ref` from the list, and move it to the front. -/
def relink (L : LineRefList α) (ref : α) : Except Stop (LineRefList α) := do
  let prev := L.prev ref
  let next := L.next ref
  let before ← deref prev
  let L := { L with next := update L.next before next }
  let L := { L with prev := setAt L.prev next prev }
  let L := { L with prev := update L.prev ref none }
  let L := { L with next := update L.next ref L.head }
  let head ← deref L.head
  let L := { L with prev := update L.prev head (some ref) }
  pure { L with head := some ref }

/-- `move_to_front` from the computation of the reuse distance on. -/
def bringToFront (L : LineRefList α) (debug : Option ℕ) (turns : ℕ) (ref : α) :
    Except Stop (ℤ × LineRefList α) := do
  let (dist, skip) ← L.reuseDistance turns ref
  L.verifyDistance debug turns ref dist
  let L ← L.shiftFrom turns ref skip
  let L ← L.relink ref
  let L := L.stamp ref
  L.debugPrint debug turns
  pure (dist, L)

/-- `move_to_front`. -/
def moveToFront (L : LineRefList α) (debug : Option ℕ) (turns : ℕ) (ref : α) :
    Except Stop (ℤ × LineRefList α) := do
  let L := { L with totalRefs := update L.totalRefs ref (L.totalRefs ref + 1) }
  if L.head = some ref then pure (0, L)
  else
    let L ← L.passGate ref
    L.bringToFront debug turns ref

end LineRefList

end SagePTE.Tools
