import Mathlib.Data.List.Sort
import SagePTE.PageTables.Translator

/-!
# The augmentor

The program `host_pt_augmentor`. It reads the output of the translator line by line,
replaces the fields that are `NAN` by frames from the gaps between those of the file,
as long as there are any, and writes the file anew with the number of its records in
front.

Three arrays grow while they are filled. A failure to grow one of the first two ends the
program; a failure to grow the third one leaves a null pointer together with a count
that need not be zero.

## Main definitions

* `Augmentor.Memory` — which allocations succeed
* `Augmentor.readLine`, `Augmentor.findGaps`, `Augmentor.fillEntries`, `Augmentor.main`
-/

set_option autoImplicit false

namespace SagePTE.PageTables.Augmentor

open Numerals Scan Lines

/-! ### Memory -/

/-- The arrays that grow while they are filled. -/
inductive GrowingArray | entries | allPfns | unallocated
  deriving DecidableEq, Repr

/-- The capacities that are granted to each array; none is asked for twice. One that does
not fit an `int` becomes negative, and as a size exceeds the address space. -/
structure Memory where
  grants : GrowingArray → ℕ → Bool
  grants_lt : ∀ {array capacity}, grants array capacity = true → capacity < 2 ^ 31

/-- Makes room for one more element: a full array is doubled. The capacity after it. -/
def Memory.makeRoom (mem : Memory) (array : GrowingArray) (initial count capacity : ℕ) :
    Option ℕ :=
  if count < capacity then some capacity
  else
    let capacity := if capacity = 0 then initial else capacity * 2
    if mem.grants array capacity then some capacity else none

/-! ### Reading -/

/-- `entry_t`. -/
structure Entry where
  virtualAddr : List Char
  ptPfns : List (List Char)
  dataPfn : List Char
  deriving DecidableEq, Repr

/-- The fields after the address. -/
def Entry.pfnFields (e : Entry) : List (List Char) := e.ptPfns ++ [e.dataPfn]

/-- The fields of a line, of which there have to be two. -/
def Entry.ofFields : List (List Char) → Option Entry
  | virtualAddr :: field :: fields =>
    some ⟨virtualAddr, (field :: fields).dropLast,
      (field :: fields).getLast (List.cons_ne_nil _ _)⟩
  | _ => none

/-- The field of a level that does not exist. -/
def nan : List Char := ['N', 'A', 'N']

/-- `parse_hex`. -/
def parseHex (field : List Char) : BitVec 64 :=
  if field = nan then BitVec.allOnes 64 else strtoullHex field

/-- The letters that `fgets` puts into `line`, besides the NUL. -/
def maxLine : ℕ := 4095

/-- `MAX_FIELDS`. -/
def maxFields : ℕ := 32

/-- The string in the buffer, up to its newline. -/
def lineText (piece : List Char) : List Char := piece.takeWhile fun c => c ≠ '\n' ∧ c ≠ '\x00'

/-- The tokens that `strtok` finds, none of them empty. -/
def tokens (line : List Char) : List (List Char) := (line.splitOn ',').filter (· ≠ [])

/-- The entry of a line. -/
def lineEntry (piece : List Char) : Option Entry :=
  Entry.ofFields ((tokens (lineText piece)).take maxFields)

/-- The variables of the loop over lines. -/
structure Reader where
  entries : List Entry := []
  capacity : ℕ := 0
  allPfns : List (BitVec 64) := []
  allPfnCapacity : ℕ := 0

/-- Collects the frame of a field. -/
def collectPfn (mem : Memory) (r : Reader) (field : List Char) : Option Reader :=
  let pfn := parseHex field
  if pfn = BitVec.allOnes 64 then some r
  else do
    let capacity ← mem.makeRoom .allPfns 65536 r.allPfns.length r.allPfnCapacity
    some { r with allPfns := r.allPfns ++ [pfn], allPfnCapacity := capacity }

/-- One round of the loop over lines. There is room for an entry even if the line turns
out to have too few fields. -/
def readLine (mem : Memory) (r : Reader) (piece : List Char) : Option Reader :=
  if lineText piece = [] then some r
  else do
    let capacity ← mem.makeRoom .entries 1024 r.entries.length r.capacity
    match lineEntry piece with
    | none => some { r with capacity }
    | some e => e.pfnFields.foldlM (collectPfn mem) { r with entries := r.entries ++ [e], capacity }

/-! ### Gaps -/

/-- Removes the duplicates of a sorted array. -/
def unique : List (BitVec 64) → List (BitVec 64)
  | [] => []
  | [pfn] => [pfn]
  | pfn :: pfn' :: pfns =>
    if pfn = pfn' then unique (pfn' :: pfns) else pfn :: unique (pfn' :: pfns)

/-- The frames strictly between two, unless they are more than 100000000. -/
def gapPfns (lower upper : BitVec 64) : List (BitVec 64) :=
  if lower = BitVec.allOnes 64 ∨ upper = BitVec.allOnes 64 then []
  else
    let gapStart := lower + 1
    let gapEnd := upper - 1
    if gapStart ≤ gapEnd then
      let size := gapEnd - gapStart + 1
      if 100000000#64 < size then []
      else (List.range size.toNat).map fun k => gapStart + BitVec.ofNat 64 k
    else []

/-- The array `unallocated` in the loop over gaps. -/
structure Gaps where
  pfns : List (BitVec 64) := []
  capacity : ℕ := 1048576

/-- Adds a frame. Where the array cannot grow the loop ends, and `unalloc_count` stays. -/
def addUnallocated (mem : Memory) (g : Gaps) (pfn : BitVec 64) : Except ℕ Gaps :=
  if g.pfns.length < g.capacity then .ok { g with pfns := g.pfns ++ [pfn] }
  else if 1000000000 ≤ g.capacity then .error g.pfns.length
  else
    let capacity := if g.capacity < 500000000 then g.capacity * 2 else g.capacity + 100000000
    if mem.grants .unallocated capacity then .ok ⟨g.pfns ++ [pfn], capacity⟩
    else .error g.pfns.length

/-- `find_gaps`: the array, which may be the null pointer, and `unalloc_count`. -/
def findGaps (mem : Memory) (pfns : List (BitVec 64)) : Option (List (BitVec 64)) × ℕ :=
  if pfns.length < 2 then (none, 0)
  else if !mem.grants .unallocated 1048576 then (none, 0)
  else
    let gaps := (pfns.zip pfns.tail).flatMap fun p => gapPfns p.1 p.2
    match gaps.foldlM (addUnallocated mem) {} with
    | .error count => (none, count)
    | .ok g => if g.pfns = [] then (none, 0) else (some g.pfns, g.pfns.length)

/-! ### Filling -/

/-- The number of frames a field needs. -/
def fieldNans (field : List Char) : ℕ := if field = nan then 1 else 0

def Entry.nanCount (e : Entry) : ℕ := (e.ptPfns.map fieldNans).sum + fieldNans e.dataPfn

/-- `nan_count`. -/
def nanCount (entries : List Entry) : ℕ := (entries.map Entry.nanCount).sum

/-- Goes over a list and draws on a supply of frames, which is handed on. -/
def drawMap {α : Type} (f : α → List (BitVec 64) → α × List (BitVec 64)) :
    List α → List (BitVec 64) → List α × List (BitVec 64)
  | [], pfns => ([], pfns)
  | a :: l, pfns =>
    let (a, pfns) := f a pfns
    let (l, pfns) := drawMap f l pfns
    (a :: l, pfns)

/-- Fills a field with the next unallocated frame, if there is one. -/
def fillField (field : List Char) (unallocated : List (BitVec 64)) :
    List Char × List (BitVec 64) :=
  if field = nan then
    match unallocated with
    | [] => (field, [])
    | pfn :: unallocated => (hexText pfn, unallocated)
  else (field, unallocated)

/-- Fills an entry, its data frame last. -/
def fillEntry (e : Entry) (unallocated : List (BitVec 64)) : Entry × List (BitVec 64) :=
  let (ptPfns, unallocated) := drawMap fillField e.ptPfns unallocated
  let (dataPfn, unallocated) := fillField e.dataPfn unallocated
  ({ e with ptPfns, dataPfn }, unallocated)

def fillEntries (entries : List Entry) (unallocated : List (BitVec 64)) : List Entry :=
  (drawMap fillEntry entries unallocated).1

/-! ### The program -/

/-- The file that is written. -/
def outputText (entries : List Entry) : List Char :=
  unlines '\n' (intText entries.length ::
    entries.map fun e => commaLine (e.virtualAddr :: e.pfnFields))

/-- What the program reports at the end of a run, and the file. -/
structure Report where
  nanCount : ℕ
  unallocCount : ℕ
  output : List Char
  deriving DecidableEq, Repr

/-- How the program ends: with exit code 1 and a message, by an access through the null
pointer, or with exit code 0. -/
inductive Outcome
  | failed (message : String)
  | crashed
  | written (report : Report)
  deriving DecidableEq, Repr

/-- The part of `main` after reading. The null pointer is followed by the first field that
is filled. -/
def finish (mem : Memory) (outputOpens : Bool) (r : Reader) : Outcome :=
  let (unallocated, unallocCount) := findGaps mem (unique (r.allPfns.insertionSort (· ≤ ·)))
  if unallocated = none ∧ 0 < unallocCount ∧ 0 < nanCount r.entries then .crashed
  else if !outputOpens then .failed "Failed to open output file"
  else
    .written ⟨nanCount r.entries, unallocCount,
      outputText (fillEntries r.entries (unallocated.getD []))⟩

/-- `main`, for an input file that may not open. The first line is read and not used. -/
def main (mem : Memory) (input : Option (List Char)) (outputOpens : Bool) : Outcome :=
  match input with
  | none => .failed "Failed to open input file"
  | some text =>
    match pieces '\n' maxLine maxLine text with
    | [] => .failed "Failed to read count line\n"
    | _ :: lines =>
      match lines.foldlM (readLine mem) {} with
      | none => .failed "Memory allocation failed\n"
      | some r => finish mem outputOpens r

end SagePTE.PageTables.Augmentor
