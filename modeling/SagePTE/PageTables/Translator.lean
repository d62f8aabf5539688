import SagePTE.Lib.Lines
import SagePTE.Lib.Scan
import SagePTE.Lib.SeqFile
import SagePTE.PageTables.Tables

/-!
# The host translator

The kernel module `host_gpa_translator`. A guest dump is written to it in pieces;
each guest frame in the dump is looked up in the page tables of the QEMU process,
once, and the frames on the way are kept in an array, in order of first occurrence.
Reading the output file prints the array.

The module lives in a host: the processes it can find, and the outcome of each
allocation in turn.

## Main definitions

* `translateGpaToHpa` — the walk of QEMU's page tables
* `Translator` — the module's variables
* `Translator.getOrTranslatePfn`, `addTranslationEntry`, `processEntry`,
  `parseAndTranslate`, `inputWrite` — the input file
* `Translator.outputOps` — the output file
* `Translator.session` — a dump written piece by piece
-/

set_option autoImplicit false

namespace SagePTE.PageTables

open Numerals Scan Lines SeqFile

/-! ### The host -/

/-- A `vm_area_struct`: its bounds, whether it has a file, and its flags. -/
structure Vma where
  vmStart : BitVec 64
  vmEnd : BitVec 64
  hasFile : Bool
  vmRead : Bool
  vmWrite : Bool

/-- What the module sees of a process. -/
structure Process where
  mm : Mm
  vmas : List Vma

/-- The processes with an address space, and which allocations succeed. -/
structure Host where
  process : ℤ → Option Process
  alloc : ℕ → Bool

/-- The error codes the module returns. -/
inductive Errno | einval | efault | enomem | esrch | enoent
  deriving DecidableEq, Repr

/-! ### The walk -/

/-- `INVALID_PFN`. -/
def invalidPfn : BitVec 64 := BitVec.allOnes 64

/-- The frames the walk goes through, which are invalid until it sets them. -/
structure Chain where
  pfn1 : BitVec 64 := invalidPfn
  pfn2 : BitVec 64 := invalidPfn
  pfn3 : BitVec 64 := invalidPfn
  pfn4 : BitVec 64 := invalidPfn
  pfn5 : BitVec 64 := invalidPfn
  deriving DecidableEq, Repr

/-- `translate_gpa_to_hpa`: the host-physical address and the chain. -/
def translateGpaToHpa (guestRamBase : BitVec 64) (mm : Option Mm) (gpa : BitVec 64) :
    Except Errno (BitVec 64) × Chain :=
  match mm with
  | none => (.error .einval, {})
  | some mm =>
    if guestRamBase = 0 then (.error .einval, {})
    else
      let qemuVa := guestRamBase + gpa
      let pageOffset := qemuVa &&& (pageSize - 1)
      let pgd := mm.pgdOffset qemuVa
      if mm.pgdNone pgd || mm.pgdBad pgd then (.error .efault, {})
      else
        let chain : Chain := { pfn1 := pgd.frame }
        let p4d := mm.p4dOffset pgd qemuVa
        if p4d.isNone || p4d.isBad then (.error .efault, chain)
        else
          let chain := { chain with pfn2 := p4d.frame }
          let pud := mm.pudOffset p4d qemuVa
          if pud.isNone then (.error .efault, chain)
          else
            let chain := { chain with pfn3 := pud.pudPfn }
            -- a 1 GiB leaf has no table at the next level, a 2 MiB leaf keeps its own frame there
            if pud.isLeaf then
              (.ok (pud.pudPfn <<< 12 ||| (qemuVa &&& (pudSize - 1))),
                { chain with pfn4 := invalidPfn, pfn5 := pud.pudPfn })
            else if pud.isBad then (.error .efault, chain)
            else
              let pmd := mm.pmdOffset pud qemuVa
              if pmd.isNone then (.error .efault, chain)
              else
                let chain := { chain with pfn4 := pmd.pmdPfn }
                if pmd.isLeaf then
                  (.ok (pmd.pmdPfn <<< 12 ||| (qemuVa &&& (pmdSize - 1))),
                    { chain with pfn5 := pmd.pmdPfn })
                else if pmd.isBad then (.error .efault, chain)
                else
                  let pte := mm.pteOffset pmd qemuVa
                  if pte.isNone || !pte.isPresent then (.error .efault, chain)
                  else (.ok (pte.frame <<< 12 ||| pageOffset), { chain with pfn5 := pte.frame })

/-- `pfn_translation` and `translation_entry`, which have the same fields. -/
structure Translation where
  gpaPfn : BitVec 64
  hpaPfn : BitVec 64
  chain : Chain
  deriving DecidableEq, Repr

/-- A slot of a zeroed array. -/
def Translation.zero : Translation := ⟨0, 0, ⟨0, 0, 0, 0, 0⟩⟩

/-- What `get_or_translate_pfn` stores for a frame. A failed walk leaves the chain up
to the point of failure. -/
def translation (guestRamBase : BitVec 64) (mm : Option Mm) (gpaPfn : BitVec 64) : Translation :=
  let walk := translateGpaToHpa guestRamBase mm (gpaPfn <<< 12)
  match walk.1 with
  | .ok hpa => ⟨gpaPfn, hpa >>> 12, walk.2⟩
  | .error _ => ⟨gpaPfn, invalidPfn, walk.2⟩

/-! ### The module's variables -/

/-- The module's variables. `translationEntries` is `none` for the null pointer;
otherwise it lists the slots in use. `allocs` counts the allocations so far. -/
structure Translator where
  qemuPid : ℤ := 0
  guestPid : ℤ := 0
  guestRamBase : BitVec 64 := 0
  guestRamSize : BitVec 64 := 0
  hash : List Translation := []
  translationEntries : Option (List Translation) := none
  translationCapacity : ℕ := 0
  entryCount : ℕ := 0
  translatedCount : ℕ := 0
  successfulTranslations : ℕ := 0
  unsuccessfulTranslations : ℕ := 0
  totalLinesProcessed : ℕ := 0
  processed : ℕ := 0
  partialLine : List Char := []
  allocs : ℕ := 0

/-- The text of a C string: what stands before the first NUL. -/
def cString (bytes : List Char) : List Char := bytes.takeWhile (· ≠ '\x00')

namespace Translator

variable (h : Host)

/-- The array's entries. -/
def entries (t : Translator) : List Translation :=
  (t.translationEntries.getD []).take t.entryCount

/-- The outcome of the next allocation. -/
def alloc (t : Translator) : Bool × Translator :=
  (h.alloc t.allocs, { t with allocs := t.allocs + 1 })

/-- `get_qemu_mm`, without the reference count. -/
def getQemuProcess (t : Translator) : Option Process :=
  if t.qemuPid = 0 then none else h.process t.qemuPid

/-! ### The configuration file -/

/-- `find_guest_ram_base`: the largest area above 100 MiB that is anonymous, readable
and writable, the first of several; its base and size. -/
def findGuestRamBase (vmas : List Vma) : Except Errno (BitVec 64 × BitVec 64) :=
  let (base, size) := vmas.foldl (fun best vma =>
    let vmaSize := vma.vmEnd - vma.vmStart
    if !vma.hasFile && vma.vmRead && vma.vmWrite && 104857600#64 < vmaSize && best.2 < vmaSize
    then (vma.vmStart, vmaSize) else best) (0#64, 0#64)
  if base = 0 then .error .enoent else .ok (base, size)

/-- `config_write`, from at most 31 bytes. -/
def configWrite (buffer : List Char) (copyFaults : Bool) (t : Translator) :
    Except Errno ℕ × Translator :=
  if copyFaults then (.error .efault, t)
  else
    match kstrtoint (cString (buffer.take 31)) with
    | none => (.error .einval, t)
    | some pid =>
      let t := { t with qemuPid := pid }
      match t.getQemuProcess h with
      -- a process that is not there yet is no error: the id is kept
      | none => (.ok buffer.length, t)
      | some process =>
        match findGuestRamBase process.vmas with
        | .error _ => (.ok buffer.length, t)
        | .ok (base, size) =>
          (.ok buffer.length, { t with guestRamBase := base, guestRamSize := size })

/-! ### The translation store -/

/-- The counter of the outcome of a walk. -/
def countOutcome (outcome : Except Errno (BitVec 64)) (t : Translator) : Translator :=
  match outcome with
  | .error _ => { t with unsuccessfulTranslations := t.unsuccessfulTranslations + 1 }
  | .ok _ => { t with successfulTranslations := t.successfulTranslations + 1 }

/-- `get_or_translate_pfn`: the translation of a frame, and whether it is new. A
frame that is new is translated even where there is no memory to keep it. -/
def getOrTranslatePfn (mm : Option Mm) (gpaPfn : BitVec 64) (t : Translator) :
    Option (Translation × Bool) × Translator :=
  if gpaPfn = 0 then (none, t)
  else
    match t.hash.find? (·.gpaPfn == gpaPfn) with
    | some found => (some (found, false), t)
    | none =>
      -- `kmalloc` of the hash entry
      let (ok, t) := t.alloc h
      if !ok then (none, t)
      else
        let e := translation t.guestRamBase mm gpaPfn
        let t := t.countOutcome (translateGpaToHpa t.guestRamBase mm (gpaPfn <<< 12)).1
        (some (e, true),
          { t with hash := e :: t.hash, translatedCount := t.translatedCount + 1 })

/-- Stores an entry in the slot `entry_count`. -/
def putEntry (e : Translation) (t : Translator) : Translator :=
  { t with
    translationEntries := some
      (((t.translationEntries.getD []).take t.entryCount).rightpad t.entryCount .zero ++ [e])
    entryCount := t.entryCount + 1 }

/-- `add_translation_entry`: a full array is doubled, from 1024 slots. -/
def addTranslationEntry (e : Translation) (t : Translator) : Translator :=
  if t.translationCapacity ≤ t.entryCount then
    let newCapacity := if t.translationCapacity = 0 then 1024 else t.translationCapacity * 2
    let (ok, t) := t.alloc h
    if !ok then t
    else { t.putEntry e with translationCapacity := newCapacity }
  else t.putEntry e

/-- `clear_translations`. -/
def clearTranslations (t : Translator) : Translator :=
  { t with
    hash := []
    translationEntries := none
    translationCapacity := if t.translationEntries.isSome then 0 else t.translationCapacity
    entryCount := 0
    translatedCount := 0
    successfulTranslations := 0
    unsuccessfulTranslations := 0
    totalLinesProcessed := 0 }

/-- One of the five parts of `process_entry`: a frame that is not zero is translated,
and a new translation is added to the array. -/
def processPfn (mm : Option Mm) (t : Translator) (pfn : BitVec 64) : Translator :=
  if pfn = 0 then t
  else
    match t.getOrTranslatePfn h mm pfn with
    | (some (found, true), t) => t.addTranslationEntry h { found with gpaPfn := pfn }
    -- known, or without memory
    | (_, t) => t

/-- `process_entry`. -/
def processEntry (mm : Option Mm) (pfn1 pfn2 pfn3 pfn4 pfn5 : BitVec 64) (t : Translator) :
    Translator :=
  [pfn1, pfn2, pfn3, pfn4, pfn5].foldl (processPfn h mm) t

/-! ### The input file -/

/-- The frames of a record line: five fields after the first comma. -/
def linePfns (line : List Char) : Option (List (BitVec 64)) :=
  match splitFirst ',' line with
  | none => none
  | some (_, fields) =>
    let pfns := (commaFields kernelHex 5 fields).1
    if pfns.length = 5 then some pfns else none

/-- `parse_and_translate`. -/
def parseAndTranslate (mm : Option Mm) (line : List Char) (t : Translator) :
    Except Errno Unit × Translator :=
  if line = [] ∨ line.head? = some '\n' then (.ok (), t)
  else
    match linePfns line with
    | some [pfn1, pfn2, pfn3, pfn4, pfn5] => (.ok (), t.processEntry h mm pfn1 pfn2 pfn3 pfn4 pfn5)
    | _ => (.error .einval, t)

/-- The body of the loop over complete lines. The flag is `first_line`. -/
def processLine (mm : Option Mm) (s : Bool × Translator) (line : List Char) :
    Bool × Translator :=
  let (firstLine, t) := s
  if line = [] then (firstLine, t)
  else if firstLine then (false, { t with guestPid := (kstrtoint line).getD 0 })
  else
    match t.parseAndTranslate h mm line with
    | (.ok _, t) => (false, { t with processed := t.processed + 1 })
    | (.error _, t) => (false, t)

/-- The write at offset zero starts a session. -/
def openSession (ppos : ℕ) (t : Translator) : Translator :=
  if ppos = 0 then { t.clearTranslations with processed := 0, partialLine := [] } else t

/-- Keeps the text after the last newline for the next write, if there is memory. -/
def keepRemaining (remaining : List Char) (t : Translator) : Translator :=
  if remaining = [] then t
  else
    let (ok, t) := t.alloc h -- `partial_line`
    if ok then { t with partialLine := remaining } else t

/-- The loop over complete lines, and the counters after it. -/
def translateLines (mm : Mm) (firstLine : Bool) (lines : List (List Char)) (t : Translator) :
    Translator :=
  let (_, t) := lines.foldl (processLine h (some mm)) (firstLine, t)
  { t with
    translatedCount := t.translatedCount + t.processed
    totalLinesProcessed := t.totalLinesProcessed + t.processed }

/-- `input_write`: what it returns, the offset after it, and the module's variables. -/
def inputWrite (copyFaults : Bool) (buffer : List Char) (ppos : ℕ) (t : Translator) :
    Except Errno ℕ × ℕ × Translator :=
  let (ok, t) := (t.openSession ppos).alloc h -- `kbuf`
  if !ok then (.error .enomem, ppos, t)
  else if copyFaults then (.error .efault, ppos, t)
  else
    let (ok, t) := t.alloc h -- `full_buf`
    if !ok then (.error .enomem, ppos, t)
    else
      let fullBuf := cString (t.partialLine ++ buffer)
      let t := { t with partialLine := [] }
      match splitLast '\n' fullBuf with
      | none =>
        (.ok buffer.length, ppos + buffer.length, { t with partialLine := fullBuf })
      | some (complete, remaining) =>
        let t := t.keepRemaining h remaining
        match t.getQemuProcess h with
        | none => (.error .esrch, ppos, t)
        | some process =>
          -- the text now ends with its last newline
          (.ok buffer.length, ppos + buffer.length,
            t.translateLines h process.mm (ppos = 0) (cut '\n' (complete ++ ['\n'])).1)

/-- Writes one after the other, each at the offset where the last one ended. -/
def writes (chunks : List (List Char)) (ppos : ℕ) (t : Translator) : ℕ × Translator :=
  chunks.foldl (fun s chunk => (inputWrite h false chunk s.1 s.2).2) (ppos, t)

/-- A dump is written piece by piece, from offset zero on. -/
def session (chunks : List (List Char)) (t : Translator) : Translator := (t.writes h chunks 0).2

/-- `translator_init`: the module as loaded, after its self-test without a process. -/
def init : Translator :=
  let (_, t) := parseAndTranslate h none
    "00007f1396583000,15171e,215fb0,131b3a,107adc,34c1614".toList {}
  { t with hash := [], translationEntries := none, translationCapacity := 0 }

/-! ### The output file -/

/-- The cursor of the output file: the header, or an entry. -/
inductive OutputItem
  | pid
  | entry (e : Translation)

/-- `output_start`. -/
def outputStart (t : Translator) (pos : ℕ) : Option OutputItem :=
  if pos = 0 then some .pid
  else if t.translationEntries = none ∨ t.entryCount = 0 then none
  else if t.entryCount ≤ pos - 1 then none
  else some (.entry ((t.translationEntries.getD []).getD (pos - 1) .zero))

/-- `output_next`. -/
def outputNext (t : Translator) (v : OutputItem) (pos : ℕ) : Option OutputItem × ℕ :=
  let pos := pos + 1
  match v with
  | .pid =>
    if t.translationEntries = none ∨ t.entryCount = 0 then (none, pos)
    else (some (.entry ((t.translationEntries.getD []).getD 0 .zero)), pos)
  | .entry _ =>
    if t.entryCount ≤ pos - 1 then (none, pos)
    else (some (.entry ((t.translationEntries.getD []).getD (pos - 1) .zero)), pos)

end Translator

/-- `%lx` and `PRIx64`. -/
def hexText (v : BitVec 64) : List Char := Nat.toDigits 16 v.toNat

/-- `%d`. -/
def intText (n : ℤ) : List Char :=
  if n < 0 then '-' :: Nat.toDigits 10 n.natAbs else Nat.toDigits 10 n.natAbs

/-- A field of an output line: `NAN` where the walk did not get to the level. -/
def pfnText (pfn : BitVec 64) : List Char :=
  if pfn = invalidPfn then ['N', 'A', 'N'] else hexText pfn

/-- The fields of an output line. -/
def Translation.fields (e : Translation) : List (List Char) :=
  [hexText (e.gpaPfn <<< 12), pfnText e.chain.pfn1, pfnText e.chain.pfn2, pfnText e.chain.pfn3,
    pfnText e.chain.pfn4, pfnText e.chain.pfn5]

/-- `output_show`. -/
def Translator.outputShow (t : Translator) : OutputItem → List Char
  | .pid => intText t.guestPid ++ ['\n']
  | .entry e => [','].intercalate e.fields ++ ['\n']

/-- `output_seq_ops`. -/
def Translator.outputOps (t : Translator) : SeqOps ℕ Translator.OutputItem Char where
  start := t.outputStart
  record v := (t.outputShow v, v)
  next v pos := t.outputNext v pos

end SagePTE.PageTables
