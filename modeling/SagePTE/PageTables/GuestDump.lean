import SagePTE.Lib.SeqFile
import SagePTE.Lib.Scan
import SagePTE.PageTables.Translator

/-!
# The guest dumper

The kernel module `dump_pagetables` in the modes that dump the page tables of a
process. The file is a sequence of addresses: showing an address prints its line, if
it is mapped, and moves on by a page, or over the whole region of a table that is not
there. A line has the address, the frames of the tables on its path and the frame of
the page; inside of a huge page the frames below the leaf are made up from the index
bits.

## Main definitions

* `handleNormalPage`, `normalTableWalker` — one address
* `Dumper` — the module's variables and the process it dumps
* `Dumper.ptSeqOps` — the file
-/

set_option autoImplicit false

namespace SagePTE.PageTables

open Numerals Scan SeqFile

/-- The frames found so far, zero where the walk has found none. -/
structure Path where
  pgdp : BitVec 64 := 0
  p4dp : BitVec 64 := 0
  pudp : BitVec 64 := 0
  pmdp : BitVec 64 := 0
  ptep : BitVec 64 := 0

namespace Mm

variable (mm : Mm)

/-- `print_entry`, which prints the frame of the page directory for `pgdp`. -/
def printEntry (va : BitVec 64) (path : Path) : List Char :=
  if path.ptep = 0 then []
  else
    [','].intercalate [padLeft 16 '0' (hexText va), hexText mm.pgd, hexText path.p4dp,
      hexText path.pudp, hexText path.pmdp, hexText path.ptep] ++ ['\n']

/-- `handle_normal_page` for a leaf at level `pgd` (0), `p4d` (1), `pud` (2) or
`pmd` (3); each case falls through to the next. -/
def handleNormalPage (addr : BitVec 64) (path : Path) (level : Fin 4) :
    List Char × BitVec 64 :=
  let path :=
    if level ≤ 0 then
      { path with p4dp := path.pgdp + (p4dIndex addr).setWidth 64 * (p4dSize / pageSize) }
    else path
  let path :=
    if level ≤ 1 then
      { path with pudp := path.p4dp + (pudIndex addr).setWidth 64 * (pudSize / pageSize) }
    else path
  let path :=
    if level ≤ 2 then
      { path with pmdp := path.pudp + (pmdIndex addr).setWidth 64 * (pmdSize / pageSize) }
    else path
  let path := { path with ptep := path.pmdp + (pteIndex addr).setWidth 64 }
  (mm.printEntry addr path, addr + pageSize)

/-- The distance to the next address: the size of the region that the first missing
frame would map. -/
def walkStep (path : Path) : BitVec 64 :=
  if path.pgdp = 0 then mm.pgdirSize
  else if path.p4dp = 0 then p4dSize
  else if path.pudp = 0 then pudSize
  else if path.pmdp = 0 then pmdSize
  else pageSize

/-- The end of `normal_table_walker` where no leaf above the last level was found. -/
def finishWalk (addr : BitVec 64) (path : Path) : List Char × BitVec 64 :=
  (mm.printEntry addr path, addr + mm.walkStep path)

/-- `normal_table_walker`: what it prints for an address, and the address after it.
There are no leaves at the levels `pgd` and `p4d`. -/
def normalTableWalker (addr : BitVec 64) : List Char × BitVec 64 :=
  let pgd := mm.pgdOffset addr
  if mm.pgdNone pgd then mm.finishWalk addr {}
  else
    let path : Path := { pgdp := pgd.frame }
    -- a bad entry leaves its own frame in the path
    if mm.pgdBad pgd then mm.finishWalk addr path
    else
      let p4d := mm.p4dOffset pgd addr
      if p4d.isNone then mm.finishWalk addr path
      else
        let path := { path with p4dp := p4d.frame }
        if p4d.isBad then mm.finishWalk addr path
        else
          let pud := mm.pudOffset p4d addr
          if pud.isNone then mm.finishWalk addr path
          else
            let path := { path with pudp := pud.pudPfn }
            -- `break` with `level` set: the frames below are counted up from here
            if pud.isLeaf then mm.handleNormalPage addr path 2
            else if pud.isBad then mm.finishWalk addr path
            else
              let pmd := mm.pmdOffset pud addr
              if pmd.isNone then mm.finishWalk addr path
              else
                let path := { path with pmdp := pmd.pmdPfn }
                if pmd.isLeaf then mm.handleNormalPage addr path 3
                else if pmd.isBad then mm.finishWalk addr path
                else
                  let pte := mm.pteOffset pmd addr
                  if !pte.isNone && pte.isPresent then
                    mm.finishWalk addr { path with ptep := pte.frame }
                  else mm.finishWalk addr path

/-- `TASK_SIZE_MAX`. -/
def taskSizeMax : BitVec 64 :=
  (if mm.fiveLevel then 0x100000000000000#64 else 0x800000000000#64) - pageSize

end Mm

/-- The module's variables, the tables of the selected process, and the kernel's
`PAGE_OFFSET`. -/
structure Dumper where
  selectedMode : Char
  selectedPid : ℤ
  mm : Mm
  pageOffset : BitVec 64

namespace Dumper

variable (d : Dumper)

/-- `is_userspace_mode`. -/
def isUserspaceMode : Bool := d.selectedMode = 'U'

/-- `pt_write`, from at most 64 bytes: a letter before the process id is the mode, and
an id that does not parse becomes that of the writer. -/
def ptWrite (currentPid : ℤ) (buffer : List Char) : Dumper :=
  match buffer.take 64 with
  | [] => d
  | c :: cs =>
    if '0' ≤ c ∧ c ≤ '9' then
      { d with
        selectedMode := '0'
        selectedPid := (kstrtoint (cString (c :: cs))).getD currentPid }
    else if cs = [] then { d with selectedMode := c }
    else { d with selectedMode := c, selectedPid := (kstrtoint (cString cs)).getD currentPid }

/-- The header line, `%16d`. -/
def header : List Char := padLeft 16 ' ' (intText d.selectedPid) ++ ['\n']

/-- `pt_seq_show` of a process that exists. The cursor moves to the next address. -/
def ptSeqShow (spos : BitVec 64) : List Char × BitVec 64 :=
  let (line, spos') := d.mm.normalTableWalker spos
  ((if spos = 0 then d.header else []) ++ line, spos')

/-- `pt_seq_start`, where `kmalloc` says whether there is memory for the cursor. -/
def ptSeqStart (kmalloc : Bool) (pos : BitVec 64) : Option (BitVec 64) :=
  if pos = BitVec.allOnes 64 then none
  else if !kmalloc then none
  else some pos

/-- `pt_seq_next`. -/
def ptSeqNext (spos pos : BitVec 64) : Option (BitVec 64) × BitVec 64 :=
  if spos ≤ pos then (none, BitVec.allOnes 64)
  else if d.mm.taskSizeMax ≤ spos then
    if d.isUserspaceMode then (none, BitVec.allOnes 64)
    else
      -- over the hole between user and kernel addresses
      let spos := if spos < d.pageOffset then d.pageOffset else spos
      (some spos, spos)
  else (some spos, spos)

/-- `pt_seq_ops`, with memory for the cursors. -/
def ptSeqOps : SeqOps (BitVec 64) (BitVec 64) Char where
  start := ptSeqStart true
  record := d.ptSeqShow
  next := d.ptSeqNext

end Dumper

end SagePTE.PageTables
