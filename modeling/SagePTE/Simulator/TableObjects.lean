import SagePTE.PageTables.OutputText
import SagePTE.Simulator.Loader

/-!
# The objects of a loaded page table

A `page_table_info_t` has a vector `all` of pointers to its own fields, through which
the walks read the frames. A record is read into a variable of the loop, copied into a
pair, and from there into a node of the table; the variable and the pair are gone after
the round. The entry of the table can only be used because each copy is given pointers
of its own.

The objects are modelled with the places they live at, so that a pointer into an object
that is gone leads nowhere. What the table then says, directly and through the pointers,
is what `loadPageTable` says.

## Main definitions

* `InfoObject.construct`, `InfoObject.copy` — the two constructors
* `TableObjects.find` — an entry, with its fields and what its pointers lead to
* `loadObjects` — the loading of one file, with its objects
* `dumpText` — a file of records as it is printed

## Main results

* `find_loadObjects` — the objects hold the table that is loaded
* `loadObjects_dumpText` — what is printed is loaded, in whatever order
-/

set_option autoImplicit false

namespace SagePTE.Simulator

open Numerals Scan Lines PageTables

/-! ### Objects -/

/-- Where an object lives: the variable of the loop, the pair that is inserted, or a node
of the table. -/
inductive Place
  | tmp
  | pair
  | node (n : ℕ)
  deriving DecidableEq

/-- The fields of `page_table_info_t` that are numbers. -/
inductive InfoField
  | va | pe1 | pe2 | pe3 | pe4 | pa

/-- `page_table_info_t`, with the pointers of its vector `all`. -/
structure InfoObject where
  va : BitVec 64
  pe1 : BitVec 64
  pe2 : BitVec 64
  pe3 : BitVec 64
  pe4 : BitVec 64
  pa : BitVec 64
  all : Fin 5 → Place × InfoField

namespace InfoObject

/-- The value of a field. -/
def read (o : InfoObject) : InfoField → BitVec 64
  | .va => o.va
  | .pe1 => o.pe1
  | .pe2 => o.pe2
  | .pe3 => o.pe3
  | .pe4 => o.pe4
  | .pa => o.pa

/-- The pointers to the fields of the object at a place. -/
def ownFields (place : Place) : Fin 5 → Place × InfoField :=
  ![(place, .pa), (place, .pe1), (place, .pe2), (place, .pe3), (place, .pe4)]

/-- The constructor without arguments. -/
def construct (place : Place) (unset : Unset) : InfoObject :=
  ⟨unset.va, 0, 0, 0, 0, unset.pa, ownFields place⟩

/-- The copy constructor. It leaves the address as the memory held it. -/
def copy (place : Place) (held : BitVec 64) (o : InfoObject) : InfoObject :=
  ⟨held, o.pe1, o.pe2, o.pe3, o.pe4, o.pa, ownFields place⟩

/-- The numbers that `fscanf` converted are assigned in turn. -/
def scan (vs : List (BitVec 64)) (o : InfoObject) : InfoObject :=
  { o with
    va := vs.getD 0 o.va
    pe1 := vs.getD 1 o.pe1
    pe2 := vs.getD 2 o.pe2
    pe3 := vs.getD 3 o.pe3
    pe4 := vs.getD 4 o.pe4
    pa := vs.getD 5 o.pa }

/-- The record of an object. -/
def info (o : InfoObject) : PageTableInfo := ⟨o.pe1, o.pe2, o.pe3, o.pe4, o.pa⟩

theorem ownFields_fst (place : Place) (i : Fin 5) : (ownFields place i).1 = place := by
  fin_cases i <;> rfl

theorem read_ownFields (o : InfoObject) (place : Place) (i : Fin 5) :
    o.read (ownFields place i).2 = o.info.all i := by
  fin_cases i <;> rfl

end InfoObject

/-! ### The table -/

/-- The objects between two rounds of the loop: those of the nodes, which node a key has,
and how many there are. -/
structure TableObjects where
  memory : Place → Option InfoObject := fun _ => none
  table : BitVec 64 → Option ℕ := fun _ => none
  next : ℕ := 0

namespace TableObjects

/-- The value that a pointer leads to. -/
def deref (s : TableObjects) (p : Place × InfoField) : Option (BitVec 64) :=
  (s.memory p.1).map fun o => o.read p.2

/-- The entry of a key: its fields, and the values that its pointers lead to. -/
def find (s : TableObjects) (key : BitVec 64) :
    Option (PageTableInfo × (Fin 5 → Option (BitVec 64))) := do
  let n ← s.table key
  let o ← s.memory (.node n)
  some (o.info, fun i => s.deref (o.all i))

/-- `insert` of a pair made of the address and the variable. The pair is a copy of the
variable and the node one of the pair. A key that is there keeps its entry. -/
def insert (held : Place → BitVec 64) (tmp : InfoObject) (s : TableObjects) : TableObjects :=
  let pair := tmp.copy .pair (held .pair)
  match s.table tmp.va with
  | some _ => s
  | none =>
    let node := pair.copy (.node s.next) (held (.node s.next))
    { memory := Function.update s.memory (.node s.next) (some node)
      table := Function.update s.table tmp.va (some s.next)
      next := s.next + 1 }

end TableObjects

/-- The loop, with the number of rounds left. -/
def loadRounds (held : Place → BitVec 64) (unset : ℕ → Unset) :
    ℕ → List Char → TableObjects → TableObjects
  | 0, _, s => s
  | n + 1, text, s =>
    let (vs, rest) := commaFields libcHex 6 text
    let tmp := (InfoObject.construct .tmp (unset n)).scan vs
    loadRounds held unset n (if vs.length = 6 then rest.dropWhile isSpace else rest)
      (s.insert held tmp)

/-- The loading of one file. -/
def loadObjects (held : Place → BitVec 64) (unset : ℕ → Unset) (text : List Char) :
    TableObjects :=
  match libcInt text with
  | (none, rest) => loadRounds held unset 0 rest {}
  | (some count, rest) => loadRounds held unset count.toNat (rest.dropWhile isSpace) {}

/-! ### The objects hold the records -/

/-- The table has a node for each key of the records, whose object holds the record and
points to itself. -/
def TableObjects.Holds (s : TableObjects) (records : List (BitVec 64 × PageTableInfo)) : Prop :=
  ∀ key, s.table key = none ∧ PageTable.ofList records key = none ∨
    ∃ n o, s.table key = some n ∧ n < s.next ∧ s.memory (.node n) = some o ∧
      o.all = InfoObject.ownFields (.node n) ∧ PageTable.ofList records key = some o.info

namespace TableObjects

variable {s : TableObjects} {records : List (BitVec 64 × PageTableInfo)}

/-- Through its own pointers an entry shows its own fields. -/
theorem Holds.find_eq (hs : s.Holds records) (key : BitVec 64) :
    s.find key = (PageTable.ofList records key).map fun r => (r, fun i => some (r.all i)) := by
  rcases hs key with ⟨hnone, hrecords⟩ | ⟨n, o, hsome, -, ho, hall, hrecords⟩
  · rw [find, hnone, hrecords]
    rfl
  · have hderef : (fun i => s.deref (o.all i)) = fun i => some (o.info.all i) := by
      funext i
      rw [deref, hall, InfoObject.ownFields_fst, ho, Option.map_some, InfoObject.read_ownFields]
    simp only [find, hsome, ho, hrecords, hderef, Option.bind_eq_bind, Option.bind_some,
      Option.map_some]

/-- One insertion. -/
theorem Holds.insert (hs : s.Holds records) (held : Place → BitVec 64) (tmp : InfoObject) :
    (s.insert held tmp).Holds (records ++ [(tmp.va, tmp.info)]) := by
  intro key
  rw [PageTable.ofList_concat]
  by_cases hkey : tmp.va = key
  · subst hkey
    rcases hs tmp.va with ⟨hnone, hrecords⟩ | ⟨n, o, hsome, hlt, ho, hall, hrecords⟩
    · -- the new node, whose object is a copy of a copy
      refine .inr ⟨s.next, (tmp.copy .pair (held .pair)).copy (.node s.next)
        (held (.node s.next)), ?_, ?_, ?_, rfl, ?_⟩
      · simp only [TableObjects.insert, hnone, Function.update_self]
      · simp only [TableObjects.insert, hnone, Nat.lt_succ_self]
      · simp only [TableObjects.insert, hnone, Function.update_self]
      · rw [hrecords, if_pos rfl, Option.none_or]
        rfl
    · have hkept : s.insert held tmp = s := by simp only [TableObjects.insert, hsome]
      rw [hkept, hrecords, Option.some_or]
      exact .inr ⟨n, o, hsome, hlt, ho, hall, rfl⟩
  · rw [if_neg hkey, Option.or_none]
    cases hother : s.table tmp.va with
    | some n =>
      simp only [TableObjects.insert, hother]
      exact hs key
    | none =>
      simp only [TableObjects.insert, hother, Function.update_of_ne (Ne.symm hkey)]
      rcases hs key with hnone | ⟨n, o, hsome, hlt, ho, hall, hrecords⟩
      · exact .inl hnone
      · -- nodes do not move
        have hne : Place.node n ≠ .node s.next := fun heq => hlt.ne (Place.node.inj heq)
        exact .inr ⟨n, o, hsome, hlt.trans (Nat.lt_succ_self _),
          by rw [Function.update_of_ne hne]; exact ho, hall, hrecords⟩

/-- The whole loop. -/
theorem Holds.loadRounds (hs : s.Holds records) (held : Place → BitVec 64) (unset : ℕ → Unset)
    (n : ℕ) (text : List Char) :
    (Simulator.loadRounds held unset n text s).Holds (records ++ readRecords unset n text) := by
  induction n generalizing s records text with
  | zero =>
    rw [readRecords, List.append_nil]
    exact hs
  | succ n ih =>
    have hround := ih (hs.insert held
      ((InfoObject.construct .tmp (unset n)).scan (commaFields libcHex 6 text).1))
      (readRecord (unset n) text).2
    rw [List.append_assoc, List.singleton_append] at hround
    exact hround

end TableObjects

/-- **The loaded table.** Its entries hold the records that were read, and their pointers
lead to them. -/
theorem find_loadObjects (held : Place → BitVec 64) (unset : ℕ → Unset) (text : List Char)
    (key : BitVec 64) :
    (loadObjects held unset text).find key =
      (loadPageTable unset text key).map fun r => (r, fun i => some (r.all i)) := by
  have hempty : TableObjects.Holds {} [] := fun _ => .inl ⟨rfl, rfl⟩
  unfold loadObjects loadPageTable
  cases libcInt text with
  | mk count rest =>
    cases count with
    | none => exact (hempty.loadRounds held unset 0 rest).find_eq key
    | some count => exact (hempty.loadRounds held unset _ _).find_eq key

/-! ### Printed records -/

/-- The fields that `print_entry` prints of a record. -/
def recordFields (r : BitVec 64 × PageTableInfo) : List (List Char) :=
  [padLeft 16 '0' (hexText r.1), hexText r.2.pe1, hexText r.2.pe2, hexText r.2.pe3,
    hexText r.2.pe4, hexText r.2.pa]

/-- The file that `convert_dump` makes: the number of the records, and their lines. -/
def dumpText (records : List (BitVec 64 × PageTableInfo)) : List Char :=
  unlines '\n' (Nat.toDigits 10 records.length :: (records.map recordFields).map commaLine)

theorem isRecord_recordFields (r : BitVec 64 × PageTableInfo) : IsRecord (recordFields r) where
  length := rfl
  numeral field hfield := by
    rcases List.mem_cons.mp hfield with rfl | hfield
    · exact isNumeral_padLeft (by decide) (isNumeral_hexText r.1) 16
    · simp only [List.mem_cons, List.not_mem_nil, or_false] at hfield
      rcases hfield with rfl | rfl | rfl | rfl | rfl <;> exact isNumeral_hexText _

/-- A record is read as it was printed. -/
theorem lineRecord_recordFields (r : BitVec 64 × PageTableInfo) :
    lineRecord (recordFields r) = r := by
  simp only [lineRecord, recordFields, fieldValue, List.getD_cons_zero, List.getD_cons_succ,
    value_padLeft, unsignedValue_hexText]

theorem loadPageTable_dumpText (unset : ℕ → Unset) {records : List (BitVec 64 × PageTableInfo)}
    (hlt : records.length < 2 ^ 31) :
    loadPageTable unset (dumpText records) = .ofList records := by
  have hrows : ∀ fields ∈ records.map recordFields, IsRecord fields := by
    intro fields hfields
    obtain ⟨r, -, rfl⟩ := List.mem_map.mp hfields
    exact isRecord_recordFields r
  have hall := loadPageTable_all unset hrows (by rwa [List.length_map])
  have hrecords : (records.map recordFields).map lineRecord = records := by
    rw [List.map_map]
    exact List.map_id'' lineRecord_recordFields records
  rwa [List.length_map, hrecords] at hall

/-- **Printed and loaded.** The keys of the table are the addresses of the records. The entry
of an address has the fields of its record, and its pointers `all` lead to them, with the
frame of the page at index zero. The order of the records does not matter. -/
theorem loadObjects_dumpText (held : Place → BitVec 64) (unset : ℕ → Unset)
    {records : List (BitVec 64 × PageTableInfo)} (hkeys : (records.map Prod.fst).Nodup)
    (hlt : records.length < 2 ^ 31) :
    let s := loadObjects held unset (dumpText records)
    (∀ va, (s.find va).isSome ↔ va ∈ records.map Prod.fst) ∧
      (∀ r ∈ records, s.find r.1 = some (r.2, fun i => some (r.2.all i))) ∧
      ∀ records', records'.Perm records → ∀ held' unset',
        (loadObjects held' unset' (dumpText records')).find = s.find := by
  intro s
  have hfind : ∀ va, s.find va =
      (PageTable.ofList records va).map fun r => (r, fun i => some (r.all i)) := by
    intro va
    rw [find_loadObjects, loadPageTable_dumpText unset hlt]
  refine ⟨fun va => ?_, fun r hr => ?_, fun records' hperm held' unset' => ?_⟩
  · rw [hfind, Option.isSome_map, PageTable.isSome_ofList_iff]
  · rw [hfind, PageTable.ofList_of_nodup hkeys hr, Option.map_some]
  · funext va
    rw [find_loadObjects, loadPageTable_dumpText unset' (hperm.length_eq ▸ hlt),
      PageTable.ofList_perm hkeys hperm, hfind]

/-- Two records, printed in the other order. -/
theorem loadObjects_two_records :
    let records := [(0x7000#64, (⟨1, 2, 3, 4, 5⟩ : PageTableInfo)), (0x8000#64, ⟨1, 2, 3, 4, 6⟩)]
    (loadObjects (fun _ => 0) (fun _ => ⟨0, 0⟩) (dumpText records.reverse)).find 0x8000 =
      some (⟨1, 2, 3, 4, 6⟩, fun i => some (![6, 1, 2, 3, 4] i)) := by
  intro records
  obtain ⟨-, hrecords, horder⟩ := loadObjects_dumpText (fun _ => 0) (fun _ => ⟨0, 0⟩)
    (by decide : (records.map Prod.fst).Nodup) (by decide)
  rw [horder records.reverse records.reverse_perm]
  exact hrecords (0x8000#64, ⟨1, 2, 3, 4, 6⟩) (by decide)

end SagePTE.Simulator
