import SagePTE.Simulator.Knobs

/-!
# The two-dimensional page walk

On a TLB miss the simulator walks the guest page table. Every guest table lies at
a guest-physical address, so that each of the four guest levels first needs a walk
of the host page table; four more host references translate the data address.
Page-walk caches cut both walks short: a guest hit at level `k` skips the guest
levels up to `k`, a host hit at level `m` skips the host levels up to `m`.

The answer of each reference is pushed to the result vector, which the histogram
then counts. A walk also keeps a ghost log of the searches and requests it made.

## Main definitions

* `PageTableInfo`, `PageTable` — the loaded records
* `Walker.pwcSearch` — the search of the three page-walk caches of one side
* `Walker.onePwAtHost` — `one_pw_at_host`
* `Walker.tlbMiss` — the walk `process_memref` makes on a TLB miss
-/

set_option autoImplicit false

namespace SagePTE.Simulator

/-- For literals of the levels, with the data page at zero. -/
instance neZero_five : NeZero 5 := ⟨by decide⟩

/-! ### Page tables -/

/-- `page_table_info_t`: the frames of the four tables and of the data page. -/
structure PageTableInfo where
  pe1 : BitVec 64
  pe2 : BitVec 64
  pe3 : BitVec 64
  pe4 : BitVec 64
  pa : BitVec 64
  deriving DecidableEq, Repr

/-- The vector `all`, with the data frame at index zero. -/
def PageTableInfo.all (r : PageTableInfo) : Fin 5 → BitVec 64 :=
  ![r.pa, r.pe1, r.pe2, r.pe3, r.pe4]

/-- `page_table_t`, through its `find`. -/
abbrev PageTable := BitVec 64 → Option PageTableInfo

/-- The table after inserting records one by one; an insertion keeps the record
that is already there. -/
def PageTable.ofList (records : List (BitVec 64 × PageTableInfo)) : PageTable :=
  fun page => (records.find? fun r => r.1 == page).map Prod.snd

theorem PageTable.mem_of_ofList {records : List (BitVec 64 × PageTableInfo)} {page : BitVec 64}
    {r : PageTableInfo} (h : PageTable.ofList records page = some r) : (page, r) ∈ records := by
  simp only [ofList, Option.map_eq_some_iff] at h
  obtain ⟨⟨page', r'⟩, hfind, rfl⟩ := h
  have hpage : page' = page := by simpa using List.find?_some hfind
  exact hpage ▸ List.mem_of_find?_eq_some hfind

theorem PageTable.isSome_ofList {records : List (BitVec 64 × PageTableInfo)}
    {r : BitVec 64 × PageTableInfo} (h : r ∈ records) : (PageTable.ofList records r.1).isSome := by
  simp only [ofList, Option.isSome_map, List.find?_isSome]
  exact ⟨r, h, by simp⟩

theorem PageTable.ofList_of_mem {records : List (BitVec 64 × PageTableInfo)}
    (hkeys : records.Pairwise fun r r' => r.1 ≠ r'.1) {r : BitVec 64 × PageTableInfo}
    (h : r ∈ records) : PageTable.ofList records r.1 = some r.2 := by
  induction records with
  | nil => cases h
  | cons r' records ih =>
    obtain ⟨hfirst, hrest⟩ := List.pairwise_cons.mp hkeys
    rcases List.mem_cons.mp h with rfl | h
    · simp [ofList]
    · have hne : (r'.1 == r.1) = false := by simpa using hfirst r h
      simpa [ofList, hne] using ih hrest h

theorem PageTable.ofList_of_nodup {records : List (BitVec 64 × PageTableInfo)}
    (hkeys : (records.map Prod.fst).Nodup) {r : BitVec 64 × PageTableInfo} (hr : r ∈ records) :
    PageTable.ofList records r.1 = some r.2 :=
  PageTable.ofList_of_mem (List.pairwise_map.mp hkeys) hr

theorem PageTable.isSome_ofList_iff {records : List (BitVec 64 × PageTableInfo)}
    {key : BitVec 64} :
    (PageTable.ofList records key).isSome ↔ key ∈ records.map Prod.fst := by
  constructor
  · intro hsome
    obtain ⟨info, hinfo⟩ := Option.isSome_iff_exists.mp hsome
    exact List.mem_map.mpr ⟨(key, info), PageTable.mem_of_ofList hinfo, rfl⟩
  · intro hmem
    obtain ⟨r, hr, rfl⟩ := List.mem_map.mp hmem
    exact PageTable.isSome_ofList hr

/-- Without a repeated key the order of the records does not matter. -/
theorem PageTable.ofList_perm {records records' : List (BitVec 64 × PageTableInfo)}
    (hkeys : (records.map Prod.fst).Nodup) (hperm : records'.Perm records) :
    PageTable.ofList records' = PageTable.ofList records := by
  have hkeys' : (records'.map Prod.fst).Nodup := (hperm.map Prod.fst).nodup_iff.mpr hkeys
  funext key
  cases hfound : PageTable.ofList records key with
  | some info =>
    have hmem := hperm.mem_iff.mpr (PageTable.mem_of_ofList hfound)
    exact PageTable.ofList_of_nodup hkeys' hmem
  | none =>
    refine Option.not_isSome_iff_eq_none.mp fun hsome => ?_
    have hmem := (hperm.map Prod.fst).mem_iff.mp (PageTable.isSome_ofList_iff.mp hsome)
    rw [← PageTable.isSome_ofList_iff, hfound] at hmem
    cases hmem

theorem PageTable.ofList_concat (records : List (BitVec 64 × PageTableInfo))
    (r : BitVec 64 × PageTableInfo) (key : BitVec 64) :
    PageTable.ofList (records ++ [r]) key =
      (PageTable.ofList records key).or (if r.1 = key then some r.2 else none) := by
  unfold PageTable.ofList
  rw [List.find?_append, Option.map_or]
  by_cases hkey : r.1 = key <;> simp [hkey]

/-- `TRACE_TYPE`, whose four rows count from zero. -/
def traceTypeTable : Fin 4 → Fin 5 → TraceType :=
  ![![.pe1Pa, .pe1Pe1, .pe1Pe2, .pe1Pe3, .pe1Pe4],
    ![.pe2Pa, .pe2Pe1, .pe2Pe2, .pe2Pe3, .pe2Pe4],
    ![.pe3Pa, .pe3Pe1, .pe3Pe2, .pe3Pe3, .pe3Pe4],
    ![.pe4Pa, .pe4Pe1, .pe4Pe2, .pe4Pe3, .pe4Pe4]]

/-! ### The state of a walk -/

/-- The two sets of page-walk caches. -/
inductive PwcSide | guest | host
  deriving DecidableEq, Repr

/-- `gpw_caches` and `pw_caches`. -/
def PwcSide.dev : PwcSide → Fin 3 → DevId
  | .guest => .gpw
  | .host => .pw

/-- What a walk does, in order. A search remembers the state it started from. -/
inductive WalkEvent
  | search (side : PwcSide) (addr : BitVec 64) (before : Store DevId) (hitLevel : ℕ)
  | request (dev : DevId) (m : Memref) (res : CacheResult)

/-- The caches, `page_walk_res` and the ghost log. -/
structure WalkState where
  store : Store DevId
  pageWalkRes : List CacheResult := []
  log : List WalkEvent := []

namespace WalkState

/-- `page_walk_res.push_back`. -/
def push (w : WalkState) (r : CacheResult) : WalkState :=
  { w with pageWalkRes := w.pageWalkRes ++ [r] }

def note (w : WalkState) (e : WalkEvent) : WalkState := { w with log := w.log ++ [e] }

end WalkState

/-- What a walk reads and does not change. `beyondTraceType` stands for the memory
behind `TRACE_TYPE`, which the source reads as a fifth row. -/
structure Walker where
  H : Hierarchy DevId
  hostPageTable : PageTable
  beyondTraceType : Fin 5 → TraceType

namespace Walker

variable (W : Walker)

/-- The type `TRACE_TYPE[level_guest][col]`. -/
def traceType (levelGuest : ℕ) (col : Fin 5) : TraceType :=
  if h : levelGuest < 4 then traceTypeTable ⟨levelGuest, h⟩ col else W.beyondTraceType col

/-- A request on one cache, noted in the log. -/
def request (w : WalkState) (dev : DevId) (m : Memref) : CacheResult × WalkState :=
  let r := W.H.request w.store dev m
  (r.1, { w with store := r.2 }.note (.request dev m r.1))

/-- A one-byte reference; the source leaves the other fields unset. -/
def reference (type : TraceType) (addr : BitVec 64) : Memref :=
  { type, pid := 0, tid := 0, addr, size := 1 }

/-- The part of an address that selects an entry down to a level. -/
def levelPrefix (addr : BitVec 64) (level : ℕ) : BitVec 64 := addr >>> (12 + (4 - level) * 9)

/-- The index of an address into its table at a level. -/
def levelIndex (addr : BitVec 64) (level : ℕ) : BitVec 64 := levelPrefix addr level &&& 511

/-- `make_request`. -/
def makeRequest (core : ℕ) (w : WalkState) (type : TraceType) (baseAddr addrToFind : BitVec 64)
    (level : ℕ) : WalkState :=
  let r := W.request w (.l1d core) (reference type (baseAddr + 8 * levelIndex addrToFind level))
  r.2.push r.1

/-! ### Page-walk caches -/

/-- One turn of the search loop. The highest level found first is kept, and the
lower levels are still asked. -/
def pwcStep (side : PwcSide) (addr : BitVec 64) (acc : ℕ × WalkState) (i : Fin 3) :
    ℕ × WalkState :=
  let r := W.request acc.2 (side.dev i) (reference .read (levelPrefix addr (i.val + 1)))
  (if r.1 = .foundL1 ∧ acc.1 = 0 then i.val + 1 else acc.1, r.2)

/-- The search of the three page-walk caches, from the highest level down. -/
def pwcSearch (side : PwcSide) (addr : BitVec 64) (w : WalkState) : ℕ × WalkState :=
  let r := [2, 1, 0].foldl (W.pwcStep side addr) (0, w)
  (r.1, r.2.note (.search side addr w.store r.1))

/-! ### Walks -/

/-- One turn of the loop over the host levels. -/
def hostLevel (core : ℕ) (hostIt : PageTableInfo) (guestAddr : BitVec 64) (levelGuest : ℕ)
    (pwcHitLevel : ℕ) (w : WalkState) (levelHost : Fin 5) : WalkState :=
  if pwcHitLevel < levelHost.val then
    W.makeRequest core w (W.traceType levelGuest levelHost) (hostIt.all levelHost <<< 12)
      guestAddr levelHost.val
  else if pwcHitLevel = levelHost.val then w.push .pwc
  else w.push .zero

/-- `one_pw_at_host`. The last request gets its address through the base; zero is
passed as a stub. -/
def onePwAtHost (core : ℕ) (w : WalkState) (guestAddr pageOffsetInVpage : BitVec 64)
    (levelGuest : ℕ) : WalkState :=
  match W.hostPageTable ((guestAddr >>> 12) <<< 12) with
  | none => w
  | some hostIt =>
    let r := W.pwcSearch .host guestAddr w
    let w := [1, 2, 3, 4].foldl (W.hostLevel core hostIt guestAddr levelGuest r.1) r.2
    W.makeRequest core w (W.traceType levelGuest 0) ((hostIt.pa <<< 12) + pageOffsetInVpage) 0 1

/-- One turn of the loop over the guest levels. -/
def guestLevel (core : ℕ) (guestIt : PageTableInfo) (vaddr : BitVec 64) (gpwcHitLevel : ℕ)
    (w : WalkState) (levelGuest : Fin 5) : WalkState :=
  if gpwcHitLevel < levelGuest.val then
    W.onePwAtHost core w (guestIt.all levelGuest <<< 12) (8 * levelIndex vaddr levelGuest.val)
      levelGuest.val
  else if gpwcHitLevel = levelGuest.val then
    ((((w.push .zero).push .zero).push .zero).push .zero).push .pwc
  else
    ((((w.push .zero).push .zero).push .zero).push .zero).push .zero

/-- The handling of a TLB miss on the page `vaddr`, up to the histogram. `guestIt`
is the guest record of the page and `it` the host record of its data frame. -/
def tlbMiss (core : ℕ) (guestIt it : PageTableInfo) (vaddr pageOffset : BitVec 64)
    (w : WalkState) : WalkState :=
  let r := W.pwcSearch .guest vaddr { w with pageWalkRes := [] }
  let w := [1, 2, 3, 4].foldl (W.guestLevel core guestIt vaddr r.1) r.2
  let gpa := (guestIt.pa <<< 12) + pageOffset
  let w := W.makeRequest core w .paPe1 (it.pe1 <<< 12) gpa 1
  let w := W.makeRequest core w .paPe2 (it.pe2 <<< 12) gpa 2
  let w := W.makeRequest core w .paPe3 (it.pe3 <<< 12) gpa 3
  let w := W.makeRequest core w .paPe4 (it.pe4 <<< 12) gpa 4
  -- `range_found` is never set to false.
  w.push .rangeHit

end Walker

end SagePTE.Simulator
