import SagePTE.Simulator.ThreadCounts
import SagePTE.Simulator.WalkLength

/-!
# Indices and trace types of a walk

The levels of a walk count from one. The page-walk caches are indexed with the level less
one, and the vector `all` of a record has its data frame at index zero, so that both fit. The
rows of `TRACE_TYPE` count from zero, and are indexed with the guest level as it is: the
requests of the guest levels one to three have the types of the next level, and those of the
fourth level the values that lie behind the table.

A walk is described by what it evaluates and requests, in the order of the source. The
requests among it are those of the log.

## Main definitions

* `WalkAction` — an index that is evaluated, or a request
* `Walker.tlbMissActions` — the actions of a whole walk
* `WalkAction.Sound` — an index in bounds, a request with the type of its levels

## Main results

* `Walker.requests_tlbMiss` — the requests of the log
* `Walker.tlbMissActions_sound_iff` — the walks whose actions are sound
* `walk_sound_iff` — the walks of a run
-/

set_option autoImplicit false

namespace SagePTE.Simulator

/-! ### Actions -/

/-- The arrays that a walk indexes, with both indices of `TRACE_TYPE`. -/
inductive WalkArray
  | gpwCaches | pwCaches | l1Dcaches | all | traceTypeRow | traceTypeColumn
  deriving DecidableEq, Repr

/-- The number of the elements. -/
def WalkArray.length (numCores : ℕ) : WalkArray → ℕ
  | .gpwCaches | .pwCaches => 3
  | .l1Dcaches => numCores
  | .all | .traceTypeColumn => 5
  | .traceTypeRow => 4

/-- The page-walk caches of one side. -/
def PwcSide.caches : PwcSide → WalkArray
  | .guest => .gpwCaches
  | .host => .pwCaches

/-- A walk evaluates an index, or makes a request. A request is given with the type that names
its own levels. -/
inductive WalkAction
  | index (array : WalkArray) (i : ℕ)
  | request (own : TraceType) (dev : DevId) (m : Memref)
  deriving DecidableEq

/-- The index is in bounds, and the request has its own type. -/
def WalkAction.Sound (numCores : ℕ) : WalkAction → Prop
  | .index array i => i < array.length numCores
  | .request own _ m => m.type = own

/-- The index is in bounds, if it is no row of `TRACE_TYPE`. -/
def WalkAction.Fits (numCores : ℕ) : WalkAction → Prop
  | .index array i => array ≠ .traceTypeRow → i < array.length numCores
  | .request .. => True

instance (numCores : ℕ) : DecidablePred (WalkAction.Sound numCores)
  | .index _ _ => Nat.decLt _ _
  | .request _ _ _ => instDecidableEqTraceType _ _

/-- `PE<g>_PE<h>`, and `PE<g>_PA` for host level zero. -/
def ownType (levelGuest : ℕ) (levelHost : Fin 5) : TraceType :=
  match levelGuest with
  | 1 => ![.pe1Pa, .pe1Pe1, .pe1Pe2, .pe1Pe3, .pe1Pe4] levelHost
  | 2 => ![.pe2Pa, .pe2Pe1, .pe2Pe2, .pe2Pe3, .pe2Pe4] levelHost
  | 3 => ![.pe3Pa, .pe3Pe1, .pe3Pe2, .pe3Pe3, .pe3Pe4] levelHost
  | _ => ![.pe4Pa, .pe4Pe1, .pe4Pe2, .pe4Pe3, .pe4Pe4] levelHost

namespace Walker

variable (W : Walker)

/-- The search of the page-walk caches of one side. -/
def pwcActions (side : PwcSide) (addr : BitVec 64) : List WalkAction :=
  [2, 1, 0].flatMap fun i : Fin 3 =>
    [.index side.caches i.val,
      .request .read (side.dev i) (reference .read (levelPrefix addr (i.val + 1)))]

/-- `make_request`. -/
def requestActions (own : TraceType) (core : ℕ) (type : TraceType)
    (baseAddr addrToFind : BitVec 64) (level : ℕ) : List WalkAction :=
  [.index .l1Dcaches core,
    .request own (.l1d core) (reference type (baseAddr + 8 * levelIndex addrToFind level))]

/-- One turn of the loop over the host levels. The pointer is checked before it is followed. -/
def hostLevelActions (core : ℕ) (hostIt : PageTableInfo) (guestAddr : BitVec 64)
    (levelGuest pwcHitLevel : ℕ) (levelHost : Fin 5) : List WalkAction :=
  if pwcHitLevel < levelHost.val then
    [.index .all levelHost.val, .index .traceTypeRow levelGuest,
        .index .traceTypeColumn levelHost.val, .index .all levelHost.val] ++
      requestActions (ownType levelGuest levelHost) core (W.traceType levelGuest levelHost)
        (hostIt.all levelHost <<< 12) guestAddr levelHost.val
  else []

/-- `one_pw_at_host`, with its three checks of each pointer. -/
def onePwAtHostActions (core : ℕ) (w : WalkState) (guestAddr pageOffsetInVpage : BitVec 64)
    (levelGuest : ℕ) : List WalkAction :=
  match W.hostPageTable ((guestAddr >>> 12) <<< 12) with
  | none => []
  | some hostIt =>
    [1, 2, 3, 4].flatMap (fun level => List.replicate 3 (.index .all level)) ++
      pwcActions .host guestAddr ++
      [1, 2, 3, 4].flatMap (W.hostLevelActions core hostIt guestAddr levelGuest
        (W.pwcSearch .host guestAddr w).1) ++
      [.index .traceTypeRow levelGuest, .index .traceTypeColumn 0] ++
      requestActions (ownType levelGuest 0) core (W.traceType levelGuest 0)
        ((hostIt.pa <<< 12) + pageOffsetInVpage) 0 1

/-- One turn of the loop over the guest levels. -/
def guestLevelActions (core : ℕ) (guestIt : PageTableInfo) (vaddr : BitVec 64)
    (gpwcHitLevel : ℕ) (w : WalkState) (levelGuest : Fin 5) : List WalkAction :=
  if gpwcHitLevel < levelGuest.val then
    .index .all levelGuest.val :: W.onePwAtHostActions core w (guestIt.all levelGuest <<< 12)
      (8 * levelIndex vaddr levelGuest.val) levelGuest.val
  else []

/-- The loop over the guest levels. -/
def guestLevelsActions (core : ℕ) (guestIt : PageTableInfo) (vaddr : BitVec 64)
    (gpwcHitLevel : ℕ) : WalkState → List (Fin 5) → List WalkAction
  | _, [] => []
  | w, level :: levels =>
    W.guestLevelActions core guestIt vaddr gpwcHitLevel w level ++
      guestLevelsActions core guestIt vaddr gpwcHitLevel
        (W.guestLevel core guestIt vaddr gpwcHitLevel w level) levels

/-- The walk on a TLB miss. -/
def tlbMissActions (core : ℕ) (guestIt it : PageTableInfo) (vaddr pageOffset : BitVec 64)
    (w : WalkState) : List WalkAction :=
  let r := W.pwcSearch .guest vaddr { w with pageWalkRes := [] }
  let gpa := (guestIt.pa <<< 12) + pageOffset
  pwcActions .guest vaddr ++ W.guestLevelsActions core guestIt vaddr r.1 r.2 [1, 2, 3, 4] ++
    requestActions .paPe1 core .paPe1 (it.pe1 <<< 12) gpa 1 ++
    requestActions .paPe2 core .paPe2 (it.pe2 <<< 12) gpa 2 ++
    requestActions .paPe3 core .paPe3 (it.pe3 <<< 12) gpa 3 ++
    requestActions .paPe4 core .paPe4 (it.pe4 <<< 12) gpa 4

end Walker

/-! ### The requests of the log -/

/-- The requests of a log. -/
def loggedRequests (es : List WalkEvent) : List (DevId × Memref) :=
  es.filterMap fun e => match e with
    | .request dev m _ => some (dev, m)
    | .search .. => none

/-- The requests among the actions. -/
def actionRequests (actions : List WalkAction) : List (DevId × Memref) :=
  actions.filterMap fun a => match a with
    | .request _ dev m => some (dev, m)
    | .index .. => none

@[simp] theorem loggedRequests_append (es es' : List WalkEvent) :
    loggedRequests (es ++ es') = loggedRequests es ++ loggedRequests es' := by
  simp [loggedRequests]

@[simp] theorem actionRequests_append (as as' : List WalkAction) :
    actionRequests (as ++ as') = actionRequests as ++ actionRequests as' := by
  simp [actionRequests]

namespace Walker

variable (W : Walker)

theorem requests_makeRequest (core : ℕ) (w : WalkState) (own type : TraceType)
    (baseAddr addrToFind : BitVec 64) (level : ℕ) :
    loggedRequests (W.makeRequest core w type baseAddr addrToFind level).log =
      loggedRequests w.log ++
        actionRequests (requestActions own core type baseAddr addrToFind level) :=
  loggedRequests_append w.log [_]

theorem requests_pwcSearch (side : PwcSide) (addr : BitVec 64) (w : WalkState) :
    loggedRequests (W.pwcSearch side addr w).2.log =
      loggedRequests w.log ++ actionRequests (pwcActions side addr) := by
  simp only [pwcSearch, List.foldl_cons, List.foldl_nil, pwcStep, request, WalkState.note,
    loggedRequests_append, List.append_assoc]
  rfl

theorem requests_hostLevel (core : ℕ) (hostIt : PageTableInfo) (guestAddr : BitVec 64)
    (levelGuest m : ℕ) (w : WalkState) (level : Fin 5) :
    loggedRequests (W.hostLevel core hostIt guestAddr levelGuest m w level).log =
      loggedRequests w.log ++
        actionRequests (W.hostLevelActions core hostIt guestAddr levelGuest m level) := by
  unfold hostLevel hostLevelActions
  split_ifs with hlt heq
  · rw [W.requests_makeRequest core w (ownType levelGuest level), actionRequests_append]
    rfl
  · exact (List.append_nil _).symm
  · exact (List.append_nil _).symm

theorem requests_hostLevels (core : ℕ) (hostIt : PageTableInfo) (guestAddr : BitVec 64)
    (levelGuest m : ℕ) (levels : List (Fin 5)) (w : WalkState) :
    loggedRequests (levels.foldl (W.hostLevel core hostIt guestAddr levelGuest m) w).log =
      loggedRequests w.log ++ actionRequests
        (levels.flatMap (W.hostLevelActions core hostIt guestAddr levelGuest m)) := by
  induction levels generalizing w with
  | nil => exact (List.append_nil _).symm
  | cons level levels ih =>
    rw [List.foldl_cons, ih, requests_hostLevel, List.flatMap_cons, actionRequests_append,
      List.append_assoc]

theorem requests_onePwAtHost (core : ℕ) (w : WalkState) (guestAddr offset : BitVec 64)
    (levelGuest : ℕ) :
    loggedRequests (W.onePwAtHost core w guestAddr offset levelGuest).log =
      loggedRequests w.log ++
        actionRequests (W.onePwAtHostActions core w guestAddr offset levelGuest) := by
  unfold onePwAtHost onePwAtHostActions
  cases W.hostPageTable ((guestAddr >>> 12) <<< 12) with
  | none => exact (List.append_nil _).symm
  | some hostIt =>
    simp only [W.requests_makeRequest core _ (ownType levelGuest 0), requests_hostLevels,
      requests_pwcSearch, actionRequests_append, List.append_assoc]
    rfl

theorem requests_guestLevel (core : ℕ) (guestIt : PageTableInfo) (vaddr : BitVec 64) (k : ℕ)
    (w : WalkState) (level : Fin 5) :
    loggedRequests (W.guestLevel core guestIt vaddr k w level).log =
      loggedRequests w.log ++
        actionRequests (W.guestLevelActions core guestIt vaddr k w level) := by
  unfold guestLevel guestLevelActions
  split_ifs with hlt heq
  · exact W.requests_onePwAtHost core w _ _ _
  · exact (List.append_nil _).symm
  · exact (List.append_nil _).symm

theorem requests_guestLevels (core : ℕ) (guestIt : PageTableInfo) (vaddr : BitVec 64) (k : ℕ)
    (levels : List (Fin 5)) (w : WalkState) :
    loggedRequests (levels.foldl (W.guestLevel core guestIt vaddr k) w).log =
      loggedRequests w.log ++
        actionRequests (W.guestLevelsActions core guestIt vaddr k w levels) := by
  induction levels generalizing w with
  | nil => exact (List.append_nil _).symm
  | cons level levels ih =>
    rw [List.foldl_cons, ih, requests_guestLevel, guestLevelsActions, actionRequests_append,
      List.append_assoc]

/-- The requests that a walk logs are those among its actions. -/
theorem requests_tlbMiss (core : ℕ) (guestIt it : PageTableInfo) (vaddr pageOffset : BitVec 64)
    (w : WalkState) :
    loggedRequests (W.tlbMiss core guestIt it vaddr pageOffset w).log =
      loggedRequests w.log ++
        actionRequests (W.tlbMissActions core guestIt it vaddr pageOffset w) := by
  simp only [tlbMiss, tlbMissActions, WalkState.push, actionRequests_append]
  rw [W.requests_makeRequest core _ .paPe4, W.requests_makeRequest core _ .paPe3,
    W.requests_makeRequest core _ .paPe2, W.requests_makeRequest core _ .paPe1,
    requests_guestLevels, requests_pwcSearch]
  simp only [List.append_assoc]

end Walker

/-! ### Sound actions -/

/-- A row of the table has the types of the guest level after it. -/
theorem Walker.traceType_eq_ownType (W : Walker) {levelGuest : ℕ} (h : levelGuest < 4)
    (levelHost : Fin 5) :
    W.traceType levelGuest levelHost = ownType (levelGuest + 1) levelHost := by
  rw [Walker.traceType, dif_pos h]
  have hcases : levelGuest = 0 ∨ levelGuest = 1 ∨ levelGuest = 2 ∨ levelGuest = 3 := by omega
  rcases hcases with rfl | rfl | rfl | rfl <;> rfl

theorem ownType_succ_ne {levelGuest : ℕ} (h1 : 1 ≤ levelGuest) (h : levelGuest < 4)
    (levelHost : Fin 5) : ownType (levelGuest + 1) levelHost ≠ ownType levelGuest levelHost := by
  revert levelHost
  have hcases : levelGuest = 1 ∨ levelGuest = 2 ∨ levelGuest = 3 := by omega
  rcases hcases with rfl | rfl | rfl <;> decide

namespace Walker

variable (W : Walker) {n : ℕ}

theorem sound_pwcActions (side : PwcSide) (addr : BitVec 64) :
    ∀ a ∈ pwcActions side addr, a.Sound n := by
  intro a ha
  simp only [pwcActions, List.mem_flatMap, List.mem_cons, List.not_mem_nil, or_false] at ha
  obtain ⟨i, -, rfl | rfl⟩ := ha
  · cases side <;> exact i.isLt
  · rfl

theorem sound_requestActions_iff (own : TraceType) (core : ℕ) (type : TraceType)
    (baseAddr addrToFind : BitVec 64) (level : ℕ) :
    (∀ a ∈ requestActions own core type baseAddr addrToFind level, a.Sound n) ↔
      core < n ∧ type = own := by
  simp [requestActions, WalkAction.Sound, WalkArray.length, reference]

/-- A host walk is sound only if it is not made. -/
theorem sound_onePwAtHostActions_iff (core : ℕ) (w : WalkState) (guestAddr offset : BitVec 64)
    {levelGuest : ℕ} (hlevel : 1 ≤ levelGuest ∧ levelGuest ≤ 4) :
    (∀ a ∈ W.onePwAtHostActions core w guestAddr offset levelGuest, a.Sound n) ↔
      W.hostPageTable ((guestAddr >>> 12) <<< 12) = none := by
  unfold onePwAtHostActions
  cases W.hostPageTable ((guestAddr >>> 12) <<< 12) with
  | none => simp
  | some hostIt =>
    simp only [List.forall_mem_append, sound_requestActions_iff, reduceCtorEq, iff_false]
    rintro ⟨⟨-, hindices⟩, -, htype⟩
    -- the last request has a wrong type, or its row is not there
    have hrow : levelGuest < 4 := hindices (.index .traceTypeRow levelGuest) (by simp)
    rw [W.traceType_eq_ownType hrow] at htype
    exact ownType_succ_ne hlevel.1 hrow 0 htype

theorem sound_guestLevelActions_iff (core : ℕ) (guestIt : PageTableInfo) (vaddr : BitVec 64)
    (k : ℕ) (w : WalkState) (level : Fin 5) :
    (∀ a ∈ W.guestLevelActions core guestIt vaddr k w level, a.Sound n) ↔
      (k < level.val → W.hostPageTable (guestIt.all level <<< 12) = none) := by
  unfold guestLevelActions
  by_cases hlt : k < level.val
  · have hpos : 1 ≤ level.val ∧ level.val ≤ 4 := by omega
    have hall : (WalkAction.index .all level.val).Sound n := level.isLt
    rw [if_pos hlt, List.forall_mem_cons, W.sound_onePwAtHostActions_iff core w _ _ hpos,
      shiftLeft_shiftRight_shiftLeft]
    exact ⟨fun h _ => h.2, fun h => ⟨hall, h hlt⟩⟩
  · rw [if_neg hlt]
    exact ⟨fun _ h => absurd h hlt, fun _ a ha => absurd ha List.not_mem_nil⟩

theorem sound_guestLevelsActions_iff (core : ℕ) (guestIt : PageTableInfo) (vaddr : BitVec 64)
    (k : ℕ) (levels : List (Fin 5)) (w : WalkState) :
    (∀ a ∈ W.guestLevelsActions core guestIt vaddr k w levels, a.Sound n) ↔
      ∀ level ∈ levels, k < level.val → W.hostPageTable (guestIt.all level <<< 12) = none := by
  induction levels generalizing w with
  | nil => simp [guestLevelsActions]
  | cons level levels ih =>
    rw [guestLevelsActions, List.forall_mem_append, sound_guestLevelActions_iff, ih,
      List.forall_mem_cons]

theorem mem_levelsAbove {k : ℕ} {level : Fin 5} :
    level ∈ levelsAbove k ↔ level ∈ [1, 2, 3, 4] ∧ k < level.val := by
  rw [levelsAbove, List.mem_filter, decide_eq_true_eq]

/-- The actions of a walk are sound exactly if its core is one of the cores and it makes no
walk of the host table for a guest table. -/
theorem tlbMissActions_sound_iff (core : ℕ) (guestIt it : PageTableInfo)
    (vaddr pageOffset : BitVec 64) (w : WalkState) :
    (∀ a ∈ W.tlbMissActions core guestIt it vaddr pageOffset w, a.Sound n) ↔
      core < n ∧ ∀ level ∈ levelsAbove (W.guestHitLevel vaddr w),
        W.hostPageTable (guestIt.all level <<< 12) = none := by
  simp only [tlbMissActions, List.forall_mem_append, sound_requestActions_iff, and_true,
    sound_guestLevelsActions_iff, mem_levelsAbove, and_imp, guestHitLevel]
  constructor
  · rintro ⟨⟨⟨⟨⟨-, hnone⟩, hcore⟩, -⟩, -⟩, -⟩
    exact ⟨hcore, hnone⟩
  · rintro ⟨hcore, hnone⟩
    exact ⟨⟨⟨⟨⟨sound_pwcActions _ _, hnone⟩, hcore⟩, hcore⟩, hcore⟩, hcore⟩

/-! ### The rows of the table -/

theorem row_of_mem_hostLevelActions {core : ℕ} {hostIt : PageTableInfo} {guestAddr : BitVec 64}
    {levelGuest m i : ℕ} {level : Fin 5}
    (h : .index .traceTypeRow i ∈ W.hostLevelActions core hostIt guestAddr levelGuest m level) :
    i = levelGuest := by
  unfold hostLevelActions at h
  split_ifs at h
  · simpa [requestActions] using h
  · cases h

/-- A host walk evaluates the row of its guest level. -/
theorem row_mem_onePwAtHostActions_iff (core : ℕ) (w : WalkState) (guestAddr offset : BitVec 64)
    (levelGuest i : ℕ) :
    .index .traceTypeRow i ∈ W.onePwAtHostActions core w guestAddr offset levelGuest ↔
      (W.hostPageTable ((guestAddr >>> 12) <<< 12)).isSome ∧ i = levelGuest := by
  unfold onePwAtHostActions
  cases W.hostPageTable ((guestAddr >>> 12) <<< 12) with
  | none => simp
  | some hostIt =>
    constructor
    · intro h
      simp only [List.mem_append, or_assoc] at h
      rcases h with h | h | h | h | h
      · simp at h
      · simp [pwcActions, PwcSide.caches] at h
      · obtain ⟨level, -, h⟩ := List.mem_flatMap.1 h
        exact ⟨rfl, W.row_of_mem_hostLevelActions h⟩
      · exact ⟨rfl, by simpa using h⟩
      · simp [requestActions] at h
    · rintro ⟨-, rfl⟩
      simp

theorem row_mem_guestLevelActions_iff (core : ℕ) (guestIt : PageTableInfo) (vaddr : BitVec 64)
    (k : ℕ) (w : WalkState) (level : Fin 5) (i : ℕ) :
    .index .traceTypeRow i ∈ W.guestLevelActions core guestIt vaddr k w level ↔
      k < level.val ∧ (W.hostPageTable (guestIt.all level <<< 12)).isSome ∧ i = level.val := by
  unfold guestLevelActions
  split_ifs with hlt
  · simp [row_mem_onePwAtHostActions_iff, shiftLeft_shiftRight_shiftLeft, hlt]
  · simp [hlt]

theorem row_mem_guestLevelsActions_iff (core : ℕ) (guestIt : PageTableInfo) (vaddr : BitVec 64)
    (k : ℕ) (levels : List (Fin 5)) (w : WalkState) (i : ℕ) :
    .index .traceTypeRow i ∈ W.guestLevelsActions core guestIt vaddr k w levels ↔
      ∃ level ∈ levels,
        k < level.val ∧ (W.hostPageTable (guestIt.all level <<< 12)).isSome ∧ i = level.val := by
  induction levels generalizing w with
  | nil => simp [guestLevelsActions]
  | cons level levels ih =>
    rw [guestLevelsActions, List.mem_append, row_mem_guestLevelActions_iff, ih]
    simp only [List.mem_cons, exists_eq_or_imp]

/-- The rows of `TRACE_TYPE` that a walk evaluates are the guest levels that it makes a host
walk for. -/
theorem row_mem_tlbMissActions_iff (core : ℕ) (guestIt it : PageTableInfo)
    (vaddr pageOffset : BitVec 64) (w : WalkState) (i : ℕ) :
    .index .traceTypeRow i ∈ W.tlbMissActions core guestIt it vaddr pageOffset w ↔
      ∃ level ∈ levelsAbove (W.guestHitLevel vaddr w),
        (W.hostPageTable (guestIt.all level <<< 12)).isSome ∧ i = level.val := by
  have hrequest (own type : TraceType) (base gpa : BitVec 64) (level : ℕ) :
      .index .traceTypeRow i ∉ requestActions own core type base gpa level := by
    simp [requestActions]
  have hsearch : .index .traceTypeRow i ∉ pwcActions .guest vaddr := by
    simp [pwcActions, PwcSide.caches]
  simp only [tlbMissActions, List.mem_append, hrequest, hsearch, or_false, false_or,
    row_mem_guestLevelsActions_iff, mem_levelsAbove, guestHitLevel, and_assoc]

/-! ### The other indices -/

theorem fits_of_sound {a : WalkAction} (h : a.Sound n) : a.Fits n := by
  cases a with
  | index array i => exact fun _ => h
  | request own dev m => trivial

variable {core : ℕ} (hcore : core < n)

include hcore

theorem fits_requestActions (own type : TraceType) (baseAddr addrToFind : BitVec 64)
    (level : ℕ) : ∀ a ∈ requestActions own core type baseAddr addrToFind level, a.Fits n := by
  intro a ha
  simp only [requestActions, List.mem_cons, List.not_mem_nil, or_false] at ha
  obtain rfl | rfl := ha
  · exact fun _ => hcore
  · trivial

theorem fits_hostLevelActions (hostIt : PageTableInfo) (guestAddr : BitVec 64)
    (levelGuest m : ℕ) (level : Fin 5) :
    ∀ a ∈ W.hostLevelActions core hostIt guestAddr levelGuest m level, a.Fits n := by
  intro a ha
  unfold hostLevelActions at ha
  split_ifs at ha
  · rcases List.mem_append.1 ha with ha | ha
    · simp only [List.mem_cons, List.not_mem_nil, or_false] at ha
      obtain rfl | rfl | rfl | rfl := ha
      · exact fun _ => level.isLt
      · exact fun h => absurd rfl h
      · exact fun _ => level.isLt
      · exact fun _ => level.isLt
    · exact fits_requestActions hcore _ _ _ _ _ a ha
  · cases ha

theorem fits_onePwAtHostActions (w : WalkState) (guestAddr offset : BitVec 64)
    (levelGuest : ℕ) :
    ∀ a ∈ W.onePwAtHostActions core w guestAddr offset levelGuest, a.Fits n := by
  intro a ha
  unfold onePwAtHostActions at ha
  split at ha
  · cases ha
  next hostIt _ =>
  simp only [List.mem_append, or_assoc] at ha
  rcases ha with ha | ha | ha | ha | ha
  · have hcheck : ∀ level ∈ [1, 2, 3, 4], level < 5 := by decide
    obtain ⟨level, hlevel, ha⟩ := List.mem_flatMap.1 ha
    obtain rfl := List.eq_of_mem_replicate ha
    exact fun _ => hcheck level hlevel
  · exact fits_of_sound (sound_pwcActions _ _ a ha)
  · obtain ⟨level, -, ha⟩ := List.mem_flatMap.1 ha
    exact W.fits_hostLevelActions hcore _ _ _ _ _ a ha
  · simp only [List.mem_cons, List.not_mem_nil, or_false] at ha
    obtain rfl | rfl := ha
    · exact fun h => absurd rfl h
    · exact fun _ => Nat.succ_pos 4
  · exact fits_requestActions hcore _ _ _ _ _ a ha

theorem fits_guestLevelsActions (guestIt : PageTableInfo) (vaddr : BitVec 64) (k : ℕ)
    (levels : List (Fin 5)) (w : WalkState) :
    ∀ a ∈ W.guestLevelsActions core guestIt vaddr k w levels, a.Fits n := by
  induction levels generalizing w with
  | nil => exact fun a ha => absurd ha List.not_mem_nil
  | cons level levels ih =>
    rw [guestLevelsActions, List.forall_mem_append]
    refine ⟨fun a ha => ?_, ih _⟩
    unfold guestLevelActions at ha
    split_ifs at ha
    · rcases List.mem_cons.1 ha with rfl | ha
      · exact fun _ => level.isLt
      · exact W.fits_onePwAtHostActions hcore _ _ _ _ a ha
    · cases ha

/-- All indices of a walk other than the rows of `TRACE_TYPE` are in bounds. -/
theorem fits_tlbMissActions (guestIt it : PageTableInfo) (vaddr pageOffset : BitVec 64)
    (w : WalkState) : ∀ a ∈ W.tlbMissActions core guestIt it vaddr pageOffset w, a.Fits n := by
  have hrequest := @fits_requestActions n core hcore
  have hlevels := W.fits_guestLevelsActions hcore
  simp only [tlbMissActions, List.forall_mem_append]
  exact ⟨⟨⟨⟨⟨fun a ha => fits_of_sound (sound_pwcActions _ _ a ha), hlevels _ _ _ _ _⟩,
    hrequest _ _ _ _ _⟩, hrequest _ _ _ _ _⟩, hrequest _ _ _ _ _⟩, hrequest _ _ _ _ _⟩

end Walker

/-! ### The walks of a run -/

open SimState

/-- The cores of a run are below the number of cores. -/
theorem core_lt_of_mem_steps {C : SimConfig} (hcores : 1 ≤ C.sched.numCores)
    {trace : List Memref} {s : SimState × Memref} (hs : s ∈ C.steps trace) {core : ℕ}
    {σ₁ : SimState} (hsched : s.1.scheduleRef C s.2 = .ok (core, σ₁)) :
    core < C.sched.numCores := by
  have hlt : s.1.sched.CoresLt C.sched :=
    C.sched_of_mem_steps (.initial hcores) (fun s _ h => h.processMarker hcores s.2)
      (fun _ tid h => (h.coreFor hcores tid).1) (fun _ tid h => h.handleThreadExit tid) s hs
  obtain ⟨-, -, -, -, rfl, -⟩ := scheduleRef_eq_ok_iff.mp hsched
  exact (hlt.coreFor hcores _).2

/-- The actions of the walk that a record makes, if it makes one. -/
def SimState.walkActions (C : SimConfig) (σ : SimState) (m : Memref) : List WalkAction :=
  match σ.scheduleRef C m with
  | .error _ => []
  | .ok (core, σ₁) => (C.translations m).elim [] fun p =>
    if (σ₁.tlbLookup C m).1 then []
    else C.walker.tlbMissActions core p.1 p.2 (virtualPage m) (pageOffset m) σ₁.walk

/-- **Indices and types of walks.** A record of a run misses the TLBs and walks. All its
indices are in bounds and all its requests have the types of their own levels exactly if there
is a core, and the host maps no guest table above the hit level of the guest search. The rows
of `TRACE_TYPE` that it evaluates are the levels of the tables that the host maps, up to four.
All indices that are no rows are in bounds. -/
theorem walk_sound_iff {C : SimConfig} {trace : List Memref} {s : SimState × Memref}
    (hs : s ∈ C.steps trace) {core : ℕ} {σ₁ : SimState} {p : PageTableInfo × PageTableInfo}
    (hsched : s.1.scheduleRef C s.2 = .ok (core, σ₁)) (htrans : C.translations s.2 = some p)
    (hmiss : (σ₁.tlbLookup C s.2).1 = false) :
    let actions : List WalkAction := s.1.walkActions C s.2
    let levels := levelsAbove (C.walker.guestHitLevel (virtualPage s.2) σ₁.walk)
    (∃ σ₂, σ₁.translate C core s.2 = .ok (newMemref p.2 s.2, σ₂) ∧
        loggedRequests σ₂.walk.log = loggedRequests σ₁.walk.log ++ actionRequests actions) ∧
      ((∀ a ∈ actions, a.Sound C.sched.numCores) ↔ 1 ≤ C.sched.numCores ∧
        ∀ level ∈ levels, C.hostPageTable (p.1.all level <<< 12) = none) ∧
      (∀ i, .index .traceTypeRow i ∈ actions ↔ ∃ level ∈ levels,
        (C.hostPageTable (p.1.all level <<< 12)).isSome ∧ i = level.val) ∧
      (1 ≤ C.sched.numCores → ∀ a ∈ actions, a.Fits C.sched.numCores) := by
  intro actions levels
  have hactions : actions =
      C.walker.tlbMissActions core p.1 p.2 (virtualPage s.2) (pageOffset s.2) σ₁.walk := by
    simp only [actions, walkActions, hsched, htrans, hmiss]
    rfl
  have hwalk : (σ₁.translated C core p s.2).walk =
      C.walker.tlbMiss core p.1 p.2 (virtualPage s.2) (pageOffset s.2) σ₁.walk := by
    simp only [translated, hmiss]
    rfl
  have hcore : core < C.sched.numCores ↔ 1 ≤ C.sched.numCores :=
    ⟨fun h => Nat.one_le_of_lt h, fun h => core_lt_of_mem_steps h hs hsched⟩
  rw [hactions]
  refine ⟨⟨σ₁.translated C core p s.2, ?_, ?_⟩, ?_, ?_, ?_⟩
  · rw [translate_eq, htrans]
  · rw [hwalk]
    exact C.walker.requests_tlbMiss core p.1 p.2 _ _ σ₁.walk
  · rw [← hcore]
    exact C.walker.tlbMissActions_sound_iff core p.1 p.2 _ _ σ₁.walk
  · exact C.walker.row_mem_tlbMissActions_iff core p.1 p.2 _ _ σ₁.walk
  · intro hcores
    exact C.walker.fits_tlbMissActions (hcore.2 hcores) p.1 p.2 _ _ σ₁.walk

/-- A host that maps the data frame, and no table of the guest. -/
def dataOnlyConfig : SimConfig :=
  { sampleConfig [0x7000] with
    hostPageTable := .ofList [(0x5000, ⟨0x11, 0x12, 0x13, 0x14, 0x15⟩)] }

/-- A walk over guest tables that the host does not map. -/
theorem walk_sound_without_tables :
    (dataOnlyConfig.initial.walkActions dataOnlyConfig (readAt 0x7010)).length = 18 ∧
      ∀ a ∈ dataOnlyConfig.initial.walkActions dataOnlyConfig (readAt 0x7010), a.Sound 4 := by
  have hwalks : ((dataOnlyConfig.initial.scheduleRef dataOnlyConfig (readAt 0x7010)).toOption.map
      fun r => (r.2.tlbLookup dataOnlyConfig (readAt 0x7010)).1) = some false := by
    decide +kernel
  refine ⟨by decide +kernel, ?_⟩
  cases hsched : dataOnlyConfig.initial.scheduleRef dataOnlyConfig (readAt 0x7010) with
  | error r =>
    rw [hsched] at hwalks
    cases hwalks
  | ok r =>
    rw [hsched] at hwalks
    have hs : (dataOnlyConfig.initial, readAt 0x7010) ∈ dataOnlyConfig.steps [readAt 0x7010] :=
      List.mem_cons_self
    obtain ⟨-, hsound, -⟩ := walk_sound_iff hs hsched
      (p := (⟨1, 2, 3, 4, 5⟩, ⟨0x11, 0x12, 0x13, 0x14, 0x15⟩)) (by decide)
      (Option.some.inj hwalks)
    refine hsound.2 ⟨by decide, fun level hlevel => ?_⟩
    have hnone : ∀ level ∈ ([1, 2, 3, 4] : List (Fin 5)), dataOnlyConfig.hostPageTable
        ((⟨1, 2, 3, 4, 5⟩ : PageTableInfo).all level <<< 12) = none := by decide
    exact hnone level (Walker.mem_levelsAbove.1 hlevel).1

/-- The first read of a page evaluates a fifth row of `TRACE_TYPE`, and fetches the entry of
the first guest level with the type of the second one. -/
theorem walk_beyond_traceType :
    let C := sampleConfig [0x7000]
    ∃ s ∈ C.steps [readAt 0x7010],
      .index .traceTypeRow 4 ∈ s.1.walkActions C s.2 ∧
        ¬ (WalkAction.index .traceTypeRow 4).Sound C.sched.numCores ∧
        .request .pe1Pa (.l1d 0) (Walker.reference .pe2Pa 0x15000) ∈ s.1.walkActions C s.2 := by
  decide +kernel

end SagePTE.Simulator
