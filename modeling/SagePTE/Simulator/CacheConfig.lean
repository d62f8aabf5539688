import Mathlib.Data.String.Basic
import SagePTE.Lib.Chains
import SagePTE.Lib.Fallible
import SagePTE.Simulator.Knobs

/-!
# The check of a cache configuration

A configuration file names the caches and gives the name of its parent for each of them.
`check_cache_config` goes through the caches in the order of their names. It counts the caches
of the cores, looks for the parent, and follows the parents up to the memory to make sure that
the cache is not above itself.

The walk up looks for its first cache only. If it comes to a cycle that this cache is not on,
it never ends. A parent that does not exist is reported for the cache itself, but is not
expected further up, where the source reads through the end of the map.

## Main definitions

* `CacheParams`, `CacheMap` — the parameters of the caches, by name
* `checkCacheConfig` — the check, with a bound on the turns of the walk
* `CacheMap.WellFormed` — the configurations that are meant

## Main results

* `checkCacheConfig_eq_ok_iff` — the check accepts the well-formed configurations
* `checkCacheConfig_running_iff` — the configurations on which it does not end
* `exists_checkCacheConfig_undefined_iff` — those on which it reads through the end of the map
-/

set_option autoImplicit false

namespace SagePTE.Simulator

open Relation Fallible

/-! ### Parameters -/

/-- `CACHE_TYPE_INSTRUCTION`, `CACHE_TYPE_DATA` and `CACHE_TYPE_UNIFIED`. -/
inductive CacheType | instruction | data | unified
  deriving DecidableEq, Repr

/-- `CACHE_PARENT_MEMORY`. -/
def parentMemory : String := "memory"

/-- `cache_params_t`, with its defaults. The children are found by the check. -/
structure CacheParams where
  type : CacheType := .unified
  core : ℤ := -1
  size : ℕ := 0
  assoc : ℕ := 0
  inclusive : Bool := false
  parent : String := parentMemory
  replacePolicy : ReplacePolicy := .lru
  nextline : Bool := false
  deriving DecidableEq, Repr

/-- `std::map<std::string, cache_params_t>`, in the order of the names. -/
structure CacheMap where
  entries : List (String × CacheParams)
  sorted : (entries.map Prod.fst).Pairwise (· < ·)

namespace CacheMap

variable (m : CacheMap)

def find (name : String) : Option CacheParams := m.entries.lookup name

end CacheMap

/-! ### The check -/

/-- What the check has to say about a configuration. -/
inductive ConfigError
  | noSuchCore (name : String) (core : ℤ)
  | incompatibleTypes (name : String)
  | noSuchParent (name parent : String)
  | cyclicReference (name parent : String)
  | instCaches (core count : ℕ)
  | dataCaches (core count : ℕ)
  deriving DecidableEq, Repr

/-- The text of an error. -/
def ConfigError.message : ConfigError → String
  | noSuchCore name core => s!"Cache {name} belongs to core {core} which does not exist\n"
  | incompatibleTypes name => s!"Cache {name} and its parent have incompatible types\n"
  | noSuchParent name parent => s!"Cache {name} has a listed parent {parent} that does not exist\n"
  | cyclicReference name parent => s!"Cache {name} & its parent {parent} have a cyclic reference\n"
  | instCaches core count =>
    s!"Core {core} has {count} instruction caches. Must have exactly 1.\n"
  | dataCaches core count => s!"Core {core} has {count} data caches. Must have exactly 1.\n"

/-- How the check can fail to accept: it reports an error, it reads through the end of the map,
or the walk has not ended yet. -/
inductive ConfigStop
  | rejected (e : ConfigError)
  | undefined
  | running
  deriving DecidableEq, Repr

/-- The counts of the caches of each core, and the children of each cache. -/
structure CheckState where
  instCaches : ℕ → ℕ := fun _ => 0
  dataCaches : ℕ → ℕ := fun _ => 0
  children : String → List String := fun _ => []

/-- The walk from a cache up to the memory, with `n` turns at most. The error names the cache
and its own parent. -/
def walkUp (m : CacheMap) (name parent : String) : ℕ → String → Except ConfigStop Unit
  | 0, _ => .error .running
  | n + 1, above =>
    if above = parentMemory then .ok ()
    else if above = name then .error (.rejected (.cyclicReference name parent))
    else match m.find above with
      | none => .error .undefined
      | some cache => walkUp m name parent n cache.parent

/-- The cache is counted for its core. -/
def CheckState.countCore (st : CheckState) (cache : CacheParams) : CheckState :=
  let core := cache.core.toNat
  let st : CheckState :=
    if cache.type = .instruction ∨ cache.type = .unified then
      { st with instCaches := Function.update st.instCaches core (st.instCaches core + 1) }
    else st
  if cache.type = .data ∨ cache.type = .unified then
    { st with dataCaches := Function.update st.dataCaches core (st.dataCaches core + 1) }
  else st

def CheckState.addChild (st : CheckState) (parent name : String) : CheckState :=
  { st with children := Function.update st.children parent (st.children parent ++ [name]) }

/-- Associate a cache to a core. -/
def associateCore (numCores : ℕ) (st : CheckState) (name : String) (cache : CacheParams) :
    Except ConfigStop CheckState :=
  if 0 ≤ cache.core then
    if (numCores : ℤ) ≤ cache.core then .error (.rejected (.noSuchCore name cache.core))
    else .ok (st.countCore cache)
  else .ok st

/-- Associate a cache with its parent and children caches. -/
def associateParent (m : CacheMap) (turns : ℕ) (st : CheckState) (name : String)
    (cache : CacheParams) : Except ConfigStop CheckState :=
  if cache.parent = parentMemory then .ok st
  else match m.find cache.parent with
    | none => .error (.rejected (.noSuchParent name cache.parent))
    | some parent =>
      if parent.type ≠ .unified ∧ cache.type ≠ parent.type then
        .error (.rejected (.incompatibleTypes name))
      else do
        let st := st.addChild cache.parent name
        walkUp m name cache.parent turns cache.parent
        pure st

/-- One turn of the loop over the caches. -/
def checkCache (m : CacheMap) (numCores turns : ℕ) (st : CheckState)
    (entry : String × CacheParams) : Except ConfigStop CheckState := do
  let st ← associateCore numCores st entry.1 entry.2
  associateParent m turns st entry.1 entry.2

/-- Each core must have exactly one instruction and one data cache, or one unified cache. -/
def checkCore (st : CheckState) (core : ℕ) : Except ConfigStop Unit :=
  if st.instCaches core ≠ 1 then
    .error (.rejected (.instCaches core (st.instCaches core)))
  else if st.dataCaches core ≠ 1 then
    .error (.rejected (.dataCaches core (st.dataCaches core)))
  else .ok ()

/-- `check_cache_config`. The walks have `turns` turns each. -/
def checkCacheConfig (turns numCores : ℕ) (m : CacheMap) : Except ConfigStop CheckState := do
  let st ← m.entries.foldlM (checkCache m numCores turns) {}
  (List.range numCores).forM (checkCore st)
  pure st

/-! ### Well-formed configurations -/

namespace CacheMap

variable (m : CacheMap)

/-- The cache has a parent of this name, which need not exist. -/
def Link (name parent : String) : Prop :=
  ∃ cache, m.find name = some cache ∧ cache.parent = parent ∧ parent ≠ parentMemory

/-- The parent of the cache exists, and has a type for it. -/
def HasParent (cache : CacheParams) : Prop :=
  ∃ parent, m.find cache.parent = some parent ∧
    (parent.type = .unified ∨ cache.type = parent.type)

/-- A forest of caches over the memory, in which every core has one cache for its instructions
and one for its data. -/
structure WellFormed (numCores : ℕ) : Prop where
  core : ∀ e ∈ m.entries, e.2.core < numCores
  parent : ∀ e ∈ m.entries, e.2.parent ≠ parentMemory → m.HasParent e.2
  acyclic : ∀ name, ¬TransGen m.Link name name
  instCaches : ∀ i < numCores,
    (m.entries.countP fun e => e.2.core = (i : ℤ) ∧ e.2.type ≠ .data) = 1
  dataCaches : ∀ i < numCores,
    (m.entries.countP fun e => e.2.core = (i : ℤ) ∧ e.2.type ≠ .instruction) = 1

/-- The names of the caches that have this cache as their parent. -/
def childrenOf (name : String) : List String :=
  (m.entries.filter fun e => e.2.parent ≠ parentMemory ∧ e.2.parent = name).map Prod.fst

variable {m} {name parent above : String} {cache : CacheParams} {numCores : ℕ}

theorem nodup_names (m : CacheMap) : (m.entries.map Prod.fst).Nodup :=
  m.sorted.imp fun h => h.ne

theorem find_eq_some_iff : m.find name = some cache ↔ (name, cache) ∈ m.entries := by
  rw [find, List.lookup_eq_some_iff]
  constructor
  · rintro ⟨before, after, hes, -⟩
    simp [hes]
  · intro hmem
    obtain ⟨before, after, hes⟩ := List.append_of_mem hmem
    refine ⟨before, after, hes, ?_⟩
    have hnodup := m.nodup_names
    rw [hes, List.map_append, List.map_cons, List.nodup_append] at hnodup
    intro e he
    rw [bne_iff_ne]
    exact (hnodup.2.2 e.1 (List.mem_map_of_mem he) name List.mem_cons_self).symm

theorem link_rightUnique (m : CacheMap) : Relator.RightUnique m.Link := by
  rintro name parent parent' ⟨cache, hfind, rfl, -⟩ ⟨cache', hfind', rfl, -⟩
  rw [Option.some.inj (hfind.symm.trans hfind')]

end CacheMap

/-! ### The walk -/

variable {m : CacheMap} {name parent above : String} {numCores : ℕ}

/-- The walk comes to the memory and not to the cache. -/
inductive Climbs (m : CacheMap) (name : String) : String → Prop
  | memory : Climbs m name parentMemory
  | step {above : String} {cache : CacheParams} : above ≠ parentMemory → above ≠ name →
      m.find above = some cache → Climbs m name cache.parent → Climbs m name above

theorem walkUp_of_le {r : Except ConfigStop Unit} {n k : ℕ} (h : walkUp m name parent n above = r)
    (hr : r ≠ .error .running) (hle : n ≤ k) : walkUp m name parent k above = r := by
  induction n generalizing k above with
  | zero => exact absurd h.symm hr
  | succ n ih =>
    obtain ⟨k, rfl⟩ : ∃ j, k = j + 1 := ⟨k - 1, by omega⟩
    rw [walkUp] at h ⊢
    split_ifs at h ⊢
    · exact h
    · exact h
    · cases hfind : m.find above with
      | none => simpa only [hfind] using h
      | some cache =>
        rw [hfind] at h
        exact ih h (by omega)

theorem exists_walkUp_eq_ok_iff :
    (∃ n, walkUp m name parent n above = .ok ()) ↔ Climbs m name above := by
  constructor
  · rintro ⟨n, h⟩
    induction n generalizing above with
    | zero => cases h
    | succ n ih =>
      rw [walkUp] at h
      split_ifs at h with hmem hname
      · subst hmem
        exact .memory
      · cases hfind : m.find above with
        | none =>
          rw [hfind] at h
          cases h
        | some cache =>
          rw [hfind] at h
          exact .step hmem hname hfind (ih h)
  · intro h
    induction h with
    | memory => exact ⟨1, by simp [walkUp]⟩
    | step hmem hname hfind _ ih =>
      obtain ⟨n, hn⟩ := ih
      refine ⟨n + 1, ?_⟩
      rw [walkUp, if_neg hmem, if_neg hname, hfind]
      exact hn

/-- A walk that goes on for ever takes a step. -/
theorem exists_of_running (h : ∀ n, walkUp m name parent n above = .error .running) :
    above ≠ parentMemory ∧ above ≠ name ∧ ∃ cache, m.find above = some cache ∧
      ∀ n, walkUp m name parent n cache.parent = .error .running := by
  have hfirst := h 1
  rw [walkUp] at hfirst
  have hmem : above ≠ parentMemory := by
    rintro rfl
    cases hfirst
  rw [if_neg hmem] at hfirst
  have hname : above ≠ name := by
    rintro rfl
    simp at hfirst
  rw [if_neg hname] at hfirst
  refine ⟨hmem, hname, ?_⟩
  cases hfind : m.find above with
  | none => simp [hfind] at hfirst
  | some cache =>
    refine ⟨cache, rfl, fun n => ?_⟩
    have hnext := h (n + 1)
    rwa [walkUp, if_neg hmem, if_neg hname, hfind] at hnext

/-- The walk goes on for ever if the chain of the parents does, and the cache is not on it. -/
theorem walkUp_running_iff :
    (∀ n, walkUp m name parent n above = .error .running) ↔
      above ≠ parentMemory ∧ Chains.Endless m.Link above ∧ ¬ReflTransGen m.Link above name := by
  constructor
  · intro h
    have hall : ∀ x, ReflTransGen m.Link above x →
        ∀ n, walkUp m name parent n x = .error .running := by
      intro x hx
      induction hx with
      | refl => exact h
      | tail _ hlink ih =>
        obtain ⟨cache, hfind, rfl, -⟩ := hlink
        obtain ⟨-, -, cache', hfind', hnext⟩ := exists_of_running ih
        rwa [Option.some.inj (hfind.symm.trans hfind')]
    refine ⟨(exists_of_running h).1, fun x hx => ?_, fun hname => ?_⟩
    · obtain ⟨-, -, cache, hfind, hnext⟩ := exists_of_running (hall x hx)
      exact ⟨cache.parent, cache, hfind, rfl, (exists_of_running hnext).1⟩
    · exact (exists_of_running (hall name hname)).2.1 rfl
  · rintro ⟨hmem, hendless, hnot⟩ n
    induction n generalizing above with
    | zero => rfl
    | succ n ih =>
      obtain ⟨next, hlink⟩ := hendless above .refl
      have hname : above ≠ name := by
        rintro rfl
        exact hnot .refl
      obtain ⟨cache, hfind, rfl, hnext⟩ := hlink
      rw [walkUp, if_neg hmem, if_neg hname, hfind]
      have hlink : m.Link above cache.parent := ⟨cache, hfind, rfl, hnext⟩
      exact ih hnext (hendless.step hlink) fun h => hnot (.head hlink h)

/-- The walk reads through the end of the map if the chain of the parents comes to a name that
does not exist, and not to the cache. -/
theorem exists_walkUp_undefined_iff :
    (∃ n, walkUp m name parent n above = .error .undefined) ↔
      above ≠ parentMemory ∧ (∃ x, ReflTransGen m.Link above x ∧ m.find x = none) ∧
        ¬ReflTransGen m.Link above name := by
  constructor
  · rintro ⟨n, h⟩
    induction n generalizing above with
    | zero => cases h
    | succ n ih =>
      rw [walkUp] at h
      have hmem : above ≠ parentMemory := by
        rintro rfl
        cases h
      rw [if_neg hmem] at h
      have hname : above ≠ name := by
        rintro rfl
        simp at h
      rw [if_neg hname] at h
      refine ⟨hmem, ?_⟩
      cases hfind : m.find above with
      | none =>
        refine ⟨⟨above, .refl, hfind⟩, fun hreach => ?_⟩
        rcases hreach.cases_head with heq | ⟨next, ⟨cache, hcache, -⟩, -⟩
        · exact hname heq
        · rw [hfind] at hcache
          cases hcache
      | some cache =>
        rw [hfind] at h
        obtain ⟨hnext, ⟨x, hx, hnone⟩, hnot⟩ := ih h
        have hlink : m.Link above cache.parent := ⟨cache, hfind, rfl, hnext⟩
        refine ⟨⟨x, .head hlink hx, hnone⟩, fun hreach => ?_⟩
        rcases hreach.cases_head with heq | ⟨next, hlink', hrest⟩
        · exact hname heq
        · rw [m.link_rightUnique hlink' hlink] at hrest
          exact hnot hrest
  · rintro ⟨hmem, ⟨x, hx, hnone⟩, hnot⟩
    induction hx using ReflTransGen.head_induction_on with
    | refl =>
      refine ⟨1, ?_⟩
      have hname : x ≠ name := by
        rintro rfl
        exact hnot .refl
      rw [walkUp, if_neg hmem, if_neg hname, hnone]
    | @head above next hlink _ ih =>
      have hname : above ≠ name := by
        rintro rfl
        exact hnot .refl
      have hrest := fun h : ReflTransGen m.Link next name => hnot (.head hlink h)
      obtain ⟨cache, hfind, rfl, hnext⟩ := hlink
      obtain ⟨n, hn⟩ := ih hnext hrest
      refine ⟨n + 1, ?_⟩
      rw [walkUp, if_neg hmem, if_neg hname, hfind]
      exact hn

/-! ### One cache after the other -/

/-- What the check leaves of a cache that it accepts. -/
def CheckState.record (st : CheckState) (e : String × CacheParams) : CheckState :=
  let st := if 0 ≤ e.2.core then st.countCore e.2 else st
  if e.2.parent = parentMemory then st else st.addChild e.2.parent e.1

variable {turns : ℕ} {st st' : CheckState} {e : String × CacheParams}

theorem associateCore_eq (st : CheckState) (hcore : e.2.core < numCores) :
    associateCore numCores st e.1 e.2 =
      .ok (if 0 ≤ e.2.core then st.countCore e.2 else st) := by
  rw [associateCore, if_neg (not_le.mpr hcore)]
  split_ifs <;> rfl

theorem associateCore_eq_error (st : CheckState) (hcore : ¬e.2.core < numCores) :
    associateCore numCores st e.1 e.2 = .error (.rejected (.noSuchCore e.1 e.2.core)) := by
  have hle : (numCores : ℤ) ≤ e.2.core := not_lt.mp hcore
  rw [associateCore, if_pos (by omega), if_pos hle]

theorem associateParent_eq (st : CheckState)
    (hparent : e.2.parent ≠ parentMemory → m.HasParent e.2) :
    associateParent m turns st e.1 e.2 =
      if e.2.parent = parentMemory then .ok st
      else walkUp m e.1 e.2.parent turns e.2.parent >>= fun _ =>
        .ok (st.addChild e.2.parent e.1) := by
  rw [associateParent]
  split_ifs with hmem
  · rfl
  · obtain ⟨parent, hfind, htype⟩ := hparent hmem
    rw [hfind]
    dsimp only
    rw [if_neg (by rw [not_and_or, not_not, not_not]; exact htype)]
    rfl

/-- A cache without a parent for it is reported. -/
theorem exists_associateParent_eq_error (turns : ℕ) (st : CheckState)
    (hparent : ¬(e.2.parent ≠ parentMemory → m.HasParent e.2)) :
    ∃ err, associateParent m turns st e.1 e.2 = .error (.rejected err) := by
  obtain ⟨hmem, hnone⟩ := Classical.not_imp.mp hparent
  rw [associateParent, if_neg hmem]
  cases hfind : m.find e.2.parent with
  | none => exact ⟨_, rfl⟩
  | some parent =>
    dsimp only
    rw [if_pos]
    · exact ⟨_, rfl⟩
    · constructor
      · exact fun htype => hnone ⟨parent, hfind, .inl htype⟩
      · exact fun htype => hnone ⟨parent, hfind, .inr htype⟩

/-- The checks of a cache that do not need a walk. -/
def Placeable (m : CacheMap) (numCores : ℕ) (e : String × CacheParams) : Prop :=
  e.2.core < numCores ∧ (e.2.parent ≠ parentMemory → m.HasParent e.2)

theorem checkCache_eq (h : Placeable m numCores e) (turns : ℕ) (st : CheckState) :
    checkCache m numCores turns st e =
      if e.2.parent = parentMemory then .ok (st.record e)
      else walkUp m e.1 e.2.parent turns e.2.parent >>= fun _ => .ok (st.record e) := by
  rw [checkCache, associateCore_eq st h.1]
  refine (associateParent_eq _ h.2).trans ?_
  split_ifs with hmem hcore hcore <;> simp [CheckState.record, hmem, hcore]

theorem exists_checkCache_eq_error (h : ¬Placeable m numCores e) (turns : ℕ) (st : CheckState) :
    ∃ err, checkCache m numCores turns st e = .error (.rejected err) := by
  by_cases hcore : e.2.core < numCores
  · rw [checkCache, associateCore_eq st hcore]
    exact exists_associateParent_eq_error turns _ fun hparent => h ⟨hcore, hparent⟩
  · rw [checkCache, associateCore_eq_error st hcore]
    exact ⟨_, rfl⟩

theorem checkCache_eq_ok_iff :
    checkCache m numCores turns st e = .ok st' ↔
      (Placeable m numCores e ∧ (e.2.parent ≠ parentMemory →
        walkUp m e.1 e.2.parent turns e.2.parent = .ok ())) ∧ st' = st.record e := by
  by_cases hplace : Placeable m numCores e
  · rw [checkCache_eq hplace]
    split_ifs with hmem
    · simp [hplace, hmem, eq_comm]
    · rw [bind_eq_ok_iff]
      constructor
      · rintro ⟨⟨⟩, hwalk, hst⟩
        exact ⟨⟨hplace, fun _ => hwalk⟩, (Except.ok.inj hst).symm⟩
      · rintro ⟨⟨-, hwalk⟩, rfl⟩
        exact ⟨(), hwalk hmem, rfl⟩
  · obtain ⟨err, herr⟩ := exists_checkCache_eq_error hplace turns st
    simp [herr, hplace]

/-- What is not reported comes from the walk. -/
theorem checkCache_eq_error_iff {err : ConfigStop} (hne : ∀ c, err ≠ .rejected c) :
    checkCache m numCores turns st e = .error err ↔
      Placeable m numCores e ∧ e.2.parent ≠ parentMemory ∧
        walkUp m e.1 e.2.parent turns e.2.parent = .error err := by
  by_cases hplace : Placeable m numCores e
  · rw [checkCache_eq hplace]
    split_ifs with hmem
    · simp [hmem]
    · cases walkUp m e.1 e.2.parent turns e.2.parent with
      | ok u => simp [bind, Except.bind]
      | error err' => simp [bind, Except.bind, hplace, hmem]
  · obtain ⟨c, hc⟩ := exists_checkCache_eq_error hplace turns st
    simp [hc, hplace, (hne c).symm]

/-! ### The loop over the caches -/

/-- A cache that the check accepts, if it has enough turns. -/
def Stands (m : CacheMap) (numCores : ℕ) (e : String × CacheParams) : Prop :=
  Placeable m numCores e ∧ (e.2.parent ≠ parentMemory → Climbs m e.1 e.2.parent)

theorem exists_turns {l : List (String × CacheParams)} (h : ∀ e ∈ l, Stands m numCores e) :
    ∃ turns, ∀ e ∈ l, e.2.parent ≠ parentMemory →
      walkUp m e.1 e.2.parent turns e.2.parent = .ok () := by
  induction l with
  | nil => exact ⟨0, by simp⟩
  | cons e l ih =>
    rw [List.forall_mem_cons] at h
    obtain ⟨n, hn⟩ := ih h.2
    have hfirst : ∃ k, e.2.parent ≠ parentMemory →
        walkUp m e.1 e.2.parent k e.2.parent = .ok () := by
      by_cases hmem : e.2.parent = parentMemory
      · exact ⟨0, fun h => absurd hmem h⟩
      · obtain ⟨k, hk⟩ := exists_walkUp_eq_ok_iff.mpr (h.1.2 hmem)
        exact ⟨k, fun _ => hk⟩
    obtain ⟨k, hk⟩ := hfirst
    refine ⟨max n k, ?_⟩
    rw [List.forall_mem_cons]
    refine ⟨fun hmem => ?_, fun e he hmem => ?_⟩
    · exact walkUp_of_le (hk hmem) (by simp) (Nat.le_max_right n k)
    · exact walkUp_of_le (hn e he hmem) (by simp) (Nat.le_max_left n k)

theorem foldlM_checkCache_eq_ok_iff {l : List (String × CacheParams)} :
    l.foldlM (checkCache m numCores turns) st = .ok st' ↔
      (∀ e ∈ l, Placeable m numCores e ∧ (e.2.parent ≠ parentMemory →
        walkUp m e.1 e.2.parent turns e.2.parent = .ok ())) ∧
      st' = l.foldl CheckState.record st := by
  apply foldlM_eq_ok_iff
  intro st e _ st'
  exact checkCache_eq_ok_iff

theorem exists_foldlM_checkCache_eq_ok_iff {l : List (String × CacheParams)} :
    (∃ turns, l.foldlM (checkCache m numCores turns) st = .ok st') ↔
      (∀ e ∈ l, Stands m numCores e) ∧ st' = l.foldl CheckState.record st := by
  simp only [foldlM_checkCache_eq_ok_iff, exists_and_right]
  refine and_congr_left fun _ => ?_
  constructor
  · rintro ⟨turns, h⟩ e he
    exact ⟨(h e he).1, fun hmem => exists_walkUp_eq_ok_iff.mp ⟨turns, (h e he).2 hmem⟩⟩
  · intro h
    obtain ⟨turns, hturns⟩ := exists_turns h
    exact ⟨turns, fun e he => ⟨(h e he).1, hturns e he⟩⟩

/-! ### Cores and children -/

theorem countCore_instCaches (st : CheckState) (cache : CacheParams) (i : ℕ) :
    (st.countCore cache).instCaches i =
      st.instCaches i + if i = cache.core.toNat ∧ cache.type ≠ .data then 1 else 0 := by
  cases htype : cache.type <;> by_cases hi : i = cache.core.toNat <;>
    simp [CheckState.countCore, htype, hi]

theorem countCore_dataCaches (st : CheckState) (cache : CacheParams) (i : ℕ) :
    (st.countCore cache).dataCaches i =
      st.dataCaches i + if i = cache.core.toNat ∧ cache.type ≠ .instruction then 1 else 0 := by
  cases htype : cache.type <;> by_cases hi : i = cache.core.toNat <;>
    simp [CheckState.countCore, htype, hi]

theorem countCore_children (st : CheckState) (cache : CacheParams) :
    (st.countCore cache).children = st.children := by
  unfold CheckState.countCore
  dsimp only
  split_ifs <;> rfl

theorem record_instCaches (st : CheckState) (e : String × CacheParams) (i : ℕ) :
    (st.record e).instCaches i =
      st.instCaches i + if e.2.core = (i : ℤ) ∧ e.2.type ≠ .data then 1 else 0 := by
  have hrecord : (st.record e).instCaches =
      (if 0 ≤ e.2.core then st.countCore e.2 else st).instCaches := by
    unfold CheckState.record
    dsimp only
    split_ifs <;> rfl
  rw [hrecord]
  split_ifs with hpos hcore hcore
  · rw [countCore_instCaches, if_pos ⟨by omega, hcore.2⟩]
  · rw [countCore_instCaches, if_neg fun h => hcore ⟨by omega, h.2⟩]
  · exact absurd hcore.1 (by omega)
  · rfl

theorem record_dataCaches (st : CheckState) (e : String × CacheParams) (i : ℕ) :
    (st.record e).dataCaches i =
      st.dataCaches i + if e.2.core = (i : ℤ) ∧ e.2.type ≠ .instruction then 1 else 0 := by
  have hrecord : (st.record e).dataCaches =
      (if 0 ≤ e.2.core then st.countCore e.2 else st).dataCaches := by
    unfold CheckState.record
    dsimp only
    split_ifs <;> rfl
  rw [hrecord]
  split_ifs with hpos hcore hcore
  · rw [countCore_dataCaches, if_pos ⟨by omega, hcore.2⟩]
  · rw [countCore_dataCaches, if_neg fun h => hcore ⟨by omega, h.2⟩]
  · exact absurd hcore.1 (by omega)
  · rfl

theorem record_children (st : CheckState) (e : String × CacheParams) (p : String) :
    (st.record e).children p =
      st.children p ++ if e.2.parent ≠ parentMemory ∧ e.2.parent = p then [e.1] else [] := by
  have hcount : (if 0 ≤ e.2.core then st.countCore e.2 else st).children = st.children := by
    split_ifs
    · exact countCore_children st e.2
    · rfl
  unfold CheckState.record
  dsimp only
  by_cases hmem : e.2.parent = parentMemory
  · simp [hmem, hcount]
  · rw [if_neg hmem, CheckState.addChild]
    dsimp only
    rw [hcount, Function.update_apply]
    by_cases hp : p = e.2.parent
    · subst hp
      simp [hmem]
    · simp [hp, Ne.symm hp]

/-- A number that some of the caches increase. -/
theorem foldl_record_eq_countP {f : CheckState → ℕ} {P : String × CacheParams → Bool}
    (hf : ∀ st e, f (st.record e) = f st + if P e then 1 else 0)
    (l : List (String × CacheParams)) (st : CheckState) :
    f (l.foldl CheckState.record st) = f st + l.countP P := by
  induction l generalizing st with
  | nil => simp
  | cons e l ih =>
    rw [List.foldl_cons, ih, hf, List.countP_cons]
    omega

theorem foldl_record_instCaches (l : List (String × CacheParams)) (i : ℕ) :
    (l.foldl CheckState.record {}).instCaches i =
      l.countP fun e => e.2.core = (i : ℤ) ∧ e.2.type ≠ .data := by
  have h := foldl_record_eq_countP (f := fun st => st.instCaches i)
    (P := fun e => e.2.core = (i : ℤ) ∧ e.2.type ≠ .data)
    (fun st e => by simpa using record_instCaches st e i) l {}
  simpa using h

theorem foldl_record_dataCaches (l : List (String × CacheParams)) (i : ℕ) :
    (l.foldl CheckState.record {}).dataCaches i =
      l.countP fun e => e.2.core = (i : ℤ) ∧ e.2.type ≠ .instruction := by
  have h := foldl_record_eq_countP (f := fun st => st.dataCaches i)
    (P := fun e => e.2.core = (i : ℤ) ∧ e.2.type ≠ .instruction)
    (fun st e => by simpa using record_dataCaches st e i) l {}
  simpa using h

theorem foldl_record_children (l : List (String × CacheParams)) (st : CheckState) (p : String) :
    (l.foldl CheckState.record st).children p = st.children p ++
      (l.filter fun e => e.2.parent ≠ parentMemory ∧ e.2.parent = p).map Prod.fst := by
  induction l generalizing st with
  | nil => simp
  | cons e l ih =>
    rw [List.foldl_cons, ih, record_children, List.append_assoc, List.filter_cons]
    split_ifs <;> simp_all

theorem checkCore_eq_ok_iff {core : ℕ} :
    checkCore st core = .ok () ↔ st.instCaches core = 1 ∧ st.dataCaches core = 1 := by
  unfold checkCore
  split_ifs with hinst hdata <;> simp_all

/-! ### Chains of parents -/

/-- A cache whose walk comes to the memory is not above itself. -/
theorem Climbs.not_reflTransGen (h : Climbs m name above) (habove : above ≠ parentMemory) :
    ¬ReflTransGen m.Link above name := by
  induction h with
  | memory => exact absurd rfl habove
  | step hmem hname hfind _ ih =>
    intro hreach
    rcases hreach.cases_head with rfl | ⟨next, hlink, hrest⟩
    · exact hname rfl
    · obtain ⟨cache, hfind', rfl, hnext⟩ := hlink
      obtain rfl := Option.some.inj (hfind.symm.trans hfind')
      exact ih hnext hrest

theorem acyclic_of_climbs
    (h : ∀ e ∈ m.entries, e.2.parent ≠ parentMemory → Climbs m e.1 e.2.parent) (name : String) :
    ¬TransGen m.Link name name := by
  intro hcycle
  obtain ⟨next, ⟨cache, hfind, rfl, hnext⟩, hrest⟩ := TransGen.head'_iff.mp hcycle
  have hmem := CacheMap.find_eq_some_iff.mp hfind
  exact (h (name, cache) hmem hnext).not_reflTransGen hnext hrest

/-- Without cycles a walk comes to the memory, if all parents exist. -/
theorem climbs_of_acyclic
    (hparent : ∀ e ∈ m.entries, e.2.parent ≠ parentMemory → m.HasParent e.2)
    (hacyclic : ∀ name, ¬TransGen m.Link name name) (habove : TransGen m.Link name above)
    (hmem : above ∈ m.entries.map Prod.fst) : Climbs m name above := by
  let next : {x // x ∈ m.entries.map Prod.fst} → {x // x ∈ m.entries.map Prod.fst} → Prop :=
    fun x y => m.Link x y
  have hnext : ∀ x, ¬TransGen next x x :=
    fun x hx => hacyclic x (hx.lift Subtype.val fun _ _ h => h)
  have : Finite {x // x ∈ m.entries.map Prod.fst} := List.finite_toSet _
  -- up the chain, which is finite
  suffices h : ∀ x : {x // x ∈ m.entries.map Prod.fst}, TransGen m.Link name x → Climbs m name x
    from h ⟨above, hmem⟩ habove
  intro x
  induction x using (Chains.wellFounded_of_acyclic hnext).induction with
  | _ x ih =>
    intro hx
    obtain ⟨e, he, hname⟩ := List.mem_map.mp x.2
    have hfind : m.find x = some e.2 := by
      rw [CacheMap.find_eq_some_iff, ← hname]
      exact he
    have hxmem : x.1 ≠ parentMemory := by
      obtain ⟨_, -, _, -, -, h⟩ := TransGen.tail'_iff.mp hx
      exact h
    have hxname : x.1 ≠ name := by
      intro heq
      rw [heq] at hx
      exact hacyclic name hx
    refine .step hxmem hxname hfind ?_
    by_cases htop : e.2.parent = parentMemory
    · rw [htop]
      exact .memory
    · obtain ⟨p, hp, -⟩ := hparent e he htop
      have hin : e.2.parent ∈ m.entries.map Prod.fst :=
        List.mem_map_of_mem (CacheMap.find_eq_some_iff.mp hp)
      have hlink : m.Link x e.2.parent := ⟨e.2, hfind, rfl, htop⟩
      exact ih ⟨e.2.parent, hin⟩ (.single hlink) (hx.tail hlink)

/-! ### What is accepted -/

theorem forall_stands_iff :
    (∀ e ∈ m.entries, Stands m numCores e) ↔
      (∀ e ∈ m.entries, e.2.core < numCores) ∧
      (∀ e ∈ m.entries, e.2.parent ≠ parentMemory → m.HasParent e.2) ∧
      ∀ name, ¬TransGen m.Link name name := by
  constructor
  · intro h
    exact ⟨fun e he => (h e he).1.1, fun e he => (h e he).1.2,
      acyclic_of_climbs fun e he => (h e he).2⟩
  · rintro ⟨hcore, hparent, hacyclic⟩ e he
    refine ⟨⟨hcore e he, hparent e he⟩, fun hmem => ?_⟩
    obtain ⟨p, hp, -⟩ := hparent e he hmem
    apply climbs_of_acyclic hparent hacyclic
    · exact .single ⟨e.2, CacheMap.find_eq_some_iff.mpr he, rfl, hmem⟩
    · exact List.mem_map_of_mem (CacheMap.find_eq_some_iff.mp hp)

theorem checkCacheConfig_eq_ok :
    checkCacheConfig turns numCores m = .ok st ↔
      m.entries.foldlM (checkCache m numCores turns) {} = .ok st ∧
        ∀ i < numCores, st.instCaches i = 1 ∧ st.dataCaches i = 1 := by
  unfold checkCacheConfig
  rw [bind_eq_ok_iff]
  constructor
  · rintro ⟨st', hloop, hcores⟩
    obtain ⟨⟨⟩, hall, hst⟩ := bind_eq_ok_iff.mp hcores
    obtain rfl := Except.ok.inj hst
    refine ⟨hloop, fun i hi => ?_⟩
    exact checkCore_eq_ok_iff.mp (forM_eq_ok_iff.mp hall i (List.mem_range.mpr hi))
  · rintro ⟨hloop, hall⟩
    refine ⟨st, hloop, bind_eq_ok_iff.mpr ⟨⟨⟩, forM_eq_ok_iff.mpr ?_, rfl⟩⟩
    intro i hi
    exact checkCore_eq_ok_iff.mpr (hall i (List.mem_range.mp hi))

theorem exists_checkCacheConfig_eq_ok_iff :
    (∃ turns st, checkCacheConfig turns numCores m = .ok st) ↔ m.WellFormed numCores := by
  constructor
  · rintro ⟨turns, st, h⟩
    obtain ⟨hloop, hcores⟩ := checkCacheConfig_eq_ok.mp h
    obtain ⟨hstands, rfl⟩ := exists_foldlM_checkCache_eq_ok_iff.mp ⟨turns, hloop⟩
    obtain ⟨hcore, hparent, hacyclic⟩ := forall_stands_iff.mp hstands
    simp only [foldl_record_instCaches, foldl_record_dataCaches] at hcores
    exact ⟨hcore, hparent, hacyclic, fun i hi => (hcores i hi).1, fun i hi => (hcores i hi).2⟩
  · rintro ⟨hcore, hparent, hacyclic, hinst, hdata⟩
    have hstands := forall_stands_iff.mpr ⟨hcore, hparent, hacyclic⟩
    obtain ⟨turns, hloop⟩ := exists_foldlM_checkCache_eq_ok_iff.mpr ⟨hstands, rfl⟩
    refine ⟨turns, _, checkCacheConfig_eq_ok.mpr ⟨hloop, fun i hi => ?_⟩⟩
    rw [foldl_record_instCaches, foldl_record_dataCaches]
    exact ⟨hinst i hi, hdata i hi⟩

theorem children_of_checkCacheConfig (h : checkCacheConfig turns numCores m = .ok st) :
    st.children = m.childrenOf := by
  obtain ⟨-, rfl⟩ := foldlM_checkCache_eq_ok_iff.mp (checkCacheConfig_eq_ok.mp h).1
  funext name
  rw [foldl_record_children]
  rfl

/-- **What the check accepts**: the well-formed configurations. It finds the children of all
caches. -/
theorem checkCacheConfig_eq_ok_iff (m : CacheMap) (numCores : ℕ) :
    ((∃ turns st, checkCacheConfig turns numCores m = .ok st) ↔ m.WellFormed numCores) ∧
      ∀ turns st, checkCacheConfig turns numCores m = .ok st → st.children = m.childrenOf :=
  ⟨exists_checkCacheConfig_eq_ok_iff, fun _ _ => children_of_checkCacheConfig⟩

/-! ### Configurations on which the check does not end -/

theorem finite_chain (m : CacheMap) (name : String) : {x | ReflTransGen m.Link name x}.Finite := by
  refine (List.finite_toSet (name :: m.entries.map fun e => e.2.parent)).subset ?_
  intro x hx
  rcases ReflTransGen.cases_tail hx with rfl | ⟨y, -, cache, hfind, rfl, -⟩
  · exact List.mem_cons_self
  · exact List.mem_cons_of_mem _
      (List.mem_map_of_mem (f := fun e => e.2.parent) (CacheMap.find_eq_some_iff.mp hfind))

/-- A walk that reaches the memory stops for no other reason. -/
theorem Climbs.walkUp_eq_error {err : ConfigStop} (h : Climbs m name above)
    (herr : walkUp m name parent turns above = .error err) : err = .running := by
  by_contra hne
  obtain ⟨n, hn⟩ : ∃ n, walkUp m name parent n above = .ok () := exists_walkUp_eq_ok_iff.mpr h
  have hlater := walkUp_of_le hn (by simp) (Nat.le_max_left n turns)
  have hlater' := walkUp_of_le herr (by simpa using hne) (Nat.le_max_right n turns)
  rw [hlater] at hlater'
  cases hlater'

/-- Caches that are in order do not stop the loop, but the walk of one of them may take its
time. -/
theorem foldlM_checkCache_of_stands {l : List (String × CacheParams)}
    (h : ∀ e ∈ l, Stands m numCores e) (turns : ℕ) (st : CheckState) :
    l.foldlM (checkCache m numCores turns) st = .ok (l.foldl CheckState.record st) ∨
      l.foldlM (checkCache m numCores turns) st = .error .running := by
  cases hloop : l.foldlM (checkCache m numCores turns) st with
  | ok st' =>
    left
    rw [(foldlM_checkCache_eq_ok_iff.mp hloop).2]
  | error err =>
    right
    obtain ⟨before, e, after, st', rfl, -, herr⟩ := exists_of_foldlM_eq_error hloop
    obtain ⟨hplace, hclimbs⟩ := h e (by simp)
    rw [checkCache_eq hplace] at herr
    split_ifs at herr with hmem
    cases hwalk : walkUp m e.1 e.2.parent turns e.2.parent with
    | ok u =>
      rw [hwalk] at herr
      cases herr
    | error err' =>
      rw [hwalk] at herr
      obtain rfl : err' = err := Except.error.inj herr
      rw [(hclimbs hmem).walkUp_eq_error hwalk]

theorem checkCacheConfig_eq_error {err : ConfigStop}
    (h : m.entries.foldlM (checkCache m numCores turns) {} = .error err) :
    checkCacheConfig turns numCores m = .error err := by
  rw [checkCacheConfig, h]
  rfl

/-- The cores are reported, and nothing else happens to them. -/
theorem exists_of_forM_checkCore {l : List ℕ} {err : ConfigStop}
    (h : l.forM (checkCore st) = .error err) : ∃ c, err = .rejected c := by
  induction l with
  | nil => cases h
  | cons i l ih =>
    rw [List.forM] at h
    cases hcore : checkCore st i with
    | ok u =>
      rw [hcore] at h
      exact ih h
    | error err' =>
      rw [hcore] at h
      obtain rfl : err' = err := Except.error.inj h
      unfold checkCore at hcore
      split_ifs at hcore <;> exact ⟨_, (Except.error.inj hcore).symm⟩

/-- What is not reported happens in the loop over the caches. -/
theorem foldlM_eq_error_of_check {err : ConfigStop} (hne : ∀ c, err ≠ .rejected c)
    (h : checkCacheConfig turns numCores m = .error err) :
    m.entries.foldlM (checkCache m numCores turns) {} = .error err := by
  cases hloop : m.entries.foldlM (checkCache m numCores turns) {} with
  | error err' => rw [← h, checkCacheConfig_eq_error hloop]
  | ok st =>
    rw [checkCacheConfig, hloop] at h
    change ((List.range numCores).forM (checkCore st) >>= fun _ => pure st) = _ at h
    cases hcores : (List.range numCores).forM (checkCore st) with
    | ok u =>
      rw [hcores] at h
      cases h
    | error err' =>
      obtain ⟨c, rfl⟩ := exists_of_forM_checkCore hcores
      rw [hcores] at h
      exact absurd (Except.error.inj h).symm (hne c)

theorem exists_first_not {l : List (String × CacheParams)}
    (h : ¬∀ e ∈ l, Stands m numCores e) :
    ∃ before e after, l = before ++ e :: after ∧ (∀ e' ∈ before, Stands m numCores e') ∧
      ¬Stands m numCores e := by
  induction l with
  | nil => exact absurd (by simp) h
  | cons e l ih =>
    by_cases he : Stands m numCores e
    · have hrest : ¬∀ e ∈ l, Stands m numCores e :=
        fun hl => h (List.forall_mem_cons.mpr ⟨he, hl⟩)
      obtain ⟨before, e', after, rfl, hbefore, hnot⟩ := ih hrest
      exact ⟨e :: before, e', after, rfl, List.forall_mem_cons.mpr ⟨he, hbefore⟩, hnot⟩
    · exact ⟨[], e, l, rfl, by simp, he⟩

/-- With enough turns the loop comes to the first cache that is not in order, and stops there. -/
theorem exists_stop {before after : List (String × CacheParams)}
    (hentries : m.entries = before ++ e :: after) (hbefore : ∀ e' ∈ before, Stands m numCores e')
    (he : ¬Stands m numCores e) :
    ∃ N, ∀ turns ≥ N, ∃ err,
      m.entries.foldlM (checkCache m numCores turns) {} = .error err ∧
      checkCache m numCores turns (before.foldl CheckState.record {}) e = .error err := by
  obtain ⟨N, hN⟩ := exists_turns hbefore
  refine ⟨N, fun turns hturns => ?_⟩
  have hok : before.foldlM (checkCache m numCores turns) {} =
      .ok (before.foldl CheckState.record {}) := by
    refine foldlM_checkCache_eq_ok_iff.mpr ⟨fun e' he' => ⟨(hbefore e' he').1, ?_⟩, rfl⟩
    exact fun hmem => walkUp_of_le (hN e' he' hmem) (by simp) hturns
  cases hcheck : checkCache m numCores turns (before.foldl CheckState.record {}) e with
  | ok st =>
    obtain ⟨⟨hplace, hwalk⟩, -⟩ := checkCache_eq_ok_iff.mp hcheck
    exact absurd ⟨hplace, fun hmem => exists_walkUp_eq_ok_iff.mp ⟨turns, hwalk hmem⟩⟩ he
  | error err =>
    rw [hentries]
    exact ⟨err, foldlM_eq_error hok hcheck, rfl⟩

/-- The first cache that is not in order is one whose walk does not end. -/
theorem exists_of_loop_running
    (hloop : ∀ turns, m.entries.foldlM (checkCache m numCores turns) {} = .error .running) :
    ∃ before e after, m.entries = before ++ e :: after ∧
      (∀ e' ∈ before, Stands m numCores e') ∧ Placeable m numCores e ∧
      ∀ n, walkUp m e.1 e.2.parent n e.2.parent = .error .running := by
  have hnot : ¬∀ e ∈ m.entries, Stands m numCores e := by
    intro hstands
    obtain ⟨turns, hok⟩ := exists_foldlM_checkCache_eq_ok_iff.mpr ⟨hstands, rfl⟩
    rw [hloop turns] at hok
    cases hok
  obtain ⟨before, e, after, hentries, hbefore, he⟩ := exists_first_not hnot
  obtain ⟨N, hN⟩ := exists_stop hentries hbefore he
  have hrun : ∀ turns ≥ N, Placeable m numCores e ∧ e.2.parent ≠ parentMemory ∧
      walkUp m e.1 e.2.parent turns e.2.parent = .error .running := by
    intro turns hturns
    obtain ⟨err, herr, hcheck⟩ := hN turns hturns
    rw [hloop turns] at herr
    rw [← Except.error.inj herr] at hcheck
    exact (checkCache_eq_error_iff (by simp)).mp hcheck
  refine ⟨before, e, after, hentries, hbefore, (hrun N le_rfl).1, fun n => ?_⟩
  by_contra hne
  have hlater := walkUp_of_le rfl hne (Nat.le_max_left n N)
  exact hne (hlater.symm.trans (hrun (max n N) (Nat.le_max_right n N)).2.2)

/-- **When the check does not end.** Up to a cache all is in order, and the chain of its parents
runs into a cycle that the cache itself is not on. -/
theorem checkCacheConfig_running_iff (m : CacheMap) (numCores : ℕ) :
    (∀ turns, checkCacheConfig turns numCores m = .error .running) ↔
      ∃ before e after, m.entries = before ++ e :: after ∧
        (∀ e' ∈ before, Stands m numCores e') ∧ Placeable m numCores e ∧
        e.2.parent ≠ parentMemory ∧
        (∃ x, ReflTransGen m.Link e.2.parent x ∧ TransGen m.Link x x) ∧
        ¬ReflTransGen m.Link e.2.parent e.1 := by
  constructor
  · intro h
    obtain ⟨before, e, after, hentries, hbefore, hplace, hrun⟩ :=
      exists_of_loop_running fun turns => foldlM_eq_error_of_check (by simp) (h turns)
    obtain ⟨hmem, hendless, hnot⟩ := walkUp_running_iff.mp hrun
    exact ⟨before, e, after, hentries, hbefore, hplace, hmem,
      (Chains.endless_iff m.link_rightUnique (finite_chain m _)).mp hendless, hnot⟩
  · rintro ⟨before, e, after, hentries, hbefore, hplace, hmem, hcycle, hnot⟩ turns
    have hendless := (Chains.endless_iff m.link_rightUnique (finite_chain m _)).mpr hcycle
    have hrun : walkUp m e.1 e.2.parent turns e.2.parent = .error .running :=
      walkUp_running_iff.mpr ⟨hmem, hendless, hnot⟩ turns
    apply checkCacheConfig_eq_error
    rw [hentries]
    rcases foldlM_checkCache_of_stands hbefore turns {} with hok | herr
    · exact foldlM_eq_error hok ((checkCache_eq_error_iff (by simp)).mpr ⟨hplace, hmem, hrun⟩)
    · rw [List.foldlM_append, herr]
      rfl

/-- **When the check reads through the end of the map.** Up to a cache all is in order, and the
chain of its parents comes to a name that does not exist. -/
theorem exists_checkCacheConfig_undefined_iff (m : CacheMap) (numCores : ℕ) :
    (∃ turns, checkCacheConfig turns numCores m = .error .undefined) ↔
      ∃ before e after, m.entries = before ++ e :: after ∧
        (∀ e' ∈ before, Stands m numCores e') ∧ Placeable m numCores e ∧
        e.2.parent ≠ parentMemory ∧
        (∃ x, ReflTransGen m.Link e.2.parent x ∧ m.find x = none) ∧
        ¬ReflTransGen m.Link e.2.parent e.1 := by
  constructor
  · rintro ⟨turns, h⟩
    obtain ⟨before, e, after, st, hentries, hbefore, herr⟩ :=
      exists_of_foldlM_eq_error (foldlM_eq_error_of_check (by simp) h)
    obtain ⟨hplace, hmem, hwalk⟩ := (checkCache_eq_error_iff (by simp)).mp herr
    obtain ⟨-, hnone, hnot⟩ := exists_walkUp_undefined_iff.mp ⟨turns, hwalk⟩
    have hstands := (exists_foldlM_checkCache_eq_ok_iff.mp ⟨turns, hbefore⟩).1
    exact ⟨before, e, after, hentries, hstands, hplace, hmem, hnone, hnot⟩
  · rintro ⟨before, e, after, hentries, hbefore, hplace, hmem, hnone, hnot⟩
    obtain ⟨n, hn⟩ : ∃ n, walkUp m e.1 e.2.parent n e.2.parent = .error .undefined :=
      exists_walkUp_undefined_iff.mpr ⟨hmem, hnone, hnot⟩
    have he : ¬Stands m numCores e := by
      intro he
      cases (he.2 hmem).walkUp_eq_error hn
    obtain ⟨N, hN⟩ := exists_stop hentries hbefore he
    obtain ⟨err, hloop, hcheck⟩ := hN (max n N) (Nat.le_max_right n N)
    have hlater := walkUp_of_le hn (by simp) (Nat.le_max_left n N)
    rw [(checkCache_eq_error_iff (by simp)).mpr ⟨hplace, hmem, hlater⟩] at hcheck
    refine ⟨max n N, ?_⟩
    rw [checkCacheConfig_eq_error hloop, ← Except.error.inj hcheck]

/-- The second cache is its own parent, and the first one is below it. -/
def selfParent : CacheMap where
  entries := [("a", { core := 0, parent := "b" }), ("b", { parent := "b" })]
  sorted := by decide

example : checkCacheConfig 9 1 selfParent = .error .running := rfl

/-- The parent of the second cache does not exist. -/
def lostParent : CacheMap where
  entries := [("a", { core := 0, parent := "b" }), ("b", { parent := "c" })]
  sorted := by decide

example : checkCacheConfig 9 1 lostParent = .error .undefined := rfl

end SagePTE.Simulator
