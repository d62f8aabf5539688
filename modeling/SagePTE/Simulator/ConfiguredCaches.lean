import SagePTE.Simulator.CacheConfig
import SagePTE.Simulator.Inclusion

/-!
# The caches of a configuration

The second constructor of `cache_simulator_t` builds the caches that a configuration file
names. Every cache is linked to its parent and, if it is inclusive, to the caches that name it
as their parent. Since the check has accepted the configuration, the chains of the parents
end, every core has its two L1 caches, and all lines have the same size, so that the inclusive
caches really hold the lines of their children.

## Main definitions

* `CacheMap.construct` — the part of the constructor that can fail
* `CacheMap.Built`, `CacheMap.hierarchy` — a configuration that is built, and its caches

## Main results

* `CacheMap.exists_construct_iff` — when the constructor succeeds
* `CacheMap.WellFormed.exists_l1` — the L1 caches of the cores
* `CacheMap.configured_included` — the lines of inclusive caches
-/

set_option autoImplicit false

namespace SagePTE.Simulator

open Relation Fallible

namespace CacheMap

variable (m : CacheMap)

/-! ### The constructor -/

/-- The errors of the constructor. -/
inductive ConstructError
  | config (stop : ConfigStop)
  | parent (name : String)
  | child (name : String)
  | init (name : String)
  deriving DecidableEq, Repr

/-- The text of an error. -/
def ConstructError.message (configFile : String) : ConstructError → String
  | config _ => s!"Usage error: Failed to read/parse configuration file {configFile}"
  | parent name => s!"Error locating the configuration of the parent cache: {name}"
  | child name => s!"Error locating the configuration of the cache: {name}"
  | init name => s!"Usage error: failed to initialize the cache {name}"

/-- `cache_t::init`, with the parameters of the configuration. -/
def initCache (lineSize : ℕ) (cache : CacheParams) : Option Geometry :=
  cacheInit (toInt cache.assoc) (toInt lineSize) (toInt cache.size)

/-- One turn of the loop that initializes the caches. The last argument is what `init` makes of
the parameters. -/
def constructCache (children : String → List String) (name : String) (cache : CacheParams)
    (geometry : Option Geometry) : Except ConstructError Geometry :=
  -- Locate the cache's parent.
  if cache.parent ≠ parentMemory ∧ (m.find cache.parent).isNone then
    .error (.parent cache.parent)
  -- Locate the cache's children.
  else match cache.inclusive, (children name).find? fun child => (m.find child).isNone with
    | true, some child => .error (.child child)
    | _, _ => geometry.elim (.error (.init name)) .ok

/-- The part of the constructor that can fail. -/
def construct (turns numCores lineSize : ℕ) : Except ConstructError (List Geometry) := do
  let st ← (checkCacheConfig turns numCores m).mapError .config
  m.entries.mapM fun e => m.constructCache st.children e.1 e.2 (initCache lineSize e.2)

/-- A configuration of which all caches are built. -/
structure Built (numCores lineSize : ℕ) : Prop where
  wellFormed : m.WellFormed numCores
  init : ∀ e ∈ m.entries, (initCache lineSize e.2).isSome = true

variable {m} {numCores lineSize : ℕ}

theorem find_isSome_of_mem {name : String} (h : name ∈ m.entries.map Prod.fst) :
    (m.find name).isSome = true := by
  obtain ⟨e, he, rfl⟩ := List.mem_map.mp h
  rw [find_eq_some_iff.mpr he]
  rfl

/-- In a well-formed configuration the links are found. -/
theorem WellFormed.constructCache_eq (h : m.WellFormed numCores) {e : String × CacheParams}
    (he : e ∈ m.entries) (geometry : Option Geometry) :
    m.constructCache m.childrenOf e.1 e.2 geometry = geometry.elim (.error (.init e.1)) .ok := by
  have hparent : ¬(e.2.parent ≠ parentMemory ∧ (m.find e.2.parent).isNone = true) := by
    rintro ⟨hmem, hnone⟩
    obtain ⟨p, hp, -⟩ := h.parent e he hmem
    simp [hp] at hnone
  have hchildren : (m.childrenOf e.1).find? (fun child => (m.find child).isNone) = none := by
    rw [List.find?_eq_none]
    intro child hchild
    obtain ⟨e', he', rfl⟩ := List.mem_map.mp hchild
    rw [find_eq_some_iff.mpr (List.mem_of_mem_filter he')]
    simp
  rw [constructCache, if_neg hparent, hchildren]
  cases e.2.inclusive <;> rfl

theorem construct_eq_ok_iff {turns : ℕ} {geometries : List Geometry} :
    m.construct turns numCores lineSize = .ok geometries ↔
      ∃ st, checkCacheConfig turns numCores m = .ok st ∧
        (m.entries.mapM fun e => m.constructCache m.childrenOf e.1 e.2
          (initCache lineSize e.2)) = .ok geometries := by
  rw [construct, bind_eq_ok_iff]
  apply exists_congr
  intro st
  have hmap : (checkCacheConfig turns numCores m).mapError ConstructError.config = .ok st ↔
      checkCacheConfig turns numCores m = .ok st := by
    cases checkCacheConfig turns numCores m <;> simp [Except.mapError]
  rw [hmap]
  apply and_congr_right
  intro hst
  rw [children_of_checkCacheConfig hst]

theorem mapM_constructCache_iff (h : m.WellFormed numCores) :
    (∃ geometries, (m.entries.mapM fun e => m.constructCache m.childrenOf e.1 e.2
        (initCache lineSize e.2)) = .ok geometries) ↔
      ∀ e ∈ m.entries, (initCache lineSize e.2).isSome = true := by
  constructor
  · rintro ⟨geometries, hall⟩ e he
    obtain ⟨g, -, hg⟩ := exists_ok_of_mapM hall he
    rw [h.constructCache_eq he] at hg
    cases hinit : initCache lineSize e.2 with
    | none =>
      rw [hinit] at hg
      cases hg
    | some g => rfl
  · intro hinit
    apply exists_mapM_eq_ok
    intro e he
    obtain ⟨g, hg⟩ := Option.isSome_iff_exists.mp (hinit e he)
    exact ⟨g, by rw [h.constructCache_eq he, hg]; rfl⟩

/-- **When the constructor succeeds**: the configuration is well-formed, and every cache accepts
its size and associativity. -/
theorem exists_construct_iff :
    (∃ turns geometries, m.construct turns numCores lineSize = .ok geometries) ↔
      m.Built numCores lineSize := by
  constructor
  · rintro ⟨turns, geometries, h⟩
    obtain ⟨st, hst, hall⟩ := construct_eq_ok_iff.mp h
    have hwf := exists_checkCacheConfig_eq_ok_iff.mp ⟨turns, st, hst⟩
    exact ⟨hwf, (mapM_constructCache_iff hwf).mp ⟨geometries, hall⟩⟩
  · rintro ⟨hwf, hinit⟩
    obtain ⟨turns, st, hst⟩ := exists_checkCacheConfig_eq_ok_iff.mpr hwf
    obtain ⟨geometries, hall⟩ := (mapM_constructCache_iff hwf).mpr hinit
    exact ⟨turns, geometries, construct_eq_ok_iff.mpr ⟨st, hst, hall⟩⟩

/-! ### Ancestors -/

variable (m) in
/-- The names above a cache, with `n` names at most. -/
def ancestors : ℕ → String → List String
  | 0, _ => []
  | n + 1, name =>
    match m.find name with
    | none => []
    | some cache =>
      if cache.parent = parentMemory then [] else cache.parent :: ancestors n cache.parent

variable (m) in
/-- The names above a cache, up to the one below the memory. -/
inductive Above : String → List String → Prop
  | top {name : String} {cache : CacheParams} : m.find name = some cache →
      cache.parent = parentMemory → Above name []
  | step {name : String} {cache : CacheParams} {above : List String} :
      m.find name = some cache → cache.parent ≠ parentMemory → Above cache.parent above →
      Above name (cache.parent :: above)

theorem Above.ancestors_eq {name : String} {above : List String} (h : m.Above name above) {n : ℕ}
    (hn : above.length ≤ n) : m.ancestors n name = above := by
  induction h generalizing n with
  | top hfind htop =>
    cases n with
    | zero => rfl
    | succ n => simp [ancestors, hfind, htop]
  | step hfind hmem _ ih =>
    obtain ⟨n, rfl⟩ : ∃ k, n = k + 1 := ⟨n - 1, by simp only [List.length_cons] at hn; omega⟩
    rw [ancestors, hfind]
    dsimp only
    rw [if_neg hmem, ih (by simpa using hn)]

theorem exists_above_of_climbs {name x : String} (h : Climbs m name x) (hx : x ≠ parentMemory) :
    ∃ above, m.Above x above := by
  induction h with
  | memory => exact absurd rfl hx
  | @step x cache _ _ hfind _ ih =>
    by_cases htop : cache.parent = parentMemory
    · exact ⟨[], .top hfind htop⟩
    · obtain ⟨above, habove⟩ := ih htop
      exact ⟨_, .step hfind htop habove⟩

theorem WellFormed.exists_above (h : m.WellFormed numCores) {e : String × CacheParams}
    (he : e ∈ m.entries) : ∃ above, m.Above e.1 above := by
  have hfind := find_eq_some_iff.mpr he
  by_cases htop : e.2.parent = parentMemory
  · exact ⟨[], .top hfind htop⟩
  · have hstands := forall_stands_iff.mpr ⟨h.core, h.parent, h.acyclic⟩
    obtain ⟨above, habove⟩ := exists_above_of_climbs ((hstands e he).2 htop) htop
    exact ⟨_, .step hfind htop habove⟩

theorem Above.transGen {name : String} {above : List String} (h : m.Above name above) {x : String}
    (hx : x ∈ above) : TransGen m.Link name x := by
  induction h with
  | top => cases hx
  | step hfind hmem _ ih =>
    have hlink : m.Link _ _ := ⟨_, hfind, rfl, hmem⟩
    rcases List.mem_cons.mp hx with rfl | hx
    · exact .single hlink
    · exact .head hlink (ih hx)

/-- Without cycles there are less names above a cache than there are names. -/
theorem Above.length_lt {name : String} {above : List String} (h : m.Above name above)
    (hacyclic : ∀ name, ¬TransGen m.Link name name) : above.length < m.entries.length := by
  have hmem : ∀ x ∈ name :: above, x ∈ m.entries.map Prod.fst := by
    induction h with
    | top hfind _ =>
      simpa using ⟨_, find_eq_some_iff.mp hfind⟩
    | step hfind _ _ ih =>
      rw [List.forall_mem_cons]
      exact ⟨List.mem_map_of_mem (find_eq_some_iff.mp hfind), ih⟩
  have hnodup : (name :: above).Nodup := by
    induction h with
    | top => simp
    | step hfind hne hrest ih =>
      rw [List.nodup_cons]
      refine ⟨fun hin => hacyclic _ ((Above.step hfind hne hrest).transGen hin), ih ?_⟩
      exact fun x hx => hmem x (List.mem_cons_of_mem _ hx)
  have hle := (hnodup.subperm hmem).length_le
  simp only [List.length_cons, List.length_map] at hle
  omega

/-! ### The hierarchy -/

variable (m) in
/-- The names of the caches. -/
abbrev Name : Type := {name // name ∈ m.entries.map Prod.fst}

def params (x : m.Name) : CacheParams := (m.find x).get (find_isSome_of_mem x.2)

theorem find_eq_params (x : m.Name) : m.find x = some (params x) := (Option.some_get _).symm

theorem params_mem (x : m.Name) : (x.1, params x) ∈ m.entries :=
  find_eq_some_iff.mp (find_eq_params x)

/-- The parent of a cache. -/
def parentOf (x : m.Name) : Option m.Name :=
  if (params x).parent = parentMemory then none
  else if h : (params x).parent ∈ m.entries.map Prod.fst then some ⟨(params x).parent, h⟩
  else none

/-- The children that a cache is linked to. -/
def childrenNames (x : m.Name) : List m.Name :=
  if (params x).inclusive then
    (m.entries.map Prod.fst).attach.filter fun y =>
      (params y).parent ≠ parentMemory ∧ (params y).parent = x.1
  else []

theorem parentOf_eq_some_iff {x p : m.Name} :
    parentOf x = some p ↔ (params x).parent ≠ parentMemory ∧ (params x).parent = p.1 := by
  unfold parentOf
  split_ifs with hmem hin
  · simp [hmem]
  · simp [hmem, Subtype.ext_iff]
  · simp only [ne_eq, hmem, not_false_eq_true, true_and, false_iff]
    intro heq
    exact hin (heq ▸ p.2)

theorem mem_childrenNames {x y : m.Name} (hx : (params x).inclusive = true) :
    y ∈ childrenNames x ↔ parentOf y = some x := by
  rw [childrenNames, if_pos hx, parentOf_eq_some_iff]
  simp

/-- The number of the ancestors of a cache. -/
def rankOf (x : m.Name) : ℕ := (m.ancestors m.entries.length x).length

theorem WellFormed.rankOf_lt (h : m.WellFormed numCores) {x p : m.Name}
    (hp : parentOf x = some p) : rankOf p < rankOf x := by
  obtain ⟨hmem, heq⟩ := parentOf_eq_some_iff.mp hp
  obtain ⟨above, habove⟩ := h.exists_above (params_mem p)
  have hstep : m.Above x.1 (p.1 :: above) := by
    rw [← heq]
    refine .step (find_eq_params x) hmem ?_
    rw [heq]
    exact habove
  have hlt := habove.length_lt h.acyclic
  have hlt' := hstep.length_lt h.acyclic
  rw [rankOf, rankOf, habove.ancestors_eq hlt.le, hstep.ancestors_eq hlt'.le, List.length_cons]
  exact Nat.lt_succ_self _

theorem length_ancestors_le (n : ℕ) (name : String) : (m.ancestors n name).length ≤ n := by
  induction n generalizing name with
  | zero => exact Nat.le_refl 0
  | succ n ih =>
    unfold ancestors
    split
    · exact Nat.zero_le _
    · split_ifs
      · exact Nat.zero_le _
      · exact Nat.succ_le_succ (ih _)

theorem mem_childrenNames_rankOf (h : m.WellFormed numCores) {x y : m.Name}
    (hy : y ∈ childrenNames x) : rankOf x < rankOf y := by
  by_cases hx : (params x).inclusive = true
  · exact h.rankOf_lt ((mem_childrenNames hx).mp hy)
  · rw [childrenNames, if_neg hx] at hy
    cases hy

/-- The caches that the constructor builds. -/
def hierarchy (h : m.Built numCores lineSize) : Hierarchy m.Name where
  dev x :=
    { geometry := (initCache lineSize (params x)).get (h.init (x.1, params x) (params_mem x))
      policy := (params x).replacePolicy
      parent := parentOf x
      prefetcher := if (params x).nextline then some (toInt lineSize).toNat else none
      inclusive := (params x).inclusive
      children := childrenNames x }
  rank := rankOf
  depth := m.entries.length
  rank_le_depth x := length_ancestors_le _ x.1
  rank_parent_lt _ _ hp := h.wellFormed.rankOf_lt hp
  rank_lt_child _ _ hc := mem_childrenNames_rankOf h.wellFormed hc

/-! ### L1 caches -/

variable (m) in
/-- The caches that the loop assigns to the instructions of a core. -/
def l1Icaches (core : ℕ) : List (String × CacheParams) :=
  m.entries.filter fun e => e.2.core = (core : ℤ) ∧ e.2.type ≠ .data

variable (m) in
/-- The caches that the loop assigns to the data of a core. -/
def l1Dcaches (core : ℕ) : List (String × CacheParams) :=
  m.entries.filter fun e => e.2.core = (core : ℤ) ∧ e.2.type ≠ .instruction

/-- Every core has one L1 cache of each kind. -/
theorem WellFormed.exists_l1 (h : m.WellFormed numCores) {core : ℕ} (hcore : core < numCores) :
    (∃ e, m.l1Icaches core = [e]) ∧ ∃ e, m.l1Dcaches core = [e] := by
  rw [← List.length_eq_one_iff, ← List.length_eq_one_iff, l1Icaches, l1Dcaches,
    ← List.countP_eq_length_filter, ← List.countP_eq_length_filter]
  exact ⟨h.instCaches core hcore, h.dataCaches core hcore⟩

/-! ### Inclusive caches -/

theorem Built.initCache_eq (h : m.Built numCores lineSize) (x : m.Name) :
    initCache lineSize (params x) = some ((m.hierarchy h).geometry x) := by
  rw [Hierarchy.geometry, hierarchy]
  simp

theorem Built.blockSize (h : m.Built numCores lineSize) (x : m.Name) :
    toInt lineSize = 2 ^ ((m.hierarchy h).geometry x).blockSizeBits := by
  have hinit := h.initCache_eq x
  unfold initCache at hinit
  exact cacheInit_blockSize hinit

theorem Built.nested (h : m.Built numCores lineSize)
    (hpolicy : ∀ e ∈ m.entries, e.2.replacePolicy ≠ .fifo)
    (hprefetcher : ∀ e ∈ m.entries, e.2.inclusive = true → e.2.nextline = false) :
    (m.hierarchy h).Nested where
  policy x := hpolicy _ (params_mem x)
  blockSizeBits x p _ := by
    have heq : (2 : ℤ) ^ ((m.hierarchy h).geometry x).blockSizeBits =
        2 ^ ((m.hierarchy h).geometry p).blockSizeBits :=
      (h.blockSize x).symm.trans (h.blockSize p)
    exact Nat.pow_right_injective (le_refl 2) (by exact_mod_cast heq)
  parent p hp c hc := (mem_childrenNames hp).mp hc
  prefetcher p hp := by
    have hnext := hprefetcher _ (params_mem p) hp
    simp only [hierarchy]
    rw [if_neg]
    simpa using hnext

/-- **The caches of a configuration.** If the constructor succeeds, every core has one L1 cache
for its instructions and one for its data, and after any requests and invalidations an
inclusive cache holds every line of the caches that name it as their parent. -/
theorem configured_included {turns : ℕ} {geometries : List Geometry}
    (hconstruct : m.construct turns numCores lineSize = .ok geometries)
    (hpolicy : ∀ e ∈ m.entries, e.2.replacePolicy ≠ .fifo)
    (hprefetcher : ∀ e ∈ m.entries, e.2.inclusive = true → e.2.nextline = false) :
    ∃ h : m.Built numCores lineSize,
      (∀ core < numCores, (∃ e, m.l1Icaches core = [e]) ∧ ∃ e, m.l1Dcaches core = [e]) ∧
      ∀ ops : List (CacheOp m.Name), (∀ op ∈ ops, op.isFlush = false) →
        ∀ p c : m.Name, (params p).inclusive = true → (params c).parent ≠ parentMemory →
          (params c).parent = p.1 → ∀ tag, tag ≠ tagInvalid →
            (m.hierarchy h).Has ((m.hierarchy h).after ops) c tag →
              (m.hierarchy h).Has ((m.hierarchy h).after ops) p tag := by
  have h := exists_construct_iff.mp ⟨turns, geometries, hconstruct⟩
  refine ⟨h, fun core => h.wellFormed.exists_l1, ?_⟩
  intro ops hops p c hp hmem hparent tag hvalid
  have hincl := (Hierarchy.after_orderly_included (h.nested hpolicy hprefetcher) ops hops).2
  apply hincl p hp c ?_ tag hvalid
  exact (mem_childrenNames hp).mpr (parentOf_eq_some_iff.mpr ⟨hmem, hparent⟩)

/-- One core with two L1 caches below an inclusive L2 and an inclusive LLC. -/
def singleCore : CacheMap where
  entries :=
    [("L1D", { type := .data, core := 0, size := 8192, assoc := 4, parent := "L2" }),
      ("L1I", { type := .instruction, core := 0, size := 8192, assoc := 4, parent := "L2" }),
      ("L2", { size := 65536, assoc := 16, inclusive := true, parent := "LLC" }),
      ("LLC", { size := 262144, assoc := 16, inclusive := true })]
  sorted := by decide

theorem configured_included_singleCore :
    ∃ h : singleCore.Built 1 64,
      (∃ e, singleCore.l1Dcaches 0 = [e]) ∧
      ∀ ops : List (CacheOp singleCore.Name), (∀ op ∈ ops, op.isFlush = false) →
        ∀ tag, tag ≠ tagInvalid →
          (singleCore.hierarchy h).Has ((singleCore.hierarchy h).after ops)
              ⟨"L1D", by decide⟩ tag →
            (singleCore.hierarchy h).Has ((singleCore.hierarchy h).after ops)
              ⟨"L2", by decide⟩ tag := by
  have hok : (singleCore.construct 3 1 64).isOk = true := by decide +kernel
  cases hconstruct : singleCore.construct 3 1 64 with
  | error err =>
    rw [hconstruct] at hok
    cases hok
  | ok geometries =>
    obtain ⟨h, hl1, hincl⟩ := configured_included hconstruct (by decide) (by decide)
    refine ⟨h, (hl1 0 Nat.zero_lt_one).2, fun ops hops => ?_⟩
    exact hincl ops hops ⟨"L2", by decide⟩ ⟨"L1D", by decide⟩ (by decide) (by decide) (by decide)

end CacheMap

end SagePTE.Simulator
