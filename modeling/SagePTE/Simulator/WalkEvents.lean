import Mathlib.Data.List.Forall2
import SagePTE.Simulator.Lookup
import SagePTE.Simulator.Walk

/-!
# What a walk pushes and requests

Every function of the walk appends to the result vector and to the log. This file
says for each of them what it appends, as one statement about both lists: the
vector as a list of entries of a known kind, the log through the addresses it
sends to the L1 data cache and the hit levels its searches found.

## Main definitions

* `WalkState.Emits` — what was appended between two states of a walk
* `dataAddrs`, `searches` — what the log says about addresses and hit levels
* `hostRefs`, `HostGroup`, `GuestGroup` — the entries of one guest level

## Main results

* `Walker.onePwAtHost_emits` — one walk of the host table
* `Walker.tlbMiss_emits` — the whole walk
-/

set_option autoImplicit false

namespace SagePTE.Simulator

/-! ### Emission -/

/-- Between `w` and `w'` the results `rs` and the events `es` were appended. -/
structure WalkState.Emits (w w' : WalkState) (rs : List CacheResult) (es : List WalkEvent) :
    Prop where
  res : w'.pageWalkRes = w.pageWalkRes ++ rs
  log : w'.log = w.log ++ es

namespace WalkState

theorem Emits.refl (w : WalkState) : w.Emits w [] [] := ⟨by simp, by simp⟩

theorem Emits.trans {w w' w'' : WalkState} {rs rs' : List CacheResult} {es es' : List WalkEvent}
    (h : w.Emits w' rs es) (h' : w'.Emits w'' rs' es') :
    w.Emits w'' (rs ++ rs') (es ++ es') := by
  constructor
  · rw [h'.res, h.res, List.append_assoc]
  · rw [h'.log, h.log, List.append_assoc]

theorem emits_push (w : WalkState) (r : CacheResult) : w.Emits (w.push r) [r] [] :=
  ⟨rfl, by simp [push]⟩

theorem emits_note (w : WalkState) (e : WalkEvent) : w.Emits (w.note e) [] [e] :=
  ⟨by simp [note], rfl⟩

/-- A loop whose turns emit emits what its turns do, one after the other. -/
theorem foldl_emits {α : Type} {f : WalkState → α → WalkState}
    {P : α → List CacheResult → List WalkEvent → Prop}
    {l : List α} (hf : ∀ (w : WalkState), ∀ a ∈ l, ∃ rs es, w.Emits (f w a) rs es ∧ P a rs es)
    (w : WalkState) :
    ∃ parts : List (List CacheResult × List WalkEvent),
      w.Emits (l.foldl f w) (parts.map Prod.fst).flatten (parts.map Prod.snd).flatten ∧
        List.Forall₂ (fun a p => P a p.1 p.2) l parts := by
  induction l generalizing w with
  | nil => exact ⟨[], Emits.refl w, .nil⟩
  | cons a l ih =>
    obtain ⟨rs, es, hstep, hP⟩ := hf w a (by simp)
    obtain ⟨parts, hrest, hparts⟩ := ih (fun w b hb => hf w b (by simp [hb])) (f w a)
    exact ⟨(rs, es) :: parts, by simpa using hstep.trans hrest, .cons hP hparts⟩

end WalkState

/-- The addresses sent to the L1 data cache of a core. -/
def dataAddrs (core : ℕ) (es : List WalkEvent) : List (BitVec 64) :=
  es.filterMap fun e => match e with
    | .request dev m _ => if dev = .l1d core then some m.addr else none
    | .search .. => none

/-- The searches of page-walk caches, with the hit level each one found. -/
def searches (es : List WalkEvent) : List (PwcSide × BitVec 64 × ℕ) :=
  es.filterMap fun e => match e with
    | .request .. => none
    | .search side addr _ level => some (side, addr, level)

@[simp] theorem dataAddrs_append (core : ℕ) (es es' : List WalkEvent) :
    dataAddrs core (es ++ es') = dataAddrs core es ++ dataAddrs core es' := by
  simp [dataAddrs]

@[simp] theorem searches_append (es es' : List WalkEvent) :
    searches (es ++ es') = searches es ++ searches es' := by
  simp [searches]

@[simp] theorem dataAddrs_nil (core : ℕ) : dataAddrs core [] = [] := rfl

@[simp] theorem searches_nil : searches [] = [] := rfl

@[simp] theorem dataAddrs_request (core : ℕ) (dev : DevId) (m : Memref) (r : CacheResult) :
    dataAddrs core [.request dev m r] = if dev = .l1d core then [m.addr] else [] := by
  by_cases h : dev = .l1d core <;> simp [dataAddrs, h]

@[simp] theorem dataAddrs_search (core : ℕ) (side : PwcSide) (addr : BitVec 64)
    (before : Store DevId) (level : ℕ) : dataAddrs core [.search side addr before level] = [] :=
  rfl

@[simp] theorem searches_search (side : PwcSide) (addr : BitVec 64) (before : Store DevId)
    (level : ℕ) : searches [.search side addr before level] = [(side, addr, level)] :=
  rfl

/-- What a part of the log says is put together from what the turns of a loop say. -/
theorem flatten_of_forall₂ {α β : Type} {φ : List WalkEvent → List β} (hnil : φ [] = [])
    (happ : ∀ es es', φ (es ++ es') = φ es ++ φ es') {f : α → List β} {l : List α}
    {parts : List (List CacheResult × List WalkEvent)}
    (h : List.Forall₂ (fun a p => φ p.2 = f a) l parts) :
    φ (parts.map Prod.snd).flatten = l.flatMap f := by
  induction h with
  | nil => simpa using hnil
  | cons hp _ ih => simp [happ, hp, ih]

/-! ### Levels -/

/-- The page-table levels above a hit level. -/
def levelsAbove (k : ℕ) : List (Fin 5) := [1, 2, 3, 4].filter fun level => k < level.val

theorem flatMap_levelsAbove {β : Type} (k : ℕ) (f : Fin 5 → List β) :
    (levelsAbove k).flatMap f =
      [1, 2, 3, 4].flatMap fun level => if k < level.val then f level else [] := by
  have hfilter (l : List (Fin 5)) : (l.filter fun level => k < level.val).flatMap f =
      l.flatMap fun level => if k < level.val then f level else [] := by
    induction l with
    | nil => rfl
    | cons a l ih => by_cases h : k < a.val <;> simp [h, ih]
  exact hfilter _

/-- The reference to the table of one level that translates `addr`. -/
def levelRef (r : PageTableInfo) (addr : BitVec 64) (level : Fin 5) : BitVec 64 :=
  (r.all level <<< 12) + 8 * Walker.levelIndex addr level.val

/-- The references of a walk that starts above a hit level. -/
def levelRefs (r : PageTableInfo) (addr : BitVec 64) (hitLevel : ℕ) : List (BitVec 64) :=
  (levelsAbove hitLevel).map (levelRef r addr)

theorem levelRefs_eq_flatMap (r : PageTableInfo) (addr : BitVec 64) (hitLevel : ℕ) :
    levelRefs r addr hitLevel =
      [1, 2, 3, 4].flatMap fun level =>
        if hitLevel < level.val then [levelRef r addr level] else [] := by
  rw [levelRefs, ← flatMap_levelsAbove, List.map_eq_flatMap]

/-! ### Single requests -/

/-- The answers a lookup in the data caches can give. -/
def IsCacheResult (r : CacheResult) : Prop :=
  r = .notFound ∨ r = .foundL1 ∨ r = .foundL2 ∨ r = .foundLlc

instance (r : CacheResult) : Decidable (IsCacheResult r) :=
  inferInstanceAs (Decidable (_ ∨ _))

namespace Walker

/-- A one-byte reference touches one block of any cache. -/
theorem singleBlock_reference (H : Hierarchy DevId) (dev : DevId) (type : TraceType)
    (addr : BitVec 64) : H.SingleBlock dev (reference type addr) := by
  have hend : addr + 1 - 1 = addr := BitVec.add_sub_cancel addr 1
  simp only [Hierarchy.SingleBlock, Hierarchy.firstTag, Hierarchy.finalTag, reference, hend]

/-- An L1 of the knob constructor has two ancestors, so that an answer never moves
past `FOUND_LLC`. -/
theorem isCacheResult_request {k : CacheKnobs} {H : Hierarchy DevId}
    (hH : k.hierarchy = some H) (s : Store DevId) (core : ℕ) (type : TraceType)
    (addr : BitVec 64) : IsCacheResult (H.request s (.l1d core) (reference type addr)).1 := by
  have hm := singleBlock_reference H (.l1d core) type addr
  obtain ⟨G, policy, prefetcher, hG, rfl⟩ := k.exists_of_hierarchy hH
  rw [CacheGeometries.request_fst hG policy prefetcher s (Or.inr rfl) hm]
  -- L1, L2 and LLC: the answer is shifted at most twice on its way back
  have hl1 : ((G.hierarchy policy prefetcher).dev (.l1d core)).parent = some (.l2 core) := rfl
  have hl2 : ((G.hierarchy policy prefetcher).dev (.l2 core)).parent = some .llc := rfl
  have hllc : ((G.hierarchy policy prefetcher).dev .llc).parent = none := rfl
  simp only [Hierarchy.answer, hl1, hl2, hllc, IsCacheResult]
  split_ifs <;> simp

variable (W : Walker) {k : CacheKnobs} (hH : k.hierarchy = some W.H)

include hH

theorem makeRequest_emits (core : ℕ) (w : WalkState) (type : TraceType)
    (baseAddr addrToFind : BitVec 64) (level : ℕ) :
    ∃ r es, w.Emits (W.makeRequest core w type baseAddr addrToFind level) [r] es ∧
      IsCacheResult r ∧ dataAddrs core es = [baseAddr + 8 * levelIndex addrToFind level] ∧
      searches es = [] := by
  -- one request, whose result is pushed
  set m := reference type (baseAddr + 8 * levelIndex addrToFind level) with hm
  refine ⟨(W.H.request w.store (.l1d core) m).1,
    [.request (.l1d core) m (W.H.request w.store (.l1d core) m).1], ⟨rfl, ?_⟩, ?_, ?_, rfl⟩
  · simp [makeRequest, request, WalkState.push, WalkState.note, hm]
  · rw [hm]
    exact isCacheResult_request hH _ _ _ _
  · simp [hm, reference]

omit hH

/-! ### Page-walk caches -/

theorem pwcStep_emits (core : ℕ) (side : PwcSide) (addr : BitVec 64) (acc : ℕ × WalkState)
    (i : Fin 3) :
    ∃ es, acc.2.Emits (W.pwcStep side addr acc i).2 [] es ∧ dataAddrs core es = [] ∧
      searches es = [] := by
  refine ⟨[.request (side.dev i) _ _], ⟨?_, rfl⟩, ?_, rfl⟩
  · simp [pwcStep, request, WalkState.note]
  · cases side <;> simp [PwcSide.dev]

theorem pwcStep_level_le (side : PwcSide) (addr : BitVec 64) {acc : ℕ × WalkState}
    (hacc : acc.1 ≤ 3) (i : Fin 3) : (W.pwcStep side addr acc i).1 ≤ 3 := by
  simp only [pwcStep]
  split_ifs
  · omega
  · exact hacc

theorem pwcSearch_level_le (side : PwcSide) (addr : BitVec 64) (w : WalkState) :
    (W.pwcSearch side addr w).1 ≤ 3 := by
  have h0 : ((0, w) : ℕ × WalkState).1 ≤ 3 := Nat.zero_le 3
  have h2 := W.pwcStep_level_le side addr h0 2
  exact W.pwcStep_level_le side addr (W.pwcStep_level_le side addr h2 1) 0

/-- A search pushes nothing and asks no data cache. -/
theorem pwcSearch_emits (core : ℕ) (side : PwcSide) (addr : BitVec 64) (w : WalkState) :
    ∃ es, w.Emits (W.pwcSearch side addr w).2 [] es ∧ dataAddrs core es = [] ∧
      searches es = [(side, addr, (W.pwcSearch side addr w).1)] := by
  -- the three turns, from the highest level down, and the note at the end
  obtain ⟨es2, h2, hd2, hs2⟩ := W.pwcStep_emits core side addr (0, w) 2
  obtain ⟨es1, h1, hd1, hs1⟩ := W.pwcStep_emits core side addr _ 1
  obtain ⟨es0, h0, hd0, hs0⟩ := W.pwcStep_emits core side addr _ 0
  have hnote := WalkState.emits_note ([2, 1, 0].foldl (W.pwcStep side addr) (0, w)).2
    (.search side addr w.store (W.pwcSearch side addr w).1)
  refine ⟨_, ((h2.trans h1).trans h0).trans hnote, ?_, ?_⟩
  · simp [hd2, hd1, hd0]
  · simp [hs2, hs1, hs0]

/-! ### One walk of the host table -/

end Walker

/-- The entry of one host level: a cache result above the hit level, `PWC` at it
and `ZERO` below. -/
def HostEntry (m : ℕ) (level : Fin 5) (r : CacheResult) : Prop :=
  if m < level.val then IsCacheResult r else if m = level.val then r = .pwc else r = .zero

/-- The entries of one host walk: `m - 1` times `ZERO` and one `PWC` for a hit at
level `m`, cache results for the other levels, and one for the entry fetched. -/
def HostGroup (g : List CacheResult) : Prop :=
  ∃ m ≤ 3, ∃ rs r, rs.length = 4 - m ∧ (∀ x ∈ rs, IsCacheResult x) ∧ IsCacheResult r ∧
    g = (if m = 0 then [] else List.replicate (m - 1) .zero ++ [.pwc]) ++ rs ++ [r]

theorem hostGroup_of_entries {m : ℕ} (hm : m ≤ 3) {r1 r2 r3 r4 r : CacheResult}
    (h1 : HostEntry m 1 r1) (h2 : HostEntry m 2 r2) (h3 : HostEntry m 3 r3)
    (h4 : HostEntry m 4 r4) (hr : IsCacheResult r) : HostGroup [r1, r2, r3, r4, r] := by
  refine ⟨m, hm, [r1, r2, r3, r4].drop m, r, by simp, ?_, hr, ?_⟩
  -- a hit is at one of three levels, or there is none
  all_goals
    have hcases : m = 0 ∨ m = 1 ∨ m = 2 ∨ m = 3 := by omega
    rcases hcases with rfl | rfl | rfl | rfl <;>
      simp_all [HostEntry]

namespace Walker

variable (W : Walker) {k : CacheKnobs} (hH : k.hierarchy = some W.H)

include hH

theorem hostLevel_emits (core : ℕ) (hostIt : PageTableInfo) (guestAddr : BitVec 64)
    (levelGuest m : ℕ) (w : WalkState) (level : Fin 5) :
    ∃ rs es, w.Emits (W.hostLevel core hostIt guestAddr levelGuest m w level) rs es ∧
      (∃ r, rs = [r] ∧ HostEntry m level r) ∧
      dataAddrs core es = (if m < level.val then [levelRef hostIt guestAddr level] else []) ∧
      searches es = [] := by
  -- below the level that the page-walk cache found only a zero is recorded, at it `pwc`
  by_cases hlt : m < level.val
  · obtain ⟨r, es, hemits, hr, hdata, hsearch⟩ := W.makeRequest_emits hH core w
      (W.traceType levelGuest level) (hostIt.all level <<< 12) guestAddr level.val
    refine ⟨[r], es, ?_, ⟨r, rfl, ?_⟩, ?_, hsearch⟩
    · simpa only [hostLevel, if_pos hlt] using hemits
    · simpa only [HostEntry, if_pos hlt] using hr
    · simpa only [levelRef, if_pos hlt] using hdata
  · by_cases heq : m = level.val
    · refine ⟨[.pwc], [], ?_, ⟨_, rfl, ?_⟩, by simp [hlt], rfl⟩
      · simpa only [hostLevel, if_neg hlt, if_pos heq] using w.emits_push .pwc
      · simp [HostEntry, heq]
    · refine ⟨[.zero], [], ?_, ⟨_, rfl, ?_⟩, by simp [hlt], rfl⟩
      · simpa only [hostLevel, if_neg hlt, if_neg heq] using w.emits_push .zero
      · simp [HostEntry, hlt, heq]

/-- The loop over the host levels. -/
theorem hostLevels_emits (core : ℕ) (hostIt : PageTableInfo) (guestAddr : BitVec 64)
    (levelGuest m : ℕ) (w : WalkState) :
    ∃ r1 r2 r3 r4 es, w.Emits
        ([1, 2, 3, 4].foldl (W.hostLevel core hostIt guestAddr levelGuest m) w)
        [r1, r2, r3, r4] es ∧
      (HostEntry m 1 r1 ∧ HostEntry m 2 r2 ∧ HostEntry m 3 r3 ∧ HostEntry m 4 r4) ∧
      dataAddrs core es = levelRefs hostIt guestAddr m ∧ searches es = [] := by
  obtain ⟨parts, hemits, hparts⟩ := WalkState.foldl_emits (l := [1, 2, 3, 4])
    (fun w level _ => W.hostLevel_emits hH core hostIt guestAddr levelGuest m w level) w
  have hdata := flatten_of_forall₂ (dataAddrs_nil core) (dataAddrs_append core)
    (hparts.imp fun _ _ h => h.2.1)
  have hsearch := flatten_of_forall₂ searches_nil searches_append (hparts.imp fun _ _ h => h.2.2)
  -- four turns, with one entry each
  generalize (parts.map Prod.snd).flatten = es at hemits hdata hsearch
  rcases hparts with _ | ⟨⟨⟨r1, hr1, h1⟩, -⟩, _ | ⟨⟨⟨r2, hr2, h2⟩, -⟩, _ |
    ⟨⟨⟨r3, hr3, h3⟩, -⟩, _ | ⟨⟨⟨r4, hr4, h4⟩, -⟩, _ | _⟩⟩⟩⟩
  refine ⟨r1, r2, r3, r4, es, ?_, ⟨h1, h2, h3, h4⟩, ?_, ?_⟩
  · simpa [hr1, hr2, hr3, hr4] using hemits
  · rw [hdata, levelRefs_eq_flatMap]
  · simpa using hsearch

/-- One walk of the host table that finds its record. -/
theorem onePwAtHost_emits (core : ℕ) (w : WalkState) (guestAddr offset : BitVec 64)
    (levelGuest : ℕ) {hostIt : PageTableInfo}
    (hhost : W.hostPageTable ((guestAddr >>> 12) <<< 12) = some hostIt) :
    ∃ m ≤ 3, ∃ rs es, w.Emits (W.onePwAtHost core w guestAddr offset levelGuest) rs es ∧
      HostGroup rs ∧
      dataAddrs core es = levelRefs hostIt guestAddr m ++ [(hostIt.pa <<< 12) + offset] ∧
      searches es = [(.host, guestAddr, m)] := by
  have hm := W.pwcSearch_level_le .host guestAddr w
  obtain ⟨es1, h1, hd1, hs1⟩ := W.pwcSearch_emits core .host guestAddr w
  set m := (W.pwcSearch .host guestAddr w).1
  obtain ⟨r1, r2, r3, r4, es2, h2, hentries, hd2, hs2⟩ :=
    W.hostLevels_emits hH core hostIt guestAddr levelGuest m (W.pwcSearch .host guestAddr w).2
  obtain ⟨r, es3, h3, hr, hd3, hs3⟩ := W.makeRequest_emits hH core
    ([1, 2, 3, 4].foldl (W.hostLevel core hostIt guestAddr levelGuest m)
      (W.pwcSearch .host guestAddr w).2)
    (W.traceType levelGuest 0) ((hostIt.pa <<< 12) + offset) 0 1
  obtain ⟨he1, he2, he3, he4⟩ := hentries
  -- The stub address selects entry zero, so that the base is the address.
  have hstub : 8 * levelIndex 0 1 = 0#64 := by decide
  refine ⟨m, hm, [r1, r2, r3, r4, r], es1 ++ es2 ++ es3, ?_,
    hostGroup_of_entries hm he1 he2 he3 he4 hr, ?_, ?_⟩
  · simp only [onePwAtHost, hhost]
    exact (h1.trans h2).trans h3
  · rw [hstub, BitVec.add_zero] at hd3
    simp [hd1, hd2, hd3]
  · simp [hs1, hs2, hs3]

end Walker

/-! ### The whole walk -/

/-- The entries of one guest level under a guest hit at level `k`. -/
def GuestGroup (k : ℕ) (level : Fin 5) (g : List CacheResult) : Prop :=
  if level.val < k then g = List.replicate 5 .zero
  else if level.val = k then g = List.replicate 4 .zero ++ [.pwc]
  else HostGroup g

/-- The references that fetch the guest entry of one level: a walk of the host
table for the guest table's address, then the entry itself. -/
def guestRefs (guestIt : PageTableInfo) (hostRec : Fin 5 → PageTableInfo) (vaddr : BitVec 64)
    (m : Fin 5 → ℕ) (level : Fin 5) : List (BitVec 64) :=
  levelRefs (hostRec level) (guestIt.all level <<< 12) (m level) ++
    [((hostRec level).pa <<< 12) + 8 * Walker.levelIndex vaddr level.val]

theorem shiftLeft_shiftRight_shiftLeft (x : BitVec 64) : ((x <<< 12) >>> 12) <<< 12 = x <<< 12 := by
  ext i hi
  simp only [BitVec.getElem_shiftLeft]
  by_cases h : i < 12
  · simp [h]
  · have hlt : 12 + (i - 12) < 64 := by omega
    simp [h, hlt]

namespace Walker

variable (W : Walker) {k : CacheKnobs} (hH : k.hierarchy = some W.H)

include hH

/-- One guest level whose table the host maps. -/
theorem guestLevel_emits (core : ℕ) (guestIt hostIt : PageTableInfo) (vaddr : BitVec 64)
    (k : ℕ) (w : WalkState) (level : Fin 5)
    (hhost : W.hostPageTable (guestIt.all level <<< 12) = some hostIt) :
    ∃ m rs es, w.Emits (W.guestLevel core guestIt vaddr k w level) rs es ∧
      GuestGroup k level rs ∧
      dataAddrs core es = (if k < level.val then
        levelRefs hostIt (guestIt.all level <<< 12) m ++
          [(hostIt.pa <<< 12) + 8 * levelIndex vaddr level.val] else []) ∧
      searches es = (if k < level.val then [(.host, guestIt.all level <<< 12, m)] else []) := by
  by_cases hlt : k < level.val
  · rw [← shiftLeft_shiftRight_shiftLeft] at hhost
    obtain ⟨m, -, rs, es, hemits, hgroup, hdata, hsearch⟩ := W.onePwAtHost_emits hH core w
      (guestIt.all level <<< 12) (8 * levelIndex vaddr level.val) level.val hhost
    refine ⟨m, rs, es, ?_, ?_, by simpa only [if_pos hlt] using hdata,
      by simpa only [if_pos hlt] using hsearch⟩
    · simpa only [guestLevel, if_pos hlt] using hemits
    -- above the hit level a group is that of a host walk
    · have hge : ¬ level.val < k := by omega
      have hne : level.val ≠ k := by omega
      simpa only [GuestGroup, if_neg hge, if_neg hne] using hgroup
  -- at the hit level and below it no walk is made, but five entries are pushed
  · have hzeros (r : CacheResult) : w.Emits
        (((((w.push .zero).push .zero).push .zero).push .zero).push r)
        [.zero, .zero, .zero, .zero, r] [] :=
      ((((w.emits_push .zero).trans (WalkState.emits_push _ .zero)).trans
        (WalkState.emits_push _ .zero)).trans (WalkState.emits_push _ .zero)).trans
        (WalkState.emits_push _ r)
    by_cases heq : k = level.val
    · refine ⟨0, _, [], by simpa only [guestLevel, if_neg hlt, if_pos heq] using hzeros .pwc,
        ?_, by simp [hlt], by simp [hlt]⟩
      simp [GuestGroup, heq]
    · refine ⟨0, _, [], by simpa only [guestLevel, if_neg hlt, if_neg heq] using hzeros .zero,
        ?_, by simp [hlt], by simp [hlt]⟩
      have hlt' : level.val < k := by omega
      simp [GuestGroup, hlt']

/-- The loop over the guest levels. -/
theorem guestLevels_emits (core : ℕ) (guestIt : PageTableInfo) (hostRec : Fin 5 → PageTableInfo)
    (vaddr : BitVec 64) (k : ℕ) (w : WalkState)
    (hcov : ∀ level ∈ [1, 2, 3, 4],
      W.hostPageTable (guestIt.all level <<< 12) = some (hostRec level)) :
    ∃ m g1 g2 g3 g4 es, w.Emits ([1, 2, 3, 4].foldl (W.guestLevel core guestIt vaddr k) w)
        (g1 ++ g2 ++ g3 ++ g4) es ∧
      (GuestGroup k 1 g1 ∧ GuestGroup k 2 g2 ∧ GuestGroup k 3 g3 ∧ GuestGroup k 4 g4) ∧
      dataAddrs core es = (levelsAbove k).flatMap (guestRefs guestIt hostRec vaddr m) ∧
      searches es =
        (levelsAbove k).map fun level => (.host, guestIt.all level <<< 12, m level) := by
  obtain ⟨parts, hemits, hparts⟩ := WalkState.foldl_emits (l := [1, 2, 3, 4])
    (P := fun level rs es => GuestGroup k level rs ∧ ∃ m : ℕ,
      dataAddrs core es = (if k < level.val then
        guestRefs guestIt hostRec vaddr (fun _ => m) level else []) ∧
      searches es = (if k < level.val then [(.host, guestIt.all level <<< 12, m)] else []))
    (fun w level hlevel => by
      obtain ⟨m, rs, es, hemits, hgroup, hdata, hsearch⟩ := W.guestLevel_emits hH core guestIt
        (hostRec level) vaddr k w level (hcov level hlevel)
      exact ⟨rs, es, hemits, hgroup, m, hdata, hsearch⟩) w
  -- each turn has a hit level of its own on the host side
  rcases hparts with _ | @⟨_, p1, _, _, ⟨h1, m1, hd1, hs1⟩, _ | @⟨_, p2, _, _, ⟨h2, m2, hd2, hs2⟩,
    _ | @⟨_, p3, _, _, ⟨h3, m3, hd3, hs3⟩, _ | @⟨_, p4, _, _, ⟨h4, m4, hd4, hs4⟩, _ | _⟩⟩⟩⟩
  refine ⟨![0, m1, m2, m3, m4], p1.1, p2.1, p3.1, p4.1, p1.2 ++ p2.2 ++ p3.2 ++ p4.2, ?_,
    ⟨h1, h2, h3, h4⟩, ?_, ?_⟩
  · simpa [List.append_assoc] using hemits
  · rw [flatMap_levelsAbove]
    simp [hd1, hd2, hd3, hd4, guestRefs]
  · rw [List.map_eq_flatMap, flatMap_levelsAbove]
    simp [hs1, hs2, hs3, hs4]

end Walker

/-- The shape of a recorded vector: four groups of five entries under one guest hit
level, four cache results for the data address, and the range flag. -/
def WalkShape (v : List CacheResult) : Prop :=
  v.length = 25 ∧ ∃ k ≤ 3, ∃ g1 g2 g3 g4 last flag,
    GuestGroup k 1 g1 ∧ GuestGroup k 2 g2 ∧ GuestGroup k 3 g3 ∧ GuestGroup k 4 g4 ∧
    (last.length = 4 ∧ ∀ r ∈ last, IsCacheResult r) ∧ (flag = .rangeHit ∨ flag = .rangeMiss) ∧
    v = g1 ++ g2 ++ g3 ++ g4 ++ last ++ [flag]

theorem HostGroup.length_eq {g : List CacheResult} (h : HostGroup g) : g.length = 5 := by
  obtain ⟨m, hm, rs, r, hlen, -, -, rfl⟩ := h
  by_cases h0 : m = 0
  · simp [h0] at hlen ⊢
    omega
  · simp [h0, hlen]
    omega

theorem GuestGroup.length_eq {k : ℕ} {level : Fin 5} {g : List CacheResult}
    (h : GuestGroup k level g) : g.length = 5 := by
  unfold GuestGroup at h
  split_ifs at h
  · simp [h]
  · simp [h]
  · exact h.length_eq

namespace Walker

variable (W : Walker) {k : CacheKnobs} (hH : k.hierarchy = some W.H)

include hH

/-- The whole walk, when the host maps every table of the guest record: the vector
it builds, the addresses it requests and the searches it makes. -/
theorem tlbMiss_emits (core : ℕ) (guestIt it : PageTableInfo) (hostRec : Fin 5 → PageTableInfo)
    (vaddr pageOffset : BitVec 64) (w : WalkState)
    (hcov : ∀ level ∈ [1, 2, 3, 4],
      W.hostPageTable (guestIt.all level <<< 12) = some (hostRec level)) :
    WalkShape (W.tlbMiss core guestIt it vaddr pageOffset w).pageWalkRes ∧
      ∃ k m es, (W.tlbMiss core guestIt it vaddr pageOffset w).log = w.log ++ es ∧
        dataAddrs core es = (levelsAbove k).flatMap (guestRefs guestIt hostRec vaddr m) ++
          levelRefs it ((guestIt.pa <<< 12) + pageOffset) 0 ∧
        searches es = (.guest, vaddr, k) ::
          (levelsAbove k).map fun level => (.host, guestIt.all level <<< 12, m level) := by
  -- the search and the guest levels
  set w0 : WalkState := { w with pageWalkRes := [] } with hw0
  have hk := W.pwcSearch_level_le .guest vaddr w0
  obtain ⟨es0, h0, hd0, hs0⟩ := W.pwcSearch_emits core .guest vaddr w0
  set k := (W.pwcSearch .guest vaddr w0).1
  obtain ⟨m, g1, g2, g3, g4, es1, h1, ⟨hg1, hg2, hg3, hg4⟩, hd1, hs1⟩ :=
    W.guestLevels_emits hH core guestIt hostRec vaddr k (W.pwcSearch .guest vaddr w0).2 hcov
  set w1 := [1, 2, 3, 4].foldl (W.guestLevel core guestIt vaddr k) (W.pwcSearch .guest vaddr w0).2
  set gpa := (guestIt.pa <<< 12) + pageOffset
  -- the walk of the host table for the data address, level by level
  obtain ⟨r1, f1, e1, hr1, a1, b1⟩ := W.makeRequest_emits hH core w1 .paPe1 (it.pe1 <<< 12) gpa 1
  obtain ⟨r2, f2, e2, hr2, a2, b2⟩ := W.makeRequest_emits hH core _ .paPe2 (it.pe2 <<< 12) gpa 2
  obtain ⟨r3, f3, e3, hr3, a3, b3⟩ := W.makeRequest_emits hH core _ .paPe3 (it.pe3 <<< 12) gpa 3
  obtain ⟨r4, f4, e4, hr4, a4, b4⟩ := W.makeRequest_emits hH core _ .paPe4 (it.pe4 <<< 12) gpa 4
  have hall : w0.Emits (W.tlbMiss core guestIt it vaddr pageOffset w) _ _ :=
    (((((h0.trans h1).trans e1).trans e2).trans e3).trans e4).trans
      (WalkState.emits_push _ .rangeHit)
  have hres : (W.tlbMiss core guestIt it vaddr pageOffset w).pageWalkRes =
      g1 ++ g2 ++ g3 ++ g4 ++ [r1, r2, r3, r4] ++ [.rangeHit] := by
    simpa [hw0, List.append_assoc] using hall.res
  refine ⟨⟨?_, k, hk, g1, g2, g3, g4, [r1, r2, r3, r4], .rangeHit, hg1, hg2, hg3, hg4,
    ⟨rfl, ?_⟩, Or.inl rfl, hres⟩, k, m, es0 ++ es1 ++ f1 ++ f2 ++ f3 ++ f4, ?_, ?_, ?_⟩
  · simp [hres, hg1.length_eq, hg2.length_eq, hg3.length_eq, hg4.length_eq]
  · simp [hr1, hr2, hr3, hr4]
  · simpa [hw0, List.append_assoc] using hall.log
  · rw [levelRefs_eq_flatMap]
    simp [hd0, hd1, a1, a2, a3, a4, levelRef, PageTableInfo.all]
  · simp [hs0, hs1, b1, b2, b3, b4]

end Walker

end SagePTE.Simulator
