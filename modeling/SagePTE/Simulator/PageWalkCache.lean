import SagePTE.Lib.History
import SagePTE.Simulator.Run
import SagePTE.Simulator.WalkFormat

/-!
# Page-walk caches over whole runs

A page-walk cache is a cache of the same class as the others, asked for the prefix
of an address that selects a table entry. The class divides the prefix by the size
of its lines, eight, so that eight neighbouring prefixes share one tag. It also
answers `NOT_FOUND` when it is asked for the tag of its previous request.

Both matter. A hit says no more than that one of eight prefixes has been looked up
before, and a prefix that is held goes unnoticed when it is asked for twice in a
row.

## Main definitions

* `LookedUp` — a prefix was looked up in a page-walk cache
* `heldLevel` — the highest level whose page-walk cache holds the key

## Main results

* `Walker.tlbMiss_induction` — what the steps of a walk keep, the walk keeps
* `pwc_hits_were_looked_up` — when a hit means that the prefix was walked before
* `search_finds_heldLevel_iff` — when a search finds the highest level that holds
-/

set_option autoImplicit false

namespace SagePTE.Simulator

open SimState History

/-! ### One page-walk cache -/

section Device

variable {knobs : CacheKnobs} {H : Hierarchy DevId} (hH : knobs.hierarchy = some H)

include hH

theorem isolated_pwc (side : PwcSide) (i : Fin 3) : H.Isolated (side.dev i) := by
  obtain ⟨G, policy, prefetcher, -, rfl⟩ := knobs.exists_of_hierarchy hH
  cases side <;> exact ⟨rfl, rfl, rfl⟩

/-- A page-walk cache has links to no other device. -/
theorem closed_pwc (side : PwcSide) (i : Fin 3) : H.Closed (· = side.dev i) := by
  obtain ⟨G, policy, prefetcher, -, rfl⟩ := knobs.exists_of_hierarchy hH
  constructor
  · rintro _ p rfl hp
    cases side <;> cases hp
  · rintro _ c rfl hc
    cases side <;> cases hc

/-- The tag of a prefix drops its three lowest bits. -/
theorem firstTag_pwc (side : PwcSide) (i : Fin 3) (m : Memref) :
    H.firstTag (side.dev i) m = (m.addr >>> 3).toNat := by
  obtain ⟨G, policy, prefetcher, hG, rfl⟩ := knobs.exists_of_hierarchy hH
  cases side <;> simp [Hierarchy.firstTag, Hierarchy.geometry, Geometry.computeTag,
    CacheGeometries.hierarchy, CacheGeometries.dev, PwcSide.dev, hG.pwc i]

/-- What a page-walk cache answers: `FOUND_L1` when it holds the tag and was asked
for another one before. -/
theorem request_pwc_fst (s : Store DevId) (side : PwcSide) (i : Fin 3) (type : TraceType)
    (addr : BitVec 64) :
    (H.request s (side.dev i) (Walker.reference type addr)).1 =
      if (addr >>> 3).toNat ≠ (s (side.dev i)).lastTag ∧
          (s (side.dev i)).Holds (H.geometry (side.dev i)) (addr >>> 3).toNat then .foundL1
      else .notFound := by
  have htag := firstTag_pwc hH side i (Walker.reference type addr)
  have hparent := (isolated_pwc hH side i).parent
  have hm := Walker.singleBlock_reference H (side.dev i) type addr
  obtain ⟨G, policy, prefetcher, hG, rfl⟩ := knobs.exists_of_hierarchy hH
  -- there is no parent to ask, so that the answer is `FOUND_L1` or nothing
  rw [Hierarchy.request,
    Hierarchy.requestFuel_fst _ (CacheGeometries.sameLineSize hG _ _) _ s _ _ hm,
    htag, Hierarchy.answer, hparent]
  simp only [Walker.reference]
  split_ifs <;> simp_all

/-- A request on one page-walk cache leaves every other device alone. -/
theorem request_pwc_of_ne (s : Store DevId) (side : PwcSide) (i : Fin 3) (m : Memref)
    {dev : DevId} (hdev : dev ≠ side.dev i) : (H.request s (side.dev i) m).2 dev = s dev :=
  Hierarchy.request_agrees (closed_pwc hH side i) s rfl m dev hdev

end Device

theorem PwcSide.dev_injective {side side' : PwcSide} {i j : Fin 3}
    (h : side.dev i = side'.dev j) : side = side' ∧ i = j := by
  cases side <;> cases side' <;> simp_all [PwcSide.dev]

/-! ### Induction over the steps of a walk -/

/-- What clearing the results, pushes, requests on the L1 data cache and searches
keep, a whole walk keeps. -/
theorem Walker.tlbMiss_induction (W : Walker) (core : ℕ) {P : WalkState → Prop}
    (hclear : ∀ w : WalkState, P w → P { w with pageWalkRes := [] })
    (hpush : ∀ w r, P w → P (WalkState.push w r))
    (hrequest : ∀ w m, P w → P (W.request w (.l1d core) m).2)
    (hsearch : ∀ w side addr, P w → P (W.pwcSearch side addr w).2)
    (guestIt it : PageTableInfo) (vaddr pageOffset : BitVec 64) (w : WalkState) (hw : P w) :
    P (W.tlbMiss core guestIt it vaddr pageOffset w) := by
  -- one fact for each function of the walk, callees first
  have hmake (w : WalkState) (type : TraceType) (base addr : BitVec 64) (level : ℕ) (hw : P w) :
      P (W.makeRequest core w type base addr level) := hpush _ _ (hrequest w _ hw)
  have hhostLevel (hostIt : PageTableInfo) (addr : BitVec 64) (levelGuest m : ℕ) (w : WalkState)
      (hw : P w) (level : Fin 5) : P (W.hostLevel core hostIt addr levelGuest m w level) := by
    simp only [Walker.hostLevel]
    split_ifs
    · exact hmake _ _ _ _ _ hw
    · exact hpush _ _ hw
    · exact hpush _ _ hw
  have hhost (w : WalkState) (addr offset : BitVec 64) (levelGuest : ℕ) (hw : P w) :
      P (W.onePwAtHost core w addr offset levelGuest) := by
    simp only [Walker.onePwAtHost]
    split
    · exact hw
    · refine hmake _ _ _ _ _ (List.foldlRecOn _ _ (hsearch w .host addr hw) ?_)
      intro w hw level _
      exact hhostLevel _ _ _ _ w hw level
  have hguestLevel (k : ℕ) (w : WalkState) (hw : P w) (level : Fin 5) :
      P (W.guestLevel core guestIt vaddr k w level) := by
    simp only [Walker.guestLevel]
    split_ifs
    · exact hhost _ _ _ _ hw
    · exact hpush _ _ (hpush _ _ (hpush _ _ (hpush _ _ (hpush _ _ hw))))
    · exact hpush _ _ (hpush _ _ (hpush _ _ (hpush _ _ (hpush _ _ hw))))
  have hlevels (k : ℕ) (w : WalkState) (hw : P w) :
      P ([1, 2, 3, 4].foldl (W.guestLevel core guestIt vaddr k) w) :=
    List.foldlRecOn _ _ hw fun w hw level _ => hguestLevel k w hw level
  have hguest := hlevels (W.pwcSearch .guest vaddr { w with pageWalkRes := [] }).1 _
    (hsearch _ .guest vaddr (hclear w hw))
  exact hpush _ _ (hmake _ _ _ _ _ (hmake _ _ _ _ _ (hmake _ _ _ _ _ (hmake _ _ _ _ _ hguest))))

/-! ### Lookups in page-walk caches -/

/-- One lookup in a page-walk cache: which cache, the prefix asked for, the answer. -/
structure PwcLookup where
  side : PwcSide
  level : Fin 3
  key : BitVec 64
  res : CacheResult
  deriving DecidableEq, Repr

/-- Two lookups in the same cache. -/
def PwcLookup.SameCache (l l' : PwcLookup) : Prop := l.side = l'.side ∧ l.level = l'.level

instance (l l' : PwcLookup) : Decidable (l.SameCache l') := inferInstanceAs (Decidable (_ ∧ _))

/-- The lookup an event stands for, if it is one. -/
def WalkEvent.pwcLookup : WalkEvent → Option PwcLookup
  | .request (.gpw i) m res => some ⟨.guest, i, m.addr, res⟩
  | .request (.pw i) m res => some ⟨.host, i, m.addr, res⟩
  | _ => none

/-- The lookups in page-walk caches, in order. -/
def pwcLookups (log : List WalkEvent) : List PwcLookup := log.filterMap WalkEvent.pwcLookup

@[simp] theorem pwcLookups_append (log log' : List WalkEvent) :
    pwcLookups (log ++ log') = pwcLookups log ++ pwcLookups log' := by
  simp [pwcLookups]

@[simp] theorem pwcLookups_search (side : PwcSide) (addr : BitVec 64) (before : Store DevId)
    (level : ℕ) : pwcLookups [.search side addr before level] = [] := rfl

@[simp] theorem pwcLookups_l1d (core : ℕ) (m : Memref) (res : CacheResult) :
    pwcLookups [.request (.l1d core) m res] = [] := rfl

@[simp] theorem pwcLookups_pwc (side : PwcSide) (i : Fin 3) (m : Memref) (res : CacheResult) :
    pwcLookups [.request (side.dev i) m res] = [⟨side, i, m.addr, res⟩] := by
  cases side <;> rfl

/-! ### Soundness of hits -/

/-- An earlier lookup in the same cache asked for the same prefix. -/
def KeySeen (before : List PwcLookup) (l : PwcLookup) : Prop :=
  ∃ l' ∈ before, l'.SameCache l ∧ l'.key = l.key

/-- An earlier lookup in the same cache asked for a prefix of the same line, one of
eight neighbours. -/
def LineSeen (before : List PwcLookup) (l : PwcLookup) : Prop :=
  ∃ l' ∈ before, l'.SameCache l ∧ l'.key >>> 3 = l.key >>> 3

/-- Every valid tag of a page-walk cache has been looked up there, and so has the
line of every hit. -/
structure PwcInvariant (w : WalkState) : Prop where
  tags : ∀ (side : PwcSide) (i : Fin 3) (n : ℕ),
    ((w.store (side.dev i)).blocks n).tag = tagInvalid ∨
      ∃ l ∈ pwcLookups w.log, l.side = side ∧ l.level = i ∧
        (l.key >>> 3).toNat = ((w.store (side.dev i)).blocks n).tag
  hits : Throughout (fun before l => l.res = .foundL1 → LineSeen before l) (pwcLookups w.log)

/-- A change that touches neither the page-walk caches nor the lookups. -/
theorem PwcInvariant.of_agrees {w w' : WalkState} (h : PwcInvariant w)
    (hstore : Store.Agrees DevId.IsData w.store w'.store)
    (hlog : pwcLookups w'.log = pwcLookups w.log) : PwcInvariant w' := by
  constructor
  · intro side i n
    rw [hstore _ (side.not_isData_dev i), hlog]
    exact h.tags side i n
  · rw [hlog]
    exact h.hits

section Walks

variable {W : Walker} {knobs : CacheKnobs} (hH : knobs.hierarchy = some W.H)

include hH

/-- A lookup keeps the invariant: a hit finds its tag among those looked up
before, and the only tag it can add is its own. -/
theorem PwcInvariant.request_pwc {w : WalkState} (h : PwcInvariant w) (side : PwcSide)
    (i : Fin 3) (type : TraceType) (key : BitVec 64) :
    PwcInvariant (W.request w (side.dev i) (Walker.reference type key)).2 := by
  set m := Walker.reference type key with hm
  have hkey : m.addr = key := rfl
  have hlookups : pwcLookups (W.request w (side.dev i) m).2.log =
      pwcLookups w.log ++ [⟨side, i, key, (W.H.request w.store (side.dev i) m).1⟩] := by
    simp [Walker.request, WalkState.note, hkey]
  constructor
  · intro side' j n
    rw [hlookups]
    -- the cache that was asked may have a new tag, the others are as before
    by_cases hdev : side'.dev j = side.dev i
    · obtain ⟨rfl, rfl⟩ := PwcSide.dev_injective hdev
      have htag := (isolated_pwc hH side' j).request_tag w.store
        (Walker.singleBlock_reference W.H (side'.dev j) type key) n
      rw [firstTag_pwc hH, ← hm] at htag
      rcases htag with hold | hnew
      · rcases h.tags side' j n with hinvalid | ⟨l, hl, hside, hlevel, hline⟩
        · exact .inl (hold.trans hinvalid)
        · exact .inr ⟨l, by simp [hl], hside, hlevel, hline.trans hold.symm⟩
      · exact .inr ⟨_, List.mem_append_right _ (List.mem_singleton_self _), rfl, rfl, hnew.symm⟩
    · have hsame : (W.request w (side.dev i) m).2.store (side'.dev j) = w.store (side'.dev j) :=
        request_pwc_of_ne hH w.store side i m hdev
      rw [hsame]
      rcases h.tags side' j n with hinvalid | ⟨l, hl, hrest⟩
      · exact .inl hinvalid
      · exact .inr ⟨l, by simp [hl], hrest⟩
  · rw [hlookups, throughout_concat]
    refine ⟨h.hits, fun hfound => ?_⟩
    -- A hit means that some block holds the tag, and a key is never the invalid tag.
    rw [hm, request_pwc_fst hH] at hfound
    split_ifs at hfound with hheld
    obtain ⟨way, -, hway⟩ := hheld.2
    have hvalid : (key >>> 3).toNat ≠ tagInvalid := by
      rw [← hkey, ← firstTag_pwc hH side i m]
      exact (W.H.geometry (side.dev i)).computeTag_ne_tagInvalid key
    rcases h.tags side i _ with hinvalid | ⟨l, hl, hside, hlevel, hline⟩
    · exact (hvalid (hway.symm.trans hinvalid)).elim
    · exact ⟨l, hl, ⟨hside, hlevel⟩, BitVec.eq_of_toNat_eq (hline.trans hway)⟩

theorem PwcInvariant.pwcSearch {w : WalkState} (h : PwcInvariant w) (side : PwcSide)
    (addr : BitVec 64) : PwcInvariant (W.pwcSearch side addr w).2 := by
  have hloop : PwcInvariant ([2, 1, 0].foldl (W.pwcStep side addr) (0, w)).2 := by
    refine List.foldlRecOn [2, 1, 0] (W.pwcStep side addr)
      (motive := fun acc : ℕ × WalkState => PwcInvariant acc.2) h ?_
    intro acc hacc i _
    exact hacc.request_pwc hH side i .read _
  exact hloop.of_agrees (.refl _) (by simp [Walker.pwcSearch, WalkState.note])

theorem PwcInvariant.tlbMiss {w : WalkState} (h : PwcInvariant w) (core : ℕ)
    (guestIt it : PageTableInfo) (vaddr pageOffset : BitVec 64) :
    PwcInvariant (W.tlbMiss core guestIt it vaddr pageOffset w) := by
  refine W.tlbMiss_induction core ?_ ?_ ?_ ?_ guestIt it vaddr pageOffset w h
  -- only the searches ask page-walk caches
  · exact fun w hw => hw.of_agrees (.refl _) rfl
  · exact fun w r hw => hw.of_agrees (.refl _) rfl
  · intro w m hw
    have hl1d : (DevId.l1d core).IsData := trivial
    refine hw.of_agrees (Hierarchy.request_agrees (knobs.closed_isData hH) _ hl1d m) ?_
    simp [Walker.request, WalkState.note]
  · exact fun w side addr hw => hw.pwcSearch hH side addr

end Walks

theorem pwcInvariant_initial (C : SimConfig) : PwcInvariant C.initial.walk := by
  refine ⟨fun side i n => .inl ?_, throughout_nil⟩
  simp only [SimConfig.initial, Hierarchy.initialStore]
  cases (C.H.dev (side.dev i)).policy with
  | lru | lfu => rfl
  | fifo =>
    simp only [DeviceState.initial]
    split_ifs <;> rfl

theorem pwcInvariant_run {knobs : CacheKnobs} {C : SimConfig} (hH : knobs.hierarchy = some C.H)
    (trace : List Memref) : PwcInvariant (C.run trace).walk := by
  refine C.run_induction (P := fun σ => PwcInvariant σ.walk) (pwcInvariant_initial C) ?_ trace
  intro σ m hσ
  -- outside of the walk the page-walk caches are left alone
  have hquiet {σ₁ σ₂ : SimState} (h : σ₁.Quiet σ₂) (h₁ : PwcInvariant σ₁.walk) :
      PwcInvariant σ₂.walk := h₁.of_agrees h.store (by rw [h.log])
  rcases processMemref_cases hH σ m with h | ⟨core, guestIt, it, σ₁, hbefore, -, -, hafter⟩
  · exact hquiet h hσ
  · exact hquiet hafter ((hquiet hbefore hσ).tlbMiss (W := C.walker) hH core guestIt it _ _)

/-- **Soundness of hits.** In every run in which each lookup of a line seen before
asks for a prefix seen before, a hit is reported only for a prefix that was looked
up before in the same page-walk cache. -/
theorem pwc_hits_were_looked_up {knobs : CacheKnobs} {C : SimConfig}
    (hH : knobs.hierarchy = some C.H) (trace : List Memref)
    (hlines : Throughout (fun before l => LineSeen before l → KeySeen before l)
      (pwcLookups (C.run trace).walk.log)) :
    Throughout (fun before l => l.res = .foundL1 → KeySeen before l)
      (pwcLookups (C.run trace).walk.log) := by
  intro before l after heq hfound
  -- the invariant gives the line, the hypothesis the prefix itself
  have hline := (pwcInvariant_run hH trace).hits before l after heq hfound
  exact hlines before l after heq hline

instance (before : List PwcLookup) (l : PwcLookup) : Decidable (KeySeen before l) :=
  inferInstanceAs (Decidable (∃ l' ∈ before, _))

instance (before : List PwcLookup) (l : PwcLookup) : Decidable (LineSeen before l) :=
  inferInstanceAs (Decidable (∃ l' ∈ before, _))

/-- The lookups of three walks over pages with the level-three keys 0, 8 and `key`,
which shares the line of 0. The third walk finds its key at level three and goes on
with the last guest level. -/
def threeWalks (key : BitVec 64) : List PwcLookup :=
  let search (side : PwcSide) (k : BitVec 64) (res : CacheResult) : List PwcLookup :=
    [⟨side, 2, k, res⟩, ⟨side, 1, 0, .notFound⟩, ⟨side, 0, 0, .notFound⟩]
  let host := search .host 0 .notFound
  search .guest 0 .notFound ++ host ++ host ++ host ++ host ++
    (search .guest 8 .notFound ++ host ++ host ++ host ++ host) ++
    (search .guest key .foundL1 ++ host)

/-- Walks over the keys 0, 8 and 0: the hit of the third one was looked up before. -/
theorem hit_of_key_seen_before :
    Throughout (fun before l => l.res = .foundL1 → KeySeen before l)
      (pwcLookups ((sampleConfig [0x7000, 0x1000000, 0x8000]).run
        [readAt 0x7010, readAt 0x1000010, readAt 0x8010]).walk.log) := by
  have hlookups : pwcLookups ((sampleConfig [0x7000, 0x1000000, 0x8000]).run
      [readAt 0x7010, readAt 0x1000010, readAt 0x8010]).walk.log = threeWalks 0 := by
    decide +kernel
  refine pwc_hits_were_looked_up defaultHierarchy_eq _ ?_
  rw [hlookups, throughout_iff_getElem?]
  decide +kernel

/-- Walks over the keys 0, 8 and 1: the third one reports a hit for a key that has
never been looked up. -/
theorem hit_of_key_never_seen :
    ¬ Throughout (fun before l => l.res = .foundL1 → KeySeen before l)
      (pwcLookups ((sampleConfig [0x7000, 0x1000000, 0x200000]).run
        [readAt 0x7010, readAt 0x1000010, readAt 0x200010]).walk.log) := by
  have hlookups : pwcLookups ((sampleConfig [0x7000, 0x1000000, 0x200000]).run
      [readAt 0x7010, readAt 0x1000010, readAt 0x200010]).walk.log = threeWalks 1 := by
    decide +kernel
  rw [hlookups]
  intro h
  -- the thirty-first lookup is the hit of the third walk
  have hseen := h.getElem? (n := 30) (e := ⟨.guest, 2, 1, .foundL1⟩) (by decide) rfl
  exact absurd hseen (by decide)

/-! ### Completeness of searches -/

/-- The level-`i` page-walk cache holds a valid block for the key of `addr`. -/
def KeyHeld (H : Hierarchy DevId) (s : Store DevId) (side : PwcSide) (addr : BitVec 64)
    (i : Fin 3) : Prop :=
  (s (side.dev i)).Holds (H.geometry (side.dev i))
    (H.firstTag (side.dev i) (Walker.reference .read (Walker.levelPrefix addr (i.val + 1))))

/-- The level-`i` page-walk cache was asked for the key of `addr` last. -/
def KeyAskedLast (H : Hierarchy DevId) (s : Store DevId) (side : PwcSide) (addr : BitVec 64)
    (i : Fin 3) : Prop :=
  H.firstTag (side.dev i) (Walker.reference .read (Walker.levelPrefix addr (i.val + 1))) =
    (s (side.dev i)).lastTag

instance (H : Hierarchy DevId) (s : Store DevId) (side : PwcSide) (addr : BitVec 64)
    (i : Fin 3) : Decidable (KeyHeld H s side addr i) :=
  inferInstanceAs (Decidable (DeviceState.Holds ..))

instance (H : Hierarchy DevId) (s : Store DevId) (side : PwcSide) (addr : BitVec 64)
    (i : Fin 3) : Decidable (KeyAskedLast H s side addr i) :=
  inferInstanceAs (Decidable (_ = _))

/-- The level-`i` page-walk cache reports the key of `addr` as found. -/
def KeyFound (H : Hierarchy DevId) (s : Store DevId) (side : PwcSide) (addr : BitVec 64)
    (i : Fin 3) : Prop :=
  KeyHeld H s side addr i ∧ ¬ KeyAskedLast H s side addr i

instance (H : Hierarchy DevId) (s : Store DevId) (side : PwcSide) (addr : BitVec 64)
    (i : Fin 3) : Decidable (KeyFound H s side addr i) :=
  inferInstanceAs (Decidable (_ ∧ _))

theorem keyFound_congr (H : Hierarchy DevId) {s s' : Store DevId} {side : PwcSide}
    (addr : BitVec 64) {i : Fin 3} (h : s (side.dev i) = s' (side.dev i)) :
    KeyFound H s side addr i ↔ KeyFound H s' side addr i := by
  simp only [KeyFound, KeyHeld, KeyAskedLast, h]

/-- The highest level with a property, counted from one, or zero. -/
def highestLevel (P : Fin 3 → Prop) [DecidablePred P] : ℕ :=
  if P 2 then 3 else if P 1 then 2 else if P 0 then 1 else 0

theorem highestLevel_and_not_eq_iff (P L : Fin 3 → Prop) [DecidablePred P] [DecidablePred L] :
    (highestLevel fun i => P i ∧ ¬ L i) = highestLevel P ↔
      ∀ i : Fin 3, highestLevel P = i.val + 1 → ¬ L i := by
  simp only [highestLevel, Fin.forall_fin_succ]
  -- from the highest level down: at the first one with `P` it depends on `L`
  by_cases h2 : P 2
  · by_cases hl2 : L 2
    · have hlow : (if P 1 ∧ ¬ L 1 then 2 else if P 0 ∧ ¬ L 0 then 1 else 0) < 3 := by
        split_ifs <;> decide
      simp [h2, hl2, hlow.ne]
    · simp [h2, hl2]
  · by_cases h1 : P 1
    · by_cases hl1 : L 1
      · have hlow : (if P 0 ∧ ¬ L 0 then 1 else 0) < 2 := by
          split_ifs <;> decide
        simp [h2, h1, hl1, hlow.ne]
      · simp [h2, h1, hl1]
    · by_cases h0 : P 0
      · by_cases hl0 : L 0 <;> simp [h2, h1, h0, hl0]
      · simp [h2, h1, h0]

/-- The highest level whose page-walk cache holds the key, or zero. -/
def heldLevel (H : Hierarchy DevId) (s : Store DevId) (side : PwcSide) (addr : BitVec 64) : ℕ :=
  highestLevel (KeyHeld H s side addr)

section Search

variable {W : Walker} {knobs : CacheKnobs} (hH : knobs.hierarchy = some W.H)

include hH

/-- One turn of the search finds its level when the key is held and was not the
last one asked for. -/
theorem pwcStep_fst (side : PwcSide) (addr : BitVec 64) (acc : ℕ × WalkState) (i : Fin 3) :
    (W.pwcStep side addr acc i).1 =
      if KeyFound W.H acc.2.store side addr i ∧ acc.1 = 0 then i.val + 1 else acc.1 := by
  have hfound : (W.request acc.2 (side.dev i)
      (Walker.reference .read (Walker.levelPrefix addr (i.val + 1)))).1 = .foundL1 ↔
        KeyFound W.H acc.2.store side addr i := by
    simp only [Walker.request, KeyFound, KeyHeld, KeyAskedLast, firstTag_pwc hH]
    rw [request_pwc_fst hH]
    simp only [Walker.reference]
    split_ifs with h
    · simpa using ⟨h.2, h.1⟩
    · simp only [false_iff]
      exact fun hheld => h ⟨hheld.2, hheld.1⟩
  simp only [Walker.pwcStep, hfound]

theorem pwcStep_store_of_ne (side : PwcSide) (addr : BitVec 64) (acc : ℕ × WalkState)
    {i j : Fin 3} (hij : j ≠ i) :
    (W.pwcStep side addr acc i).2.store (side.dev j) = acc.2.store (side.dev j) :=
  request_pwc_of_ne hH _ side i _ fun h => hij (PwcSide.dev_injective h).2

/-- The level a search finds, read off the state before it. -/
theorem pwcSearch_fst (w : WalkState) (side : PwcSide) (addr : BitVec 64) :
    (W.pwcSearch side addr w).1 = highestLevel (KeyFound W.H w.store side addr) := by
  set acc2 := W.pwcStep side addr (0, w) 2 with hacc2
  set acc1 := W.pwcStep side addr acc2 1 with hacc1
  -- The turns ask different caches, so that each finds its cache as it was before.
  have h1 : acc2.2.store (side.dev 1) = w.store (side.dev 1) :=
    pwcStep_store_of_ne hH side addr (0, w) (by decide)
  have h0 : acc1.2.store (side.dev 0) = w.store (side.dev 0) :=
    (pwcStep_store_of_ne hH side addr acc2 (by decide)).trans
      (pwcStep_store_of_ne hH side addr (0, w) (by decide))
  have hlevel2 : acc2.1 = if KeyFound W.H w.store side addr 2 then 3 else 0 := by
    rw [hacc2, pwcStep_fst hH]
    simp
  have hlevel1 : acc1.1 =
      if KeyFound W.H w.store side addr 1 ∧ acc2.1 = 0 then 2 else acc2.1 := by
    rw [hacc1, pwcStep_fst hH]
    simp only [keyFound_congr W.H addr h1]
    rfl
  have hlevel0 : (W.pwcSearch side addr w).1 =
      if KeyFound W.H w.store side addr 0 ∧ acc1.1 = 0 then 1 else acc1.1 := by
    simp only [← keyFound_congr W.H addr h0]
    exact pwcStep_fst hH side addr acc1 0
  rw [hlevel0, hlevel1, hlevel2, highestLevel]
  split_ifs <;> simp_all

/-- The searches in a log found what their caches report. -/
def SearchesReported (H : Hierarchy DevId) (log : List WalkEvent) : Prop :=
  ∀ side addr before level, WalkEvent.search side addr before level ∈ log →
    level = highestLevel (KeyFound H before side addr)

omit hH in
theorem SearchesReported.request {w : WalkState} (h : SearchesReported W.H w.log) (dev : DevId)
    (m : Memref) : SearchesReported W.H (W.request w dev m).2.log := by
  intro side addr before level hmem
  rcases List.mem_append.mp hmem with hold | hnew
  · exact h side addr before level hold
  · cases List.mem_singleton.mp hnew

theorem SearchesReported.pwcSearch {w : WalkState} (h : SearchesReported W.H w.log)
    (side : PwcSide) (addr : BitVec 64) :
    SearchesReported W.H (W.pwcSearch side addr w).2.log := by
  have hloop : SearchesReported W.H ([2, 1, 0].foldl (W.pwcStep side addr) (0, w)).2.log := by
    refine List.foldlRecOn [2, 1, 0] (W.pwcStep side addr)
      (motive := fun acc : ℕ × WalkState => SearchesReported W.H acc.2.log) h ?_
    intro acc hacc i _
    exact hacc.request _ _
  -- the search itself is the last event of the log
  intro side' addr' before level hmem
  rcases List.mem_append.mp hmem with hold | hnew
  · exact hloop side' addr' before level hold
  · cases List.mem_singleton.mp hnew
    exact pwcSearch_fst hH w side addr

theorem SearchesReported.tlbMiss {w : WalkState} (h : SearchesReported W.H w.log) (core : ℕ)
    (guestIt it : PageTableInfo) (vaddr pageOffset : BitVec 64) :
    SearchesReported W.H (W.tlbMiss core guestIt it vaddr pageOffset w).log := by
  refine W.tlbMiss_induction core (P := fun w => SearchesReported W.H w.log) ?_ ?_ ?_ ?_
    guestIt it vaddr pageOffset w h
  · exact fun w hw => hw
  · exact fun w r hw => hw
  · exact fun w m hw => hw.request _ m
  · exact fun w side addr hw => hw.pwcSearch hH side addr

end Search

theorem searchesReported_run {knobs : CacheKnobs} {C : SimConfig}
    (hH : knobs.hierarchy = some C.H) (trace : List Memref) :
    SearchesReported C.H (C.run trace).walk.log := by
  refine C.run_induction (P := fun σ => SearchesReported C.H σ.walk.log) ?_ ?_ trace
  · intro side addr before level hmem
    cases hmem
  · intro σ m hσ
    rcases processMemref_cases hH σ m with h | ⟨core, guestIt, it, σ₁, hbefore, -, -, hafter⟩
    · rwa [h.log]
    · rw [hafter.log]
      have hσ₁ : SearchesReported C.H σ₁.walk.log := by rwa [hbefore.log]
      exact SearchesReported.tlbMiss (W := C.walker) hH hσ₁ core guestIt it _ _

/-- **When a search finds the highest level that holds the key.** For every search
of page-walk caches in every run, on either side, the hit level is the highest level
that held the key just before the search if and only if the cache of that level was
not asked for the key last. -/
theorem search_finds_heldLevel_iff {knobs : CacheKnobs} {C : SimConfig}
    (hH : knobs.hierarchy = some C.H) (trace : List Memref) {side : PwcSide} {addr : BitVec 64}
    {before : Store DevId} {level : ℕ}
    (hmem : WalkEvent.search side addr before level ∈ (C.run trace).walk.log) :
    level = heldLevel C.H before side addr ↔
      ∀ i : Fin 3, heldLevel C.H before side addr = i.val + 1 →
        ¬ KeyAskedLast C.H before side addr i := by
  rw [searchesReported_run hH trace side addr before level hmem]
  exact highestLevel_and_not_eq_iff _ _

/-- Whether an event is a guest search for a page, with a given outcome. -/
def WalkEvent.isGuestSearch (page : BitVec 64) (level held : ℕ) : WalkEvent → Bool
  | .search side addr before found => side == .guest && addr == page && found == level &&
    heldLevel defaultHierarchy before side addr == held
  | .request .. => false

theorem exists_search_of_any {page : BitVec 64} {level held : ℕ} {log : List WalkEvent}
    (h : log.any (WalkEvent.isGuestSearch page level held) = true) :
    ∃ before, WalkEvent.search .guest page before level ∈ log ∧
      heldLevel defaultHierarchy before .guest page = held := by
  obtain ⟨e, hmem, he⟩ := List.any_eq_true.mp h
  cases e with
  | request => cases he
  | search side addr before found =>
    simp only [WalkEvent.isGuestSearch, Bool.and_eq_true, beq_iff_eq] at he
    obtain ⟨⟨⟨rfl, rfl⟩, rfl⟩, hheld⟩ := he
    exact ⟨before, hmem, hheld⟩

/-- The third of the walks over the keys 0, 8 and 0 finds level three, which holds
the key and was asked for another one before. -/
theorem search_finds_level_three :
    ∃ before, WalkEvent.search .guest 0x8000 before 3 ∈
        ((sampleConfig [0x7000, 0x1000000, 0x8000]).run
          [readAt 0x7010, readAt 0x1000010, readAt 0x8010]).walk.log ∧
      ∀ i : Fin 3, heldLevel defaultHierarchy before .guest 0x8000 = i.val + 1 →
        ¬ KeyAskedLast defaultHierarchy before .guest 0x8000 i := by
  have hany : ((sampleConfig [0x7000, 0x1000000, 0x8000]).run
      [readAt 0x7010, readAt 0x1000010, readAt 0x8010]).walk.log.any
        (WalkEvent.isGuestSearch 0x8000 3 3) = true := by decide +kernel
  obtain ⟨before, hmem, hheld⟩ := exists_search_of_any hany
  exact ⟨before, hmem, (search_finds_heldLevel_iff defaultHierarchy_eq _ hmem).mp hheld.symm⟩

/-- Two walks of one page in a row: the second search finds level zero, although
level three holds the key. -/
theorem repeated_walk_finds_nothing :
    ∃ before, WalkEvent.search .guest 0x7000 before 0 ∈
        ((sampleConfig [0x7000]).run
          [readAt 0x7010, { readAt 0x7010 with type := .prefetch }]).walk.log ∧
      heldLevel defaultHierarchy before .guest 0x7000 = 3 := by
  have hany : ((sampleConfig [0x7000]).run
      [readAt 0x7010, { readAt 0x7010 with type := .prefetch }]).walk.log.any
        (WalkEvent.isGuestSearch 0x7000 0 3) = true := by decide +kernel
  exact exists_search_of_any hany

end SagePTE.Simulator
