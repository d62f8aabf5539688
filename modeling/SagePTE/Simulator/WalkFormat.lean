import SagePTE.Simulator.Run
import SagePTE.Simulator.WalkEvents

/-!
# The recorded vectors and the addresses behind them

With every guest table mapped by the host, a TLB miss pushes one entry for each of
the twenty-four references of a two-dimensional walk and the range flag, and sends
to the L1 data cache the references of the architectural walk that no page-walk
cache covers.

## Main definitions

* `SimConfig.Covered` — the host maps every table of every guest record

## Main results

* `recorded_walks_have_shape` — the vectors in the histogram
* `translate_walk_addresses` — the addresses of a walk
-/

set_option autoImplicit false

namespace SagePTE.Simulator

open SimState

/-! ### The histogram -/

theorem Histogram.key_of_mem_bump {v : List CacheResult} {h : Histogram}
    {e : List CacheResult × ℕ} (he : e ∈ Histogram.bump v h) : e.1 = v ∨ ∃ e' ∈ h, e'.1 = e.1 := by
  induction h with
  | nil =>
    left
    simp only [Histogram.bump, List.mem_singleton] at he
    rw [he]
  | cons a h ih =>
    obtain ⟨u, n⟩ := a
    simp only [Histogram.bump] at he
    split_ifs at he with heq
    · rcases List.mem_cons.mp he with rfl | hmem
      · exact .inl heq
      · exact .inr ⟨e, List.mem_cons_of_mem _ hmem, rfl⟩
    · rcases List.mem_cons.mp he with rfl | hmem
      · exact .inl rfl
      · exact .inr ⟨e, hmem, rfl⟩
    · rcases List.mem_cons.mp he with rfl | hmem
      · exact .inr ⟨(u, n), by simp, rfl⟩
      · rcases ih hmem with hv | ⟨e', he', hkey⟩
        · exact .inl hv
        · exact .inr ⟨e', List.mem_cons_of_mem _ he', hkey⟩

/-! ### The shape of recorded vectors -/

/-- The frames of the tables of every guest record are keys of the host table. -/
def SimConfig.Covered (C : SimConfig) : Prop :=
  ∀ page r, C.pageTable page = some r →
    ∀ level ∈ [1, 2, 3, 4], (C.hostPageTable (r.all level <<< 12)).isSome

theorem SimConfig.Covered.exists_hostRec {C : SimConfig} (hcov : C.Covered) {page : BitVec 64}
    {r : PageTableInfo} (hr : C.pageTable page = some r) :
    ∃ hostRec : Fin 5 → PageTableInfo,
      ∀ level ∈ [1, 2, 3, 4], C.hostPageTable (r.all level <<< 12) = some (hostRec level) := by
  refine ⟨fun level => (C.hostPageTable (r.all level <<< 12)).getD r, fun level hlevel => ?_⟩
  obtain ⟨hostIt, hhost⟩ := Option.isSome_iff_exists.mp (hcov page r hr level hlevel)
  simp only [hhost, Option.getD_some]

section

variable {knobs : CacheKnobs} {C : SimConfig} (hH : knobs.hierarchy = some C.H)

include hH

theorem SimState.recordWalk_shape (hcov : C.Covered) (σ : SimState) (core : ℕ)
    {guestIt : PageTableInfo} (it : PageTableInfo) {m : Memref}
    (hguest : C.pageTable (virtualPage m) = some guestIt) :
    ∃ v, WalkShape v ∧ (σ.recordWalk C core guestIt it m).hm = σ.hm.bump v := by
  obtain ⟨hostRec, hhost⟩ := hcov.exists_hostRec hguest
  have hemits := C.walker.tlbMiss_emits hH core guestIt it hostRec (virtualPage m) (pageOffset m)
    σ.walk hhost
  exact ⟨_, hemits.1, rfl⟩

/-- Every vector that a run has counted has the shape of a walk. -/
theorem run_hm_walkShape (hcov : C.Covered) (trace : List Memref) :
    ∀ e ∈ (C.run trace).hm, WalkShape e.1 := by
  refine C.run_induction (P := fun σ => ∀ e ∈ σ.hm, WalkShape e.1) (by simp [SimConfig.initial])
    ?_ trace
  intro σ m hσ
  -- A quiet change keeps the histogram or clears it.
  have hquiet {σ₁ σ₂ : SimState} (h : σ₁.Quiet σ₂) (hσ₁ : ∀ e ∈ σ₁.hm, WalkShape e.1) :
      ∀ e ∈ σ₂.hm, WalkShape e.1 := by
    rcases h.hm with heq | hnil
    · rwa [heq]
    · simp [hnil]
  rcases processMemref_cases hH σ m with h | ⟨core, guestIt, it, σ₁, hbefore, hguest, -, hafter⟩
  · exact hquiet h hσ
  · obtain ⟨v, hv, hhm⟩ := σ₁.recordWalk_shape hH hcov core it hguest
    refine hquiet hafter fun e he => ?_
    rw [hhm] at he
    rcases Histogram.key_of_mem_bump he with hkey | ⟨e', he', hkey⟩
    · exact hkey ▸ hv
    · exact hkey ▸ hquiet hbefore hσ e' he'

/-- **The recorded vectors.** In every reachable state each vector in the histogram
has the shape of a two-dimensional walk, and each further record that misses the
TLBs and has both translations counts one more such vector. -/
theorem recorded_walks_have_shape (hcov : C.Covered) (trace : List Memref) :
    (∀ e ∈ (C.run trace).hm, WalkShape e.1) ∧
      ∀ m core σ guestIt it, (C.run trace).scheduleRef C m = .ok (core, σ) →
        (σ.tlbLookup C m).1 = false → C.pageTable (virtualPage m) = some guestIt →
        C.hostPageTable (guestIt.pa <<< 12) = some it →
        ∃ v m' σ', WalkShape v ∧ σ.translate C core m = .ok (m', σ') ∧ σ'.hm = σ.hm.bump v := by
  refine ⟨run_hm_walkShape hH hcov trace, ?_⟩
  intro m core σ guestIt it _ hmiss hguest hhost
  obtain ⟨v, hv, hhm⟩ := (σ.tlbLookup C m).2.recordWalk_shape hH hcov core it hguest
  exact ⟨v, _, _, hv, σ.translate_of_miss core hmiss hguest hhost, hhm⟩

end

/-- The default caches and TLBs over a guest that maps some pages through the table
frames 1 to 4 to the data frame 5, and a host that maps these five frames. -/
def sampleConfig (pages : List (BitVec 64)) : SimConfig where
  H := defaultHierarchy
  tlbs := defaultTlbs
  pageTable := .ofList (pages.map fun page => (page, ⟨1, 2, 3, 4, 5⟩))
  hostPageTable := .ofList ([0x1000, 0x2000, 0x3000, 0x4000, 0x5000].map fun gpa =>
    (gpa, ⟨0x11, 0x12, 0x13, 0x14, 0x15⟩))

theorem sampleConfig_covered (pages : List (BitVec 64)) : (sampleConfig pages).Covered := by
  intro page r hr
  have hmem := PageTable.mem_of_ofList hr
  obtain ⟨page', -, heq⟩ := List.mem_map.mp hmem
  cases heq
  show ∀ level ∈ [1, 2, 3, 4], ((sampleConfig []).hostPageTable
    ((⟨1, 2, 3, 4, 5⟩ : PageTableInfo).all level <<< 12)).isSome
  decide

/-- The first read of a page records one vector, which has the shape. -/
theorem first_read_records_shape :
    ∃ e ∈ ((sampleConfig [0x7000]).run [readAt 0x7010]).hm, WalkShape e.1 := by
  have hone : ((sampleConfig [0x7000]).run [readAt 0x7010]).hm.length = 1 := by decide +kernel
  obtain ⟨e, he⟩ := List.length_eq_one_iff.mp hone
  have hmem : e ∈ ((sampleConfig [0x7000]).run [readAt 0x7010]).hm := by
    rw [he]
    exact List.mem_singleton_self e
  exact ⟨e, hmem,
    (recorded_walks_have_shape defaultHierarchy_eq (sampleConfig_covered _) _).1 e hmem⟩

/-! ### The addresses of a walk -/

namespace Walker

theorem levelIndex_congr {a b : BitVec 64} (h : a >>> 12 = b >>> 12) (level : ℕ) :
    levelIndex a level = levelIndex b level := by
  simp only [levelIndex, levelPrefix, BitVec.shiftRight_add, h]

/-- The offset of a page does not reach the table indices. -/
theorem add_offset_shiftRight (frame addr : BitVec 64) :
    ((frame <<< 12) + (addr &&& 4095)) >>> 12 = (frame <<< 12) >>> 12 := by
  have hoff : (addr &&& 4095).toNat = addr.toNat % 4096 := by
    rw [BitVec.toNat_and]
    exact Nat.and_two_pow_sub_one_eq_mod addr.toNat 12
  apply BitVec.eq_of_toNat_eq
  simp only [BitVec.toNat_ushiftRight, BitVec.toNat_add, BitVec.toNat_shiftLeft, Nat.shiftLeft_eq,
    Nat.shiftRight_eq_div_pow, hoff]
  omega

theorem page_shiftRight (addr : BitVec 64) : ((addr >>> 12) <<< 12) >>> 12 = addr >>> 12 := by
  have hlt := addr.isLt
  apply BitVec.eq_of_toNat_eq
  simp only [BitVec.toNat_ushiftRight, BitVec.toNat_shiftLeft, Nat.shiftLeft_eq,
    Nat.shiftRight_eq_div_pow]
  omega

end Walker

theorem levelRefs_congr (r : PageTableInfo) {a b : BitVec 64} (h : a >>> 12 = b >>> 12)
    (hitLevel : ℕ) : levelRefs r a hitLevel = levelRefs r b hitLevel := by
  have href : levelRef r a = levelRef r b := by
    funext level
    simp only [levelRef, Walker.levelIndex_congr h]
  rw [levelRefs, href, levelRefs]

theorem guestRefs_congr (guestIt : PageTableInfo) (hostRec : Fin 5 → PageTableInfo)
    {a b : BitVec 64} (h : a >>> 12 = b >>> 12) (m : Fin 5 → ℕ) :
    guestRefs guestIt hostRec a m = guestRefs guestIt hostRec b m := by
  funext level
  simp only [guestRefs, Walker.levelIndex_congr h]

/-- **The addresses of a walk.** From any state, a reference that misses the TLBs
sends to the L1 data cache, in this order: for each guest level above the hit level
`k` of the guest search, the host references above the hit level of that level's
host search and the guest entry; then the four host references for the data. -/
theorem translate_walk_addresses {knobs : CacheKnobs} {C : SimConfig}
    (hH : knobs.hierarchy = some C.H)
    (σ : SimState) (core : ℕ) {m : Memref} (hm : isReference m = true)
    (hmiss : (σ.tlbLookup C m).1 = false) {guestIt it : PageTableInfo}
    (hguest : C.pageTable ((m.addr >>> 12) <<< 12) = some guestIt)
    (hdata : C.hostPageTable (guestIt.pa <<< 12) = some it)
    (hostRec : Fin 5 → PageTableInfo)
    (hhost : ∀ level ∈ [1, 2, 3, 4],
      C.hostPageTable (guestIt.all level <<< 12) = some (hostRec level)) :
    ∃ m' σ' k hitLevel es, σ.translate C core m = .ok (m', σ') ∧
      σ'.walk.log = σ.walk.log ++ es ∧
      searches es = (.guest, (m.addr >>> 12) <<< 12, k) ::
        (levelsAbove k).map (fun g => (.host, guestIt.all g <<< 12, hitLevel g)) ∧
      dataAddrs core es = (levelsAbove k).flatMap (guestRefs guestIt hostRec m.addr hitLevel) ++
        levelRefs it (guestIt.pa <<< 12) 0 := by
  have hpage : virtualPage m = (m.addr >>> 12) <<< 12 := by simp [virtualPage, hm]
  have hoffset : pageOffset m = m.addr &&& 4095 := by simp [pageOffset, hm]
  obtain ⟨-, k, hitLevel, es, hlog, haddrs, hsearch⟩ := C.walker.tlbMiss_emits hH core guestIt it
    hostRec (virtualPage m) (pageOffset m) (σ.tlbLookup C m).2.walk hhost
  rw [hpage] at hsearch
  -- The page and the page offset may be put back to the address and dropped.
  have hindex : virtualPage m >>> 12 = m.addr >>> 12 := by rw [hpage, Walker.page_shiftRight]
  have hgpa : ((guestIt.pa <<< 12) + pageOffset m) >>> 12 = (guestIt.pa <<< 12) >>> 12 := by
    rw [hoffset, Walker.add_offset_shiftRight]
  rw [guestRefs_congr guestIt hostRec hindex, levelRefs_congr it hgpa] at haddrs
  exact ⟨_, _, k, hitLevel, es, σ.translate_of_miss core hmiss (hpage ▸ hguest) hdata, hlog,
    hsearch, haddrs⟩

/-- The walk of the first read of a page, from the initial state. -/
theorem first_walk_addresses :
    ∃ m' σ' k hitLevel es,
      (sampleConfig [0x7000]).initial.translate (sampleConfig [0x7000]) 0 (readAt 0x7010) =
        .ok (m', σ') ∧
      σ'.walk.log = (sampleConfig [0x7000]).initial.walk.log ++ es ∧
      searches es = (PwcSide.guest, 0x7000, k) :: (levelsAbove k).map (fun g =>
        (PwcSide.host, (⟨1, 2, 3, 4, 5⟩ : PageTableInfo).all g <<< (12 : ℕ), hitLevel g)) ∧
      dataAddrs 0 es = (levelsAbove k).flatMap (guestRefs ⟨1, 2, 3, 4, 5⟩
        (fun _ => ⟨0x11, 0x12, 0x13, 0x14, 0x15⟩) 0x7010 hitLevel) ++
        levelRefs ⟨0x11, 0x12, 0x13, 0x14, 0x15⟩ 0x5000 0 :=
  translate_walk_addresses defaultHierarchy_eq _ 0 (by decide) (by decide +kernel) (by decide)
    (by decide) _ (by decide)

end SagePTE.Simulator
