import SagePTE.Simulator.LineEvents
import SagePTE.Simulator.Lookup
import SagePTE.Simulator.TlbLookup

/-!
# The entries of the TLBs

A request is served by the shortcut, by an entry of the set, or by the parent and a replacement.
The parent never comes back to the TLB that asks it, so the entry that was not found is still
missing when it is written. Hence no set holds an entry twice, the shortcut always names a block
that holds its entry, and after a request the TLB holds the page that was asked for.

## Main definitions

* `DeviceState.Consistent` — the shortcut is right, and no entry is there twice
* `tlbAfter` — the TLBs after a list of requests

## Main results

* `tlbRequestFuel_consistent` — requests keep the TLBs consistent
* `tlbRequestFuel_holds` — the page of a request is held afterwards
* `tlb_request_single_page` — single-page requests to the TLBs of a core
-/

set_option autoImplicit false

namespace SagePTE.Simulator

/-! ### The other TLBs -/

section Others

variable {H : Hierarchy TlbId} {i j : TlbId}

theorem parent_ne_of_rank_le (hj : H.rank i ≤ H.rank j) {p : TlbId}
    (hp : (H.dev i).parent = some p) : j ≠ p := by
  have hlt := H.rank_parent_lt i p hp
  rintro rfl
  omega

theorem tlbCountHit_of_rank_le (s : Store TlbId) (m : Memref) (hj : H.rank i ≤ H.rank j)
    (hne : j ≠ i) : tlbCountHit H s i m j = s j := by
  cases hp : (H.dev i).parent with
  | none => simp only [tlbCountHit, hp, Store.modify_of_ne _ hne]
  | some p =>
    simp only [tlbCountHit, hp, Store.modify_of_ne _ (parent_ne_of_rank_le hj hp),
      Store.modify_of_ne _ hne]

theorem tlbFill_of_ne (s : Store TlbId) (tag : ℕ) (pid : ℤ) (hne : j ≠ i) :
    tlbFill H s i tag pid j = s j := by
  simp only [tlbFill, tlbRemember, Store.modify_of_ne _ hne]

/-- A request goes up: it leaves all other TLBs of the level alone. -/
theorem tlbRequestFuel_of_rank_le (n : ℕ) (s : Store TlbId) (m : Memref)
    (hj : H.rank i ≤ H.rank j) (hne : j ≠ i) : (tlbRequestFuel H n s i m).2 j = s j := by
  induction n generalizing s i m with
  | zero => simp [tlbRequestFuel, hne]
  | succ n ih =>
    rw [tlbRequestFuel_succ]
    split_ifs
    · simp only [tlbShortPath, Store.modify_of_ne _ hne, tlbCountHit_of_rank_le _ _ hj hne]
    · rfl
    · split
      · simp only [tlbFound, tlbRemember, Store.modify_of_ne _ hne,
          tlbCountHit_of_rank_le _ _ hj hne]
      · dsimp only
        rw [tlbFill_of_ne _ _ _ hne]
        cases hp : (H.dev i).parent with
        | none => simp only [tlbAskParent_of_none hp, Store.modify_of_ne _ hne]
        | some p =>
          -- the parent is above `j` as well
          have hnep := parent_ne_of_rank_le hj hp
          have hlt := H.rank_parent_lt i p hp
          rw [tlbAskParent_of_some hp, ih _ _ (by omega) hnep, tlbCountMiss,
            Store.modify_of_ne _ hnep, Store.modify_of_ne _ hne]

/-- The TLB that asks its parent counts the miss, and stays as it is otherwise. -/
theorem tlbAskParent_self (n : ℕ) (s : Store TlbId) (m : Memref) :
    (tlbAskParent H n s i m).2 i = (s i).withStats fun st => st.baseAccess m.type false := by
  cases hp : (H.dev i).parent with
  | none => simp only [tlbAskParent_of_none hp, Store.modify_self]
  | some p =>
    have hlt := H.rank_parent_lt i p hp
    have hne := parent_ne_of_rank_le (le_refl (H.rank i)) hp
    rw [tlbAskParent_of_some hp, tlbRequestFuel_of_rank_le n _ m hlt.le hne, tlbCountMiss,
      Store.modify_of_ne _ hne, Store.modify_self]

end Others

/-! ### What a TLB keeps up -/

namespace DeviceState

/-- No set holds an entry twice. -/
def EntriesUnique (g : Geometry) (d : DeviceState) : Prop :=
  ∀ set < g.blocksPerWay, ∀ way < g.associativity, ∀ way' < g.associativity,
    (d.blocks (set * g.associativity + way)).tag ≠ tagInvalid →
      d.entry (set * g.associativity + way) = d.entry (set * g.associativity + way') → way = way'

/-- The shortcut names a block that holds its entry, no set holds an entry twice, and no
assertion has failed. -/
structure Consistent (g : Geometry) (d : DeviceState) : Prop where
  fault : d.fault = false
  shortcut : d.lastTag ≠ tagInvalid → d.lastBlockIdx = g.computeBlockIdx d.lastTag ∧
    ∃ way < g.associativity, d.lastWay = way ∧
      d.entry (g.computeBlockIdx d.lastTag + way) = (d.lastTag, d.lastPid)
  unique : d.EntriesUnique g

variable {g : Geometry} {d d' : DeviceState} {tag way : ℕ} {pid : ℤ}

theorem EntriesUnique.congr (h : d.EntriesUnique g) (hsame : d'.entry = d.entry) :
    d'.EntriesUnique g := by
  intro set hset way hway way' hway' hvalid heq
  have htag : (d'.blocks (set * g.associativity + way)).tag =
      (d.blocks (set * g.associativity + way)).tag := congrArg Prod.fst (congrFun hsame _)
  rw [htag] at hvalid
  rw [hsame] at heq
  exact h set hset way hway way' hway' hvalid heq

theorem Consistent.synced (h : d.Consistent g) : d.Synced g := by
  by_cases hlast : d.lastTag = tagInvalid
  · exact .inl hlast
  · obtain ⟨-, way, hway, -, hentry⟩ := h.shortcut hlast
    exact .inr ⟨way, hway, hentry⟩

theorem OnlyStats.consistent (h : d.OnlyStats d') (hd : d.Consistent g) : d'.Consistent g := by
  rw [h]
  exact ⟨hd.fault, hd.shortcut, hd.unique⟩

/-- The counters do not matter. -/
theorem Consistent.setCounter (h : d.Consistent g) (n counter : ℕ) :
    (d.setCounter n counter).Consistent g := by
  have hsame := (setCounter_sameEntries d n counter).entry
  refine ⟨h.fault, fun hlast => ?_, h.unique.congr hsame⟩
  rw [hsame]
  exact h.shortcut hlast

theorem setEntry_entry (d : DeviceState) (n tag : ℕ) (pid : ℤ) (j : ℕ) :
    (d.setEntry n tag pid).entry j = if j = n then (tag, pid) else d.entry j := by
  by_cases hj : j = n
  · subst hj
    simp [setEntry, entry]
  · simp [setEntry, entry, hj]

/-- An entry that is not in its set is written into it. -/
theorem EntriesUnique.setEntry (h : d.EntriesUnique g) (hmiss : ¬d.HoldsEntry g tag pid)
    (hway : way < g.associativity) :
    (d.setEntry (g.computeBlockIdx tag + way) tag pid).EntriesUnique g := by
  intro set hset w hw w' hw' hvalid heq
  have hinj {v : ℕ} (hv : v < g.associativity)
      (hblock : set * g.associativity + v = g.computeBlockIdx tag + way) :
      set = g.setOf tag ∧ v = way := g.block_inj hv hway hblock
  rw [setEntry_entry, setEntry_entry] at heq
  split_ifs at heq with hn hn' hn'
  · rw [(hinj hw hn).2, (hinj hw' hn').2]
  -- in the set of the entry, no other way has it
  · obtain ⟨rfl, -⟩ := hinj hw hn
    exact absurd ⟨w', hw', heq.symm⟩ hmiss
  · obtain ⟨rfl, -⟩ := hinj hw' hn'
    exact absurd ⟨w, hw, heq⟩ hmiss
  · have hold : ((d.setEntry (g.computeBlockIdx tag + way) tag pid).blocks
        (set * g.associativity + w)).tag = (d.blocks (set * g.associativity + w)).tag := by
      simp [DeviceState.setEntry, hn]
    exact h set hset w hw w' hw' (hold ▸ hvalid) heq

/-- The state of a TLB after a miss. -/
theorem Consistent.fill (h : d.Consistent g) (hmiss : ¬d.HoldsEntry g tag pid) :
    let v := d.replaceWhichWay g .lfu (g.computeBlockIdx tag)
    Consistent g
      { (v.2.setEntry (blockNo (g.computeBlockIdx tag) v.1) tag pid).accessUpdate g .lfu
          (g.computeBlockIdx tag) v.1 with
        lastTag := tag
        lastWay := v.1
        lastBlockIdx := g.computeBlockIdx tag
        lastPid := pid } := by
  intro v
  obtain ⟨way, hway, hv⟩ := d.exists_replaceWhichWay (g := g)
    (show ReplacePolicy.lfu ≠ .fifo by decide) (g.computeBlockIdx tag)
  have hv : v.1 = (way : ℤ) := hv
  -- the way that is given up has its counter cleared, which is no part of the entry
  have hcleared : v.2.entry = d.entry := (setCounter_sameEntries d _ 0).entry
  have hmiss' : ¬v.2.HoldsEntry g tag pid := by
    rwa [HoldsEntry, hcleared]
  rw [hv, blockNo_natCast]
  have hentries := (accessUpdate_sameEntries (g := g)
    (v.2.setEntry (g.computeBlockIdx tag + way) tag pid) (g.computeBlockIdx tag) way).entry
  refine ⟨h.fault, fun _ => ⟨rfl, way, hway, rfl, ?_⟩,
    ((h.unique.congr hcleared).setEntry hmiss' hway).congr hentries⟩
  exact (congrFun hentries _).trans (by rw [setEntry_entry, if_pos rfl])

end DeviceState

/-! ### Requests -/

section Requests

variable {H : Hierarchy TlbId} (hpolicy : ∀ i, (H.dev i).policy = .lfu) {s : Store TlbId}
  {i : TlbId} {m : Memref}

/-- All TLBs are consistent. -/
def TlbsConsistent (H : Hierarchy TlbId) (s : Store TlbId) : Prop :=
  ∀ j, (s j).Consistent (H.geometry j)

theorem TlbsConsistent.synced (hs : TlbsConsistent H s) : TlbsSynced H s := fun j => (hs j).synced

theorem TlbsConsistent.modify (hs : TlbsConsistent H s) {f : DeviceState → DeviceState}
    (hf : (s i).Consistent (H.geometry i) → (f (s i)).Consistent (H.geometry i)) :
    TlbsConsistent H (s.modify i f) :=
  Store.modify_induction (hf (hs i)) fun j _ => hs j

theorem TlbsConsistent.withStats (hs : TlbsConsistent H s) (f : DeviceStats → DeviceStats) :
    TlbsConsistent H (s.modify i fun d => d.withStats f) :=
  hs.modify fun h => (DeviceState.onlyStats_withStats _ f).consistent h

theorem TlbsConsistent.remember (hs : TlbsConsistent H s) {tag way : ℕ} {pid : ℤ}
    (hway : way < (H.geometry i).associativity)
    (hentry : (s i).entry ((H.geometry i).computeBlockIdx tag + way) = (tag, pid)) :
    TlbsConsistent H (tlbRemember s i tag ((H.geometry i).computeBlockIdx tag) way pid) := by
  rw [tlbRemember]
  exact hs.modify fun h => ⟨h.fault, fun _ => ⟨rfl, way, hway, rfl, hentry⟩, h.unique⟩

theorem TlbsConsistent.countHit (hs : TlbsConsistent H s) (i : TlbId) (m : Memref) :
    TlbsConsistent H (tlbCountHit H s i m) := by
  cases hp : (H.dev i).parent with
  | none => simpa only [tlbCountHit, hp] using hs.withStats _
  | some p => simpa only [tlbCountHit, hp] using (hs.withStats _).withStats _

include hpolicy

/-- The shortcut is right, so its assertion holds. -/
theorem TlbsConsistent.shortPath (hs : TlbsConsistent H s)
    (hlast : (s i).lastTag ≠ tagInvalid) (m : Memref) :
    TlbsConsistent H (tlbShortPath H s i m) := by
  obtain ⟨hidx, way, hway, hlastWay, hentry⟩ := (hs i).shortcut hlast
  have hin : ((s i).blocks (blockNo (s i).lastBlockIdx (s i).lastWay)).tag = (s i).lastTag ∧
      ((s i).blocks (blockNo (s i).lastBlockIdx (s i).lastWay)).pid = (s i).lastPid := by
    rw [hidx, hlastWay, blockNo_natCast]
    exact Prod.mk.inj hentry
  have hflag : TlbsConsistent H (s.modify i fun d => { d with
      fault := d.fault || !decide ((s i).lastTag ≠ tagInvalid ∧
        ((s i).blocks (blockNo (s i).lastBlockIdx (s i).lastWay)).tag = (s i).lastTag ∧
        ((s i).blocks (blockNo (s i).lastBlockIdx (s i).lastWay)).pid = (s i).lastPid) }) := by
    refine hs.modify fun h => ⟨?_, h.shortcut, h.unique⟩
    simp [h.fault, hlast, hin]
  simp only [tlbShortPath]
  refine (hflag.countHit i m).modify fun h => ?_
  rw [hpolicy i]
  exact h.setCounter _ _

theorem TlbsConsistent.found (hs : TlbsConsistent H s) {way : ℕ}
    (hfind : (s i).findEntry (H.geometry i)
      ((H.geometry i).computeBlockIdx (H.firstTag i m)) (H.firstTag i m) m.pid = some way) :
    TlbsConsistent H (tlbFound H s i m way) := by
  have hway : way < (H.geometry i).associativity :=
    List.mem_range.mp (List.mem_of_find?_eq_some hfind)
  have hentry : (s i).entry ((H.geometry i).computeBlockIdx (H.firstTag i m) + way) =
      (H.firstTag i m, m.pid) := by
    have hsome := List.find?_some hfind
    simpa [DeviceState.entry, Prod.ext_iff] using hsome
  have hupdated : TlbsConsistent H ((tlbCountHit H s i (firstPiece H i m)).modify i fun d =>
      d.accessUpdate (H.geometry i) (H.dev i).policy
        ((H.geometry i).computeBlockIdx (H.firstTag i m)) way) := by
    refine (hs.countHit i _).modify fun h => ?_
    rw [hpolicy i]
    exact h.setCounter _ _
  refine hupdated.remember hway ?_
  -- neither the statistics nor the counter are part of the entry
  have hcount := (tlbCountHit_sameEntries (H := H) (.refl s) i (firstPiece H i m) i).entry
  rw [Store.modify_self, hpolicy i,
    (DeviceState.accessUpdate_sameEntries (g := H.geometry i) _ _ _).entry, hcount]
  exact hentry

theorem TlbsConsistent.fill (hs : TlbsConsistent H s) {tag : ℕ} {pid : ℤ}
    (hmiss : ¬(s i).HoldsEntry (H.geometry i) tag pid) :
    TlbsConsistent H (tlbFill H s i tag pid) := by
  intro j
  by_cases hj : j = i
  · subst hj
    simp only [tlbFill, tlbRemember, Store.modify_self, hpolicy j]
    exact (hs j).fill hmiss
  · rw [tlbFill_of_ne _ _ _ hj]
    exact hs j

/-- Requests keep the TLBs consistent. -/
theorem tlbRequestFuel_consistent (n : ℕ) (hn : H.rank i < n) (hs : TlbsConsistent H s)
    (m : Memref) : TlbsConsistent H (tlbRequestFuel H n s i m).2 := by
  induction n generalizing s i m with
  | zero => omega
  | succ n ih =>
    rw [tlbRequestFuel_succ]
    split_ifs with hshort
    · refine hs.shortPath hpolicy ?_ m
      rw [← hshort.2.1]
      exact (H.geometry i).computeTag_ne_tagInvalid _
    · exact hs
    · split
      · next way hfind => exact hs.found hpolicy hfind
      · next hfind =>
        refine TlbsConsistent.fill hpolicy ?_ ?_
        · cases hp : (H.dev i).parent with
          | none =>
            rw [tlbAskParent_of_none hp]
            exact hs.withStats _
          | some p =>
            have hlt := H.rank_parent_lt i p hp
            rw [tlbAskParent_of_some hp]
            exact ih (by omega) ((hs.withStats _).withStats _) _
        · rw [tlbAskParent_self]
          exact DeviceState.findEntry_eq_none_iff.mp hfind

/-- The shortcut names the page of the last request. -/
theorem tlbRequestFuel_last (n : ℕ) (s : Store TlbId) (hle : H.firstTag i m ≤ H.finalTag i m) :
    ((tlbRequestFuel H (n + 1) s i m).2 i).lastTag = H.firstTag i m ∧
      ((tlbRequestFuel H (n + 1) s i m).2 i).lastPid = m.pid := by
  rw [tlbRequestFuel_succ, if_neg (not_lt.mpr hle)]
  split_ifs with hshort
  · have hsame : s.SameEntries (tlbShortPath H s i m) := by
      simp only [tlbShortPath, hpolicy i]
      exact (tlbCountHit_sameEntries ((Store.SameEntries.refl s).modify i
        fun d => d.fault_sameEntries _) i m).modify i fun d => d.accessUpdate_sameEntries _ _
    exact ⟨(hsame i).lastTag.trans hshort.2.1.symm, (hsame i).lastPid.trans hshort.2.2.symm⟩
  · split
    · simp only [tlbFound, tlbRemember, Store.modify_self, and_self]
    · simp only [tlbFill, tlbRemember, Store.modify_self, and_self]

/-- The page of a request is held afterwards. -/
theorem tlbRequestFuel_holds (n : ℕ) (hn : H.rank i ≤ n) (hs : TlbsConsistent H s)
    (hle : H.firstTag i m ≤ H.finalTag i m) :
    ((tlbRequestFuel H (n + 1) s i m).2 i).HoldsEntry (H.geometry i) (H.firstTag i m) m.pid := by
  obtain ⟨htag, hpid⟩ := tlbRequestFuel_last hpolicy n s hle
  have hsynced := (tlbRequestFuel_consistent hpolicy (n + 1) (Nat.lt_succ_of_le hn) hs m).synced i
  rw [DeviceState.Synced, htag, hpid] at hsynced
  exact hsynced.resolve_left ((H.geometry i).computeTag_ne_tagInvalid _)

end Requests

/-! ### Sequences of requests -/

/-- The TLBs after a list of requests, from the start. -/
def tlbAfter (H : Hierarchy TlbId) (requests : List (TlbId × Memref)) : Store TlbId :=
  requests.foldl (fun s r => (tlbRequest H s r.1 r.2).2) H.initialStore

theorem tlbsConsistent_initialStore {H : Hierarchy TlbId} (hpolicy : ∀ i, (H.dev i).policy = .lfu) :
    TlbsConsistent H H.initialStore := by
  intro j
  rw [Hierarchy.initialStore, hpolicy j]
  exact ⟨rfl, fun h => absurd rfl h, fun _ _ _ _ _ _ h => absurd rfl h⟩

theorem tlbAfter_consistent {H : Hierarchy TlbId} (hpolicy : ∀ i, (H.dev i).policy = .lfu)
    (requests : List (TlbId × Memref)) : TlbsConsistent H (tlbAfter H requests) :=
  List.foldlRecOn (motive := TlbsConsistent H) requests _ (tlbsConsistent_initialStore hpolicy)
    fun _ hs r _ => tlbRequestFuel_consistent hpolicy _ (Nat.lt_succ_self _) hs r.2

/-- **Single-page requests to the first-level TLBs of a core**, after any requests: the answer
says whether the page is in the TLB or in the last-level one, and afterwards the TLB holds it. No
TLB holds an entry twice, and the assertion of the shortcut never fails. -/
theorem tlb_request_single_page {k : TlbKnobs} {H : Hierarchy TlbId} (hH : k.hierarchy = some H)
    (earlier : List (TlbId × Memref)) {i : TlbId} {core : ℕ}
    (hi : i = .itlb core ∨ i = .dtlb core) {m : Memref} (hm : H.SingleBlock i m) :
    let s := tlbAfter H earlier
    let r := tlbRequest H s i m
    (r.1 = true ↔ (s i).HoldsEntry (H.geometry i) (H.firstTag i m) m.pid ∨
      (s (.lltlb core)).HoldsEntry (H.geometry (.lltlb core)) (H.firstTag i m) m.pid) ∧
    (r.2 i).HoldsEntry (H.geometry i) (H.firstTag i m) m.pid ∧
    ∀ j, (r.2 j).EntriesUnique (H.geometry j) ∧ (r.2 j).fault = false := by
  intro s r
  have hpolicy := TlbKnobs.policy_eq_lfu hH
  have hs : TlbsConsistent H s := tlbAfter_consistent hpolicy earlier
  have hr : TlbsConsistent H r.2 :=
    tlbRequestFuel_consistent hpolicy _ (Nat.lt_succ_self _) hs m
  exact ⟨tlbRequest_fst_iff hH hs.synced hi hm.le,
    tlbRequestFuel_holds hpolicy _ le_rfl hs hm.le, fun j => ⟨(hr j).unique, (hr j).fault⟩⟩

/-- The data TLB of core 0 finds a page that an instruction fetch of the process has brought into
the last-level TLB. -/
theorem tlb_request_after_fetch :
    (tlbRequest defaultTlbs (tlbAfter defaultTlbs [(.itlb 0, readAt 0x1000)]) (.dtlb 0)
      (readAt 0x1008)).1 = true :=
  (tlb_request_single_page defaultTlbs_eq _ (.inr rfl) (by decide)).1.mpr (.inr (by decide +kernel))

end SagePTE.Simulator
