import SagePTE.Simulator.MissFlow
import SagePTE.Simulator.RequestLines
import SagePTE.Simulator.TlbEntries

/-!
# References that span pages

`tlb_t::request` was copied from a loop over the pages of a reference. The answer that was added
to it is returned inside the loop, so the loop ends after its first turn: the other pages are
neither looked up nor filled nor counted, and the answer is about the first page alone.

## Main definitions

* `tlbRequestPages` — one request for each page, in ascending order

## Main results

* `tlbRequestFuel_accesses` — a request is counted once, however many pages it spans
* `tlbRequest_pages_iff` — a request does what the requests for its pages do exactly if it spans
  one page at most
-/

set_option autoImplicit false

namespace SagePTE.Simulator

section Pages

variable (H : Hierarchy TlbId)

/-- Requests for the pages that are left, and whether all pages so far were there. -/
def tlbPagesFrom (i : TlbId) (finalAddr : BitVec 64) :
    ℕ → ℕ → Memref → Bool × Store TlbId → Bool × Store TlbId
  | 0, _, _, r => r
  | n + 1, tag, m, r =>
    let page := tlbRequest H r.2 i (H.piece i n tag m)
    tlbPagesFrom i finalAddr n (tag + 1) (H.restOf i finalAddr n tag m)
      (r.1 && page.1, page.2)

/-- One request for each page of the reference, in ascending order. -/
def tlbRequestPages (s : Store TlbId) (i : TlbId) (m : Memref) : Bool × Store TlbId :=
  tlbPagesFrom H i (m.addr + m.size - 1) (H.finalTag i m + 1 - H.firstTag i m) (H.firstTag i m) m
    (true, s)

variable {H} {i : TlbId} {m : Memref}

theorem tlbCountHit_self (s : Store TlbId) (m : Memref) :
    (tlbCountHit H s i m i).stats = (s i).stats.baseAccess m.type true := by
  cases hp : (H.dev i).parent with
  | none => simp only [tlbCountHit, hp, Store.modify_self, DeviceState.withStats]
  | some p =>
    have hne := parent_ne_of_rank_le (le_refl (H.rank i)) hp
    simp only [tlbCountHit, hp, Store.modify_of_ne _ hne, Store.modify_self, DeviceState.withStats]

theorem tlbFill_stats (s : Store TlbId) (tag : ℕ) (pid : ℤ) :
    (tlbFill H s i tag pid i).stats = (s i).stats := by
  simp [tlbFill, tlbRemember, DeviceState.setEntry]

/-- A request is counted once, however many pages it spans. -/
theorem tlbRequestFuel_accesses (n : ℕ) (s : Store TlbId) (m : Memref) :
    ((tlbRequestFuel H (n + 1) s i m).2 i).stats.accesses =
      (s i).stats.accesses + if H.finalTag i m < H.firstTag i m then 0 else 1 := by
  rw [tlbRequestFuel_succ]
  by_cases hempty : H.finalTag i m < H.firstTag i m
  · rw [if_neg fun h => hempty.ne' h.1, if_pos hempty, if_pos hempty]
    rfl
  · simp only [if_neg hempty]
    split_ifs
    · simp only [tlbShortPath, Store.modify_self, DeviceState.accessUpdate_stats, tlbCountHit_self,
        DeviceStats.baseAccess_accesses]
    · split
      · simp only [tlbFound, tlbRemember, Store.modify_self, DeviceState.accessUpdate_stats,
          tlbCountHit_self, DeviceStats.baseAccess_accesses]
      · simp only [tlbFill_stats, tlbAskParent_self, DeviceState.withStats,
          DeviceStats.baseAccess_accesses]

/-- The requests for the pages are counted one by one. -/
theorem tlbPagesFrom_accesses (finalAddr : BitVec 64) (n tag : ℕ) (m : Memref)
    (r : Bool × Store TlbId) (h : n ≠ 0 → (H.geometry i).AtTurn finalAddr n tag m) :
    ((tlbPagesFrom H i finalAddr n tag m r).2 i).stats.accesses =
      (r.2 i).stats.accesses + n := by
  induction n generalizing tag m r with
  | zero => rfl
  | succ n ih =>
    have hat := h (Nat.succ_ne_zero n)
    obtain ⟨hfirst, hfinal⟩ := Hierarchy.tags_piece hat
    rw [tlbPagesFrom, ih _ _ _ (Hierarchy.atTurn_restOf hat), tlbRequest, tlbRequestFuel_accesses,
      hfirst, hfinal, if_neg (lt_irrefl tag)]
    omega

/-- A request leaves the TLBs as the requests for its pages do if there is one page at most. -/
theorem tlbRequest_snd_eq_pages_iff (s : Store TlbId) :
    (tlbRequest H s i m).2 = (tlbRequestPages H s i m).2 ↔ H.finalTag i m ≤ H.firstTag i m := by
  constructor
  · intro heq
    by_contra hlt
    have hone := tlbRequestFuel_accesses (H := H) (i := i) (H.rank i) s m
    have hall := tlbPagesFrom_accesses (H := H) (i := i) (m.addr + m.size - 1)
      (H.finalTag i m + 1 - H.firstTag i m) (H.firstTag i m) m (true, s)
      fun _ => ⟨rfl, rfl, by rw [← Hierarchy.finalTag]; omega⟩
    rw [if_neg (by omega)] at hone
    rw [tlbRequestPages] at heq
    rw [← heq, tlbRequest, hone] at hall
    dsimp only at hall
    omega
  · intro hle
    rcases hle.lt_or_eq with hlt | heq
    · have hnone : H.finalTag i m + 1 - H.firstTag i m = 0 := by omega
      rw [tlbRequestPages, hnone, tlbPagesFrom, tlbRequest, tlbRequestFuel_succ,
        if_neg fun h => hlt.ne' h.1, if_pos hlt]
    · have hone : H.finalTag i m + 1 - H.firstTag i m = 1 := by omega
      rw [tlbRequestPages, hone]
      rfl

/-- A page that is not in the TLB is in its parent afterwards. -/
theorem tlbRequestFuel_parent_holds (hpolicy : ∀ i, (H.dev i).policy = .lfu) {p : TlbId}
    (hp : (H.dev i).parent = some p) (n : ℕ) (hn : H.rank p ≤ n) {s : Store TlbId}
    (hs : TlbsConsistent H s) (hle : H.firstTag i m ≤ H.finalTag i m)
    (hpiece : H.firstTag p (firstPiece H i m) = H.firstTag i m ∧
      H.firstTag p (firstPiece H i m) ≤ H.finalTag p (firstPiece H i m))
    (hmiss : ¬(s i).HoldsEntry (H.geometry i) (H.firstTag i m) m.pid) :
    ((tlbRequestFuel H (n + 2) s i m).2 p).HoldsEntry (H.geometry p) (H.firstTag i m) m.pid := by
  have hne := (parent_ne_of_rank_le (le_refl (H.rank i)) hp).symm
  have hshort : ¬(H.firstTag i m = H.finalTag i m ∧ H.firstTag i m = (s i).lastTag ∧
      m.pid = (s i).lastPid) := by
    rintro ⟨-, htag, hpid⟩
    rw [htag, hpid] at hmiss
    refine hmiss ((hs i).synced.resolve_left ?_)
    rw [← htag]
    exact (H.geometry i).computeTag_ne_tagInvalid _
  have hparent := tlbRequestFuel_holds hpolicy n hn
    (s := tlbCountMiss s i p (firstPiece H i m).type) ((hs.withStats _).withStats _) hpiece.2
  rw [hpiece.1, firstPiece_pid] at hparent
  rw [tlbRequestFuel_succ, if_neg hshort, if_neg (not_lt.mpr hle),
    DeviceState.findEntry_eq_none_iff.mpr hmiss]
  dsimp only
  rw [tlbFill_of_ne _ _ _ hne, tlbAskParent_of_some hp]
  exact hparent

end Pages

/-- **A request and the requests for its pages.** They leave the same TLBs, contents and
statistics, exactly if the reference spans one page at most. In that case the page is in the TLB
afterwards, and in the last-level TLB too if it had to be asked, and an answer of `true` means
that one of them had it. -/
theorem tlbRequest_pages_iff {k : TlbKnobs} {H : Hierarchy TlbId} (hH : k.hierarchy = some H)
    (s : Store TlbId) {i : TlbId} {core : ℕ} (hi : i = .itlb core ∨ i = .dtlb core) (m : Memref) :
    ((tlbRequest H s i m).2 = (tlbRequestPages H s i m).2 ↔ H.finalTag i m ≤ H.firstTag i m) ∧
    (H.finalTag i m ≤ H.firstTag i m → TlbsConsistent H s → ∀ tag ∈ H.requestedTags i m,
      ((tlbRequest H s i m).1 = true → (s i).HoldsEntry (H.geometry i) tag m.pid ∨
        (s (.lltlb core)).HoldsEntry (H.geometry (.lltlb core)) tag m.pid) ∧
      ((tlbRequest H s i m).2 i).HoldsEntry (H.geometry i) tag m.pid ∧
      (¬(s i).HoldsEntry (H.geometry i) tag m.pid →
        ((tlbRequest H s i m).2 (.lltlb core)).HoldsEntry (H.geometry (.lltlb core)) tag
          m.pid)) := by
  refine ⟨tlbRequest_snd_eq_pages_iff s, fun hone hs tag htag => ?_⟩
  obtain ⟨hfirst, hfinal⟩ := H.mem_requestedTags.mp htag
  obtain rfl : tag = H.firstTag i m := by omega
  have hpolicy := TlbKnobs.policy_eq_lfu hH
  have hparent : (H.dev i).parent = some (.lltlb core) ∧ H.rank i = 1 ∧
      H.rank (.lltlb core) = 0 := by
    obtain ⟨G, -, rfl⟩ := k.exists_of_hierarchy hH
    rcases hi with rfl | rfl <;> exact ⟨rfl, rfl, rfl⟩
  have hpiece : firstPiece H i m = m := if_pos (le_antisymm hfinal hone)
  refine ⟨(tlbRequest_fst_iff hH hs.synced hi hfinal).mp,
    tlbRequestFuel_holds hpolicy _ le_rfl hs hfinal, fun hmiss => ?_⟩
  rw [tlbRequest, hparent.2.1]
  refine tlbRequestFuel_parent_holds hpolicy hparent.1 0 hparent.2.2.le hs hfinal ?_ hmiss
  rw [hpiece, TlbKnobs.firstTag_eq hH (.lltlb core) i, TlbKnobs.finalTag_eq hH (.lltlb core) i]
  exact ⟨rfl, hfinal⟩

/-- A read within one page. -/
theorem tlbRequest_one_page :
    (tlbRequest defaultTlbs defaultTlbs.initialStore (.dtlb 0) (readAt 0x1000)).2 =
      (tlbRequestPages defaultTlbs defaultTlbs.initialStore (.dtlb 0) (readAt 0x1000)).2 :=
  (tlbRequest_pages_iff defaultTlbs_eq _ (.inr rfl) _).1.mpr (by decide)

/-- A read of 16 bytes over a page boundary, after a read in the first of the two pages: the
answer is `true`, although the second page is in neither TLB, and it is not filled. -/
theorem second_page_not_filled :
    let s := tlbAfter defaultTlbs [(.dtlb 0, readAt 0x1000)]
    let m := { readAt 0x1ff8 with size := 16 }
    let r := tlbRequest defaultTlbs s (.dtlb 0) m
    defaultTlbs.requestedTags (.dtlb 0) m = [1, 2] ∧ r.1 = true ∧
      ¬(s (.dtlb 0)).HoldsEntry (defaultTlbs.geometry (.dtlb 0)) 2 m.pid ∧
      ¬(s (.lltlb 0)).HoldsEntry (defaultTlbs.geometry (.lltlb 0)) 2 m.pid ∧
      ¬(r.2 (.dtlb 0)).HoldsEntry (defaultTlbs.geometry (.dtlb 0)) 2 m.pid := by
  decide +kernel

end SagePTE.Simulator
