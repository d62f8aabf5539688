import SagePTE.Lib.Fallible
import SagePTE.Tools.Layout

/-!
# Lines at the front

What the two operations do to the order of the lines. Both end with the skip nodes at the
positions that belong to the number of lines, and with the latest time at the front. None of the
assertions fails, and the loops end.

## Main results

* `LineRefList.Layout.bringToFront` — a line moves to the front, and its position is returned
* `LineRefList.Layout.addSkips` — a line is added at the front
-/

set_option autoImplicit false

namespace SagePTE.Tools.LineRefList

open Function Linked Fallible

variable {α : Type} {L L' : LineRefList α} {l S xs ys : List α} {ks : List ℕ} {x s : α}
  {turns : ℕ}

theorem Chain.congr (h : L.Chain S ks) (hnext : L'.nextSkip = L.nextSkip)
    (hprev : L'.prevSkip = L.prevSkip) (hdepth : L'.depth = L.depth) : L'.Chain S ks where
  nodup := h.nodup
  links := by
    rw [hnext, hprev]
    exact h.links
  depths := by
    rw [hdepth]
    exact h.depths
  off y hy := by
    rw [hnext, hprev, hdepth]
    exact h.off y hy

variable [DecidableEq α]

/-! ### A line that moves to the front -/

/-- The line is taken out of the list and put in front of it. -/
theorem relink_eq (hlinks : Links L.next L.prev none (xs ++ x :: ys) none)
    (hl : (xs ++ x :: ys).Nodup) (hhead : L.head = (xs ++ x :: ys).head?) (hxs : xs ≠ []) :
    ∃ next prev, L.relink x = .ok { L with next := next, prev := prev, head := some x } ∧
      Links next prev none (x :: (xs ++ ys)) none := by
  obtain ⟨-, hprev, hnext, -⟩ := links_middle.mp hlinks
  rw [Option.or_none] at hprev hnext
  have hnodup : (x :: (xs ++ ys)).Nodup := List.nodup_middle.mp hl
  have hmem := (List.nodup_cons.mp hnodup).1
  have hhead' : L.head = (xs ++ ys).head? := by
    rw [hhead, List.head?_append_of_ne_nil _ hxs, List.head?_append_of_ne_nil _ hxs]
  obtain ⟨before, hbefore⟩ : ∃ before, xs.getLast? = some before :=
    ⟨xs.getLast hxs, List.getLast?_eq_some_getLast hxs⟩
  obtain ⟨first, hfirst⟩ : ∃ first, (xs ++ ys).head? = some first := by
    obtain ⟨y, xs, rfl⟩ := List.exists_cons_of_ne_nil hxs
    exact ⟨y, rfl⟩
  rw [hbefore] at hprev
  -- what is left of the list; the pointers of `x` itself do not matter
  have herase : Links (update L.next before ys.head?)
      (update (setAt L.prev ys.head? (some before)) x none) none (xs ++ ys) none := by
    have hlinks' := hlinks.erase hl
    rw [hbefore] at hlinks'
    refine hlinks'.congr (fun _ _ => rfl) ?_
    intro y hy
    apply update_of_ne
    rintro rfl
    exact hmem hy
  refine ⟨_, _, ?_, herase.cons hnodup (update_self ..)⟩
  simp only [relink, hprev, hnext, hhead', hfirst, deref, setAt_some]
  rfl

theorem debugPrint_eq (hS : L.Chain S ks) (hlinks : Links L.next L.prev none l none)
    (hhead : L.head = l.head?) (hturns : l.length ≤ turns) (debug : Option ℕ) :
    L.debugPrint debug turns = .ok () := by
  rw [debugPrint]
  split_ifs
  · rw [hhead]
    exact printList_eq hS hlinks.follows_next hturns
  · rfl

/-- The newest time is that of the line at the front. -/
theorem times_stamp (htimes : l.Pairwise fun y z => L.timeStamp z < L.timeStamp y)
    (hlt : ∀ y ∈ l, L.timeStamp y < L.curTime) (hx : x ∉ l) :
    (x :: l).Pairwise (fun y z => (L.stamp x).timeStamp z < (L.stamp x).timeStamp y) ∧
      ∀ y ∈ x :: l, (L.stamp x).timeStamp y < (L.stamp x).curTime := by
  have hother : ∀ y ∈ l, (L.stamp x).timeStamp y = L.timeStamp y := by
    intro y hy
    apply update_of_ne
    rintro rfl
    exact hx hy
  have hself : (L.stamp x).timeStamp x = L.curTime := update_self ..
  have hcur : (L.stamp x).curTime = L.curTime + 1 := rfl
  rw [List.pairwise_cons, List.forall_mem_cons, hself, hcur]
  refine ⟨⟨?_, htimes.imp_of_mem ?_⟩, Nat.lt_succ_self _, ?_⟩
  · intro y hy
    rw [hother y hy]
    exact hlt y hy
  · intro y z hy hz hyz
    rwa [hother y hy, hother z hz]
  · intro y hy
    rw [hother y hy]
    exact Nat.lt_succ_of_lt (hlt y hy)

/-- The counts, the gate and the settings are the same. -/
structure SameCounts (L L' : LineRefList α) : Prop where
  totalRefs : L'.totalRefs = L.totalRefs
  distantRefs : L'.distantRefs = L.distantRefs
  gate : L'.gate = L.gate
  threshold : L'.threshold = L.threshold
  skipDistance : L'.skipDistance = L.skipDistance

theorem verifyDistance_eq (h : L.Layout (xs ++ x :: ys))
    (hturns : (xs ++ x :: ys).length < turns) (debug : Option ℕ) :
    L.verifyDistance debug turns x (xs.length : ℤ) = .ok () := by
  have hx : x ∉ xs := by
    have := (List.nodup_cons.mp (List.nodup_middle.mp h.nodup)).1
    exact fun hx => this (List.mem_append_left ys hx)
  rw [verifyDistance]
  split_ifs
  · rw [h.head, bruteDistance_eq h.links.follows_next hx (by simp at hturns; omega), Int.zero_add]
    exact require_of rfl
  · rfl

/-- The order after a line has moved to the front. The distance is the position of the line. -/
theorem Layout.bringToFront (h : L.Layout (xs ++ x :: ys)) (hd : L.skipDistance ≠ 1)
    (hxs : xs ≠ []) (hturns : (xs ++ x :: ys).length < turns) (debug : Option ℕ) :
    ∃ L', L.bringToFront debug turns x = .ok ((xs.length : ℤ), L') ∧
      L'.Layout (x :: (xs ++ ys)) ∧ L.SameCounts L' ∧ L'.curTime = L.curTime + 1 := by
  have hlen : (xs ++ x :: ys).length = (x :: (xs ++ ys)).length := List.perm_middle.length_eq
  have hnodup : (x :: (xs ++ ys)).Nodup := List.nodup_middle.mp h.nodup
  -- the skip nodes are shifted while the line is still at its old place
  obtain ⟨skip, L₁, hdist, hshift, ⟨prevSkip, nextSkip, depth, rfl⟩, S, hat, hchain⟩ :=
    h.shift hd hturns
  obtain ⟨next, prev, hrelink, hlinks⟩ := relink_eq (L := { L with
    prevSkip := prevSkip, nextSkip := nextSkip, depth := depth }) h.links h.nodup h.head hxs
  have hsub : (xs ++ ys).Sublist (xs ++ x :: ys) := (List.sublist_cons_self x ys).append_left xs
  obtain ⟨htimes, hlt⟩ := times_stamp (h.times.sublist hsub)
    (fun y hy => h.time_lt y (hsub.subset hy)) (List.nodup_cons.mp hnodup).1
  -- the positions of the skip nodes depend on the number of lines alone
  rw [hlen] at hat hchain
  refine ⟨stamp { L with
    prevSkip := prevSkip, nextSkip := nextSkip, depth := depth, next := next, prev := prev,
    head := some x } x, ?_, ?_, ⟨rfl, rfl, rfl, rfl, rfl⟩, rfl⟩
  · have hprint := debugPrint_eq (L := stamp { L with
      prevSkip := prevSkip, nextSkip := nextSkip, depth := depth, next := next, prev := prev,
      head := some x } x) (hchain.congr rfl rfl rfl) hlinks rfl (by omega : _ ≤ turns) debug
    refine bind_eq_ok_iff.mpr ⟨_, hdist, bind_eq_ok_iff.mpr
      ⟨_, verifyDistance_eq h hturns debug, bind_eq_ok_iff.mpr ⟨_, hshift, ?_⟩⟩⟩
    exact bind_eq_ok_iff.mpr ⟨_, hrelink, bind_eq_ok_iff.mpr ⟨_, hprint, rfl⟩⟩
  · exact ⟨hnodup, hlinks, rfl, h.uniqueLines.trans hlen,
      ⟨S, hat, hchain.congr rfl rfl rfl⟩, htimes, hlt⟩

/-- With a skip distance of one, the skip nodes have no room to move. The line behind the first
one passes its place on to the first one, which has no line before it. -/
theorem Layout.bringToFront_fault {y : α} (h : L.Layout (y :: x :: ys)) (hd : L.skipDistance = 1)
    (hturns : (y :: x :: ys).length < turns) (debug : Option ℕ) :
    L.bringToFront debug turns x = .error .fault := by
  obtain ⟨S, hat, hchain⟩ := h.skips
  rw [hd, skipDepths_one] at hat hchain
  obtain rfl : S = y :: x :: ys := hat.eq_of_range
  -- every line is a skip node, and the second one is at depth one
  have hdepth : L.depth x = 1 := by
    rw [hchain.depth_eq (k := 1) hat h.nodup rfl, if_pos (by simp)]
    rfl
  obtain ⟨hfirst, -, hsecond, -, -⟩ := h.links
  obtain ⟨-, -, hskip, -, -⟩ := hchain.links
  obtain ⟨turns, rfl⟩ : ∃ n, turns = n + 2 := ⟨turns - 2, by simp at hturns; omega⟩
  have hdist : L.reuseDistance (turns + 2) x = .ok (1, some x) := by
    rw [reuseDistance, climb_some, if_neg (by omega)]
    simp only [bind, Except.bind, hdepth]
    rfl
  have hverify : L.verifyDistance debug (turns + 2) x ([y].length : ℤ) = .ok () :=
    verifyDistance_eq h hturns debug
  -- `x` gives its place to `y`, the next skip node, which has no line before it
  have hshift : L.shiftFrom (turns + 2) x (some x) = .error .fault := by
    rw [shiftFrom, shiftSkips_some L (turns + 1) hsecond, hskip]
    exact shiftSkips_fault _ _ hfirst
  change L.verifyDistance debug (turns + 2) x 1 = .ok () at hverify
  rw [LineRefList.bringToFront, hdist]
  simp only [bind, Except.bind, hverify, hshift]

/-! ### A line that is added -/

/-- A skip node is added in front of the others. -/
theorem Chain.cons (h : L.Chain S ks) (hs : s ∉ S) (k : ℕ) :
    Chain { L with
      depth := update L.depth s k
      prevSkip := setAt L.prevSkip S.head? (some s)
      nextSkip := update L.nextSkip s S.head? } (s :: S) (k :: ks) where
  nodup := List.nodup_cons.mpr ⟨hs, h.nodup⟩
  links := h.links.cons (List.nodup_cons.mpr ⟨hs, h.nodup⟩) (h.off s hs).2.1
  depths := by
    have hother : S.map (update L.depth s k) = S.map L.depth := by
      apply List.map_congr_left
      intro y hy
      apply update_of_ne
      rintro rfl
      exact hs hy
    simp only [List.map_cons, update_self, hother, h.depths]
  off y hy := by
    rw [List.mem_cons, not_or] at hy
    obtain ⟨hys, hyS⟩ := hy
    simp only [update_of_ne hys, setAt_of_ne (ne_of_mem_head? hyS)]
    exact h.off y hyS

/-- All skip nodes but those of `A` move back by one. -/
theorem Chain.deepen {A : List α} {js : List ℕ} (h : L.Chain (A ++ S) (js ++ ks))
    (hlen : A.length = js.length) :
    Chain { L with depth := fun y => if y ∈ S then L.depth y + 1 else L.depth y } (A ++ S)
      (js ++ ks.map (· + 1)) where
  nodup := h.nodup
  links := h.links
  depths := by
    obtain ⟨hA, hS⟩ := List.append_inj (by simpa using h.depths) (by simpa using hlen)
    have hdisj := (List.nodup_append.mp h.nodup).2.2
    rw [List.map_append, List.map_append, ← hA]
    congr 1
    · apply List.map_congr_left
      intro y hy
      exact if_neg fun hyS => hdisj y hy y hyS rfl
    · calc S.map (fun y => if y ∈ S then L.depth y + 1 else L.depth y)
          = (S.map L.depth).map (· + 1) := by
            rw [List.map_map]
            apply List.map_congr_left
            intro y hy
            exact if_pos hy
        _ = (ks.map (· + 1)).map (↑) := by
            rw [hS, List.map_map, List.map_map]
            rfl
  off y hy := by
    have hyS : y ∉ S := fun hyS => hy (List.mem_append_right A hyS)
    simp only [if_neg hyS]
    exact h.off y hy

omit [DecidableEq α] in
theorem skipSpan_le_iff {count : ℕ} (hd : 2 * L.skipDistance < 2 ^ 64)
    (hcount : count < 2 ^ 64 - 1) :
    L.skipSpan ≤ count ↔ 0 < L.skipDistance ∧ 2 * L.skipDistance - 1 ≤ count := by
  rw [skipSpan]
  omega

/-- A skip node is added if there are enough nodes in front of the others. -/
theorem addSkip_eq {u : List α} (h : L.Chain S ks) (hu : ∀ y ∈ u, y ∉ S)
    (hd : 2 * L.skipDistance < 2 ^ 64) (hlen : u.length < 2 ^ 64 - 1) :
    ∃ A L', L.addSkip u.length S.head?
        (if 0 < L.skipDistance ∧ L.skipDistance ≤ 0 + u.length then u[L.skipDistance - 1 - 0]?
        else none) = .ok L' ∧
      L.SkipsOnly L' ∧ At u A (newDepths L.skipDistance u.length) ∧
      L'.Chain (A ++ S) (newDepths L.skipDistance u.length ++ ks) := by
  rw [addSkip, newDepths]
  simp only [skipSpan_le_iff hd hlen, Nat.zero_add, Nat.sub_zero]
  by_cases hnew : 0 < L.skipDistance ∧ 2 * L.skipDistance - 1 ≤ u.length
  · have hlt : L.skipDistance - 1 < u.length := by omega
    have hs := hu _ (List.getElem_mem hlt)
    -- the two assertions: nothing is in front of the first skip node, nor of the new one
    have hfirst : ∀ y ∈ S.head?, L.prevSkip y = none := by
      cases S with
      | nil => simp
      | cons y S => simpa using h.links.1
    have hback : setAt L.prevSkip S.head? (some u[L.skipDistance - 1]) u[L.skipDistance - 1] =
        none := by
      rw [setAt_of_ne (ne_of_mem_head? hs)]
      exact (h.off _ hs).2.1
    have hcast : (L.skipDistance : ℤ) - 1 = (L.skipDistance - 1 : ℕ) := by omega
    rw [if_pos hnew, if_pos (by omega), if_pos hnew, List.getElem?_eq_getElem hlt]
    refine ⟨[u[L.skipDistance - 1]], _, ?_, ⟨_, _, _, rfl⟩, ?_,
      h.cons hs (L.skipDistance - 1)⟩
    · simp only [deref, bind, Except.bind, require_of hfirst, require_of hback, hcast]
      rfl
    · simp [At, List.getElem?_eq_getElem hlt]
  · rw [if_neg hnew, if_neg hnew]
    exact ⟨[], L, rfl, ⟨_, _, _, rfl⟩, rfl, h⟩

omit [DecidableEq α] in
theorem At.append {u v A : List α} {js : List ℕ} (hA : At u A js) (hS : At (u ++ v) S ks) :
    At (u ++ v) (A ++ S) (js ++ ks) := by
  refine At.append_iff.mpr ⟨A, S, rfl, hA.trans ?_, hS⟩
  apply List.map_congr_left
  intro j hj
  obtain ⟨y, -, hy⟩ := hA.exists_of_position hj
  exact (List.getElem?_append_left (List.getElem?_eq_some_iff.mp hy).1).symm

/-- The skip nodes get the positions that they have when a line has been added at the front. -/
theorem deepenSkips {d : ℕ} (hL : L.skipDistance = d) (hnext : Follows L.next (x :: l))
    (hhead : L.head = some x) (hnodup : (x :: l).Nodup) (hat : At l S (skipDepths d l.length))
    (hchain : L.Chain S (skipDepths d l.length)) (hd : 2 * d < 2 ^ 64)
    (hlen : (x :: l).length < 2 ^ 64 - 1) (hturns : (x :: l).length < turns) :
    ∃ count node skip L₁ L', L.scanFront turns L.head 0 none = .ok (count, node, skip) ∧
      L.addSkip count node skip = .ok L₁ ∧ L₁.deepen turns node = .ok L' ∧ L.SkipsOnly L' ∧
      ∃ S', At (x :: l) S' (skipDepths d (x :: l).length) ∧
        L'.Chain S' (skipDepths d (x :: l).length) := by
  subst hL
  have hsorted : ((skipDepths L.skipDistance l.length).map (· + 1)).Pairwise (· < ·) := by
    rw [List.pairwise_map]
    exact (sorted_skipDepths _ _).imp Nat.succ_lt_succ
  -- `u` is what the scan goes through, `v` starts with the first skip node
  obtain ⟨u, v, huv, hu, hv, hfront⟩ := (hat.cons x).front hnodup hsorted
  have hle : u.length ≤ (x :: l).length := by
    rw [huv, List.length_append]
    omega
  have hScount : S.length ≤ (x :: l).length := (hat.cons x).length_le hchain.nodup
  have hscan := scanFront_eq (huv ▸ hnext) (fun y hy => (hchain.off y (hfront y hy)).2.2)
    (fun y hy => hchain.depth_ne_iff.mpr (List.mem_of_mem_head? (hv ▸ hy)))
    (by omega : u.length < turns) 0 none
  rw [← huv, List.head?_cons, ← hhead, hv] at hscan
  obtain ⟨A, L₁, hadd, honly, hA, hchain₁⟩ := addSkip_eq hchain hfront hd (by omega)
  have hdeepen := deepen_eq hchain₁.links.follows_next.of_append hchain.nodup
    (by omega : S.length ≤ turns)
  -- `skipDepths` recurses in the same way: old nodes move back by one, a new one comes first
  have hdepths : newDepths L.skipDistance u.length ++
      (skipDepths L.skipDistance l.length).map (· + 1) =
        skipDepths L.skipDistance (x :: l).length := by
    rw [hu]
    rfl
  refine ⟨_, _, _, L₁, _, hscan, by simpa using hadd, hdeepen, ?_, A ++ S, ?_, ?_⟩
  · obtain ⟨_, _, _, rfl⟩ := honly
    exact ⟨_, _, _, rfl⟩
  · rw [← hdepths, huv]
    exact hA.append (huv ▸ hat.cons x)
  · rw [← hdepths]
    exact hchain₁.deepen (by simpa [At] using congrArg List.length hA)

/-- The order after a line has been added. -/
theorem Layout.addSkips (h : L.Layout l) (hx : x ∉ l) (hprev : L.prev x = none)
    (hd : 2 * L.skipDistance < 2 ^ 64) (hlen : (x :: l).length < 2 ^ 64 - 1)
    (hturns : (x :: l).length < turns) (gate : Option α) (debug : Option ℕ) :
    ∃ L', LineRefList.addSkips { L.pushFront x with gate := gate } debug turns x = .ok L' ∧
      L'.Layout (x :: l) ∧ SameCounts { L with gate := gate } L' ∧
      L'.curTime = L.curTime + 1 := by
  have hnodup : (x :: l).Nodup := List.nodup_cons.mpr ⟨hx, h.nodup⟩
  have hlinks := h.links.cons hnodup hprev
  rw [← h.head] at hlinks
  obtain ⟨S, hat, hchain⟩ := h.skips
  obtain ⟨htimes, hlt⟩ := times_stamp h.times h.time_lt hx
  obtain ⟨count, node, skip, L₁, L', hscan, hadd, hdeepen, ⟨prevSkip, nextSkip, depth, hL'⟩, S',
    hat', hchain'⟩ := deepenSkips (d := L.skipDistance)
      (L := stamp { L.pushFront x with
        gate := gate, uniqueLines := (L.pushFront x).uniqueLines + 1 } x)
      rfl hlinks.follows_next rfl hnodup hat (hchain.congr rfl rfl rfl) hd hlen hturns
  have hlinks' : Links L'.next L'.prev none (x :: l) none := by
    rw [hL']
    exact hlinks
  have hhead' : L'.head = some x := by
    rw [hL']
    rfl
  refine ⟨L', ?_, ?_, ?_, ?_⟩
  · have hprint := debugPrint_eq hchain' hlinks' hhead' (by omega : _ ≤ turns) debug
    refine bind_eq_ok_iff.mpr ⟨_, hscan, bind_eq_ok_iff.mpr ⟨_, hadd, ?_⟩⟩
    exact bind_eq_ok_iff.mpr ⟨_, hdeepen, bind_eq_ok_iff.mpr ⟨_, hprint, rfl⟩⟩
  · have hskips : ∃ S, At (x :: l) S (skipDepths L.skipDistance (x :: l).length) ∧
        L'.Chain S (skipDepths L.skipDistance (x :: l).length) := ⟨S', hat', hchain'⟩
    subst hL'
    exact ⟨hnodup, hlinks, rfl, congrArg (· + 1) h.uniqueLines, hskips, htimes, hlt⟩
  · rw [hL']
    exact ⟨rfl, rfl, rfl, rfl, rfl⟩
  · rw [hL']
    rfl

end SagePTE.Tools.LineRefList
