import SagePTE.Lib.MoveToFront
import SagePTE.Tools.FrontMoves

/-!
# The list and the history

The state of the list in terms of the lines that have been accessed: their order, the counts and
the gate. Each of the two operations keeps this relation when it handles one more access.

With a threshold of at least one, the gate is at the position of the threshold, or at the end of
a shorter list. With a threshold of zero it is at the front, so that the first line that moves
there takes it off the list. From then on no reference counts as a distant one.

## Main definitions

* `LineRefList.lastWithin` — where the gate belongs
* `LineRefList.countedReuses` — the distant references that are counted
* `LineRefList.Tracks` — the list after some accesses

## Main results

* `LineRefList.Tracks.addToFront` — a line that is accessed for the first time
* `LineRefList.Tracks.moveToFront` — a line that is accessed again
* `LineRefList.Tracks.moveToFront_fault` — a skip distance that is too small
-/

set_option autoImplicit false

namespace SagePTE.Tools.LineRefList

open Function Linked Fallible MoveToFront

variable {α : Type} {L : LineRefList α} {l xs ys used : List α} {x y : α} {turns : ℕ}

/-! ### The gate -/

/-- The last line within the threshold. -/
def lastWithin (threshold : ℕ) (l : List α) : Option α := l[min threshold (l.length - 1)]?

theorem time_lt_iff {i j : ℕ} (h : L.Layout l) (hx : l[i]? = some x) (hy : l[j]? = some y) :
    L.timeStamp x < L.timeStamp y ↔ j < i := by
  have hpair := List.pairwise_iff_getElem.mp h.times
  obtain ⟨hi, rfl⟩ := List.getElem?_eq_some_iff.mp hx
  obtain ⟨hj, rfl⟩ := List.getElem?_eq_some_iff.mp hy
  rcases Nat.lt_trichotomy i j with hlt | rfl | hlt
  · have := hpair i j hi hj hlt
    omega
  · omega
  · have := hpair j i hj hi hlt
    omega

theorem Layout.prev_head? (h : L.Layout l) (hy : l.head? = some y) : L.prev y = none := by
  obtain ⟨l, rfl⟩ := List.head?_eq_some_iff.mp hy
  exact h.links.1

theorem stepGate_eq (hy : L.gate = some y) : L.stepGate = .ok { L with gate := L.prev y } := by
  rw [stepGate, hy]
  rfl

theorem advanceGate_of_le (hT : L.uniqueLines ≤ L.threshold) :
    L.advanceGate = .ok { L with gate := L.gate.or L.head } := by
  cases hgate : L.gate with
  | none =>
    rw [advanceGate, if_pos hgate, if_neg (Nat.not_lt.mpr hT)]
    rfl
  | some y =>
    have hsome : ¬ L.gate = none := by simp [hgate]
    rw [advanceGate, if_neg hsome, if_neg (Nat.not_lt.mpr hT), Option.some_or, ← hgate]

theorem advanceGate_of_lt (hT : L.threshold < L.uniqueLines) (hy : L.gate.or L.head = some y) :
    L.advanceGate = .ok { L with gate := L.prev y } := by
  cases hgate : L.gate with
  | none =>
    rw [hgate, Option.none_or] at hy
    rw [advanceGate, if_pos hgate, if_pos hT]
    exact stepGate_eq hy
  | some z =>
    have hsome : ¬ L.gate = none := by simp [hgate]
    obtain rfl : z = y := by simpa [hgate] using hy
    rw [advanceGate, if_neg hsome, if_pos hT]
    exact stepGate_eq hgate

variable [DecidableEq α]

theorem passGate_of_none (h : L.gate = none) (x : α) : L.passGate x = .ok L := by
  rw [passGate, refIsDistant, h]
  simp

/-- The gate stays at its position when a line moves to the front. With a threshold of zero it
has no predecessor, and is lost. -/
theorem passGate_eq (h : L.Layout (xs ++ x :: ys)) (hxs : xs ≠ [])
    (hgate : L.gate = lastWithin L.threshold (xs ++ x :: ys)) :
    L.passGate x = .ok { L with
      distantRefs := if L.threshold < xs.length then update L.distantRefs x (L.distantRefs x + 1)
        else L.distantRefs
      gate := if L.threshold = 0 then none else lastWithin L.threshold (x :: (xs ++ ys)) } := by
  have hpos := List.length_pos_iff.mpr hxs
  have hlen : (xs ++ x :: ys).length = xs.length + ys.length + 1 := by simp; omega
  have hlen' : (x :: (xs ++ ys)).length = xs.length + ys.length + 1 := by simp
  have hx : (xs ++ x :: ys)[xs.length]? = some x := by simp
  have hprev {j : ℕ} {z : α} := h.links.prev_getElem? (k := j) (x := z)
  rw [lastWithin, hlen, Nat.add_sub_cancel] at hgate
  rw [lastWithin, hlen', Nat.add_sub_cancel]
  have hlt : min L.threshold (xs.length + ys.length) < (xs ++ x :: ys).length := by omega
  obtain ⟨y, hy⟩ : ∃ y, (xs ++ x :: ys)[min L.threshold (xs.length + ys.length)]? = some y :=
    ⟨_, List.getElem?_eq_getElem hlt⟩
  rw [hy] at hgate
  -- times compare as positions do, and `x` is at the position `xs.length`
  have hdistant : L.refIsDistant x = true ↔ L.threshold < xs.length := by
    rw [refIsDistant, hgate, decide_eq_true_iff, time_lt_iff h hx hy]
    omega
  rw [passGate]
  by_cases hT : L.threshold < xs.length
  · rw [Nat.min_eq_left (by omega)] at hy
    rw [if_pos (hdistant.mpr hT), if_pos hT, Nat.min_eq_left (by omega)]
    -- the predecessor of the gate, if there is one
    have hback : L.prev y = if L.threshold = 0 then none
        else (x :: (xs ++ ys))[L.threshold]? := by
      split_ifs with hzero
      · rw [hzero, ← List.head?_eq_getElem?] at hy
        exact h.prev_head? hy
      · rw [getElem?_front_of_le (by omega) (by omega)]
        apply hprev
        rwa [Nat.sub_add_cancel (by omega)]
    rw [← hback]
    exact stepGate_eq hgate
  · rw [if_neg (mt hdistant.mp hT), if_neg hT, hgate, if_neg (by omega : L.threshold ≠ 0)]
    have hle : xs.length ≤ min L.threshold (xs.length + ys.length) := by omega
    generalize min L.threshold (xs.length + ys.length) = g at hy hle
    rcases Nat.eq_or_lt_of_le hle with rfl | hgt
    · -- the line is the gate
      obtain rfl : x = y := Option.some.inj (hx.symm.trans hy)
      have hback : L.prev x = (x :: (xs ++ ys))[xs.length]? := by
        rw [getElem?_front_of_le hpos (Nat.le_refl _)]
        apply hprev
        rwa [Nat.sub_add_cancel hpos]
      rw [if_pos rfl, ← hback]
      exact stepGate_eq hgate
    · have hyx : y ≠ x := by
        rintro rfl
        exact hgt.ne ((List.getElem?_inj (by omega) h.nodup).mp (hx.trans hy.symm))
      rw [if_neg (mt Option.some.inj hyx), getElem?_front_of_lt hgt, hy, ← hgate]

theorem pushFront_links (h : L.Layout l) (hx : x ∉ l) (hprev : L.prev x = none) :
    Links (L.pushFront x).next (L.pushFront x).prev none (x :: l) none := by
  have := h.links.cons (List.nodup_cons.mpr ⟨hx, h.nodup⟩) hprev
  rwa [← h.head] at this

/-- The gate moves on when a line is added and there are more lines than the threshold. -/
theorem advanceGate_eq (h : L.Layout l) (hx : x ∉ l) (hprev : L.prev x = none)
    (hgate : L.gate = lastWithin L.threshold l) :
    (L.pushFront x).advanceGate =
      .ok { L.pushFront x with gate := lastWithin L.threshold (x :: l) } := by
  have hlines : (L.pushFront x).uniqueLines = l.length := h.uniqueLines
  have hhead : (L.pushFront x).gate.or (L.pushFront x).head =
      (lastWithin L.threshold l).or (some x) := congrArg (·.or (some x)) hgate
  rw [lastWithin] at hhead ⊢
  by_cases hT : L.threshold < l.length
  · have hlt : min L.threshold (l.length - 1) < l.length := by omega
    rw [List.getElem?_eq_getElem hlt, Option.some_or] at hhead
    have hidx : min L.threshold ((x :: l).length - 1) = min L.threshold (l.length - 1) := by
      rw [List.length_cons]
      omega
    have hy : (x :: l)[min L.threshold (l.length - 1) + 1]? =
        some l[min L.threshold (l.length - 1)] := by
      rw [List.getElem?_cons_succ, List.getElem?_eq_getElem hlt]
    -- the gate's line is one further back now, so its predecessor is at the old position
    rw [advanceGate_of_lt (hlines ▸ hT) hhead, (pushFront_links h hx hprev).prev_getElem? hy, hidx]
  · have hidx : min L.threshold ((x :: l).length - 1) = l.length := by
      rw [List.length_cons]
      omega
    have hlast : l[min L.threshold (l.length - 1)]?.or (some x) = (x :: l)[l.length]? := by
      rw [Nat.min_eq_right (by omega)]
      cases l with
      | nil => rfl
      | cons y l => simp
    rw [advanceGate_of_le (by rw [hlines]; exact Nat.not_lt.mp hT), hhead, hidx, hlast]

/-- A gate that has been lost is not found again. -/
theorem advanceGate_of_none (h : L.Layout l) (hx : x ∉ l) (hprev : L.prev x = none)
    (hl : l ≠ []) (hzero : L.threshold = 0) (hgate : L.gate = none) :
    (L.pushFront x).advanceGate = .ok { L.pushFront x with gate := none } := by
  have hT : (L.pushFront x).threshold < (L.pushFront x).uniqueLines := by
    have hlines := h.uniqueLines
    have hpos := List.length_pos_iff.mpr hl
    simp only [pushFront]
    omega
  have hhead : (L.pushFront x).gate.or (L.pushFront x).head = some x :=
    congrArg (·.or (some x)) hgate
  rw [advanceGate_of_lt hT hhead, (pushFront_links h hx hprev).1]

/-! ### The history -/

/-- The reuses with a distance above the threshold. -/
def distantReuses (threshold : ℕ) (used : List α) : List (α × ℕ) :=
  (reuses used).filter (threshold < ·.2)

/-- The distant reuses that are counted. With a threshold of zero the gate is lost at the first
one. -/
def countedReuses (threshold : ℕ) (used : List α) : List (α × ℕ) :=
  if threshold = 0 then (distantReuses 0 used).take 1 else distantReuses threshold used

/-- The list after these lines have been accessed. -/
structure Tracks (L : LineRefList α) (used : List α) : Prop where
  layout : L.Layout (order used)
  gate : L.gate = if L.threshold = 0 ∧ distantReuses 0 used ≠ [] then none
    else lastWithin L.threshold (order used)
  totalRefs : ∀ y ∈ used, L.totalRefs y = used.count y
  distantRefs : ∀ y ∈ used,
    L.distantRefs y = (countedReuses L.threshold used).countP (·.1 = y)
  curTime : L.curTime + (reuses used).countP (·.2 = 0) = used.length

theorem distantReuses_concat_of_notMem (threshold : ℕ) (hx : x ∉ used) :
    distantReuses threshold (used ++ [x]) = distantReuses threshold used := by
  rw [distantReuses, reuses_concat_of_notMem hx]
  rfl

theorem distantReuses_concat_of_mem (threshold : ℕ) (hx : x ∈ used) :
    distantReuses threshold (used ++ [x]) = distantReuses threshold used ++
      if threshold < distance used x then [(x, distance used x)] else [] := by
  rw [distantReuses, reuses_concat_of_mem hx, List.filter_append, List.filter_singleton]
  simp [distantReuses]

theorem countedReuses_concat_of_notMem (threshold : ℕ) (hx : x ∉ used) :
    countedReuses threshold (used ++ [x]) = countedReuses threshold used := by
  simp only [countedReuses, distantReuses_concat_of_notMem _ hx]

theorem countedReuses_concat_of_mem (threshold : ℕ) (hx : x ∈ used) :
    countedReuses threshold (used ++ [x]) = countedReuses threshold used ++
      if threshold < distance used x ∧ ¬ (threshold = 0 ∧ distantReuses 0 used ≠ []) then
        [(x, distance used x)]
      else [] := by
  simp only [countedReuses, distantReuses_concat_of_mem _ hx]
  by_cases hzero : threshold = 0
  · subst hzero
    cases hlost : distantReuses 0 used with
    | nil => split_ifs <;> simp_all
    | cons r rs => simp
  · simp [hzero]

theorem countP_countedReuses_of_notMem (threshold : ℕ) (hx : x ∉ used) :
    (countedReuses threshold used).countP (·.1 = x) = 0 := by
  rw [List.countP_eq_zero]
  intro r hr
  have hmem : r ∈ reuses used := by
    rw [countedReuses] at hr
    split_ifs at hr
    · exact List.mem_of_mem_filter (List.mem_of_mem_take hr)
    · exact List.mem_of_mem_filter hr
  rw [decide_eq_true_iff]
  rintro rfl
  exact hx (mem_of_mem_reuses hmem)

theorem tracks_empty (threshold skipDist : ℕ) (verify : Bool) :
    (empty α threshold skipDist verify).Tracks [] where
  layout :=
    { nodup := List.nodup_nil
      links := links_nil
      head := rfl
      uniqueLines := rfl
      skips := ⟨[], rfl, List.nodup_nil, links_nil, rfl, fun _ _ => ⟨rfl, rfl, rfl⟩⟩
      times := List.Pairwise.nil
      time_lt := by simp }
  gate := by simp [distantReuses, lastWithin, empty]
  totalRefs := by simp
  distantRefs := by simp
  curTime := rfl

/-- Nothing of the list changes when a node is allocated. -/
theorem Layout.newLineRef (h : L.Layout l) (hx : x ∉ l) : (L.newLineRef x).Layout l where
  nodup := h.nodup
  links := by
    have hne : ∀ y ∈ l, y ≠ x := by
      rintro y hy rfl
      exact hx hy
    exact h.links.congr (fun y hy => update_of_ne (hne y hy) ..)
      fun y hy => update_of_ne (hne y hy) ..
  head := h.head
  uniqueLines := h.uniqueLines
  skips := by
    obtain ⟨S, hat, hchain⟩ := h.skips
    have hxS : x ∉ S := by
      intro hmem
      obtain ⟨k, -, hk⟩ := hat.exists_of_mem hmem
      exact hx (List.mem_of_getElem? hk)
    obtain ⟨hnext, hprev, hdepth⟩ := hchain.off x hxS
    refine ⟨S, hat, hchain.congr ?_ ?_ ?_⟩
    · exact update_eq_self_iff.mpr hnext.symm
    · exact update_eq_self_iff.mpr hprev.symm
    · exact update_eq_self_iff.mpr hdepth.symm
  times := h.times
  time_lt := h.time_lt

/-- The gate after a line has been added. -/
theorem Tracks.advanceGate (h : L.Tracks used) (hx : x ∉ used) :
    ((L.newLineRef x).pushFront x).advanceGate = .ok { (L.newLineRef x).pushFront x with
      gate := if L.threshold = 0 ∧ distantReuses 0 used ≠ [] then none
        else lastWithin L.threshold (x :: order used) } := by
  have hmem : x ∉ order used := mt mem_order.mp hx
  have hlayout := h.layout.newLineRef hmem
  have hprev : (L.newLineRef x).prev x = none := update_self ..
  have hgate := h.gate
  split_ifs at hgate ⊢ with hlost
  · apply advanceGate_of_none hlayout hmem hprev _ hlost.1 hgate
    -- a reuse has been seen, so that the list is not empty
    intro hnil
    obtain ⟨r, hr⟩ := List.exists_mem_of_ne_nil _ hlost.2
    have hused := mem_order.mpr (mem_of_mem_reuses (List.mem_of_mem_filter hr))
    rw [hnil] at hused
    exact List.not_mem_nil hused
  · exact advanceGate_eq hlayout hmem hprev hgate

/-- A line that is accessed for the first time. -/
theorem Tracks.addToFront (h : L.Tracks used) (hx : x ∉ used)
    (hd : 2 * L.skipDistance < 2 ^ 64) (hlen : used.length + 1 < 2 ^ 64 - 1)
    (hturns : used.length + 1 < turns) (debug : Option ℕ) :
    ∃ L', (L.newLineRef x).addToFront debug turns x = .ok L' ∧ L'.Tracks (used ++ [x]) ∧
      L'.threshold = L.threshold ∧ L'.skipDistance = L.skipDistance := by
  have hmem : x ∉ order used := mt mem_order.mp hx
  have hcount : (x :: order used).length ≤ used.length + 1 :=
    Nat.succ_le_succ (length_order_le used)
  obtain ⟨L', hadd, hlayout, hsame, htime⟩ := (h.layout.newLineRef hmem).addSkips hmem
    (update_self ..) hd (hcount.trans_lt hlen) (hcount.trans_lt hturns)
    (if L.threshold = 0 ∧ distantReuses 0 used ≠ [] then none
      else lastWithin L.threshold (x :: order used)) debug
  -- no reuse is added: only the order, the counts of `x` and the time change
  refine ⟨L', bind_eq_ok_iff.mpr ⟨_, h.advanceGate hx, hadd⟩, ?_, hsame.threshold,
    hsame.skipDistance⟩
  have hthreshold : L'.threshold = L.threshold := hsame.threshold
  constructor
  · rwa [order_concat_of_notMem hx]
  · rw [hsame.gate, hthreshold, distantReuses_concat_of_notMem 0 hx, order_concat_of_notMem hx]
  · intro y hy
    rw [hsame.totalRefs]
    by_cases hyx : y = x
    · subst hyx
      simp [LineRefList.newLineRef, List.count_eq_zero_of_not_mem hx]
    · have hyused : y ∈ used := by simpa [hyx] using hy
      simp [LineRefList.newLineRef, hyx, h.totalRefs y hyused, Ne.symm hyx]
  · intro y hy
    rw [hsame.distantRefs, hthreshold, countedReuses_concat_of_notMem _ hx]
    by_cases hyx : y = x
    · subst hyx
      simp [LineRefList.newLineRef, countP_countedReuses_of_notMem _ hx]
    · have hyused : y ∈ used := by simpa [hyx] using hy
      simp [LineRefList.newLineRef, hyx, h.distantRefs y hyused]
  · have hcur := h.curTime
    have hnew : (L.newLineRef x).curTime = L.curTime := rfl
    rw [htime, reuses_concat_of_notMem hx, List.length_append, List.length_singleton]
    omega

omit [DecidableEq α] in
theorem Layout.setCounts (h : L.Layout l) (total distant : α → ℕ) (gate : Option α) :
    Layout { L with totalRefs := total, distantRefs := distant, gate := gate } l where
  nodup := h.nodup
  links := h.links
  head := h.head
  uniqueLines := h.uniqueLines
  skips := by
    obtain ⟨S, hat, hchain⟩ := h.skips
    exact ⟨S, hat, hchain.congr rfl rfl rfl⟩
  times := h.times
  time_lt := h.time_lt

/-- The gate and the count of distant references, when a line moves to the front. -/
theorem Tracks.passGate (h : L.Tracks used) (horder : order used = xs ++ x :: ys) (hxs : xs ≠ [])
    (total : α → ℕ) :
    LineRefList.passGate { L with totalRefs := total } x = .ok { L with
      totalRefs := total
      distantRefs := if L.threshold < xs.length ∧
          ¬ (L.threshold = 0 ∧ distantReuses 0 used ≠ []) then
        update L.distantRefs x (L.distantRefs x + 1) else L.distantRefs
      gate := if L.threshold = 0 then none
        else lastWithin L.threshold (x :: (xs ++ ys)) } := by
  have hgate := h.gate
  rw [horder] at hgate
  by_cases hlost : L.threshold = 0 ∧ distantReuses 0 used ≠ []
  · rw [if_pos hlost] at hgate
    rw [if_neg fun hcounted => hcounted.2 hlost, if_pos hlost.1, ← hgate]
    exact passGate_of_none (L := { L with totalRefs := total }) hgate x
  · rw [if_neg hlost] at hgate
    simp only [hlost, not_false_eq_true, and_true]
    exact passGate_eq ((horder ▸ h.layout).setCounts total L.distantRefs L.gate) hxs hgate

omit [DecidableEq α] in
theorem mem_of_mem_concat (hx : x ∈ used) (hy : y ∈ used ++ [x]) : y ∈ used := by
  rcases List.mem_append.mp hy with hy | hy
  · exact hy
  · rwa [List.mem_singleton.mp hy]

theorem update_eq_count {f : α → ℕ} (h : ∀ y ∈ used, f y = used.count y) (hx : x ∈ used) :
    ∀ y ∈ used ++ [x], update f x (f x + 1) y = (used ++ [x]).count y := by
  intro y hy
  rw [List.count_append, ← h y (mem_of_mem_concat hx hy)]
  by_cases hyx : y = x
  · subst hyx
    simp
  · simp [hyx, Ne.symm hyx]

theorem update_eq_countP {f : α → ℕ} {rs : List (α × ℕ)}
    (h : ∀ y ∈ used, f y = rs.countP (·.1 = y)) (hx : x ∈ used) (dist : ℕ) (p : Prop)
    [Decidable p] :
    ∀ y ∈ used ++ [x], (if p then update f x (f x + 1) else f) y =
      (rs ++ if p then [(x, dist)] else []).countP (·.1 = y) := by
  intro y hy
  rw [List.countP_append, ← h y (mem_of_mem_concat hx hy)]
  by_cases hyx : y = x
  · subst hyx
    split_ifs <;> simp
  · split_ifs <;> simp [hyx, Ne.symm hyx]

omit [DecidableEq α] in
theorem Layout.head_ne (h : L.Layout (xs ++ x :: ys)) (hxs : xs ≠ []) : L.head ≠ some x := by
  rw [h.head, List.head?_append_of_ne_nil _ hxs]
  have hx := (List.nodup_cons.mp (List.nodup_middle.mp h.nodup)).1
  exact ne_of_mem_head? fun hmem => hx (List.mem_append_left ys hmem)

theorem moveToFront_of_head (hhead : L.head = some x) (debug : Option ℕ) :
    L.moveToFront debug turns x =
      .ok (0, { L with totalRefs := update L.totalRefs x (L.totalRefs x + 1) }) :=
  if_pos hhead

theorem moveToFront_of_ne (hhead : L.head ≠ some x) (debug : Option ℕ) :
    L.moveToFront debug turns x =
      (LineRefList.passGate { L with totalRefs := update L.totalRefs x (L.totalRefs x + 1) } x >>=
        fun L => L.bringToFront debug turns x) :=
  if_neg hhead

/-- A line that is accessed again. -/
theorem Tracks.moveToFront (h : L.Tracks used) (hx : x ∈ used)
    (hd : distance used x ≠ 0 → L.skipDistance ≠ 1) (hturns : used.length < turns)
    (debug : Option ℕ) :
    ∃ L', L.moveToFront debug turns x = .ok ((distance used x : ℤ), L') ∧
      L'.Tracks (used ++ [x]) ∧ L'.threshold = L.threshold ∧
      L'.skipDistance = L.skipDistance := by
  obtain ⟨xs, ys, horder, hdist⟩ := exists_order_eq hx
  have horder' := order_concat_of_eq horder
  have hlayout := h.layout
  have hcurTime := h.curTime
  have htotal := update_eq_count h.totalRefs hx
  have hdistant := update_eq_countP h.distantRefs hx (distance used x)
    (L.threshold < distance used x ∧ ¬ (L.threshold = 0 ∧ distantReuses 0 used ≠ []))
  have htime : (reuses (used ++ [x])).countP (·.2 = 0) =
      (reuses used).countP (·.2 = 0) + if xs.length = 0 then 1 else 0 := by
    simp [reuses_concat_of_mem hx, List.countP_append, List.countP_singleton, hdist]
  rw [horder] at hlayout
  rw [← countedReuses_concat_of_mem _ hx, ← hdist] at hdistant
  rw [← hdist]
  by_cases hxs : xs = []
  · -- the line is at the front already
    subst hxs
    refine ⟨_, moveToFront_of_head hlayout.head debug, ⟨?_, ?_, htotal, ?_, ?_⟩, rfl, rfl⟩
    · rw [horder']
      exact hlayout.setCounts _ L.distantRefs L.gate
    · rw [horder', distantReuses_concat_of_mem 0 hx, ← hdist]
      simpa [horder] using h.gate
    · simpa using hdistant
    · rw [htime, List.length_append]
      simp only [List.length_nil, if_true, List.length_singleton]
      omega
  · have hpos : 0 < xs.length := List.length_pos_iff.mpr hxs
    have hcount := length_order_le used
    rw [horder] at hcount
    -- the gate is set first, and the move to the front does not touch it
    have hpass := h.passGate horder hxs (update L.totalRefs x (L.totalRefs x + 1))
    obtain ⟨L', hbring, hlayout', hsame, hcur⟩ := (hlayout.setCounts
      (update L.totalRefs x (L.totalRefs x + 1))
      (if L.threshold < xs.length ∧ ¬ (L.threshold = 0 ∧ distantReuses 0 used ≠ []) then
        update L.distantRefs x (L.distantRefs x + 1) else L.distantRefs)
      (if L.threshold = 0 then none else lastWithin L.threshold (x :: (xs ++ ys)))).bringToFront
      (hd (hdist ▸ hpos.ne')) hxs (hcount.trans_lt hturns) debug
    have hthreshold : L'.threshold = L.threshold := hsame.threshold
    refine ⟨L', ?_, ⟨?_, ?_, ?_, ?_, ?_⟩, hthreshold, hsame.skipDistance⟩
    · rw [moveToFront_of_ne (hlayout.head_ne hxs)]
      exact bind_eq_ok_iff.mpr ⟨_, hpass, hbring⟩
    · rwa [horder']
    · have hdistant' : distantReuses 0 (used ++ [x]) ≠ [] := by
        simp [distantReuses_concat_of_mem 0 hx, ← hdist, hpos]
      rw [hsame.gate, hthreshold, horder']
      simp only [hdistant', ne_eq, not_false_eq_true, and_true]
    · rw [hsame.totalRefs]
      exact htotal
    · rw [hsame.distantRefs, hthreshold]
      exact hdistant
    · rw [hcur, htime, if_neg hpos.ne', List.length_append, List.length_singleton]
      simp only
      omega

/-- With a skip distance of one, the line behind the first one cannot be accessed. -/
theorem Tracks.moveToFront_fault (h : L.Tracks used) (hx : x ∈ used) (hd : L.skipDistance = 1)
    (hdist : distance used x = 1) (hturns : used.length < turns) (debug : Option ℕ) :
    L.moveToFront debug turns x = .error .fault := by
  obtain ⟨xs, ys, horder, hlen⟩ := exists_order_eq hx
  obtain ⟨y, rfl⟩ : ∃ y, xs = [y] := List.length_eq_one_iff.mp (hlen.trans hdist)
  have hlayout := h.layout
  have hcount := length_order_le used
  rw [horder] at hlayout hcount
  have hpass := h.passGate horder (List.cons_ne_nil y []) (update L.totalRefs x (L.totalRefs x + 1))
  rw [moveToFront_of_ne (hlayout.head_ne (List.cons_ne_nil y [])), hpass]
  change LineRefList.bringToFront _ debug turns x = _
  apply Layout.bringToFront_fault (hlayout.setCounts ..)
  · exact hd
  · exact hcount.trans_lt hturns

end SagePTE.Tools.LineRefList
