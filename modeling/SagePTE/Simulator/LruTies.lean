import SagePTE.Simulator.LruOrder

/-!
# Ties in an LRU cache

With four ways or more the counters of an LRU cache stop at 2 when lines are put into a set one
after the other. Such lines fill the ways in turn and then replace one another in turn. After
three replacements the first of the new lines has counter 2 again, as have all old lines that
are left, and it is in the first way: the fourth replacement takes it, and not the oldest line.

## Main definitions

* `DeviceState.filled` — the cache after so many new lines of one set
* `Geometry.lastIn` — which of them is in a way

## Main results

* `DeviceState.lru_order_fails` — every LRU cache of at least four ways replaces a line that is
  not the least recent one
-/

set_option autoImplicit false

namespace SagePTE.Simulator

namespace DeviceState

/-! ### Where the scan ends -/

theorem lruVictim_of_le {block : ℕ → Block} {ways : List ℕ} {way : ℕ}
    (h : ∀ w ∈ ways, (block w).tag ≠ tagInvalid ∧ (block w).counter ≤ (block way).counter) :
    lruVictim block ways (block way).counter way = way := by
  induction ways with
  | nil => rfl
  | cons w ways ih =>
    obtain ⟨hvalid, hle⟩ := h w (by simp)
    rw [lruVictim, if_neg hvalid, if_neg (by omega)]
    exact ih fun w' hw' => h w' (by simp [hw'])

/-- The scan ends at the first invalid way. -/
theorem lruVictim_append_of_invalid {block : ℕ → Block} {before after : List ℕ} {way : ℕ}
    (hbefore : ∀ w ∈ before, (block w).tag ≠ tagInvalid) (hway : (block way).tag = tagInvalid)
    (maxCounter maxWay : ℕ) :
    lruVictim block (before ++ way :: after) maxCounter maxWay = way := by
  induction before generalizing maxCounter maxWay with
  | nil => rw [List.nil_append, lruVictim, if_pos hway]
  | cons w before ih =>
    have hrest := ih fun w' hw' => hbefore w' (by simp [hw'])
    rw [List.cons_append, lruVictim, if_neg (hbefore w (by simp)), hrest, hrest, ite_self]

/-- Otherwise it ends at the first way with the largest counter. -/
theorem lruVictim_append_of_lt {block : ℕ → Block} {before after : List ℕ} {way : ℕ}
    (hbefore : ∀ w ∈ before, (block w).tag ≠ tagInvalid ∧ (block w).counter < (block way).counter)
    (hway : (block way).tag ≠ tagInvalid)
    (hafter : ∀ w ∈ after, (block w).tag ≠ tagInvalid ∧ (block w).counter ≤ (block way).counter)
    {maxCounter : ℕ} (hmax : maxCounter < (block way).counter) (maxWay : ℕ) :
    lruVictim block (before ++ way :: after) maxCounter maxWay = way := by
  induction before generalizing maxCounter maxWay with
  | nil =>
    rw [List.nil_append, lruVictim, if_neg hway, if_pos hmax]
    exact lruVictim_of_le hafter
  | cons w before ih =>
    obtain ⟨hvalid, hlt⟩ := hbefore w (by simp)
    have hrest := fun {c : ℕ} (hc : c < (block way).counter) (m : ℕ) =>
      ih (fun w' hw' => hbefore w' (by simp [hw'])) hc m
    rw [List.cons_append, lruVictim, if_neg hvalid, hrest hlt, hrest hmax, ite_self]

theorem range_split {n way : ℕ} (h : way < n) :
    ∃ after, List.range n = List.range way ++ way :: after ∧ ∀ w ∈ after, w < n := by
  obtain ⟨m, rfl⟩ := Nat.exists_eq_add_of_lt h
  refine ⟨(List.range m).map fun k => way + (k + 1), ?_, ?_⟩
  · rw [Nat.add_assoc, List.range_add, List.range_succ_eq_map, List.map_cons, List.map_map]
    rfl
  · intro w hw
    obtain ⟨k, hk, rfl⟩ := List.mem_map.mp hw
    have := List.mem_range.mp hk
    omega

theorem lruVictim_range_of_invalid {block : ℕ → Block} {n way : ℕ} (hway : way < n)
    (hbefore : ∀ w < way, (block w).tag ≠ tagInvalid) (hinvalid : (block way).tag = tagInvalid) :
    lruVictim block (List.range n) 0 0 = way := by
  obtain ⟨after, hrange, -⟩ := range_split hway
  rw [hrange]
  exact lruVictim_append_of_invalid (fun w hw => hbefore w (List.mem_range.mp hw)) hinvalid 0 0

theorem lruVictim_range_of_lt {block : ℕ → Block} {n way : ℕ} (hway : way < n)
    (hvalid : ∀ w < n, (block w).tag ≠ tagInvalid) (hpos : 0 < (block way).counter)
    (hbefore : ∀ w < way, (block w).counter < (block way).counter)
    (hle : ∀ w < n, (block w).counter ≤ (block way).counter) :
    lruVictim block (List.range n) 0 0 = way := by
  obtain ⟨after, hrange, hafter⟩ := range_split hway
  rw [hrange]
  refine lruVictim_append_of_lt (fun w hw => ?_) (hvalid way hway)
    (fun w hw => ⟨hvalid w (hafter w hw), hle w (hafter w hw)⟩) hpos 0
  have hlt := List.mem_range.mp hw
  exact ⟨hvalid w (hlt.trans hway), hbefore w hlt⟩

end DeviceState

/-! ### New lines of one set -/

namespace Geometry

variable (g : Geometry)

/-- The tags of the lines, all of the first set. -/
def lineNo (k : ℕ) : ℕ := 2 * k * g.blocksPerWay

theorem setOf_lineNo (k : ℕ) : g.setOf (g.lineNo k) = 0 := by
  rw [setOf_eq_mod, lineNo, Nat.mul_mod_left]

theorem computeBlockIdx_lineNo (k : ℕ) : g.computeBlockIdx (g.lineNo k) = 0 := by
  rw [computeBlockIdx_eq, setOf_lineNo, Nat.zero_mul]

theorem lineNo_inj {k k' : ℕ} : g.lineNo k = g.lineNo k' ↔ k = k' := by
  have hpos := g.blocksPerWay_pos
  refine ⟨fun h => ?_, fun h => h ▸ rfl⟩
  have := Nat.eq_of_mul_eq_mul_right hpos h
  omega

theorem lineNo_ne_tagInvalid (k : ℕ) : g.lineNo k ≠ tagInvalid := by
  have heven : g.lineNo k % 2 = 0 := by
    rw [lineNo, Nat.mul_assoc, Nat.mul_mod_right]
  have hodd : tagInvalid % 2 = 1 := by decide
  intro h
  rw [h] at heven
  omega

/-- The last of the first `k` lines that went to a way, as long as the ways are used in turn. -/
def lastIn (k way : ℕ) : Option ℕ :=
  if way + g.associativity < k then some (way + g.associativity)
  else if way < k then some way
  else none

variable {g} {k way last : ℕ}

theorem lt_of_lastIn (h : g.lastIn k way = some last) : last < k := by
  rw [lastIn] at h
  split_ifs at h with hnew hold
  · cases h
    exact hnew
  · cases h
    exact hold

theorem lastIn_succ (hway : way < g.associativity) (hk : k < 2 * g.associativity) :
    g.lastIn (k + 1) way =
      if way = (if k < g.associativity then k else k - g.associativity) then some k
      else g.lastIn k way := by
  rcases lt_or_ge k g.associativity with hlt | hge
  · rw [if_pos hlt, lastIn, lastIn]
    split_ifs <;> first | rfl | omega | (congr 1)
  · rw [if_neg (not_lt.mpr hge), lastIn, lastIn]
    split_ifs <;> first | rfl | omega | (congr 1; omega)

end Geometry

namespace DeviceState

variable (g : Geometry)

/-- The cache after the first `k` lines. -/
def filled : ℕ → DeviceState
  | 0 => initial g .lru
  | k + 1 => ((filled k).put g .lru (g.lineNo k)).2

def filledEvents : ℕ → List LineEvent
  | 0 => []
  | k + 1 => .put (g.lineNo k) ((filled g k).put g .lru (g.lineNo k)).1 :: filledEvents k

/-- The ways hold their last lines, with counters that stop at 2. -/
def InTurn (k : ℕ) (d : DeviceState) : Prop :=
  ∀ way < g.associativity,
    (d.blocks way).tag = ((g.lastIn k way).map g.lineNo).getD tagInvalid ∧
    (d.blocks way).counter = min 2 (((g.lastIn k way).map fun last => k - 1 - last).getD k)

variable {g} {k : ℕ} {d : DeviceState}

theorem InTurn.not_holds (h : d.InTurn g k) :
    ¬d.Holds g (g.lineNo k) := by
  rintro ⟨way, hway, htag⟩
  rw [g.computeBlockIdx_lineNo, Nat.zero_add, (h way hway).1, Geometry.lastIn] at htag
  split_ifs at htag with hnew hold
  · have := g.lineNo_inj.mp htag
    omega
  · have := g.lineNo_inj.mp htag
    omega
  · exact g.lineNo_ne_tagInvalid k htag.symm

/-- A line of the first set goes where the scan ends. -/
theorem putBlock_lineNo {way : ℕ}
    (hway : lruVictim d.blocks (List.range g.associativity) 0 0 = way) :
    d.putBlock g .lru (g.lineNo k) = way := by
  have hfst : (d.put g .lru (g.lineNo k)).1 = (way : ℤ) := by
    simp [DeviceState.put, replaceWhichWay, g.computeBlockIdx_lineNo, hway]
  rw [DeviceState.putBlock, hfst, blockNo_natCast, g.computeBlockIdx_lineNo, Nat.zero_add]

/-- The next line goes to the next way, up to the third way the second time around. -/
theorem InTurn.putBlock (h : d.InTurn g k) (hways : 3 ≤ g.associativity)
    (hk : k ≤ g.associativity + 2) : d.putBlock g .lru (g.lineNo k) =
      if k < g.associativity then k else k - g.associativity := by
  split_ifs with hlt
  -- the way is still empty
  · refine putBlock_lineNo (lruVictim_range_of_invalid hlt (fun w hw => ?_) ?_)
    · rw [(h w (by omega)).1, Geometry.lastIn, if_neg (by omega), if_pos hw]
      exact g.lineNo_ne_tagInvalid w
    · rw [(h k hlt).1, Geometry.lastIn, if_neg (by omega), if_neg (by omega)]
      rfl
  -- the ways before have got their new lines, at most two of them
  · have hcounter : (d.blocks (k - g.associativity)).counter = 2 := by
      rw [(h _ (by omega)).2, Geometry.lastIn, if_neg (by omega), if_pos (by omega)]
      simp only [Option.map_some, Option.getD_some]
      omega
    refine putBlock_lineNo (lruVictim_range_of_lt (by omega) (fun w hw => ?_) (by omega)
      (fun w hw => ?_) fun w hw => ?_)
    · rw [(h w hw).1, Geometry.lastIn]
      split_ifs
      · exact g.lineNo_ne_tagInvalid _
      · exact g.lineNo_ne_tagInvalid _
      · omega
    · rw [hcounter, (h w (by omega)).2, Geometry.lastIn, if_pos (by omega)]
      simp only [Option.map_some, Option.getD_some]
      omega
    · rw [hcounter, (h w hw).2]
      exact min_le_left _ _

theorem InTurn.put (h : d.InTurn g k) (hways : 3 ≤ g.associativity)
    (hk : k ≤ g.associativity + 2) : (d.put g .lru (g.lineNo k)).2.InTurn g (k + 1) := by
  have hblock := h.putBlock hways hk
  have hlt : (if k < g.associativity then k else k - g.associativity) < g.associativity := by
    split_ifs <;> omega
  intro w hw
  obtain ⟨htag, hcounter⟩ := h w hw
  have hput := put_lru_counter d 0 hlt hw (by rw [hblock, g.computeBlockIdx_lineNo, Nat.zero_add])
  simp only [Nat.zero_mul, Nat.zero_add, g.setOf_lineNo, ne_eq, not_true, if_false] at hput
  rw [hput, put_tag, hblock, Geometry.lastIn_succ hw (by omega)]
  by_cases hnext : w = if k < g.associativity then k else k - g.associativity
  · rw [if_pos hnext, if_pos hnext, if_pos hnext]
    simp
  · rw [if_neg hnext, if_neg hnext, if_neg hnext]
    refine ⟨htag, ?_⟩
    cases hlast : g.lastIn k w with
    | none =>
      simp only [hlast, Option.map_none, Option.getD_none] at hcounter ⊢
      split_ifs <;> omega
    | some last =>
      have hlt' := Geometry.lt_of_lastIn hlast
      simp only [hlast, Option.map_some, Option.getD_some] at hcounter ⊢
      split_ifs <;> omega

theorem filled_inTurn (hways : 3 ≤ g.associativity) (hk : k ≤ g.associativity + 3) :
    (filled g k).InTurn g k := by
  induction k with
  | zero =>
    intro way _
    simp [Geometry.lastIn, filled, initial]
  | succ k ih => exact (ih (by omega)).put hways (by omega)

theorem filled_trace (hways : 3 ≤ g.associativity) (hk : k ≤ g.associativity + 3) :
    Trace g .lru (initial g .lru) (filledEvents g k) (filled g k) := by
  induction k with
  | zero => exact .start
  | succ k ih =>
    exact (ih (by omega)).put (filled_inTurn hways (by omega)).not_holds
      (g.lineNo_ne_tagInvalid k)

theorem filledEvents_isPut {e : LineEvent} (he : e ∈ filledEvents g k) : ¬e.IsDrop ∧ ¬e.IsSlip := by
  induction k with
  | zero => simp [filledEvents] at he
  | succ k ih =>
    rcases List.mem_cons.mp he with rfl | he
    · simp [LineEvent.IsDrop, LineEvent.IsSlip]
    · exact ih he

theorem idxOf_filledEvents {i : ℕ} (hi : i < k) :
    ((filledEvents g k).filterMap LineEvent.asked).idxOf (g.lineNo i) = k - 1 - i := by
  induction k with
  | zero => omega
  | succ k ih =>
    rw [filledEvents, List.filterMap_cons, LineEvent.asked]
    dsimp only
    by_cases hik : i = k
    · subst hik
      simp
    · rw [List.idxOf_cons_ne _ fun h => hik (g.lineNo_inj.mp h).symm, ih (by omega)]
      omega

/-- **The order is lost with four ways and more.** In every such geometry there is a trace of
misses after which a full set gives up a line although one that is older is there. -/
theorem lru_order_fails (hways : 4 ≤ g.associativity) :
    ∃ events d, Trace g .lru (initial g .lru) events d ∧
      (∀ e ∈ events, ¬e.IsDrop ∧ ¬e.IsSlip) ∧
      ∃ tag, ¬d.Holds g tag ∧
        (∀ way < g.associativity, (d.blocks (g.computeBlockIdx tag + way)).tag ≠ tagInvalid) ∧
        ∃ way < g.associativity,
          (events.filterMap LineEvent.asked).idxOf (d.blocks (d.putBlock g .lru tag)).tag <
            (events.filterMap LineEvent.asked).idxOf
              (d.blocks (g.computeBlockIdx tag + way)).tag := by
  have hturn : (filled g (g.associativity + 3)).InTurn g (g.associativity + 3) :=
    filled_inTurn (by omega) le_rfl
  have hvalid : ∀ way < g.associativity,
      ((filled g (g.associativity + 3)).blocks way).tag ≠ tagInvalid := by
    intro way hway
    rw [(hturn way hway).1, Geometry.lastIn]
    split_ifs
    · exact g.lineNo_ne_tagInvalid _
    · exact g.lineNo_ne_tagInvalid _
    · omega
  -- the first way holds a new line, with the largest counter
  have hfirst := hturn 0 (by omega)
  rw [Geometry.lastIn, if_pos (by omega)] at hfirst
  simp only [Option.map_some, Option.getD_some, Nat.zero_add] at hfirst
  have hput : (filled g (g.associativity + 3)).putBlock g .lru (g.lineNo (g.associativity + 3)) =
      0 := by
    have htwo : min 2 (g.associativity + 3 - 1 - g.associativity) = 2 := by omega
    rw [htwo] at hfirst
    refine putBlock_lineNo (lruVictim_range_of_lt (by omega) hvalid (by omega)
      (fun w hw => by omega) fun w hw => ?_)
    rw [hfirst.2, (hturn w hw).2]
    exact min_le_left _ _
  -- the fourth way still holds its first line
  have hfourth := (hturn 3 (by omega)).1
  rw [Geometry.lastIn, if_neg (by omega), if_pos (by omega)] at hfourth
  simp only [Option.map_some, Option.getD_some] at hfourth
  refine ⟨_, _, filled_trace (by omega) le_rfl, fun e he => filledEvents_isPut he,
    g.lineNo (g.associativity + 3), hturn.not_holds, ?_, 3, by omega, ?_⟩
  · rw [g.computeBlockIdx_lineNo]
    simpa using hvalid
  · rw [hput, hfirst.1, g.computeBlockIdx_lineNo, Nat.zero_add, hfourth,
      idxOf_filledEvents (by omega), idxOf_filledEvents (by omega)]
    omega

end DeviceState

end SagePTE.Simulator
