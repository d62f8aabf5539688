import Mathlib.Algebra.BigOperators.Ring.Finset
import SagePTE.Simulator.CacheSimulator

/-!
# How many contention requests there are

An option of 250 asks for two and a half contention requests per reference: two at once, and a
third one with a probability of one half. The code counts hundreds with an unsigned counter,
and takes the fraction from what the counter is at after the loop. The roll has the values 0 to
99, and the request is made for all up to and including the fraction, which is one too many.

The counter is compared with the option after each step of 100. Near the end of the 32-bit
range it wraps around before it is larger than the option, and goes through the range again,
four further on. It stops in one of the rounds, unless the option is larger than all multiples
of four.

## Main definitions

* `ContentionAction`, `contentionActions` — the requests and rolls of one reference
* `RateExact` — the number of the requests is as the option asks for

## Main results

* `contention_eq_perform` — the code makes these requests and rolls
* `loopTurns_eq_none_iff` — the options for which the loop does not end
* `contention_rate_iff` — the options whose rate is exact
-/

set_option autoImplicit false

namespace SagePTE.Simulator

open Finset

/-! ### Requests and rolls -/

/-- A contention request at an address, or a roll. -/
inductive ContentionAction
  | request (addr : BitVec 64)
  | roll (value : ℕ)
  deriving DecidableEq

/-- What an action changes. Either takes a random number. -/
def ContentionAction.perform (C : SimConfig) (dev : DevId) (type : TraceType) (σ : SimState) :
    ContentionAction → SimState
  | .request addr =>
    { (σ.cacheRequest C dev (Walker.reference type addr)).2 with randPos := σ.randPos + 1 }
  | .roll _ => { σ with randPos := σ.randPos + 1 }

/-- The number of requests. -/
def countRequests (actions : List ContentionAction) : ℕ :=
  actions.countP fun a => match a with
    | .request _ => true
    | .roll _ => false

/-- The turns of the loop before its counter is larger than the option, if they are fewer than
a given number. -/
def loopTurns (value : BitVec 32) : ℕ → BitVec 32 → Option ℕ
  | 0, _ => none
  | n + 1, i => if i ≤ value then (loopTurns value n (i + 100)).map (· + 1) else some 0

/-- A request at a random 48-bit address. -/
def randomRequest (rand : ℕ → ℕ) (pos : ℕ) : ContentionAction :=
  .request (BitVec.ofNat 64 (rand pos % 2 ^ 48))

/-- The roll, and the request that depends on it. -/
def fractionActions (rand : ℕ → ℕ) (pos : ℕ) (fractionPart : ℤ) : List ContentionAction :=
  if 0 < fractionPart then
    .roll (rand pos % 100) ::
      if ((rand pos % 100 : ℕ) : ℤ) ≤ fractionPart then [randomRequest rand (pos + 1)] else []
  else []

/-- The actions for one reference, from a position of the random sequence on; `none` if the
loop does not end. -/
def contentionActions (rand : ℕ → ℕ) (pos : ℕ) (value : BitVec 32) :
    Option (List ContentionAction) :=
  if value = 0 then some []
  else if 100 ≤ value then
    -- after `k` turns the counter is at `100 + 100 * k`
    (loopTurns value (2 ^ 30 + 1) 100).map fun k =>
      (List.range' pos k).map (randomRequest rand) ++
        fractionActions rand (pos + k) (100 - (100 + 100 * BitVec.ofNat 32 k - value)).toInt
  else some (fractionActions rand pos value.toInt)

/-! ### The code performs them -/

/-- The counter after one more turn. -/
theorem counter_succ (i : BitVec 32) (j : ℕ) :
    i + 100 + 100 * BitVec.ofNat 32 j = i + 100 * BitVec.ofNat 32 (j + 1) := by
  rw [BitVec.ofNat_add, BitVec.mul_add, BitVec.add_assoc, BitVec.add_comm (100 : BitVec 32)]
  rfl

namespace SimState

variable (C : SimConfig) (dev : DevId) (type : TraceType)

/-- The state after some actions. -/
def performAll (σ : SimState) (actions : List ContentionAction) : SimState :=
  actions.foldl (ContentionAction.perform C dev type) σ

variable {C dev type}

theorem performAll_append (σ : SimState) (actions actions' : List ContentionAction) :
    σ.performAll C dev type (actions ++ actions') =
      (σ.performAll C dev type actions).performAll C dev type actions' :=
  List.foldl_append

theorem randPos_performAll (σ : SimState) (actions : List ContentionAction) :
    (σ.performAll C dev type actions).randPos = σ.randPos + actions.length := by
  induction actions generalizing σ with
  | nil => rfl
  | cons a actions ih =>
    have hone : (a.perform C dev type σ).randPos = σ.randPos + 1 := by cases a <;> rfl
    rw [performAll, List.foldl_cons, List.length_cons]
    exact (ih _).trans (by rw [hone]; omega)

theorem hung_performAll (σ : SimState) (actions : List ContentionAction) :
    (σ.performAll C dev type actions).hung = σ.hung := by
  induction actions generalizing σ with
  | nil => rfl
  | cons a actions ih =>
    have hone : (a.perform C dev type σ).hung = σ.hung := by cases a <;> rfl
    exact (ih _).trans hone

theorem contendFraction_eq_perform (σ : SimState) (fractionPart : ℤ) :
    σ.contendFraction C dev type fractionPart =
      σ.performAll C dev type (fractionActions C.rand σ.randPos fractionPart) := by
  unfold contendFraction fractionActions
  by_cases hpos : 0 < fractionPart
  · rw [if_pos hpos, if_pos hpos]
    by_cases hroll : ((C.rand σ.randPos % 100 : ℕ) : ℤ) ≤ fractionPart
    · rw [if_pos hroll]
      exact if_pos hroll
    · rw [if_neg hroll]
      exact if_neg hroll
  · rw [if_neg hpos, if_neg hpos]
    rfl

/-- The loop makes one request in each turn, and is caught if it does not end. -/
theorem contendLoop_eq_perform (value : BitVec 32) (n : ℕ) (i : BitVec 32) (σ : SimState) :
    (∀ k, loopTurns value n i = some k → contendLoop C dev type value n i σ =
        (i + 100 * BitVec.ofNat 32 k,
          σ.performAll C dev type ((List.range' σ.randPos k).map (randomRequest C.rand)))) ∧
      (loopTurns value n i = none → (contendLoop C dev type value n i σ).2.hung = true) := by
  induction n generalizing i σ with
  | zero =>
    refine ⟨fun k hk => ?_, fun _ => rfl⟩
    cases hk
  | succ n ih =>
    rw [loopTurns, contendLoop]
    split_ifs with hle
    · obtain ⟨hsome, hnone⟩ := ih (i + 100) (σ.contend C dev type)
      refine ⟨fun k hk => ?_, fun h => hnone (Option.map_eq_none_iff.mp h)⟩
      obtain ⟨k', hk', rfl⟩ := Option.map_eq_some_iff.mp hk
      rw [hsome k' hk', List.range'_succ, List.map_cons, counter_succ]
      rfl
    · refine ⟨fun k hk => ?_, fun h => ?_⟩
      · obtain rfl := Option.some.inj hk
        simp [performAll]
      · cases h

/-- The contention code performs the actions, or its loop does not end. -/
theorem contention_eq_perform (σ : SimState) (value : BitVec 32) :
    (∀ actions, contentionActions C.rand σ.randPos value = some actions →
        σ.contention C dev type value = σ.performAll C dev type actions) ∧
      (contentionActions C.rand σ.randPos value = none →
        (σ.contention C dev type value).hung = true) := by
  rw [contentionActions, contention]
  split_ifs with hzero hge
  · refine ⟨fun actions h => ?_, fun h => ?_⟩
    · obtain rfl := Option.some.inj h
      rfl
    · cases h
  · have hloop := @contendLoop_eq_perform C dev type value (2 ^ 30 + 1) 100 σ
    refine ⟨fun actions h => ?_, fun h => ?_⟩
    · obtain ⟨k, hk, rfl⟩ := Option.map_eq_some_iff.mp h
      have hpos : (σ.performAll C dev type
          ((List.range' σ.randPos k).map (randomRequest C.rand))).randPos = σ.randPos + k := by
        rw [randPos_performAll, List.length_map, List.length_range']
      rw [hloop.1 k hk, performAll_append, ← hpos]
      exact contendFraction_eq_perform _ _
    · rw [contendFraction_eq_perform, hung_performAll]
      exact hloop.2 (Option.map_eq_none_iff.mp h)
  · refine ⟨fun actions h => ?_, fun h => ?_⟩
    · obtain rfl := Option.some.inj h
      exact contendFraction_eq_perform σ _
    · cases h

end SimState

/-! ### The turns of the loop -/

theorem toNat_hundred : (100 : BitVec 32).toNat = 100 := rfl

theorem toNat_counter (j : ℕ) :
    (100 + 100 * BitVec.ofNat 32 j : BitVec 32).toNat = 100 * (j + 1) % 2 ^ 32 := by
  rw [BitVec.toNat_add, BitVec.toNat_mul, BitVec.toNat_ofNat, toNat_hundred]
  omega

/-- The first turns of the loop, as long as the counter is not larger than the option. -/
theorem loopTurns_add {value : BitVec 32} (n k : ℕ) (i : BitVec 32)
    (h : ∀ j < k, i + 100 * BitVec.ofNat 32 j ≤ value) :
    loopTurns value (n + k) i =
      (loopTurns value n (i + 100 * BitVec.ofNat 32 k)).map (· + k) := by
  induction k generalizing i with
  | zero => simp
  | succ k ih =>
    have hfirst : i ≤ value := by simpa using h 0 (Nat.succ_pos k)
    have hrest : ∀ j < k, i + 100 + 100 * BitVec.ofNat 32 j ≤ value := by
      intro j hj
      rw [counter_succ]
      exact h (j + 1) (Nat.succ_lt_succ hj)
    rw [← Nat.add_assoc, loopTurns, if_pos hfirst, ih (i + 100) hrest, counter_succ, Option.map_map]
    rfl

/-- The loop ends once its counter has been larger than the option. -/
theorem isSome_loopTurns {value : BitVec 32} {n j : ℕ} (hj : j < n) {i : BitVec 32}
    (h : ¬i + 100 * BitVec.ofNat 32 j ≤ value) : (loopTurns value n i).isSome := by
  induction n generalizing i j with
  | zero => exact absurd hj (Nat.not_lt_zero j)
  | succ n ih =>
    rw [loopTurns]
    split_ifs with hle
    · cases j with
      | zero => exact absurd hle (by simpa using h)
      | succ j =>
        rw [← counter_succ] at h
        rw [Option.isSome_map]
        exact ih (Nat.lt_of_succ_lt_succ hj) h
    · rfl

/-- For options from `2³² - 4` on the loop does not end: its counter is a multiple of four. -/
theorem loopTurns_eq_none {value : BitVec 32} (hvalue : 4294967292 ≤ value.toNat) (n : ℕ)
    {i : BitVec 32} (hi : i.toNat % 4 = 0) : loopTurns value n i = none := by
  induction n generalizing i with
  | zero => rfl
  | succ n ih =>
    have hle : i ≤ value := by
      rw [BitVec.le_def]
      omega
    have hnext : (i + 100).toNat % 4 = 0 := by
      rw [BitVec.toNat_add, toNat_hundred]
      omega
    rw [loopTurns, if_pos hle, ih hnext]
    rfl

/-- For all others `2³⁰` turns are enough. -/
theorem isSome_loopTurns_of_lt {value : BitVec 32} (hlt : value.toNat < 4294967292) :
    (loopTurns value (2 ^ 30 + 1) 100).isSome = true := by
  -- in this turn the counter is at the largest multiple of four
  have hlarge : ¬100 + 100 * BitVec.ofNat 32 1030792150 ≤ value := by
    rw [BitVec.le_def, toNat_counter]
    omega
  exact isSome_loopTurns (by omega) hlarge

/-- The options for which the loop does not end. -/
theorem loopTurns_eq_none_iff (value : BitVec 32) :
    (∀ n, loopTurns value n 100 = none) ↔ 4294967292 ≤ value.toNat := by
  constructor
  · intro h
    by_contra hlt
    have hsome := isSome_loopTurns_of_lt (not_le.1 hlt)
    rw [h] at hsome
    cases hsome
  · intro h n
    exact loopTurns_eq_none h n rfl

/-- Below `2³² - 96` the counter does not wrap around: the loop has a turn for each hundred. -/
theorem loopTurns_of_lt {value : BitVec 32} (hlt : value.toNat < 4294967200) :
    loopTurns value (2 ^ 30 + 1) 100 = some (value.toNat / 100) := by
  have hturns : ∀ j < value.toNat / 100, 100 + 100 * BitVec.ofNat 32 j ≤ value := by
    intro j hj
    rw [BitVec.le_def, toNat_counter]
    omega
  have hend : ¬100 + 100 * BitVec.ofNat 32 (value.toNat / 100) ≤ value := by
    rw [BitVec.le_def, toNat_counter]
    omega
  have hsplit : 2 ^ 30 + 1 = 2 ^ 30 - value.toNat / 100 + 1 + value.toNat / 100 := by omega
  rw [hsplit, loopTurns_add _ _ _ hturns, loopTurns, if_neg hend, Option.map_some, Nat.zero_add]

/-- From there on the counter wraps around, and the loop goes on. -/
theorem lt_of_loopTurns {value : BitVec 32} (hle : 4294967200 ≤ value.toNat) {k : ℕ}
    (h : loopTurns value (2 ^ 30 + 1) 100 = some k) : 42949674 ≤ k := by
  have hturns : ∀ j < 42949674, 100 + 100 * BitVec.ofNat 32 j ≤ value := by
    intro j hj
    rw [BitVec.le_def, toNat_counter]
    -- all of the first round, and two turns of the second one
    rcases Nat.lt_or_ge j 42949672 with hfirst | hsecond
    · rw [Nat.mod_eq_of_lt (by omega)]
      omega
    · rw [Nat.mod_eq_sub_mod (by omega), Nat.mod_eq_of_lt (by omega)]
      omega
  have hsplit : 2 ^ 30 + 1 = 1030792151 + 42949674 := rfl
  rw [hsplit, loopTurns_add _ _ _ hturns] at h
  obtain ⟨k', -, rfl⟩ := Option.map_eq_some_iff.mp h
  omega

/-! ### Numbers of requests -/

theorem countRequests_append (actions actions' : List ContentionAction) :
    countRequests (actions ++ actions') = countRequests actions + countRequests actions' :=
  List.countP_append

theorem countRequests_randomRequests (rand : ℕ → ℕ) (pos k : ℕ) :
    countRequests ((List.range' pos k).map (randomRequest rand)) = k := by
  rw [countRequests, List.countP_eq_length.2, List.length_map, List.length_range']
  intro a ha
  obtain ⟨j, -, rfl⟩ := List.mem_map.1 ha
  rfl

theorem countRequests_fractionActions (rand : ℕ → ℕ) (pos n : ℕ) :
    countRequests (fractionActions rand pos n) =
      if 0 < n ∧ rand pos % 100 ≤ n then 1 else 0 := by
  unfold fractionActions
  by_cases hpos : 0 < n
  · rw [if_pos (by exact_mod_cast hpos)]
    by_cases hroll : rand pos % 100 ≤ n
    · rw [if_pos (by exact_mod_cast hroll), if_pos ⟨hpos, hroll⟩]
      rfl
    · rw [if_neg (by exact_mod_cast hroll), if_neg fun h => hroll h.2]
      rfl
  · rw [if_neg (by exact_mod_cast hpos), if_neg fun h => hpos h.1]
    rfl

/-- What the counter leaves of the last hundred. -/
theorem toInt_fraction {value : BitVec 32} (hlt : value.toNat < 4294967200) :
    (100 - (100 + 100 * BitVec.ofNat 32 (value.toNat / 100) - value)).toInt =
      (value.toNat % 100 : ℕ) := by
  have hcounter := toNat_counter (value.toNat / 100)
  have htoNat : (100 - (100 + 100 * BitVec.ofNat 32 (value.toNat / 100) - value)).toNat =
      value.toNat % 100 := by
    rw [BitVec.toNat_sub, BitVec.toNat_sub, hcounter, toNat_hundred]
    omega
  rw [BitVec.toInt_eq_toNat_of_lt (by omega), htoNat]

/-- From a hundred on there is a loop. -/
theorem contentionActions_of_le {value : BitVec 32} (hle : 100 ≤ value.toNat) (rand : ℕ → ℕ)
    (pos : ℕ) :
    contentionActions rand pos value = (loopTurns value (2 ^ 30 + 1) 100).map fun k =>
      (List.range' pos k).map (randomRequest rand) ++
        fractionActions rand (pos + k)
          (100 - (100 + 100 * BitVec.ofNat 32 k - value)).toInt := by
  have hzero : value ≠ 0 := by
    rintro rfl
    exact absurd hle (by decide)
  have hge : 100 ≤ value := by rwa [BitVec.le_def, toNat_hundred]
  rw [contentionActions, if_neg hzero, if_pos hge]

/-- Where the counter does not wrap around: the hundreds, and the rest for the roll. -/
theorem contentionActions_of_lt {value : BitVec 32} (hlt : value.toNat < 4294967200)
    (rand : ℕ → ℕ) (pos : ℕ) :
    contentionActions rand pos value = some
      ((List.range' pos (value.toNat / 100)).map (randomRequest rand) ++
        fractionActions rand (pos + value.toNat / 100) (value.toNat % 100 : ℕ)) := by
  rcases le_or_gt 100 value.toNat with hlarge | hsmall
  · rw [contentionActions_of_le hlarge, loopTurns_of_lt hlt, Option.map_some, toInt_fraction hlt]
  · have hvalue : value.toInt = (value.toNat % 100 : ℕ) := by
      rw [BitVec.toInt_eq_toNat_of_lt (by omega), Nat.mod_eq_of_lt hsmall]
    have hnot : ¬100 ≤ value := by rwa [BitVec.le_def, toNat_hundred, not_le]
    rw [contentionActions, if_neg hnot, hvalue, Nat.div_eq_of_lt hsmall]
    split_ifs with hzero
    · rw [hzero]
      rfl
    · rfl

/-- The number of the requests where the counter does not wrap around. -/
theorem countRequests_of_lt {value : BitVec 32} (hlt : value.toNat < 4294967200)
    (rand : ℕ → ℕ) (pos : ℕ) :
    ∃ actions, contentionActions rand pos value = some actions ∧
      countRequests actions = value.toNat / 100 +
        if 0 < value.toNat % 100 ∧ rand (pos + value.toNat / 100) % 100 ≤ value.toNat % 100
        then 1 else 0 := by
  refine ⟨_, contentionActions_of_lt hlt rand pos, ?_⟩
  rw [countRequests_append, countRequests_randomRequests, countRequests_fractionActions]

/-- Where it does, there are too many. -/
theorem lt_countRequests_of_le {value : BitVec 32} (hle : 4294967200 ≤ value.toNat)
    {rand : ℕ → ℕ} {pos : ℕ} {actions : List ContentionAction}
    (h : contentionActions rand pos value = some actions) :
    value.toNat / 100 + 1 < countRequests actions := by
  rw [contentionActions_of_le (by omega)] at h
  obtain ⟨k, hk, rfl⟩ := Option.map_eq_some_iff.mp h
  have hturns := lt_of_loopTurns hle hk
  have hvalue := value.isLt
  rw [countRequests_append, countRequests_randomRequests]
  omega

theorem contentionActions_eq_none_iff (rand : ℕ → ℕ) (pos : ℕ) (value : BitVec 32) :
    contentionActions rand pos value = none ↔ ∀ n, loopTurns value n 100 = none := by
  rw [loopTurns_eq_none_iff]
  constructor
  · intro hnone
    by_contra hlt
    have hsome := isSome_loopTurns_of_lt (not_le.1 hlt)
    unfold contentionActions at hnone
    split_ifs at hnone with hzero hge
    rw [Option.map_eq_none_iff.mp hnone] at hsome
    cases hsome
  · intro hle
    rw [contentionActions_of_le (by omega), loopTurns_eq_none hle _ rfl]
    rfl

/-! ### The rate -/

/-- The option asks for a request for each hundred, and one more for as many of the rolls as
its last two digits say. -/
def RateExact (value : BitVec 32) : Prop :=
  ∃ accept ⊆ range 100, accept.card = value.toNat % 100 ∧ ∀ rand pos, ∃ actions,
    contentionActions rand pos value = some actions ∧
      countRequests actions = value.toNat / 100 +
        if rand (pos + value.toNat / 100) % 100 ∈ accept then 1 else 0

/-- The sum over all rolls: one too many, if there is a roll. -/
theorem sum_requests (v : ℕ) :
    ∑ roll ∈ range 100, (v / 100 + if 0 < v % 100 ∧ roll ≤ v % 100 then 1 else 0) =
      v + if v % 100 = 0 then 0 else 1 := by
  have hrolls : {roll ∈ range 100 | 0 < v % 100 ∧ roll ≤ v % 100} =
      if v % 100 = 0 then ∅ else range (v % 100 + 1) := by
    ext roll
    split_ifs with hzero
    · simp [hzero]
    · rw [mem_filter, mem_range, mem_range]
      omega
  rw [sum_add_distrib, sum_const, card_range, nsmul_eq_mul, sum_boole, hrolls]
  simp only [Nat.cast_id]
  split_ifs with hzero
  · rw [card_empty]
    omega
  · rw [card_range]
    omega

theorem rateExact_iff (value : BitVec 32) :
    RateExact value ↔ value.toNat % 100 = 0 ∧ value.toNat < 4294967200 := by
  constructor
  · rintro ⟨accept, hsub, hcard, hall⟩
    have hlt : value.toNat < 4294967200 := by
      by_contra hle
      obtain ⟨actions, hactions, hcount⟩ := hall (fun _ => 0) 0
      have hmany := lt_countRequests_of_le (not_lt.1 hle) hactions
      split_ifs at hcount <;> omega
    refine ⟨?_, hlt⟩
    -- the accepted rolls are those up to the fraction
    have hmem (roll : ℕ) (hroll : roll < 100) :
        roll ∈ accept ↔ 0 < value.toNat % 100 ∧ roll ≤ value.toNat % 100 := by
      obtain ⟨actions, hactions, hcount⟩ := hall (fun _ => roll) 0
      obtain ⟨actions', hactions', hcount'⟩ := countRequests_of_lt hlt (fun _ => roll) 0
      obtain rfl := Option.some.inj (hactions.symm.trans hactions')
      rw [hcount, Nat.mod_eq_of_lt hroll] at hcount'
      by_contra hne
      split_ifs at hcount' <;> first | omega | tauto
    by_contra hpos
    have haccept : accept = range (value.toNat % 100 + 1) := by
      ext roll
      rw [mem_range]
      constructor
      · intro hroll
        have := (hmem roll (mem_range.1 (hsub hroll))).1 hroll
        omega
      · intro hroll
        exact (hmem roll (by omega)).2 ⟨by omega, by omega⟩
    rw [haccept, card_range] at hcard
    omega
  · rintro ⟨hzero, hlt⟩
    refine ⟨∅, empty_subset _, by rw [hzero, card_empty], fun rand pos => ?_⟩
    obtain ⟨actions, hactions, hcount⟩ := countRequests_of_lt hlt rand pos
    refine ⟨actions, hactions, hcount.trans ?_⟩
    simp [hzero]

/-- The contention code performs the actions of the option, or does not end. The rate is exact
for the multiples of 100 below `2³² - 96`. For the other options below, one of the rolls too
many makes a request: over all rolls there are `value + 1` requests instead of `value`. The code
does not end for the four largest options. -/
theorem contention_rate_iff (value : BitVec 32) :
    (∀ (C : SimConfig) (dev : DevId) (type : TraceType) (σ : SimState),
      (∀ actions, contentionActions C.rand σ.randPos value = some actions →
          σ.contention C dev type value = σ.performAll C dev type actions) ∧
        (contentionActions C.rand σ.randPos value = none →
          (σ.contention C dev type value).hung = true)) ∧
      (RateExact value ↔ value.toNat % 100 = 0 ∧ value.toNat < 4294967200) ∧
      (value.toNat < 4294967200 →
        (∀ rand pos, ∃ actions, contentionActions rand pos value = some actions ∧
          countRequests actions = value.toNat / 100 +
            if 0 < value.toNat % 100 ∧ rand (pos + value.toNat / 100) % 100 ≤ value.toNat % 100
            then 1 else 0) ∧
        ∑ roll ∈ range 100, ((contentionActions (fun _ => roll) 0 value).map countRequests).getD 0 =
          value.toNat + if value.toNat % 100 = 0 then 0 else 1) ∧
      (∀ rand pos, contentionActions rand pos value = none ↔ ∀ n, loopTurns value n 100 = none) ∧
      ((∀ n, loopTurns value n 100 = none) ↔ 4294967292 ≤ value.toNat) := by
  refine ⟨fun C dev type σ => σ.contention_eq_perform value, rateExact_iff value,
    fun hlt => ⟨countRequests_of_lt hlt, ?_⟩,
    fun rand pos => contentionActions_eq_none_iff rand pos value, loopTurns_eq_none_iff value⟩
  rw [← sum_requests]
  apply sum_congr rfl
  intro roll hroll
  obtain ⟨actions, hactions, hcount⟩ := countRequests_of_lt hlt (fun _ => roll) 0
  rw [hactions, Option.map_some, Option.getD_some, hcount, Nat.mod_eq_of_lt (mem_range.1 hroll)]

/-- With an option of 50, the rolls from 0 to 50 make a request. -/
theorem contention_fifty_one_rolls :
    {roll ∈ range 100 | (contentionActions (fun _ => roll) 0 50).map countRequests = some 1}.card =
        51 ∧
      ¬RateExact 50 := by
  refine ⟨by decide +kernel, ?_⟩
  rw [rateExact_iff]
  decide

end SagePTE.Simulator
