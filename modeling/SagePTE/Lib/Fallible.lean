import SagePTE.Lib.Pointwise

/-!
# Computations that may fail

Rules for computations in `Except`: what it means that a sequence of computations succeeds,
and when two computations succeed together with related results.

## Main definitions

* `Fallible.Related` — both fail, or both succeed with related results
* `Fallible.loop`, `Fallible.Ends` — a step that is repeated until a condition holds, for a
  number of turns and for as many as it takes

## Main results

* `Fallible.bind_eq_ok_iff`, `Fallible.mapM_eq_ok_iff` — when a sequence succeeds
* `Fallible.Related.bind` — related computations one after the other
* `Fallible.loop_eq_some_iff` — the loop with as many turns as a measure allows
-/

set_option autoImplicit false

universe u v

namespace SagePTE.Fallible

variable {ε : Type u} {α β γ δ : Type v}

theorem bind_eq_ok_iff {x : Except ε α} {f : α → Except ε β} {b : β} :
    x >>= f = .ok b ↔ ∃ a, x = .ok a ∧ f a = .ok b := by
  cases x with
  | error e => simp [bind, Except.bind]
  | ok a => simp [bind, Except.bind]

theorem mapM_eq_ok_iff {f : α → Except ε β} {l : List α} {r : List β} :
    l.mapM f = .ok r ↔ List.Forall₂ (fun a b => f a = .ok b) l r := by
  induction l generalizing r with
  | nil =>
    rw [List.mapM_nil, List.forall₂_nil_left_iff]
    simp [pure, Except.pure, eq_comm]
  | cons a l ih =>
    rw [List.mapM_cons, bind_eq_ok_iff, List.forall₂_cons_left_iff]
    apply exists_congr
    intro b
    rw [bind_eq_ok_iff]
    simp only [ih, pure, Except.pure, Except.ok.injEq]
    constructor
    · rintro ⟨hb, rest, hrest, rfl⟩
      exact ⟨rest, hb, hrest, rfl⟩
    · rintro ⟨rest, hb, hrest, rfl⟩
      exact ⟨hb, rest, hrest, rfl⟩

theorem exists_mem_of_mapM {f : α → Except ε β} {l : List α} {r : List β}
    (h : l.mapM f = .ok r) {b : β} (hb : b ∈ r) : ∃ a ∈ l, f a = .ok b :=
  Pointwise.exists_of_mem_right (mapM_eq_ok_iff.mp h) hb

/-- What every computation of a sequence keeps, the sequence keeps. -/
theorem map_eq_of_mapM {f : α → Except ε β} {l : List α} {r : List β} (h : l.mapM f = .ok r)
    {g : α → γ} {g' : β → γ} (hg : ∀ a ∈ l, ∀ b, f a = .ok b → g' b = g a) :
    r.map g' = l.map g := by
  rw [mapM_eq_ok_iff] at h
  induction h with
  | nil => rfl
  | cons hhead _ ih =>
    rw [List.forall_mem_cons] at hg
    rw [List.map_cons, List.map_cons, hg.1 _ hhead, ih hg.2]

theorem exists_ok_of_mapM {f : α → Except ε β} {l : List α} {r : List β}
    (h : l.mapM f = .ok r) {a : α} (ha : a ∈ l) : ∃ b ∈ r, f a = .ok b :=
  Pointwise.exists_of_mem_left (mapM_eq_ok_iff.mp h) ha

/-- Two sequences, one after the other, are one sequence. -/
theorem exists_mapM_iff {f : α → Except ε β} {g : β → Except ε γ} {l : List α} {r : List γ} :
    (∃ m, l.mapM f = .ok m ∧ m.mapM g = .ok r) ↔ l.mapM (fun a => f a >>= g) = .ok r := by
  simp only [mapM_eq_ok_iff, bind_eq_ok_iff]
  induction l generalizing r with
  | nil => simp
  | cons a l ih =>
    simp only [List.forall₂_cons_left_iff, ← ih]
    constructor
    · rintro ⟨_, ⟨b, m, hb, hm, rfl⟩, hg⟩
      cases hg with
      | cons hc hrest => exact ⟨_, _, ⟨b, hb, hc⟩, ⟨m, hm, hrest⟩, rfl⟩
    · rintro ⟨c, rest, ⟨b, hb, hc⟩, ⟨m, hm, hrest⟩, rfl⟩
      exact ⟨b :: m, ⟨b, m, hb, hm, rfl⟩, .cons hc hrest⟩

/-- A sequence succeeds if each of its computations does. -/
theorem exists_mapM_eq_ok {f : α → Except ε β} {l : List α} (h : ∀ a ∈ l, ∃ b, f a = .ok b) :
    ∃ r, l.mapM f = .ok r := by
  induction l with
  | nil => exact ⟨[], rfl⟩
  | cons a l ih =>
    rw [List.forall_mem_cons] at h
    obtain ⟨⟨b, hb⟩, hrest⟩ := h
    obtain ⟨r, hr⟩ := ih hrest
    exact ⟨b :: r, mapM_eq_ok_iff.mpr (.cons hb (mapM_eq_ok_iff.mp hr))⟩

/-- A sequence of updates, each under a condition of its own. -/
theorem foldlM_eq_ok_iff {f : β → α → Except ε β} {P : α → Prop} {g : β → α → β} {l : List α}
    (hf : ∀ b, ∀ a ∈ l, ∀ b', f b a = .ok b' ↔ P a ∧ b' = g b a) {b b' : β} :
    l.foldlM f b = .ok b' ↔ (∀ a ∈ l, P a) ∧ b' = l.foldl g b := by
  induction l generalizing b with
  | nil => simp [pure, Except.pure, eq_comm]
  | cons a l ih =>
    rw [List.forall_mem_cons, List.foldlM_cons, bind_eq_ok_iff, List.foldl_cons]
    constructor
    · rintro ⟨c, hc, hrest⟩
      obtain ⟨ha, rfl⟩ := (hf b a List.mem_cons_self c).mp hc
      obtain ⟨hl, rfl⟩ := (ih fun b x hx => hf b x (List.mem_cons_of_mem _ hx)).mp hrest
      exact ⟨⟨ha, hl⟩, rfl⟩
    · rintro ⟨⟨ha, hl⟩, rfl⟩
      refine ⟨g b a, (hf b a List.mem_cons_self _).mpr ⟨ha, rfl⟩, ?_⟩
      exact (ih fun b x hx => hf b x (List.mem_cons_of_mem _ hx)).mpr ⟨hl, rfl⟩

/-- The sequence fails at the first update that fails. -/
theorem foldlM_eq_error {f : β → α → Except ε β} {before after : List α} {a : α} {b b' : β} {e : ε}
    (hbefore : before.foldlM f b = .ok b') (ha : f b' a = .error e) :
    (before ++ a :: after).foldlM f b = .error e := by
  rw [List.foldlM_append, hbefore]
  simp [bind, Except.bind, ha]

theorem exists_of_foldlM_eq_error {f : β → α → Except ε β} {l : List α} {b : β} {e : ε}
    (h : l.foldlM f b = .error e) :
    ∃ before a after b', l = before ++ a :: after ∧ before.foldlM f b = .ok b' ∧
      f b' a = .error e := by
  induction l generalizing b with
  | nil => cases h
  | cons a l ih =>
    rw [List.foldlM_cons] at h
    cases hfa : f b a with
    | error e' =>
      rw [hfa] at h
      exact ⟨[], a, l, b, rfl, rfl, hfa.trans h⟩
    | ok c =>
      rw [hfa] at h
      obtain ⟨before, x, after, b', rfl, hbefore, hx⟩ := ih h
      refine ⟨a :: before, x, after, b', rfl, ?_, hx⟩
      rw [List.foldlM_cons, hfa]
      exact hbefore

theorem forM_eq_ok_iff {f : α → Except ε PUnit} {l : List α} :
    l.forM f = .ok ⟨⟩ ↔ ∀ a ∈ l, f a = .ok ⟨⟩ := by
  induction l with
  | nil => simp [pure, Except.pure]
  | cons a l ih =>
    rw [List.forM, bind_eq_ok_iff, List.forall_mem_cons, ← ih]
    constructor
    · rintro ⟨⟨⟩, ha, hl⟩
      exact ⟨ha, hl⟩
    · rintro ⟨ha, hl⟩
      exact ⟨⟨⟩, ha, hl⟩

/-- Two computations that fail together, and whose results are related if they succeed. -/
inductive Related (R : α → β → Prop) : Except ε α → Except ε β → Prop
  | error (e e' : ε) : Related R (.error e) (.error e')
  | ok {a : α} {b : β} (h : R a b) : Related R (.ok a) (.ok b)

theorem Related.of_eq {x y : Except ε α} (h : x = y) : Related Eq x y := by
  subst h
  cases x with
  | error e => exact .error e e
  | ok a => exact .ok rfl

theorem Related.bind {R : α → β → Prop} {S : γ → δ → Prop} {x : Except ε α} {y : Except ε β}
    {f : α → Except ε γ} {g : β → Except ε δ} (h : Related R x y)
    (hfg : ∀ a b, R a b → Related S (f a) (g b)) : Related S (x >>= f) (y >>= g) := by
  cases h with
  | error e e' => exact .error e e'
  | ok h => exact hfg _ _ h

theorem Related.of_ok_left {R : α → β → Prop} {x : Except ε α} {y : Except ε β} {a : α}
    (h : Related R x y) (hx : x = .ok a) : ∃ b, y = .ok b ∧ R a b := by
  subst hx
  cases h with
  | ok h => exact ⟨_, rfl, h⟩

theorem Related.of_ok_right {R : α → β → Prop} {x : Except ε α} {y : Except ε β} {b : β}
    (h : Related R x y) (hy : y = .ok b) : ∃ a, x = .ok a ∧ R a b := by
  subst hy
  cases h with
  | ok h => exact ⟨_, rfl, h⟩

/-! ### Loops -/

section Loop

variable {σ : Type v} (step : σ → Except ε σ) (stop : σ → Bool)

/-- The loop `do step while (!stop)`, for a number of turns. It is `none` if these do not
suffice. -/
def loop : ℕ → σ → Except ε (Option σ)
  | 0, _ => .ok none
  | fuel + 1, s => do
    let s' ← step s
    if stop s' then .ok (some s') else loop fuel s'

/-- From the first state, the loop ends in the second. -/
inductive Ends : σ → σ → Prop
  | last {s e : σ} (hstep : step s = .ok e) (hstop : stop e = true) : Ends s e
  | more {s s' e : σ} (hstep : step s = .ok s') (hstop : stop s' = false) (hends : Ends s' e) :
    Ends s e

variable {step stop} {s e : σ}

theorem Ends.of_loop {fuel : ℕ} (h : loop step stop fuel s = .ok (some e)) :
    Ends step stop s e := by
  induction fuel generalizing s with
  | zero => simp [loop] at h
  | succ fuel ih =>
    obtain ⟨s', hstep, h⟩ := bind_eq_ok_iff.mp h
    cases hstop : stop s' with
    | true =>
      obtain rfl : s' = e := by simpa [hstop] using h
      exact .last hstep hstop
    | false => exact .more hstep hstop (ih (by simpa [hstop] using h))

theorem Ends.unique {e' : σ} (h : Ends step stop s e) (h' : Ends step stop s e') : e = e' := by
  induction h with
  | last hstep hstop =>
    cases h' with
    | last hstep' _ => exact Except.ok.inj (hstep.symm.trans hstep')
    | more hstep' hstop' _ =>
      obtain rfl := Except.ok.inj (hstep.symm.trans hstep')
      simp [hstop] at hstop'
  | more hstep hstop _ ih =>
    cases h' with
    | last hstep' hstop' =>
      obtain rfl := Except.ok.inj (hstep.symm.trans hstep')
      simp [hstop] at hstop'
    | more hstep' _ hends' =>
      obtain rfl := Except.ok.inj (hstep.symm.trans hstep')
      exact ih hends'

/-- The first turn is all that depends on the first state. -/
theorem Ends.congr {s' : σ} (hstep : step s = step s') :
    Ends step stop s e ↔ Ends step stop s' e := by
  constructor
  · rintro (⟨h, hstop⟩ | ⟨h, hstop, hends⟩)
    · exact .last (hstep ▸ h) hstop
    · exact .more (hstep ▸ h) hstop hends
  · rintro (⟨h, hstop⟩ | ⟨h, hstop, hends⟩)
    · exact .last (hstep ▸ h) hstop
    · exact .more (hstep ▸ h) hstop hends

/-- An invariant of the turns that do not end the loop holds before the last one. -/
theorem Ends.induction {I : σ → Prop} (h : Ends step stop s e) (hs : I s)
    (hI : ∀ s s', I s → step s = .ok s' → stop s' = false → I s') :
    ∃ s', I s' ∧ step s' = .ok e ∧ stop e = true := by
  induction h with
  | last hstep hstop => exact ⟨_, hs, hstep, hstop⟩
  | more hstep hstop _ ih => exact ih (hI _ _ hs hstep hstop)

variable {I : σ → Prop} {μ : σ → ℕ} (hpos : ∀ s, I s → 0 < μ s)
  (hturn : ∀ s s', I s → step s = .ok s' → stop s' = false → I s' ∧ μ s' < μ s)

include hpos hturn

/-- A measure that goes down bounds the number of turns. -/
theorem loop_ne_none {fuel : ℕ} (hs : I s) (hfuel : μ s ≤ fuel) :
    loop step stop fuel s ≠ .ok none := by
  induction fuel generalizing s with
  | zero =>
    have := hpos s hs
    omega
  | succ fuel ih =>
    intro hnone
    obtain ⟨s', hstep, hnone⟩ := bind_eq_ok_iff.mp hnone
    cases hstop : stop s' with
    | true => simp [hstop] at hnone
    | false =>
      obtain ⟨hs', hlt⟩ := hturn s s' hs hstep hstop
      exact ih hs' (by omega) (by simpa [hstop] using hnone)

theorem loop_eq_some_iff {fuel : ℕ} (hs : I s) (hfuel : μ s ≤ fuel) :
    loop step stop fuel s = .ok (some e) ↔ Ends step stop s e := by
  refine ⟨.of_loop, fun h => ?_⟩
  induction fuel generalizing s with
  | zero =>
    have := hpos s hs
    omega
  | succ fuel ih =>
    cases h with
    | last hstep hstop => exact bind_eq_ok_iff.mpr ⟨e, hstep, by simp [hstop]⟩
    | more hstep hstop hends =>
      obtain ⟨hs', hlt⟩ := hturn _ _ hs hstep hstop
      exact bind_eq_ok_iff.mpr ⟨_, hstep, by simpa [hstop] using ih hs' (by omega) hends⟩

end Loop

end SagePTE.Fallible
