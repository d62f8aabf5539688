import Mathlib.Data.List.Induction

/-!
# Runs of a machine and their steps

A machine takes one input at a time and answers whether it goes on. A run over a list of
inputs ends at the first one after which it does not. Statements about runs often speak of
the single steps: the inputs that were taken, and the state that each of them met. A
quantity that every step changes in a known way is computed by a fold over the steps.

## Main definitions

* `Steps.runFrom` — the state after a list of inputs
* `Steps.stepsFrom` — the inputs that are taken, with the states they meet
* `Steps.sinceLast` — the number of steps of a kind since the last one of another kind

## Main results

* `Steps.forall_mem_stepsFrom`, `Steps.runFrom_induction` — invariants of a run
* `Steps.apply_runFrom` — a quantity of the last state as a fold over the steps
* `Steps.getElem?_stepsFrom` — the step at an index
* `Steps.getElem?_stepsFrom_induction` — invariants that count the steps
* `Steps.countP_eq_min` — how many elements are among the first of a kind
* `Steps.sinceLast_take_eq_iff` — when two kinds of steps are always equally many
-/

set_option autoImplicit false

namespace SagePTE.Steps

section Machine

variable {S A : Type*} (step : S → A → Bool × S)

/-- The state after a list of inputs. A step that answers `false` is the last one. -/
def runFrom : S → List A → S
  | s, [] => s
  | s, a :: as => if (step s a).1 then runFrom (step s a).2 as else (step s a).2

/-- The inputs that are taken, each with the state it meets. -/
def stepsFrom : S → List A → List (S × A)
  | _, [] => []
  | s, a :: as => (s, a) :: if (step s a).1 then stepsFrom (step s a).2 as else []

variable {step} {s : S} {as : List A}

/-- The steps over the first inputs are the first steps. -/
theorem stepsFrom_take (s : S) (as : List A) (n : ℕ) :
    stepsFrom step s (as.take n) = (stepsFrom step s as).take n := by
  induction as generalizing s n with
  | nil => simp [stepsFrom]
  | cons a as ih =>
    cases n with
    | zero => rfl
    | succ n =>
      simp only [List.take_succ_cons, stepsFrom]
      split_ifs
      · rw [ih]
      · simp

/-- A property that the steps of a run keep holds in the states that they meet. -/
theorem forall_mem_stepsFrom {P : S → Prop} (hs : P s)
    (hstep : ∀ p ∈ stepsFrom step s as, P p.1 → P (step p.1 p.2).2) :
    ∀ p ∈ stepsFrom step s as, P p.1 := by
  induction as generalizing s with
  | nil => simp [stepsFrom]
  | cons a as ih =>
    intro p hp
    have hfirst := hstep (s, a) (by simp [stepsFrom]) hs
    rw [stepsFrom] at hp hstep
    rcases List.mem_cons.mp hp with rfl | hp
    · exact hs
    · split_ifs at hp hstep
      · exact ih hfirst (fun q hq => hstep q (List.mem_cons_of_mem _ hq)) p hp
      · cases hp

/-- A property that the steps of a run keep holds at its end. -/
theorem runFrom_induction {P : S → Prop} (hs : P s)
    (hstep : ∀ p ∈ stepsFrom step s as, P p.1 → P (step p.1 p.2).2) : P (runFrom step s as) := by
  induction as generalizing s with
  | nil => exact hs
  | cons a as ih =>
    have hnext : P (step s a).2 := hstep (s, a) (by simp [stepsFrom]) hs
    rw [runFrom]
    split_ifs with hgo
    · exact ih hnext fun p hp => hstep p (by simp [stepsFrom, hgo, hp])
    · exact hnext

/-- A quantity that each step changes in a known way. -/
theorem apply_runFrom {β : Type*} {f : S → β} {g : β → S × A → β}
    (h : ∀ p ∈ stepsFrom step s as, f (step p.1 p.2).2 = g (f p.1) p) :
    f (runFrom step s as) = (stepsFrom step s as).foldl g (f s) := by
  induction as generalizing s with
  | nil => rfl
  | cons a as ih =>
    have hfirst := h (s, a) (by simp [stepsFrom])
    simp only [runFrom, stepsFrom, List.foldl_cons] at h ⊢
    rw [← hfirst]
    split_ifs with hgo
    · exact ih fun p hp => h p (by simp [hgo, hp])
    · rfl

/-- The step at an index: its input, and its state after the inputs before it. -/
theorem getElem?_stepsFrom {n : ℕ} {p : S × A} (h : (stepsFrom step s as)[n]? = some p) :
    as[n]? = some p.2 ∧ p.1 = runFrom step s (as.take n) := by
  induction as generalizing s n with
  | nil => simp [stepsFrom] at h
  | cons a as ih =>
    cases n with
    | zero =>
      obtain rfl : (s, a) = p := by simpa [stepsFrom] using h
      exact ⟨rfl, rfl⟩
    | succ n =>
      simp only [stepsFrom, List.getElem?_cons_succ] at h
      simp only [List.getElem?_cons_succ, List.take_succ_cons, runFrom]
      split_ifs at h ⊢
      · exact ih h
      · simp at h

/-- The state that a step leaves. -/
theorem runFrom_take_succ {n : ℕ} {p : S × A} (h : (stepsFrom step s as)[n]? = some p) :
    runFrom step s (as.take (n + 1)) = (step p.1 p.2).2 := by
  induction as generalizing s n with
  | nil => simp [stepsFrom] at h
  | cons a as ih =>
    simp only [List.take_succ_cons, runFrom]
    cases n with
    | zero =>
      obtain rfl : (s, a) = p := by simpa [stepsFrom] using h
      simp [runFrom]
    | succ n =>
      simp only [stepsFrom, List.getElem?_cons_succ] at h
      split_ifs at h ⊢
      · exact ih h
      · simp at h

/-- A property of the number of steps and the state, kept by each step. -/
theorem getElem?_stepsFrom_induction {P : ℕ → S → Prop} (hs : P 0 s)
    (hstep : ∀ n p, (stepsFrom step s as)[n]? = some p → P n p.1 → P (n + 1) (step p.1 p.2).2) :
    ∀ n p, (stepsFrom step s as)[n]? = some p → P n p.1 := by
  intro n
  induction n with
  | zero =>
    intro p hp
    rw [(getElem?_stepsFrom hp).2]
    exact hs
  | succ n ih =>
    intro p hp
    have hlt : n < (stepsFrom step s as).length := by
      have := (List.getElem?_eq_some_iff.mp hp).1
      omega
    have hq := List.getElem?_eq_getElem hlt
    rw [(getElem?_stepsFrom hp).2, runFrom_take_succ hq]
    exact hstep n _ hq (ih _ hq)

/-- Two runs of one machine, the second without some of the inputs. The relation is kept by
one step of both, or of the first one for an input that is left out. Its index is the number
of inputs left. -/
theorem runFrom_filter_related {keep : A → Bool} {R : ℕ → S → S → Prop} {t : S}
    (hst : R as.length s t)
    (hkeep : ∀ n, ∀ p ∈ stepsFrom step s as, ∀ y, R (n + 1) p.1 y → keep p.2 = true →
      (step p.1 p.2).1 = (step y p.2).1 ∧ R n (step p.1 p.2).2 (step y p.2).2)
    (hdrop : ∀ n, ∀ p ∈ stepsFrom step s as, ∀ y, R (n + 1) p.1 y → keep p.2 = false →
      (step p.1 p.2).1 = true ∧ R n (step p.1 p.2).2 y) :
    ∃ n, R n (runFrom step s as) (runFrom step t (as.filter keep)) := by
  induction as generalizing s t with
  | nil => exact ⟨0, hst⟩
  | cons a as ih =>
    have hmem : (s, a) ∈ stepsFrom step s (a :: as) := by simp [stepsFrom]
    cases hk : keep a with
    | true =>
      obtain ⟨hanswer, hnext⟩ := hkeep as.length (s, a) hmem t hst hk
      simp only at hanswer hnext
      simp only [List.filter_cons, hk, if_true, runFrom, ← hanswer]
      split_ifs with hgo
      · exact ih hnext (fun n p hp => hkeep n p (by simp [stepsFrom, hgo, hp]))
          fun n p hp => hdrop n p (by simp [stepsFrom, hgo, hp])
      · exact ⟨_, hnext⟩
    | false =>
      obtain ⟨hgo, hnext⟩ := hdrop as.length (s, a) hmem t hst hk
      simp only at hgo hnext
      simp only [List.filter_cons, hk, Bool.false_eq_true, if_false, runFrom, hgo, if_true]
      exact ih hnext (fun n p hp => hkeep n p (by simp [stepsFrom, hgo, hp]))
        fun n p hp => hdrop n p (by simp [stepsFrom, hgo, hp])

/-- Inputs at the end that leave a quantity as it is. -/
theorem apply_runFrom_append {β : Type*} {f : S → β} (as bs : List A) (s : S)
    (h : ∀ b ∈ bs, ∀ x, f (step x b).2 = f x) :
    f (runFrom step s (as ++ bs)) = f (runFrom step s as) := by
  induction as generalizing s with
  | nil =>
    refine runFrom_induction (P := fun x => f x = f s) rfl fun p hp hx => ?_
    obtain ⟨n, hn⟩ := List.mem_iff_getElem?.mp hp
    exact (h p.2 (List.mem_of_getElem? (getElem?_stepsFrom hn).1) p.1).trans hx
  | cons a as ih =>
    simp only [List.cons_append, runFrom]
    split_ifs
    · exact ih _
    · rfl

end Machine

/-! ### Counting since the last clear -/

section SinceLast

variable {α : Type*} {clear p q : α → Bool}

/-- The number of elements with `p` behind the last one with `clear`. -/
def sinceLast (clear p : α → Bool) (l : List α) : ℕ :=
  l.foldl (fun n a => if clear a then 0 else n + (p a).toNat) 0

theorem sinceLast_concat (l : List α) (a : α) :
    sinceLast clear p (l ++ [a]) = if clear a then 0 else sinceLast clear p l + (p a).toNat := by
  rw [sinceLast, List.foldl_append]
  rfl

theorem sinceLast_take_succ {l : List α} {n : ℕ} {a : α} (ha : l[n]? = some a) :
    sinceLast clear p (l.take (n + 1)) =
      if clear a then 0 else sinceLast clear p (l.take n) + (p a).toNat := by
  rw [List.take_add_one, ha]
  exact sinceLast_concat _ a

private theorem foldl_sinceLast {l : List α} (h : ∀ a ∈ l, clear a = false) (k : ℕ) :
    l.foldl (fun n a => if clear a then 0 else n + (p a).toNat) k = k + l.countP p := by
  induction l generalizing k with
  | nil => rfl
  | cons a l ih =>
    rw [List.foldl_cons, h a (by simp), ih fun b hb => h b (by simp [hb])]
    cases hp : p a <;> simp [hp]
    omega

/-- With the last clear at an index, everything behind it is counted. -/
theorem sinceLast_of_getElem? {l : List α} {n : ℕ} {a : α} (ha : l[n]? = some a)
    (hclear : clear a = true) (hrest : ∀ b ∈ l.drop (n + 1), clear b = false) :
    sinceLast clear p l = (l.drop (n + 1)).countP p := by
  have hfirst : sinceLast clear p (l.take (n + 1)) = 0 := by
    rw [sinceLast_take_succ ha, if_pos hclear]
  rw [sinceLast] at hfirst ⊢
  rw [← List.take_append_drop (n + 1) l, List.foldl_append, hfirst, foldl_sinceLast hrest,
    List.take_append_drop, Nat.zero_add]

/-- The numbers agree all the time exactly if the kinds are the same, but for the elements
that clear. -/
theorem sinceLast_take_eq_iff {l : List α} :
    (∀ n, sinceLast clear p (l.take n) = sinceLast clear q (l.take n)) ↔
      ∀ a ∈ l, clear a = false → p a = q a := by
  constructor
  · intro h a ha hclear
    obtain ⟨n, hn⟩ := List.mem_iff_getElem?.mp ha
    have hnext := h (n + 1)
    rw [sinceLast_take_succ hn, sinceLast_take_succ hn, h n, hclear] at hnext
    cases hp : p a <;> cases hq : q a <;> simp_all
  · intro h n
    induction n with
    | zero => rfl
    | succ n ih =>
      cases hn : l[n]? with
      | none =>
        rw [List.take_of_length_le (by have := List.getElem?_eq_none_iff.mp hn; omega),
          ← List.take_of_length_le (List.getElem?_eq_none_iff.mp hn)]
        exact ih
      | some a =>
        rw [sinceLast_take_succ hn, sinceLast_take_succ hn, ih]
        cases hclear : clear a with
        | true => rfl
        | false => rw [h a (List.mem_iff_getElem?.mpr ⟨n, hn⟩) hclear]

end SinceLast

/-- A count that each element of a kind takes one off. -/
theorem foldl_sub_toNat {α : Type*} {p : α → Bool} (l : List α) (k : ℕ) :
    l.foldl (fun n a => n - (p a).toNat) k = k - l.countP p := by
  induction l generalizing k with
  | nil => rfl
  | cons a l ih =>
    rw [List.foldl_cons, ih]
    cases hp : p a <;> simp [hp]
    omega

/-! ### The first elements of a kind -/

/-- If of the elements with `p` those with `q` are the first `k`, then there are `k` of them,
or all. -/
theorem countP_eq_min {α : Type*} {p q : α → Bool} {k : ℕ} {l : List α}
    (hq : ∀ a ∈ l, q a = true → p a = true)
    (h : ∀ n a, l[n]? = some a → p a = true → (q a = true ↔ (l.take n).countP p < k)) :
    l.countP q = min k (l.countP p) := by
  induction l using List.reverseRec with
  | nil => simp
  | append_singleton l a ih =>
    have hl : l.countP q = min k (l.countP p) := by
      refine ih (fun b hb => hq b (by simp [hb])) fun n b hb => ?_
      have hn : n < l.length := (List.getElem?_eq_some_iff.mp hb).1
      have hb' := h n b (by rw [List.getElem?_append_left hn, hb])
      rwa [List.take_append_of_le_length (Nat.le_of_lt hn)] at hb'
    have ha := h l.length a (by simp)
    rw [List.take_left] at ha
    rw [List.countP_append, List.countP_append, hl]
    cases hpa : p a with
    | false =>
      have hqa : q a = false := by
        by_contra hne
        simp [hq a (by simp) (by simpa using hne)] at hpa
      simp [hpa, hqa]
    | true =>
      have hiff := ha hpa
      by_cases hqa : q a = true
      · have := hiff.mp hqa
        simp [hpa, hqa]
        omega
      · have : ¬l.countP p < k := fun hlt => hqa (hiff.mpr hlt)
        simp [hpa, hqa]
        omega

end SagePTE.Steps
