import Mathlib.Logic.Function.Basic
import SagePTE.Lib.Steps

/-!
# Lock files

The tracer keeps processes out of each other's way with a lock file. `tryGetLock` opens the
file, which creates it if there is none, and asks for an exclusive lock without waiting;
`releaseLock` removes the file and closes it. Removing takes the name away. The file itself
lives on as long as it is open, and its lock with it.

So a process that has opened the file before it was removed can lock it afterwards, and
another one creates a new file under the name and locks that. As long as only files that
are under the name get locked, at most one process holds the lock.

## Main definitions

* `LockState`, `LockState.step` — the next system call of a process
* `LockState.Exclusive` — at most one process has the lock
* `LockState.LocksLinked` — a process locks no file that has lost its name

## Main results

* `LockState.exclusive_of_locksLinked` — the runs in which exclusion holds
* `LockState.exclusive_iff_subsingleton` — without this condition it holds for a single
  process only
-/

set_option autoImplicit false

namespace SagePTE.Tracer

/-- Where a process is in `tryGetLock` and `releaseLock`. A file is known by a number that
is never given to another one. -/
inductive LockPhase
  /-- It has no descriptor: `tryGetLock` has not been called, or has returned `-1`. -/
  | idle
  /-- `open` has returned. -/
  | opened (file : ℕ)
  /-- `flock` has failed, and the descriptor is to be closed. -/
  | refused (file : ℕ)
  /-- `tryGetLock` has returned the descriptor. -/
  | holding (file : ℕ)
  /-- `releaseLock` has called `remove`. -/
  | removed (file : ℕ)
  deriving DecidableEq, Repr

/-- The file that a process in the phase has a lock on. -/
def LockPhase.locked : LockPhase → Option ℕ
  | .holding file | .removed file => some file
  | _ => none

/-- The file that a process in the phase is about to lock. -/
def LockPhase.toLock : LockPhase → Option ℕ
  | .opened file => some file
  | _ => none

/-- The lock's name, the files that have been under it, and the processes. -/
structure LockState (P : Type) where
  /-- The file under the name. -/
  link : Option ℕ
  /-- The number of the next file. -/
  created : ℕ
  /-- The process that has the exclusive lock on a file. -/
  owner : ℕ → Option P := fun _ => none
  phase : P → LockPhase := fun _ => .idle

namespace LockState

variable {P : Type}

/-- No process has started. There may be a file of an earlier run under the name. -/
def initial (stale : Bool) : LockState P where
  link := if stale then some 0 else none
  created := 1

/-- At most one process is between a successful `tryGetLock` and `releaseLock`. -/
def Exclusive (s : LockState P) : Prop :=
  ∀ p q file file', s.phase p = .holding file → s.phase q = .holding file' → p = q

/-- If the next call of the process takes a lock, then on the file under the name. -/
def LocksLinked (s : LockState P) (p : P) : Prop :=
  ∀ file ∈ (s.phase p).toLock, s.owner file = none → s.link = some file

instance [DecidableEq P] (s : LockState P) (p : P) : Decidable (s.LocksLinked p) :=
  inferInstanceAs (Decidable (∀ file ∈ (s.phase p).toLock, _))

section Step

variable [DecidableEq P]

/-- The process goes on to another phase. -/
def goTo (s : LockState P) (p : P) (phase : LockPhase) : LockState P :=
  { s with phase := Function.update s.phase p phase }

/-- The next system call of a process. -/
def step (s : LockState P) (p : P) : LockState P :=
  match s.phase p with
  | .idle =>
    -- `open` with `O_CREAT`
    match s.link with
    | some file => s.goTo p (.opened file)
    | none =>
      { s with link := some s.created, created := s.created + 1 }.goTo p (.opened s.created)
  | .opened file =>
    -- `flock` with `LOCK_EX | LOCK_NB`
    if s.owner file = none then
      { s with owner := Function.update s.owner file (some p) }.goTo p (.holding file)
    else s.goTo p (.refused file)
  | .refused _ => s.goTo p .idle
  -- `remove` goes by the name, whatever file is under it
  | .holding file => { s with link := none }.goTo p (.removed file)
  -- `close` gives up the lock
  | .removed file => { s with owner := Function.update s.owner file none }.goTo p .idle

/-- The state after an interleaving of the processes' calls. -/
def run (stale : Bool) (schedule : List P) : LockState P :=
  Steps.runFrom (fun s p => (true, s.step p)) (initial stale) schedule

/-- The calls of an interleaving, with the states that they meet. -/
def steps (stale : Bool) (schedule : List P) : List (LockState P × P) :=
  Steps.stepsFrom (fun s p => (true, s.step p)) (initial stale) schedule

end Step

/-! ### Exclusion -/

/-- A lock belongs to the process that has taken it and not yet closed the file, and the
file is under the name until the process removes it. -/
structure Orderly (s : LockState P) : Prop where
  owner_iff : ∀ file p, s.owner file = some p ↔ (s.phase p).locked = some file
  linked : ∀ p file, s.phase p = .holding file → s.link = some file

theorem Orderly.exclusive {s : LockState P} (h : s.Orderly) : s.Exclusive := by
  intro p q file file' hp hq
  have hsame : file = file' :=
    Option.some.inj ((h.linked p file hp).symm.trans (h.linked q file' hq))
  have howner := (h.owner_iff file p).mpr (by rw [hp, LockPhase.locked])
  have howner' := (h.owner_iff file q).mpr (by rw [hq, LockPhase.locked, hsame])
  exact Option.some.inj (howner.symm.trans howner')

theorem orderly_initial (stale : Bool) : (initial stale : LockState P).Orderly := by
  constructor <;> simp [initial, LockPhase.locked]

variable [DecidableEq P]

theorem goTo_phase (s : LockState P) (p q : P) (phase : LockPhase) :
    (s.goTo p phase).phase q = if q = p then phase else s.phase q := by
  simp only [goTo, Function.update_apply]

/-- A process goes on. Its locks are those of its new phase, and the other processes keep
theirs. -/
theorem Orderly.goTo {s t : LockState P} (h : s.Orderly) {p : P} {phase : LockPhase}
    (hphase : t.phase = s.phase)
    (hself : ∀ file, t.owner file = some p ↔ phase.locked = some file)
    (hother : ∀ file q, q ≠ p → (t.owner file = some q ↔ s.owner file = some q))
    (hholds : ∀ file, phase = .holding file → t.link = some file)
    (hlinked : ∀ file q, q ≠ p → s.phase q = .holding file → t.link = some file) :
    (t.goTo p phase).Orderly := by
  constructor
  · intro file q
    rw [goTo_phase, hphase]
    split_ifs with hq
    · rw [hq]
      exact hself file
    · exact (hother file q hq).trans (h.owner_iff file q)
  · intro q file hq
    rw [goTo_phase, hphase] at hq
    split_ifs at hq with hqp
    · exact hholds file hq
    · exact hlinked file q hqp hq

/-- A process without a lock goes on without one. -/
theorem Orderly.goTo_of_locked_eq_none {s t : LockState P} (h : s.Orderly) {p : P}
    {phase : LockPhase} (hp : (s.phase p).locked = none) (hphase : phase.locked = none)
    (ht : t.phase = s.phase) (howner : t.owner = s.owner)
    (hlink : t.link = s.link ∨ s.link = none) : (t.goTo p phase).Orderly := by
  refine h.goTo ht (fun file => ?_) (fun file q _ => by rw [howner]) (fun file hhold => ?_)
    fun file q _ hq => ?_
  · rw [howner, h.owner_iff, hp, hphase]
  · rw [hhold] at hphase
    cases hphase
  · have hname := h.linked q file hq
    rcases hlink with hsame | hnone
    · rw [hsame, hname]
    · rw [hnone] at hname
      cases hname

/-- A call that takes no lock on a file without a name keeps the locks in order. -/
theorem Orderly.step {s : LockState P} (h : s.Orderly) {p : P} (hp : s.LocksLinked p) :
    (s.step p).Orderly := by
  have howned (file : ℕ) : s.owner file = some p ↔ (s.phase p).locked = some file :=
    h.owner_iff file p
  unfold LockState.step
  cases hphase : s.phase p with
  | idle =>
    have hnone : (s.phase p).locked = none := by rw [hphase]; rfl
    cases hlink : s.link with
    | some file => exact h.goTo_of_locked_eq_none hnone rfl rfl rfl (.inl rfl)
    | none => exact h.goTo_of_locked_eq_none hnone rfl rfl rfl (.inr hlink)
  | opened file =>
    have hnone : (s.phase p).locked = none := by rw [hphase]; rfl
    dsimp only
    split_ifs with hfree
    · have hname := hp file (by rw [hphase]; rfl) hfree
      refine h.goTo rfl (fun f => ?_) (fun f q hq => ?_) (fun f hf => ?_) fun f q _ => h.linked q f
      · by_cases hf : f = file
        · simp [hf, LockPhase.locked]
        · have hne : file ≠ f := fun heq => hf heq.symm
          simp only [Function.update_of_ne hf, howned, hnone]
          simp [LockPhase.locked, hne]
      · by_cases hf : f = file
        · simp [hf, hfree, hq.symm]
        · simp [hf]
      · cases hf
        exact hname
    · exact h.goTo_of_locked_eq_none hnone rfl rfl rfl (.inl rfl)
  | refused file =>
    have hnone : (s.phase p).locked = none := by rw [hphase]; rfl
    exact h.goTo_of_locked_eq_none hnone rfl rfl rfl (.inl rfl)
  | holding file =>
    refine h.goTo rfl (fun f => ?_) (fun _ _ _ => Iff.rfl) (fun f hf => by cases hf)
      fun f q hq hhold => ?_
    · rw [howned, hphase]
      rfl
    · -- nobody else holds a lock whose file could lose its name
      exact absurd (h.exclusive q p f file hhold hphase) hq
  | removed file =>
    have howner : s.owner file = some p := by rw [howned, hphase]; rfl
    refine h.goTo rfl (fun f => ?_) (fun f q hq => ?_) (fun f hf => by cases hf)
      fun f q _ => h.linked q f
    · by_cases hf : f = file
      · simp [hf, LockPhase.locked]
      · have hne : file ≠ f := fun heq => hf heq.symm
        simp [hf, hne, LockPhase.locked, howned, hphase]
    · by_cases hf : f = file
      · simp [hf, howner, hq.symm]
      · simp [hf]

/-- **Exclusion.** If all locks of a run are taken on the file that is under the name at the
time, then at most one process has the lock. -/
theorem exclusive_of_locksLinked (stale : Bool) (schedule : List P)
    (h : ∀ x ∈ steps stale schedule, x.1.LocksLinked x.2) : (run stale schedule).Exclusive := by
  have horderly : (run stale schedule).Orderly :=
    Steps.runFrom_induction (orderly_initial stale) fun x hx hs => hs.step (h x hx)
  exact horderly.exclusive

/-- One process takes the lock and gives it back, and then another one does. -/
theorem exclusive_one_after_another :
    let schedule : List (Fin 2) := [0, 0, 0, 0, 1, 1]
    (run false schedule).phase 1 = .holding 2 ∧ (run false schedule).Exclusive := by
  exact ⟨by decide, exclusive_of_locksLinked false _ (by decide)⟩

/-- Process 0 has the lock on the first file. Process 1 opens the file before it is removed,
and locks it afterwards. Process 2 locks the file that it has created. -/
theorem two_of_three_hold :
    let schedule : List ℕ := [0, 0, 1, 0, 0, 1, 2, 2]
    (run false schedule).phase 1 = .holding 1 ∧ (run false schedule).phase 2 = .holding 2 ∧
      ¬(run false schedule).Exclusive := by
  have h1 : (run false [0, 0, 1, 0, 0, 1, 2, 2] : LockState ℕ).phase 1 = .holding 1 := by
    decide
  have h2 : (run false [0, 0, 1, 0, 0, 1, 2, 2] : LockState ℕ).phase 2 = .holding 2 := by
    decide
  refine ⟨h1, h2, fun h => ?_⟩
  have heq := h 1 2 1 2 h1 h2
  revert heq
  decide

/-- Two processes are enough to break exclusion. -/
theorem two_hold {p q : P} (hpq : p ≠ q) :
    let s : LockState P := run false [p, p, q, p, p, q, p, p]
    s.phase q = .holding 1 ∧ s.phase p = .holding 2 := by
  have hqp : q ≠ p := hpq.symm
  simp [run, Steps.runFrom, step, goTo, initial, hpq, hqp]

/-- Exclusion holds in all runs only if there is a single process. -/
theorem exclusive_iff_subsingleton :
    (∀ stale schedule, (run stale schedule : LockState P).Exclusive) ↔ Subsingleton P := by
  constructor
  · intro h
    refine ⟨fun p q => ?_⟩
    by_contra hpq
    obtain ⟨hq, hp⟩ := two_hold hpq
    exact hpq (h false _ p q 2 1 hp hq)
  · intro hP stale schedule p q _ _ _ _
    exact hP.elim p q

end LockState

end SagePTE.Tracer
