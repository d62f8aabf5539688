import Mathlib.Data.List.Basic
import Mathlib.Algebra.Order.Group.Nat

/-!
# Sequential files

A virtual file is a sequence of records that an iterator prints one at a time. The
reader takes it in several reads. A read calls `start` at the index the last one
stopped at, then prints records and calls `next` until the buffer is full; it may
throw away the record it printed last and print it again in the next read, or start
over with a larger buffer while it has none. How the records fall into reads
depends on the buffers, so that `Reading` is a relation.

The iterator hands its own cursor from `start` to `record` and `next`, and `record`
may move it. `Restartable` asks that nothing of a cursor gets lost when it is
thrown away. Then every reading is a part of one fixed run, `after`.

## Main definitions

* `SeqFile.SeqOps` — the iterator
* `SeqFile.Reading` — the reads of one open file
* `SeqFile.after` — the records one by one, as if read without a break
* `SeqFile.Delivers` — this run ends, with this text

## Main results

* `SeqFile.Delivers.cons` — a file from its first record on
* `SeqFile.Reading.eq_after` — a reading is a part of the run
* `SeqFile.Delivers.reading` — what every reading of a file that ends is like
* `SeqFile.Delivers.exists_reading` — and that there is one
-/

set_option autoImplicit false

namespace SagePTE.SeqFile

/-- `seq_operations`: an index of type `P`, a cursor of type `V`, printed text over
`O`. `record` is the operation `show`. -/
structure SeqOps (P V O : Type*) where
  start : P → Option V
  record : V → List O × V
  next : V → P → Option V × P

/-- Where an open file is: between two reads, or in a read in front of a record.
The flag says that the read has kept a record. -/
inductive Cursor (P V : Type*)
  | closed (p : P)
  | opened (v : V) (p : P) (kept : Bool)

/-- The index of an open file. -/
def Cursor.index {P V : Type*} : Cursor P V → P
  | .closed p => p
  | .opened _ p _ => p

variable {P V O : Type*}

/-- The reads of a file opened at index `p₀`: the number of reads that have ended,
of records they kept, and the text they returned. -/
inductive Reading (ops : SeqOps P V O) (p₀ : P) : ℕ → ℕ → List O → Cursor P V → Prop
  | init : Reading ops p₀ 0 0 [] (.closed p₀)
  | start {r k : ℕ} {out : List O} {p : P} {v : V} :
      Reading ops p₀ r k out (.closed p) → ops.start p = some v →
        Reading ops p₀ r k out (.opened v p false)
  /-- The record does not fit: start over with a larger buffer. -/
  | retry {r k : ℕ} {out : List O} {p : P} {v v' : V} :
      Reading ops p₀ r k out (.opened v p false) → ops.start p = some v' →
        Reading ops p₀ r k out (.opened v' p false)
  | keep {r k : ℕ} {out : List O} {p p' : P} {v v' : V} {kept : Bool} :
      Reading ops p₀ r k out (.opened v p kept) →
        ops.next (ops.record v).2 p = (some v', p') →
          Reading ops p₀ r (k + 1) (out ++ (ops.record v).1) (.opened v' p' true)
  /-- There is no further record. -/
  | last {r k : ℕ} {out : List O} {p p' : P} {v : V} {kept : Bool} :
      Reading ops p₀ r k out (.opened v p kept) →
        ops.next (ops.record v).2 p = (none, p') →
          Reading ops p₀ (r + 1) (k + 1) (out ++ (ops.record v).1) (.closed p')
  /-- The buffer is full, and the record in front is left to the next read. -/
  | stop {r k : ℕ} {out : List O} {p : P} {v : V} :
      Reading ops p₀ r k out (.opened v p true) → Reading ops p₀ (r + 1) k out (.closed p)

/-- One record, read on its own: its text and the index after it. -/
def SeqOps.advance (ops : SeqOps P V O) (p : P) : Option (List O × P) :=
  (ops.start p).map fun v => ((ops.record v).1, (ops.next (ops.record v).2 p).2)

/-- The text of the first `k` records and the index after them. -/
def after (ops : SeqOps P V O) (p₀ : P) : ℕ → Option (List O × P)
  | 0 => some ([], p₀)
  | k + 1 => do
    let (out, p) ← after ops p₀ k
    let (o, p') ← ops.advance p
    some (out ++ o, p')

/-- Starting again at the index that `next` returned gives the cursor that `next`
returned, and none after the last record. -/
def SeqOps.Restartable (ops : SeqOps P V O) : Prop :=
  ∀ p v, ops.start p = some v →
    ops.start (ops.next (ops.record v).2 p).2 = (ops.next (ops.record v).2 p).1

/-- The records come to an end, and their text is `text`. -/
def Delivers (ops : SeqOps P V O) (p₀ : P) (n : ℕ) (text : List O) : Prop :=
  ∃ p, after ops p₀ n = some (text, p) ∧ ops.start p = none

variable {ops : SeqOps P V O} {p₀ : P}

/-! ### The run without a break -/

theorem after_succ {k : ℕ} {out : List O} {p : P} (h : after ops p₀ k = some (out, p)) :
    after ops p₀ (k + 1) = (ops.advance p).map fun s => (out ++ s.1, s.2) := by
  simp only [after, h, Option.bind_eq_bind, Option.bind_some]
  cases ops.advance p <;> rfl

theorem after_of_start {k : ℕ} {out : List O} {p : P} {v : V}
    (h : after ops p₀ k = some (out, p)) (hv : ops.start p = some v) :
    after ops p₀ (k + 1) =
      some (out ++ (ops.record v).1, (ops.next (ops.record v).2 p).2) := by
  rw [after_succ h]
  simp [SeqOps.advance, hv]

/-- The run goes on only from an index at which `start` returns a cursor. -/
theorem after_of_succ {k : ℕ} {out : List O} {p : P}
    (h : after ops p₀ (k + 1) = some (out, p)) :
    ∃ out' p' v, after ops p₀ k = some (out', p') ∧ ops.start p' = some v ∧
      out = out' ++ (ops.record v).1 := by
  cases hk : after ops p₀ k with
  | none => simp [after, hk] at h
  | some s =>
    obtain ⟨out', p'⟩ := s
    cases hv : ops.start p' with
    | none => simp [after_succ hk, SeqOps.advance, hv] at h
    | some v =>
      rw [after_of_start hk hv] at h
      exact ⟨out', p', v, rfl, hv, (Prod.mk.inj (Option.some.inj h)).1.symm⟩

/-- The first record and the run after it. -/
theorem after_succ_of_advance {p : P} {o : List O} (h : ops.advance p₀ = some (o, p)) (k : ℕ) :
    after ops p₀ (k + 1) = (after ops p k).map fun s => (o ++ s.1, s.2) := by
  induction k with
  | zero => simp [after, h]
  | succ k ih =>
    cases hk : after ops p k with
    | none =>
      have hk' : after ops p₀ (k + 1) = none := by rw [ih, hk]; rfl
      have hsucc : after ops p (k + 1) = none := by rw [after, hk]; rfl
      rw [after, hk', hsucc]
      rfl
    | some s =>
      have hk' : after ops p₀ (k + 1) = some (o ++ s.1, s.2) := by simp [ih, hk]
      rw [after_succ hk, after_succ hk']
      cases ops.advance s.2 <;> simp

theorem Delivers.nil (h : ops.start p₀ = none) : Delivers ops p₀ 0 [] := ⟨p₀, rfl, h⟩

theorem Delivers.cons {p : P} {o text : List O} {n : ℕ} (h : ops.advance p₀ = some (o, p))
    (hd : Delivers ops p n text) : Delivers ops p₀ (n + 1) (o ++ text) := by
  obtain ⟨q, hn, hq⟩ := hd
  exact ⟨q, by rw [after_succ_of_advance h, hn]; rfl, hq⟩

/-- The records before the end of a file are part of its text. -/
theorem after_prefix {k n : ℕ} (hkn : k ≤ n) {out text : List O} {p q : P}
    (hk : after ops p₀ k = some (out, p)) (hn : after ops p₀ n = some (text, q)) :
    out <+: text := by
  induction n, hkn using Nat.le_induction generalizing text q with
  | base =>
    rw [hk] at hn
    exact (Prod.mk.inj (Option.some.inj hn)).1 ▸ List.prefix_rfl
  | succ n _ ih =>
    obtain ⟨out', p', v, hn', -, rfl⟩ := after_of_succ hn
    exact (ih hn').trans (List.prefix_append _ _)

/-- Before the `n`-th record the run has not come to an end. -/
theorem start_of_after_lt {k n : ℕ} (hkn : k < n) {out text : List O} {p q : P}
    (hk : after ops p₀ k = some (out, p)) (hn : after ops p₀ n = some (text, q)) :
    ∃ v, ops.start p = some v := by
  induction n, hkn using Nat.le_induction generalizing text q with
  | base =>
    obtain ⟨out', p', v, hk', hv, -⟩ := after_of_succ hn
    rw [hk] at hk'
    exact ⟨v, (Prod.mk.inj (Option.some.inj hk')).2 ▸ hv⟩
  | succ n _ ih =>
    obtain ⟨out', p', v, hn', -⟩ := after_of_succ hn
    exact ih hn'

/-! ### Readings -/

/-- A reading is a part of the run without a break: its text is that of the records
it kept, and in front of a record its cursor is the one `start` would return. -/
theorem Reading.eq_after (hops : ops.Restartable) {r k : ℕ} {out : List O} {c : Cursor P V}
    (h : Reading ops p₀ r k out c) :
    after ops p₀ k = some (out, c.index) ∧
      ∀ v p kept, c = .opened v p kept → ops.start p = some v := by
  induction h with
  | init => exact ⟨rfl, by simp⟩
  | start _ hv ih =>
    refine ⟨ih.1, ?_⟩
    rintro _ _ _ ⟨⟩
    exact hv
  | retry _ hv ih =>
    refine ⟨ih.1, ?_⟩
    rintro _ _ _ ⟨⟩
    exact hv
  | @keep r k out p p' v v' kept _ hnext ih =>
    have hv := ih.2 v p kept rfl
    -- where the cursor is kept `start` would find it as well
    have hrestart := hops p v hv
    rw [hnext] at hrestart
    refine ⟨?_, ?_⟩
    · rw [after_of_start (p := p) ih.1 hv, hnext]
      rfl
    · rintro _ _ _ ⟨⟩
      exact hrestart
  | @last r k out p p' v kept _ hnext ih =>
    have hv := ih.2 v p kept rfl
    refine ⟨?_, by simp⟩
    rw [after_of_start (p := p) ih.1 hv, hnext]
    rfl
  | stop _ ih => exact ⟨ih.1, by simp⟩

/-- A read that has ended has kept a record. -/
theorem Reading.reads_le {r k : ℕ} {out : List O} {c : Cursor P V}
    (h : Reading ops p₀ r k out c) :
    r ≤ k ∧ ∀ v p, c = .opened v p true → r < k := by
  induction h with
  | init => simp
  | start _ _ ih => exact ⟨ih.1, by simp⟩
  | retry _ _ ih => exact ⟨ih.1, by simp⟩
  | keep _ _ ih => exact ⟨by omega, fun _ _ _ => by omega⟩
  | last _ _ ih => exact ⟨by omega, by simp⟩
  | stop _ ih => exact ⟨ih.2 _ _ rfl, by simp⟩

/-- Every reading of a file that ends: it keeps no more records than there are, its
text is a part of the file's text, and all of it once `start` finds nothing more. -/
theorem Delivers.reading {n : ℕ} {text : List O} (hd : Delivers ops p₀ n text)
    (hops : ops.Restartable) {r k : ℕ} {out : List O} {c : Cursor P V}
    (h : Reading ops p₀ r k out c) :
    r ≤ k ∧ k ≤ n ∧ out <+: text ∧ (ops.start c.index = none → out = text) := by
  obtain ⟨q, hn, hq⟩ := hd
  obtain ⟨hk, -⟩ := h.eq_after hops
  have hkn : k ≤ n := by
    by_contra hlt
    obtain ⟨v, hv⟩ := start_of_after_lt (by omega : n < k) hn hk
    rw [hq] at hv
    cases hv
  refine ⟨h.reads_le.1, hkn, after_prefix hkn hk hn, fun hend => ?_⟩
  -- at the end of the file there is no record left that was not kept
  rcases Nat.eq_or_lt_of_le hkn with rfl | hlt
  · rw [hk] at hn
    exact (Prod.mk.inj (Option.some.inj hn)).1
  · obtain ⟨v, hv⟩ := start_of_after_lt hlt hk hn
    rw [hend] at hv
    cases hv

/-- Reading one record at a time reads the whole file. -/
theorem Delivers.exists_reading {n : ℕ} {text : List O} (hd : Delivers ops p₀ n text) :
    ∃ p, Reading ops p₀ n n text (.closed p) ∧ ops.start p = none := by
  obtain ⟨q, hn, hq⟩ := hd
  suffices h : ∀ k out p, after ops p₀ k = some (out, p) →
      Reading ops p₀ k k out (.closed p) from ⟨q, h n text q hn, hq⟩
  intro k
  induction k with
  | zero =>
    intro out p h
    obtain ⟨rfl, rfl⟩ := Prod.mk.inj (Option.some.inj h)
    exact .init
  | succ k ih =>
    intro out p h
    obtain ⟨out', p', v, hk, hv, rfl⟩ := after_of_succ h
    rw [after_of_start hk hv] at h
    have hp := (Prod.mk.inj (Option.some.inj h)).2
    have hopen := Reading.start (ih out' p' hk) hv
    cases hnext : ops.next (ops.record v).2 p' with
    | mk v' p'' =>
      rw [hnext] at hp
      cases v' with
      | none => exact hp ▸ .last hopen hnext
      | some v' => exact hp ▸ .stop (.keep hopen hnext)

end SagePTE.SeqFile
