import Mathlib.Data.List.Basic

/-!
# Properties of entries and what came before them

A log grows at its end. Some properties of an entry speak of the entries before
it: each answer has an earlier question, each release an earlier request.
`Throughout Q log` says that every entry has the property `Q` together with the
part of the log that precedes it.

## Main results

* `History.throughout_concat` — a log with one more entry
* `History.throughout_iff_getElem?` — the property position by position
-/

set_option autoImplicit false

namespace SagePTE.History

variable {α : Type*} {Q R : List α → α → Prop}

/-- Every entry of the log has the property `Q` with the entries before it. -/
def Throughout (Q : List α → α → Prop) (log : List α) : Prop :=
  ∀ before e after, log = before ++ e :: after → Q before e

theorem throughout_nil : Throughout Q [] := by
  intro before e after h
  simp at h

theorem throughout_concat {log : List α} {e : α} :
    Throughout Q (log ++ [e]) ↔ Throughout Q log ∧ Q log e := by
  constructor
  · intro h
    refine ⟨fun before e' after heq => ?_, h log e [] rfl⟩
    exact h before e' (after ++ [e]) (by rw [heq]; simp)
  · rintro ⟨hlog, he⟩ before e' after heq
    rcases List.eq_nil_or_concat after with rfl | ⟨after', last, rfl⟩
    · obtain ⟨rfl, hlast⟩ := List.append_inj' heq rfl
      obtain rfl := List.singleton_inj.mp hlast
      exact he
    · have hsplit : log ++ [e] = (before ++ e' :: after') ++ [last] := by simpa using heq
      obtain ⟨hlog', -⟩ := List.append_inj' hsplit rfl
      exact hlog before e' after' hlog'

theorem Throughout.getElem? {log : List α} (h : Throughout Q log) {n : ℕ} {e : α}
    (he : log[n]? = some e) : Q (log.take n) e := by
  obtain ⟨hn, rfl⟩ := List.getElem?_eq_some_iff.mp he
  refine h (log.take n) log[n] (log.drop (n + 1)) ?_
  rw [← List.drop_eq_getElem_cons hn, List.take_append_drop]

theorem throughout_iff_getElem? {log : List α} :
    Throughout Q log ↔ ∀ n < log.length, ∀ e ∈ log[n]?, Q (log.take n) e := by
  refine ⟨fun h n _ e he => h.getElem? he, ?_⟩
  rintro h before e after rfl
  have he : (before ++ e :: after)[before.length]? = some e := by simp
  simpa using h before.length (by simp) e he

end SagePTE.History
