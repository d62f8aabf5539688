import Mathlib.Algebra.Group.Nat.Defs
import Mathlib.Tactic.Common

/-!
# Raw trace files

The tracer writes one raw file for each thread, a sequence of 64-bit words. The three highest
bits of a word are its type, and the type decides how the other bits are divided into fields.
An address is stored as it is, so that its own highest bits are taken for the type.

## Main definitions

* `OfflineEntry` — `offline_entry_t`
* `OfflineEntry.ofWord`, `OfflineEntry.word` — the entry of a word, and the word of an entry
* `ThreadFile` — a raw file that is being read, with the entries that were put back

## Main results

* `OfflineEntry.word_ofWord`, `OfflineEntry.ofWord_word_iff` — the round trips
* `ThreadFile.Gives.read_cons`, `ThreadFile.Gives.unread` — with one entry put back at most, a
  file gives a sequence of entries
-/

set_option autoImplicit false

namespace SagePTE.Tracer

/-- `offline_entry_t`, by its type. The fields stand in the order of the bit fields, the
lowest bits first. -/
inductive OfflineEntry
  | memref (value : BitVec 64)
  | pc (modoffs : BitVec 33) (modidx : BitVec 16) (instrCount : BitVec 12)
  | thread (tid : BitVec 61)
  | pid (pid : BitVec 61)
  | timestamp (usec : BitVec 61)
  | iflush (addr : BitVec 61)
  | extended (valueA : BitVec 48) (valueB : BitVec 8) (ext : BitVec 5)
  deriving DecidableEq, Repr

namespace OfflineEntry

/-! ### Words -/

/-- The field of `len` bits that starts at the bit `start`. -/
def field (word : BitVec 64) (start len : ℕ) : BitVec len :=
  BitVec.ofNat len (word.toNat / 2 ^ start)

/-- The three highest bits. -/
def typeOf (word : BitVec 64) : ℕ := word.toNat / 2 ^ 61

/-- The entry of a word. `OFFLINE_TYPE_MEMREF` is the type zero and `OFFLINE_TYPE_MEMREF_HIGH`
the type seven, and the value of both is the whole word. -/
def ofWord (word : BitVec 64) : OfflineEntry :=
  match typeOf word with
  | 1 => .pc (field word 0 33) (field word 33 16) (field word 49 12)
  | 2 => .thread (field word 0 61)
  | 3 => .pid (field word 0 61)
  | 4 => .timestamp (field word 0 61)
  | 5 => .iflush (field word 0 61)
  | 6 => .extended (field word 0 48) (field word 48 8) (field word 56 5)
  | _ => .memref word

/-- The word of a type whose other bits are a number. -/
def typed (type payload : ℕ) : BitVec 64 := BitVec.ofNat 64 (type * 2 ^ 61 + payload)

/-- The word that the tracer stores for an entry. -/
def word : OfflineEntry → BitVec 64
  | .memref value => value
  | .pc modoffs modidx instrCount =>
    typed 1 (instrCount.toNat * 2 ^ 49 + modidx.toNat * 2 ^ 33 + modoffs.toNat)
  | .thread n => typed 2 n.toNat
  | .pid n => typed 3 n.toNat
  | .timestamp n => typed 4 n.toNat
  | .iflush n => typed 5 n.toNat
  | .extended valueA valueB ext =>
    typed 6 (ext.toNat * 2 ^ 56 + valueB.toNat * 2 ^ 48 + valueA.toNat)

/-- The addresses whose three highest bits are equal. -/
def Canonical (value : BitVec 64) : Prop := typeOf value = 0 ∨ typeOf value = 7

instance (value : BitVec 64) : Decidable (Canonical value) :=
  inferInstanceAs (Decidable (_ ∨ _))

theorem toNat_typed {type payload : ℕ} (htype : type < 8) (hpayload : payload < 2 ^ 61) :
    (typed type payload).toNat = type * 2 ^ 61 + payload := by
  rw [typed, BitVec.toNat_ofNat, Nat.mod_eq_of_lt]
  omega

theorem typeOf_typed {type payload : ℕ} (htype : type < 8) (hpayload : payload < 2 ^ 61) :
    typeOf (typed type payload) = type := by
  rw [typeOf, toNat_typed htype hpayload]
  omega

theorem field_typed {type : ℕ} (htype : type < 8) (n : BitVec 61) :
    field (typed type n.toNat) 0 61 = n := by
  apply BitVec.eq_of_toNat_eq
  rw [field, toNat_typed htype n.isLt, BitVec.toNat_ofNat]
  omega

theorem ofWord_memref_iff (value : BitVec 64) :
    ofWord value = .memref value ↔ Canonical value := by
  have hlt : typeOf value < 8 := by
    rw [typeOf]
    omega
  rw [ofWord, Canonical]
  generalize typeOf value = type at hlt ⊢
  match type, hlt with
  | 0, _ | 1, _ | 2, _ | 3, _ | 4, _ | 5, _ | 6, _ | 7, _ => simp

/-- The entries that are read back as they were written: all but the addresses whose highest
bits are another entry's type. -/
theorem ofWord_word_iff (e : OfflineEntry) :
    ofWord e.word = e ↔ ∀ value, e = .memref value → Canonical value := by
  cases e with
  | memref value =>
    rw [word, ofWord_memref_iff]
    simp
  | pc modoffs modidx instrCount =>
    have hlt : instrCount.toNat * 2 ^ 49 + modidx.toNat * 2 ^ 33 + modoffs.toNat < 2 ^ 61 := by
      omega
    have heq : ofWord (word (.pc modoffs modidx instrCount)) = .pc modoffs modidx instrCount := by
      rw [word, ofWord, typeOf_typed (by decide) hlt]
      simp only [field, toNat_typed (by decide : 1 < 8) hlt, pc.injEq]
      refine ⟨?_, ?_, ?_⟩ <;> apply BitVec.eq_of_toNat_eq <;> rw [BitVec.toNat_ofNat] <;> omega
    simp [heq]
  | extended valueA valueB ext =>
    have hlt : ext.toNat * 2 ^ 56 + valueB.toNat * 2 ^ 48 + valueA.toNat < 2 ^ 61 := by omega
    have heq : ofWord (word (.extended valueA valueB ext)) = .extended valueA valueB ext := by
      rw [word, ofWord, typeOf_typed (by decide) hlt]
      simp only [field, toNat_typed (by decide : 6 < 8) hlt, extended.injEq]
      refine ⟨?_, ?_, ?_⟩ <;> apply BitVec.eq_of_toNat_eq <;> rw [BitVec.toNat_ofNat] <;> omega
    simp [heq]
  | thread n | pid n | timestamp n | iflush n =>
    simp [word, ofWord, typeOf_typed, field_typed, n.isLt]

/-- No two words have the same entry. -/
theorem word_ofWord (w : BitVec 64) : (ofWord w).word = w := by
  apply BitVec.eq_of_toNat_eq
  unfold ofWord typeOf
  -- one case for each type, and the last for addresses
  split
  case h_7 => rfl
  all_goals
    simp only [word, field, typed, BitVec.toNat_ofNat]
    omega

/-! ### Extended entries -/

/-- `OFFLINE_EXT_TYPE_HEADER`. -/
def extHeader : BitVec 5 := 0

/-- `OFFLINE_EXT_TYPE_FOOTER`. -/
def extFooter : BitVec 5 := 1

/-- `OFFLINE_EXT_TYPE_MARKER`. -/
def extMarker : BitVec 5 := 2

/-- `OFFLINE_EXT_TYPE_MEMINFO`. -/
def extMeminfo : BitVec 5 := 3

/-- The last entry of a file. -/
def footer : OfflineEntry := .extended 0 0 extFooter

/-- The entry of a marker. -/
def marker (type : BitVec 8) (value : BitVec 48) : OfflineEntry := .extended value type extMarker

/-- The entries of markers. -/
def isMarker : OfflineEntry → Bool
  | .extended _ _ ext => ext = extMarker
  | _ => false

/-- The markers of a signal or an exception, `TRACE_MARKER_TYPE_KERNEL_EVENT`. -/
def isKernelEvent : OfflineEntry → Bool
  | .extended _ valueB ext => ext = extMarker ∧ valueB = 0
  | _ => false

/-- The entries of addresses. -/
def isMemref : OfflineEntry → Bool
  | .memref _ => true
  | _ => false

/-- The time of a timestamp. -/
def usec? : OfflineEntry → Option ℕ
  | .timestamp usec => some usec.toNat
  | _ => none

end OfflineEntry

/-! ### Files -/

/-- A raw file that is being read: the entries that were put back, those that the stream has
still to give, and whether the stream has met its end. -/
structure ThreadFile where
  preRead : List OfflineEntry := []
  rest : List OfflineEntry
  eof : Bool := false
  deriving DecidableEq, Repr

namespace ThreadFile

variable (f : ThreadFile)

/-- `read_from_thread_file`, for one entry. -/
def read : Option OfflineEntry × ThreadFile :=
  match f.preRead with
  | e :: pre => (some e, { f with preRead := pre })
  | [] =>
    match f.rest with
    | e :: rest => (some e, { f with rest })
    | [] => (none, { f with eof := true })

/-- `unread_from_thread_file`, for one entry. -/
def unread (e : OfflineEntry) : ThreadFile := { f with preRead := f.preRead ++ [e] }

/-- `thread_file_at_eof`. -/
def atEof : Bool := f.preRead.isEmpty && f.eof

/-- The entries that are still to be read. -/
def entries : List OfflineEntry := f.preRead ++ f.rest

/-- A file that gives a sequence of entries. At most one entry was put back, and the end of
the stream has been met only where nothing is left. -/
structure Gives (es : List OfflineEntry) : Prop where
  entries_eq : f.entries = es
  length_preRead_le : f.preRead.length ≤ 1
  rest_eq_nil_of_eof : f.eof = true → f.rest = []

variable {f} {e : OfflineEntry} {es : List OfflineEntry}

theorem gives_ofRest (es : List OfflineEntry) : Gives { rest := es } es where
  entries_eq := rfl
  length_preRead_le := Nat.zero_le 1
  rest_eq_nil_of_eof := by simp

/-- Reading gives the first entry. Nothing stays put back after it. -/
theorem Gives.read_cons (h : f.Gives (e :: es)) :
    ∃ f', f.read = (some e, f') ∧ f'.Gives es ∧ f'.preRead = [] ∧ f'.eof = f.eof := by
  obtain ⟨pre, rest, eof⟩ := f
  obtain ⟨hentries, hlen, heof⟩ := h
  match pre with
  | [] =>
    obtain rfl : rest = e :: es := hentries
    exact ⟨⟨[], es, eof⟩, rfl, ⟨rfl, Nat.zero_le 1, fun h => by simpa using heof h⟩, rfl, rfl⟩
  | [e'] =>
    obtain ⟨rfl, rfl⟩ : e' = e ∧ rest = es := List.cons.inj hentries
    exact ⟨⟨[], rest, eof⟩, rfl, ⟨rfl, Nat.zero_le 1, heof⟩, rfl, rfl⟩

theorem Gives.read_nil (h : f.Gives []) :
    ∃ f', f.read = (none, f') ∧ f'.Gives [] ∧ f'.atEof = true := by
  obtain ⟨pre, rest, eof⟩ := f
  obtain ⟨rfl, rfl⟩ : pre = [] ∧ rest = [] := List.append_eq_nil_iff.mp h.entries_eq
  exact ⟨⟨[], [], true⟩, rfl, ⟨rfl, Nat.zero_le 1, fun _ => rfl⟩, rfl⟩

/-- An entry that is put back is the next one, if nothing else was put back. -/
theorem Gives.unread (h : f.Gives es) (hpre : f.preRead = []) : (f.unread e).Gives (e :: es) where
  entries_eq := by simp [← h.entries_eq, entries, ThreadFile.unread, hpre]
  length_preRead_le := by simp [ThreadFile.unread, hpre]
  rest_eq_nil_of_eof := h.rest_eq_nil_of_eof

/-- What one file gives, the other gives from some entry on. -/
def Follows (f f' : ThreadFile) : Prop :=
  ∀ es, f.Gives es → ∃ es', f'.Gives es' ∧ es' <:+ es

theorem Follows.refl (f : ThreadFile) : f.Follows f := by
  intro es h
  exact ⟨es, h, List.suffix_rfl⟩

theorem Follows.trans {f f' f'' : ThreadFile} (h : f.Follows f') (h' : f'.Follows f'') :
    f.Follows f'' := by
  intro es hes
  obtain ⟨es', hes', hsuffix⟩ := h es hes
  obtain ⟨es'', hes'', hsuffix'⟩ := h' es' hes'
  exact ⟨es'', hes'', hsuffix'.trans hsuffix⟩

/-- What a read that succeeds leaves. -/
theorem Gives.of_read_some {f' : ThreadFile} (h : f.Gives es) (hread : f.read = (some e, f')) :
    ∃ es', es = e :: es' ∧ f'.Gives es' ∧ f'.preRead = [] ∧ f'.eof = f.eof := by
  match es with
  | [] =>
    obtain ⟨_, hnone, -⟩ := h.read_nil
    simp [hnone] at hread
  | e' :: es' =>
    obtain ⟨f'', hsome, hgives, hpre, heof⟩ := h.read_cons
    obtain ⟨rfl, rfl⟩ : e' = e ∧ f'' = f' := by simpa [hsome] using hread
    exact ⟨es', rfl, hgives, hpre, heof⟩

/-- A read fails at the end only. -/
theorem Gives.of_read_none {f' : ThreadFile} (h : f.Gives es) (hread : f.read = (none, f')) :
    es = [] ∧ f'.Gives [] ∧ f'.atEof = true := by
  match es with
  | [] =>
    obtain ⟨f'', hnone, hgives, heof⟩ := h.read_nil
    obtain rfl : f'' = f' := by simpa [hnone] using hread
    exact ⟨rfl, hgives, heof⟩
  | e :: es' =>
    obtain ⟨_, hsome, -⟩ := h.read_cons
    simp [hsome] at hread

theorem Follows.of_read {f' : ThreadFile} {r : Option OfflineEntry} (hread : f.read = (r, f')) :
    f.Follows f' := by
  intro es h
  cases r with
  | none =>
    obtain ⟨rfl, hgives, -⟩ := h.of_read_none hread
    exact ⟨[], hgives, List.suffix_rfl⟩
  | some e =>
    obtain ⟨es', rfl, hgives, -⟩ := h.of_read_some hread
    exact ⟨es', hgives, List.suffix_cons e es'⟩

/-- What one file gives, the other gives from some entry on, and no timestamp is passed over. -/
def Skips (f f' : ThreadFile) : Prop :=
  ∀ es, f.Gives es → ∃ skipped es', es = skipped ++ es' ∧ f'.Gives es' ∧
    ∀ e ∈ skipped, e.usec? = none

theorem Skips.refl (f : ThreadFile) : f.Skips f := by
  intro es h
  exact ⟨[], es, rfl, h, by simp⟩

theorem Skips.trans {f f' f'' : ThreadFile} (h : f.Skips f') (h' : f'.Skips f'') :
    f.Skips f'' := by
  intro es hes
  obtain ⟨skipped, es', rfl, hes', hnone⟩ := h es hes
  obtain ⟨skipped', es'', rfl, hes'', hnone'⟩ := h' es' hes'
  refine ⟨skipped ++ skipped', es'', (List.append_assoc ..).symm, hes'', ?_⟩
  intro e he
  rcases List.mem_append.mp he with he | he
  · exact hnone e he
  · exact hnone' e he

theorem Skips.follows {f' : ThreadFile} (h : f.Skips f') : f.Follows f' := by
  intro es hes
  obtain ⟨skipped, es', rfl, hes', -⟩ := h es hes
  exact ⟨es', hes', List.suffix_append skipped es'⟩

theorem Skips.of_read_none {f' : ThreadFile} (hread : f.read = (none, f')) : f.Skips f' := by
  intro es h
  obtain ⟨rfl, hgives, -⟩ := h.of_read_none hread
  exact ⟨[], [], rfl, hgives, by simp⟩

theorem Skips.of_read_some {f' : ThreadFile} (hread : f.read = (some e, f'))
    (he : e.usec? = none) : f.Skips f' := by
  intro es h
  obtain ⟨es', rfl, hgives, -⟩ := h.of_read_some hread
  exact ⟨[e], es', rfl, hgives, by simpa using he⟩

/-- An entry that is read and put back leaves the file as it was. -/
theorem Skips.of_read_unread {f' : ThreadFile} (hread : f.read = (some e, f')) :
    f.Skips (f'.unread e) := by
  intro es h
  obtain ⟨es', rfl, hgives, hpre, -⟩ := h.of_read_some hread
  exact ⟨[], e :: es', rfl, hgives.unread hpre, by simp⟩

end ThreadFile

end SagePTE.Tracer
