import SagePTE.Tracer.Merge

/-!
# The conversion of one thread among others

The threads of a conversion share three flags and the cache of decoded instructions. What is
written for a thread is nevertheless what is written when its file is converted alone, up to
one of the flags: whether a string instruction counts as fetched depends on the thread that
was converted before.

## Main definitions

* `asFetched` — an entry without that difference
* `framed` — files of unfiltered traces in which a buffer starts with a block

## Main results

* `Thread.Alike.readEntry` — one entry of a thread, in two conversions
-/

set_option autoImplicit false

namespace SagePTE.Tracer

open Simulator Fallible ThreadFile

/-! ### The cache -/

/-- A cache that holds what decoding finds. -/
def Shared.Sound (b : Binary) (s : Shared) : Prop :=
  ∀ pc instr, s.decodeCache.lookup pc = some instr → b.decode pc = some instr

/-- The cache does not change what is found. -/
theorem getInstrSummary_eq_none {b : Binary} {s : Shared} {pc : BitVec 64} (hs : s.Sound b)
    (h : b.decode pc = none) : getInstrSummary b pc s = none := by
  unfold getInstrSummary
  cases hlookup : s.decodeCache.lookup pc with
  | none => simp [h]
  | some instr => simp [hs pc instr hlookup] at h

theorem getInstrSummary_eq_some {b : Binary} {s : Shared} {pc : BitVec 64} {instr : InstrSummary}
    (hs : s.Sound b) (h : b.decode pc = some instr) :
    ∃ cache, getInstrSummary b pc s = some (instr, { s with decodeCache := cache }) ∧
      Shared.Sound b { s with decodeCache := cache } := by
  unfold getInstrSummary
  cases hlookup : s.decodeCache.lookup pc with
  | none =>
    refine ⟨(pc, instr) :: s.decodeCache, by simp [h], ?_⟩
    intro pc' instr' hlookup'
    rw [List.lookup_cons] at hlookup'
    split at hlookup'
    next hpc =>
      obtain rfl : pc' = pc := by simpa using hpc
      rw [h, ← hlookup']
    · exact hs pc' instr' hlookup'
  | some instr' =>
    obtain rfl : instr' = instr := by simpa [hs pc instr' hlookup] using h
    exact ⟨s.decodeCache, rfl, hs⟩

/-! ### Entries up to the fetches of string instructions -/

/-- The entry with a string instruction taken to be fetched. -/
def asFetched (e : RawEntry) : RawEntry :=
  if e.type = BitVec.ofNat 16 TraceType.instrNoFetch.ctorIdx then
    { e with type := BitVec.ofNat 16 TraceType.instr.ctorIdx }
  else e

theorem asFetched_fetchEntry (mod : Module) (skipIcache rep rep' : Bool) (instr : InstrSummary)
    (pc : BitVec 64) :
    asFetched (fetchEntry mod skipIcache rep instr pc) =
      asFetched (fetchEntry mod skipIcache rep' instr pc) := by
  have hnumber : BitVec.ofNat 16 TraceType.instr.ctorIdx ≠
      BitVec.ofNat 16 TraceType.instrNoFetch.ctorIdx := by decide
  cases rep <;> cases rep' <;> by_cases h : instr.type = .instrMaybeFetch <;>
    simp [asFetched, fetchEntry, entryOf, fetchType, h, hnumber]

/-- Conversions of a thread of an unfiltered trace that agree in all but the other flags. -/
structure Conv.Alike (b : Binary) (c c' : Conv) : Prop where
  file : c.file = c'.file
  delayedBranch : c.delayedBranch.map asFetched = c'.delayedBranch.map asFetched
  out : c.out.map asFetched = c'.out.map asFetched
  unfiltered : c.shared.instrsAreSeparate = false
  unfiltered' : c'.shared.instrsAreSeparate = false
  sound : c.shared.Sound b
  sound' : c'.shared.Sound b

variable {b : Binary} {c c' : Conv}

theorem Conv.Alike.write (h : c.Alike b c') {es es' : List RawEntry}
    (hes : es.map asFetched = es'.map asFetched) : (c.write es).Alike b (c'.write es') :=
  { h with out := by simp [Conv.write, h.out, hes] }

theorem Conv.Alike.writeInstr (h : c.Alike b c') (instr : InstrSummary) {es es' : List RawEntry}
    (hes : es.map asFetched = es'.map asFetched) :
    Related (Conv.Alike b) (c.writeInstr instr es) (c'.writeInstr instr es') := by
  have hlength : es.length = es'.length := by simpa using congrArg List.length hes
  have hnil : c.delayedBranch = [] ↔ c'.delayedBranch = [] := by
    rw [← List.map_eq_nil_iff (f := asFetched), h.delayedBranch, List.map_eq_nil_iff]
  unfold Conv.writeInstr Conv.writeDelayedBranches
  simp only [hlength, hnil]
  split
  · exact .error _ _
  split
  · split
    · exact .ok { h with delayedBranch := hes }
    · exact .error _ _
  · exact .ok (h.write hes)

theorem Conv.Alike.appendInstr (h : c.Alike b c') (mod : Module) (skipIcache last : Bool)
    (instr : InstrSummary) (pc : BitVec 64) :
    Related (fun r r' => r.1 = r'.1 ∧ r.2.Alike b r'.2)
      (appendInstr mod skipIcache last instr pc c)
      (appendInstr mod skipIcache last instr pc c') := by
  unfold Tracer.appendInstr
  split
  · exact .error _ _
  have haccesses : appendAccesses skipIcache instr c = appendAccesses skipIcache instr c' := by
    simp only [appendAccesses, h.unfiltered, h.unfiltered', h.file]
  refine (Related.of_eq haccesses).bind fun r _ hr => ?_
  subst hr
  have hes :
      (fetchEntry mod skipIcache c.shared.prevInstrWasRepString instr pc :: r.1).map asFetched =
        (fetchEntry mod skipIcache c'.shared.prevInstrWasRepString instr pc :: r.1).map
          asFetched := by
    rw [List.map_cons, List.map_cons, asFetched_fetchEntry]
  refine Related.bind (Conv.Alike.writeInstr ?_ instr hes) fun c₁ c₁' hc₁ => .ok ⟨rfl, hc₁⟩
  exact { h with file := rfl }

theorem Conv.Alike.appendInstrs (h : c.Alike b c') (mod : Module) (skipIcache : Bool) (n : ℕ)
    (pc : BitVec 64) :
    Related (Conv.Alike b) (appendInstrs b mod skipIcache n pc c)
      (appendInstrs b mod skipIcache n pc c') := by
  induction n generalizing pc c c' with
  | zero => exact .ok h
  | succ n ih =>
    unfold Tracer.appendInstrs
    cases hdecode : b.decode pc with
    | none =>
      rw [getInstrSummary_eq_none h.sound hdecode, getInstrSummary_eq_none h.sound' hdecode]
      exact .ok h
    | some instr =>
      obtain ⟨cache, hget, hsound⟩ := getInstrSummary_eq_some h.sound hdecode
      obtain ⟨cache', hget', hsound'⟩ := getInstrSummary_eq_some h.sound' hdecode
      rw [hget, hget']
      have halike : Conv.Alike b { c with shared.decodeCache := cache }
          { c' with shared.decodeCache := cache' } :=
        { h with sound := hsound, sound' := hsound' }
      refine (halike.appendInstr mod skipIcache _ instr pc).bind fun r r' hr => ?_
      rw [hr.1]
      split
      · exact .ok hr.2
      · exact ih hr.2 instr.nextPc

theorem Conv.Alike.appendBbEntries (h : c.Alike b c') (modoffs : BitVec 33) (modidx : BitVec 16)
    {count : BitVec 12} (hcount : count ≠ 0) :
    Related (fun d d' => d.Alike b d' ∧ d.shared.lastBbHandled = d'.shared.lastBbHandled)
      (appendBbEntries b modoffs modidx count c) (appendBbEntries b modoffs modidx count c') := by
  unfold Tracer.appendBbEntries
  split
  · exact .error _ _
  split
  · exact .ok ⟨{ h with }, rfl⟩
  simp only [h.unfiltered, h.unfiltered', hcount, decide_false, Bool.or_self, Bool.false_and,
    Bool.false_eq_true, if_false]
  have halike : Conv.Alike b { c with shared.instrsAreSeparate := false }
      { c' with shared.instrsAreSeparate := false } :=
    { h with unfiltered := rfl, unfiltered' := rfl }
  exact (halike.appendInstrs _ _ _ _).bind fun d d' hd => .ok ⟨{ hd with }, rfl⟩

/-- The entries of blocks. -/
def OfflineEntry.isPc : OfflineEntry → Bool
  | .pc .. => true
  | _ => false

theorem Conv.Alike.onThreadEnd (h : c.Alike b c') :
    Related (Conv.Alike b) (onThreadEnd c) (onThreadEnd c') := by
  unfold Tracer.onThreadEnd
  rw [h.file]
  split
  · exact .error _ _
  split
  · exact .ok { h with file := rfl }
  · exact .error _ _

/-- The conversion of an entry depends on what other threads did only if it is an address that
does not follow its block. -/
theorem Conv.Alike.processOfflineEntry (h : c.Alike b c') (tid : BitVec 32) (e : OfflineEntry)
    (hcount : ∀ modoffs modidx, e ≠ .pc modoffs modidx 0)
    (hmemref : e.isMemref = true → c.shared.lastBbHandled = c'.shared.lastBbHandled) :
    Related
      (fun r r' => r.1 = r'.1 ∧ r.2.Alike b r'.2 ∧
        (r.1 = false → e.isPc = true ∨ c.shared.lastBbHandled = c'.shared.lastBbHandled →
          r.2.shared.lastBbHandled = r'.2.shared.lastBbHandled))
      (processOfflineEntry b tid e c) (processOfflineEntry b tid e c') := by
  unfold Tracer.processOfflineEntry
  cases e with
  | extended valueA valueB ext =>
    dsimp only
    split
    · split
      · exact .error _ _
      · exact (h.write rfl).onThreadEnd.bind fun d d' hd => .ok ⟨rfl, hd, by simp⟩
    · split
      · exact .ok ⟨rfl, h.write rfl, by simp [OfflineEntry.isPc, Conv.write]⟩
      · exact .error _ _
  | memref value =>
    dsimp only
    have heq := hmemref rfl
    rw [heq]
    split
    · exact .error _ _
    · exact .ok ⟨rfl, h.write rfl, fun _ _ => heq⟩
  | pc modoffs modidx count =>
    have hcount : count ≠ 0 := fun h0 => hcount modoffs modidx (h0 ▸ rfl)
    exact (h.appendBbEntries modoffs modidx hcount).bind fun d d' hd =>
      .ok ⟨rfl, hd.1, fun _ _ => hd.2⟩
  | iflush first =>
    dsimp only
    rw [h.file]
    split
    next last file _ =>
      have halike : Conv.Alike b { c with file } { c' with file } := { h with file := rfl }
      exact .ok ⟨rfl, halike.write rfl, by simp [OfflineEntry.isPc, Conv.write]⟩
    · exact .error _ _
  | thread _ | pid _ | timestamp _ => exact .error _ _

/-! ### Files whose buffers start with a block -/

/-- No address comes before the first block. -/
def opensBlock : List OfflineEntry → Bool
  | [] => true
  | .memref _ :: _ => false
  | .pc .. :: _ | .timestamp _ :: _ => true
  | _ :: es => opensBlock es

/-- The entries of an unfiltered trace. The timestamps are not zero, and the addresses of a
buffer follow a block of the same buffer. -/
def framed : List OfflineEntry → Bool
  | [] => true
  | .timestamp usec :: es => usec ≠ 0 && opensBlock es && framed es
  | .pc _ _ count :: es => count ≠ 0 && framed es
  | _ :: es => framed es

theorem framed_tail {e : OfflineEntry} {es : List OfflineEntry} (h : framed (e :: es) = true) :
    framed es = true := by
  cases e <;> simp_all [framed]

theorem framed_of_suffix {es es' : List OfflineEntry} (h : framed es = true)
    (hsuffix : es' <:+ es) : framed es' = true := by
  obtain ⟨before, rfl⟩ := hsuffix
  induction before with
  | nil => exact h
  | cons e before ih => exact ih (framed_tail h)

theorem framed_timestamp {usec : BitVec 61} {es : List OfflineEntry}
    (h : framed (.timestamp usec :: es) = true) : usec.toNat ≠ 0 ∧ opensBlock es = true := by
  simp only [framed, ne_eq, decide_not, Bool.and_eq_true, Bool.not_eq_true',
    decide_eq_false_iff_not] at h
  exact ⟨fun h0 => h.1.1 (BitVec.eq_of_toNat_eq h0), h.1.2⟩

theorem framed_pc {e : OfflineEntry} {es : List OfflineEntry} (h : framed (e :: es) = true)
    (modoffs : BitVec 33) (modidx : BitVec 16) : e ≠ .pc modoffs modidx 0 := by
  rintro rfl
  simp [framed] at h

/-- Before the first block there is none after an entry that is neither a block nor a footer. -/
theorem opensBlock_processOfflineEntry {tid : BitVec 32} {e : OfflineEntry}
    {es : List OfflineEntry} (h : processOfflineEntry b tid e c = .ok (false, c'))
    (hes : c.file.Gives es) (hpc : e.isPc = false) (hopens : opensBlock (e :: es) = true) :
    ∃ es', c'.file.Gives es' ∧ opensBlock es' = true := by
  unfold processOfflineEntry at h
  cases e with
  | extended valueA valueB ext =>
    dsimp only at h
    split at h
    · split at h
      · simp at h
      · obtain ⟨d, -, h⟩ := bind_eq_ok_iff.mp h
        simp at h
    · split at h
      · obtain rfl := (Prod.mk.inj (Except.ok.inj h)).2
        exact ⟨es, hes, hopens⟩
      · simp at h
  | memref value => simp [opensBlock] at hopens
  | pc modoffs modidx count => simp [OfflineEntry.isPc] at hpc
  | iflush first =>
    dsimp only at h
    split at h
    next last file hread =>
      obtain rfl := (Prod.mk.inj (Except.ok.inj h)).2
      obtain ⟨es', rfl, hes', -⟩ := hes.of_read_some hread
      exact ⟨es', hes', hopens⟩
    · simp at h
  | thread _ | pid _ | timestamp _ => simp at h

/-! ### Threads -/

/-- Threads that agree up to the fetches of the branch that is held back. -/
structure Thread.Alike (t t' : Thread) : Prop where
  tid : t.tid = t'.tid
  pid : t.pid = t'.pid
  wrotePid : t.wrotePid = t'.wrotePid
  time : t.time = t'.time
  file : t.file = t'.file
  delayedBranch : t.delayedBranch.map asFetched = t'.delayedBranch.map asFetched

/-- The flag of the last block is the same, or it will be set before it is used. -/
def Agree (shared shared' : Shared) (f : ThreadFile) : Prop :=
  shared.lastBbHandled = shared'.lastBbHandled ∨ ∃ es, f.Gives es ∧ opensBlock es = true

/-- What two conversions of an unfiltered trace share does not differ in the answers. -/
structure Shared.Plain (b : Binary) (s : Shared) : Prop where
  unfiltered : s.instrsAreSeparate = false
  sound : s.Sound b

/-- Turns that agree up to the fetches of string instructions. -/
structure Thread.Turn.Alike (b : Binary) (u u' : Thread.Turn) : Prop where
  thread : u.thread.Alike u'.thread
  out : u.out.map asFetched = u'.out.map asFetched
  next : u.next = u'.next
  plain : u.shared.Plain b
  plain' : u'.shared.Plain b
  agree : u.next = .same → Agree u.shared u'.shared u.thread.file

variable {t t' : Thread} {shared shared' : Shared}

theorem Thread.Alike.convertEntry (h : t.Alike t') (hplain : shared.Plain b)
    (hplain' : shared'.Plain b) {e : OfflineEntry} {file : ThreadFile} {es : List OfflineEntry}
    (hes : file.Gives es) (hcount : ∀ modoffs modidx, e ≠ .pc modoffs modidx 0)
    (hagree : shared.lastBbHandled = shared'.lastBbHandled ∨ opensBlock (e :: es) = true) :
    Related (Thread.Turn.Alike b) (t.convertEntry b shared e file)
      (t'.convertEntry b shared' e file) := by
  have hconv : Conv.Alike b (t.conv shared e file) (t'.conv shared' e file) := by
    unfold Thread.conv
    split
    · exact ⟨rfl, h.delayedBranch, rfl, hplain.1, hplain'.1, hplain.2, hplain'.2⟩
    · exact ⟨rfl, rfl, h.delayedBranch, hplain.1, hplain'.1, hplain.2, hplain'.2⟩
  have hmemref : e.isMemref = true → shared.lastBbHandled = shared'.lastBbHandled := by
    intro he
    cases e <;> simp_all [OfflineEntry.isMemref, opensBlock]
  have hrel := hconv.processOfflineEntry t.tid e hcount (by simpa using hmemref)
  have htid : processOfflineEntry b t'.tid e (t'.conv shared' e file) =
      processOfflineEntry b t.tid e (t'.conv shared' e file) := by rw [h.tid]
  unfold Thread.convertEntry
  rw [htid]
  generalize hx : processOfflineEntry b t.tid e (t.conv shared e file) = x at hrel ⊢
  generalize processOfflineEntry b t.tid e (t'.conv shared' e file) = y at hrel ⊢
  cases hrel with
  | error e₁ e₂ => exact .error e₁ e₂
  | @ok r r' hr =>
    obtain ⟨hended, halike, hhandled⟩ := hr
    refine .ok {
      thread := { h with file := halike.file, delayedBranch := halike.delayedBranch }
      out := halike.out
      next := by simp only [hended]
      plain := ⟨halike.unfiltered, halike.sound⟩
      plain' := ⟨halike.unfiltered', halike.sound'⟩
      agree := fun hsame => ?_ }
    have hnot : r.1 = false := by
      cases hr : r.1
      · rfl
      · simp [hr] at hsame
    cases hpc : e.isPc with
    | true => exact .inl (hhandled hnot (.inl hpc))
    | false =>
      rcases hagree with heq | hopens
      · exact .inl (hhandled hnot (.inr (by simpa using heq)))
      · have hx : processOfflineEntry b t.tid e (t.conv shared e file) = .ok (false, r.2) := by
          rw [hx, ← hnot]
        exact .inr (opensBlock_processOfflineEntry hx (by simpa using hes) hpc hopens)

/-- One entry of a thread, in two conversions. -/
theorem Thread.Alike.readEntry (h : t.Alike t') (hplain : shared.Plain b)
    (hplain' : shared'.Plain b) {es : List OfflineEntry} (hes : t.file.Gives es)
    (hframed : framed es = true) (hagree : Agree shared shared' t.file) :
    Related (Thread.Turn.Alike b) (t.readEntry b shared) (t'.readEntry b shared') := by
  have hagree : shared.lastBbHandled = shared'.lastBbHandled ∨ opensBlock es = true := by
    rcases hagree with heq | ⟨es', hes', hopens⟩
    · exact .inl heq
    · rw [← hes'.entries_eq, hes.entries_eq] at hopens
      exact .inr hopens
  unfold Thread.readEntry
  rw [← h.file]
  split
  next file hread =>
    obtain ⟨rfl, hfile, -⟩ := hes.of_read_none hread
    exact h.convertEntry hplain hplain' hfile (by simp [OfflineEntry.footer]) (.inr rfl)
  next usec file hread =>
    obtain ⟨es₁, rfl, -⟩ := hes.of_read_some hread
    exact .ok { thread := { h with time := rfl, file := rfl }, out := rfl, next := rfl,
                plain := hplain, plain' := hplain', agree := by simp }
  next e file _ hread =>
    obtain ⟨es₁, rfl, hfile, -⟩ := hes.of_read_some hread
    exact h.convertEntry hplain hplain' hfile (framed_pc hframed) hagree

end SagePTE.Tracer
