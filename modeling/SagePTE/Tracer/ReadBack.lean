import SagePTE.Tracer.Segments

/-!
# Reading a converted trace

The reader of the simulator gives a reference the thread and the process that were set last.
A converted trace sets them at the start of every buffer, so that every reference gets the ids
of the file that it comes from.

## Main definitions

* `IsBody` — the entries of a buffer after its start
* `Binary.WellTyped` — what a decoder answers
* `Reads` — the reader takes some entries and attributes them to their files
* `Merge.Attributed` — what the reader makes of the entries that the loop has written

## Main results

* `Merge.Attributed.step` — one turn of the loop
* `readFile_doConversion` — the reader accepts a converted trace to its end, and every reference
  has the ids of its file
-/

set_option autoImplicit false

namespace SagePTE.Tracer

open Simulator Fallible ThreadFile

/-! ### The entries of a buffer -/

/-- The types of fetches, as the conversion writes them. -/
def isFetchType : TraceType → Bool
  | .instr | .instrDirectJump | .instrIndirectJump | .instrConditionalJump
  | .instrDirectCall | .instrIndirectCall | .instrReturn | .instrSysenter | .instrNoFetch => true
  | _ => false

/-- The types of the entries of a buffer after its start, without the exit of the thread. -/
def isBodyType (type : TraceType) : Bool :=
  isDataEntry type || isFetchType type ||
    type = .dataFlush || type = .marker || type = .instrFlush || type = .instrFlushEnd

/-- The number of such a type. -/
def isBodyNumber (n : BitVec 16) : Bool := traceTypes[n.toNat]?.any isBodyType

theorem isBodyNumber_ctorIdx {type : TraceType} (h : isBodyType type = true) :
    isBodyNumber (BitVec.ofNat 16 type.ctorIdx) = true := by
  cases type <;> first | rfl | simp [isBodyType, isDataEntry, isFetchType] at h

/-- The entries of a buffer of a thread after its start. -/
def IsBody (tid : BitVec 32) (e : RawEntry) : Prop :=
  isBodyNumber e.type = true ∨ e = writeThreadExit tid

/-- The types that a decoder gives are those of `instr_to_instr_type` and
`instr_to_prefetch_type`. -/
structure Binary.WellTyped (b : Binary) : Prop where
  type : ∀ pc instr, b.decode pc = some instr →
    isFetchType instr.type = true ∨ instr.type = .instrMaybeFetch
  prefetchType : ∀ pc instr, b.decode pc = some instr → instr.isPrefetch = true →
    isDataEntry instr.prefetchType = true

/-- The type of an access that a filtered trace names is one of a buffer's entries. -/
def infoTyped (e : OfflineEntry) : Bool := (meminfo? e).all fun info => isBodyNumber info.1

variable {b : Binary} {tid : BitVec 32}

theorem isBody_entryOf {type : TraceType} (h : isBodyType type = true) (size : BitVec 16)
    (addr : BitVec 64) : IsBody tid (entryOf type size addr) :=
  .inl (isBodyNumber_ctorIdx h)

theorem isBody_fetchEntry {instr : InstrSummary}
    (htype : isFetchType instr.type = true ∨ instr.type = .instrMaybeFetch) (mod : Module)
    (skipIcache rep : Bool) (pc : BitVec 64) :
    IsBody tid (fetchEntry mod skipIcache rep instr pc) := by
  apply isBody_entryOf
  have hfetch : isFetchType (fetchType rep instr.type) = true := by
    unfold fetchType
    split
    · cases rep <;> rfl
    next hnot => exact htype.resolve_right hnot
  simp [isBodyType, hfetch]

theorem isBody_memrefEntry {instr : InstrSummary}
    (hprefetch : instr.isPrefetch = true → isDataEntry instr.prefetchType = true)
    (ref : MemOpnd × Bool) {info : Option (BitVec 16 × BitVec 16)}
    (hinfo : ∀ i ∈ info, isBodyNumber i.1 = true) (value : BitVec 64) :
    IsBody tid (memrefEntry instr ref info value) := by
  left
  cases info with
  | some i => exact hinfo i rfl
  | none =>
    simp only [memrefEntry, Option.getD_none, accessOf]
    split_ifs with hp
    · exact isBodyNumber_ctorIdx (by simp [isBodyType, hprefetch hp])
    all_goals rfl

theorem isBody_writeIflush {start size : BitVec 64} :
    ∀ e ∈ writeIflush start size, IsBody tid e := by
  unfold writeIflush
  extract_lets short
  rw [List.forall_mem_cons]
  refine ⟨isBody_entryOf rfl _ _, ?_⟩
  split
  · rw [List.forall_mem_singleton]
    exact isBody_entryOf rfl _ _
  · simp

/-! ### The conversion writes such entries -/

/-- A file in which the types of accesses are those of a buffer's entries. -/
def ThreadFile.Typed (f : ThreadFile) : Prop := ∃ es, f.Gives es ∧ ∀ e ∈ es, infoTyped e = true

theorem ThreadFile.Typed.follows {f f' : ThreadFile} (hf : f.Typed) (h : f.Follows f') :
    f'.Typed := by
  obtain ⟨es, hes, htyped⟩ := hf
  obtain ⟨es', hes', hsuffix⟩ := h es hes
  exact ⟨es', hes', fun e he => htyped e (hsuffix.mem he)⟩

theorem typed_nextAddress {f f' : ThreadFile} {info : Option (BitVec 16 × BitVec 16)}
    {e : OfflineEntry} (hf : f.Typed) (h : nextAddress f = .ok (info, e, f')) :
    ∀ i ∈ info, isBodyNumber i.1 = true := by
  obtain ⟨es, hes, htyped⟩ := hf
  unfold nextAddress at h
  split at h
  · simp at h
  next e₁ f₁ hread =>
    obtain ⟨es₁, rfl, -⟩ := hes.of_read_some hread
    have he₁ := htyped e₁ List.mem_cons_self
    split at h
    · obtain ⟨rfl, -⟩ : none = info ∧ _ := by simpa using h
      simp
    next i hi =>
      split at h
      · simp at h
      · obtain ⟨rfl, -⟩ : some i = info ∧ _ := by simpa using h
        simpa [infoTyped, hi] using he₁

theorem isBody_appendMemref {instr : InstrSummary} {ref : MemOpnd × Bool} {f : ThreadFile}
    {r : List RawEntry × Bool × ThreadFile} (hf : f.Typed)
    (hprefetch : instr.isPrefetch = true → isDataEntry instr.prefetchType = true)
    (h : appendMemref instr ref f = .ok r) : ∀ e ∈ r.1, IsBody tid e := by
  obtain ⟨⟨info, e, f₁⟩, hnext, h⟩ := bind_eq_ok_iff.mp h
  have hinfo := typed_nextAddress hf hnext
  dsimp only at h
  split at h
  next value =>
    have hr : r.1 = [memrefEntry instr ref info value] := by
      split at h <;> obtain rfl := Except.ok.inj h <;> rfl
    rw [hr, List.forall_mem_singleton]
    exact isBody_memrefEntry hprefetch ref hinfo value
  · obtain rfl := Except.ok.inj h
    simp

theorem isBody_appendMemrefs {instr : InstrSummary} {refs : List (MemOpnd × Bool)}
    {f : ThreadFile} {r : List RawEntry × Bool × ThreadFile} (hf : f.Typed)
    (hprefetch : instr.isPrefetch = true → isDataEntry instr.prefetchType = true)
    (h : appendMemrefs instr refs f = .ok r) : ∀ e ∈ r.1, IsBody tid e := by
  induction refs generalizing f r with
  | nil =>
    obtain rfl := Except.ok.inj h
    simp
  | cons ref refs ih =>
    obtain ⟨r₁, href, h⟩ := bind_eq_ok_iff.mp h
    have hr₁ : ∀ e ∈ r₁.1, IsBody tid e := isBody_appendMemref hf hprefetch href
    split at h
    · obtain rfl := Except.ok.inj h
      exact hr₁
    · obtain ⟨r₂, hrefs, h⟩ := bind_eq_ok_iff.mp h
      obtain rfl := Except.ok.inj h
      rw [List.forall_mem_append]
      exact ⟨hr₁, ih (hf.follows (skips_appendMemref href).follows) hrefs⟩

/-- A conversion in which nothing but entries of a buffer was written or held back. -/
structure Conv.Clean (b : Binary) (tid : BitVec 32) (c : Conv) : Prop where
  out : ∀ e ∈ c.out, IsBody tid e
  delayedBranch : ∀ e ∈ c.delayedBranch, IsBody tid e
  sound : c.shared.Sound b
  typed : c.file.Typed

variable {c c' : Conv}

theorem Conv.Clean.write (h : c.Clean b tid) {es : List RawEntry}
    (hes : ∀ e ∈ es, IsBody tid e) : (c.write es).Clean b tid :=
  { h with out := List.forall_mem_append.mpr ⟨h.out, hes⟩ }

theorem Conv.Clean.writeInstr (h : c.Clean b tid) {instr : InstrSummary} {es : List RawEntry}
    (hes : ∀ e ∈ es, IsBody tid e) (hwrite : c.writeInstr instr es = .ok c') :
    c'.Clean b tid := by
  unfold Conv.writeInstr Conv.writeDelayedBranches at hwrite
  split_ifs at hwrite
  · obtain rfl := Except.ok.inj hwrite
    exact { h with delayedBranch := hes }
  · obtain rfl := Except.ok.inj hwrite
    exact h.write hes

theorem Conv.Clean.appendInstr (h : c.Clean b tid) {mod : Module} {skipIcache last : Bool}
    {instr : InstrSummary} {pc : BitVec 64} {r : Bool × Conv}
    (htype : isFetchType instr.type = true ∨ instr.type = .instrMaybeFetch)
    (hprefetch : instr.isPrefetch = true → isDataEntry instr.prefetchType = true)
    (hinstr : appendInstr mod skipIcache last instr pc c = .ok r) : r.2.Clean b tid := by
  have htyped := h.typed.follows (skips_appendInstr hinstr).follows
  unfold Tracer.appendInstr at hinstr
  split at hinstr
  · simp at hinstr
  obtain ⟨r₁, haccesses, hinstr⟩ := bind_eq_ok_iff.mp hinstr
  obtain ⟨c₂, hwrite, hinstr⟩ := bind_eq_ok_iff.mp hinstr
  obtain rfl := Except.ok.inj hinstr
  have hskips : c.file.Follows r₁.2.2 ∧ ∀ e ∈ r₁.1, IsBody tid e := by
    unfold appendAccesses at haccesses
    split at haccesses
    · exact ⟨(skips_appendMemrefs haccesses).follows,
        isBody_appendMemrefs h.typed hprefetch haccesses⟩
    · obtain rfl := Except.ok.inj haccesses
      exact ⟨.refl _, by simp⟩
  refine Conv.Clean.writeInstr ?_ ?_ hwrite
  · exact { h with typed := h.typed.follows hskips.1 }
  · rw [List.forall_mem_cons]
    exact ⟨isBody_fetchEntry htype mod skipIcache _ pc, hskips.2⟩

theorem Conv.Clean.appendInstrs (hb : b.WellTyped) (h : c.Clean b tid) {mod : Module}
    {skipIcache : Bool} {n : ℕ} {pc : BitVec 64}
    (hinstrs : appendInstrs b mod skipIcache n pc c = .ok c') : c'.Clean b tid := by
  induction n generalizing pc c with
  | zero =>
    obtain rfl := Except.ok.inj hinstrs
    exact h
  | succ n ih =>
    unfold Tracer.appendInstrs at hinstrs
    cases hdecode : b.decode pc with
    | none =>
      rw [getInstrSummary_eq_none h.sound hdecode] at hinstrs
      obtain rfl := Except.ok.inj hinstrs
      exact h
    | some instr =>
      obtain ⟨cache, hget, hsound⟩ := getInstrSummary_eq_some h.sound hdecode
      rw [hget] at hinstrs
      obtain ⟨r, hinstr, hinstrs⟩ := bind_eq_ok_iff.mp hinstrs
      have hclean : Conv.Clean b tid { c with shared.decodeCache := cache } :=
        { h with sound := hsound }
      have hr := hclean.appendInstr (hb.type pc instr hdecode) (hb.prefetchType pc instr hdecode)
        hinstr
      split at hinstrs
      · obtain rfl := Except.ok.inj hinstrs
        exact hr
      · exact ih hr hinstrs

theorem Conv.Clean.appendBbEntries (hb : b.WellTyped) (h : c.Clean b tid) {modoffs : BitVec 33}
    {modidx : BitVec 16} {count : BitVec 12}
    (hblock : appendBbEntries b modoffs modidx count c = .ok c') : c'.Clean b tid := by
  unfold Tracer.appendBbEntries at hblock
  split at hblock
  · simp at hblock
  split at hblock
  · obtain rfl := Except.ok.inj hblock
    exact { h with }
  · dsimp only at hblock
    split at hblock
    · simp at hblock
    · obtain ⟨d, hinstrs, hblock⟩ := bind_eq_ok_iff.mp hblock
      obtain rfl := Except.ok.inj hblock
      have hd : d.Clean b tid := by
        refine Conv.Clean.appendInstrs hb ?_ hinstrs
        exact { h with }
      exact { hd with }

theorem Conv.Clean.processOfflineEntry (hb : b.WellTyped) (h : c.Clean b tid) {e : OfflineEntry}
    {r : Bool × Conv} (hentry : processOfflineEntry b tid e c = .ok r) : r.2.Clean b tid := by
  have htyped := h.typed.follows (skips_processOfflineEntry hentry).follows
  unfold Tracer.processOfflineEntry at hentry
  cases e with
  | extended valueA valueB ext =>
    dsimp only at hentry
    split at hentry
    · split at hentry
      · simp at hentry
      · obtain ⟨d, hend, hentry⟩ := bind_eq_ok_iff.mp hentry
        obtain rfl := Except.ok.inj hentry
        have hwrite : (c.write [writeThreadExit tid]).Clean b tid :=
          h.write (by simp [IsBody])
        unfold onThreadEnd at hend
        split at hend
        · simp at hend
        split at hend
        · obtain rfl := Except.ok.inj hend
          exact { hwrite with typed := htyped }
        · simp at hend
    · split at hentry
      · obtain rfl := Except.ok.inj hentry
        exact h.write (List.forall_mem_singleton.mpr (isBody_entryOf rfl _ _))
      · simp at hentry
  | memref value =>
    dsimp only at hentry
    split at hentry
    · simp at hentry
    · obtain rfl := Except.ok.inj hentry
      exact h.write (List.forall_mem_singleton.mpr (isBody_entryOf rfl _ _))
  | pc modoffs modidx count =>
    obtain ⟨d, hblock, hentry⟩ := bind_eq_ok_iff.mp hentry
    obtain rfl := Except.ok.inj hentry
    exact h.appendBbEntries hb hblock
  | iflush first =>
    dsimp only at hentry
    split at hentry
    next last file hread =>
      obtain rfl := Except.ok.inj hentry
      have hfile : Conv.Clean b tid { c with file } := { h with typed := htyped }
      exact hfile.write isBody_writeIflush
    · simp at hentry
  | thread _ | pid _ | timestamp _ => simp at hentry

/-- A thread that holds back nothing but entries of a buffer. -/
structure Thread.Clean (t : Thread) : Prop where
  delayedBranch : ∀ e ∈ t.delayedBranch, IsBody t.tid e
  typed : t.file.Typed

/-- What an entry of such a thread leads to. -/
structure Thread.Turn.Clean (b : Binary) (t : Thread) (u : Thread.Turn) : Prop where
  sound : u.shared.Sound b
  thread : u.thread.Clean
  out : ∀ e ∈ u.out, IsBody t.tid e
  tid : u.thread.tid = t.tid
  pid : u.thread.pid = t.pid
  wrotePid : u.thread.wrotePid = t.wrotePid

variable {t : Thread} {shared : Shared} {u : Thread.Turn}

theorem Thread.Clean.convertEntry (hb : b.WellTyped) (h : t.Clean) (hsound : shared.Sound b)
    {e : OfflineEntry} {file : ThreadFile} (hfile : file.Typed)
    (hu : t.convertEntry b shared e file = .ok u) : u.Clean b t := by
  obtain ⟨r, hentry, hu⟩ := bind_eq_ok_iff.mp hu
  obtain rfl := Except.ok.inj hu
  have hconv : (t.conv shared e file).Clean b t.tid := by
    unfold Thread.conv
    split
    · exact ⟨by simp, h.delayedBranch, hsound, hfile⟩
    · exact ⟨h.delayedBranch, by simp, hsound, hfile⟩
  have hr := hconv.processOfflineEntry hb hentry
  exact ⟨hr.sound, ⟨hr.delayedBranch, hr.typed⟩, hr.out, rfl, rfl, rfl⟩

/-- One entry of a thread. -/
theorem Thread.Clean.readEntry (hb : b.WellTyped) (h : t.Clean) (hsound : shared.Sound b)
    (hu : t.readEntry b shared = .ok u) : u.Clean b t := by
  unfold Thread.readEntry at hu
  split at hu
  next file hread => exact h.convertEntry hb hsound (h.typed.follows (.of_read hread)) hu
  next usec file hread =>
    obtain rfl := Except.ok.inj hu
    exact ⟨hsound, ⟨h.delayedBranch, h.typed.follows (.of_read hread)⟩, by simp, rfl, rfl, rfl⟩
  next e file _ hread => exact h.convertEntry hb hsound (h.typed.follows (.of_read hread)) hu

/-- A scan changes the time and the file only. -/
theorem Thread.Clean.scan {t' : Thread} (h : t.Clean) (hscan : t.scan = .ok t') :
    t'.Clean ∧ t'.tid = t.tid ∧ t'.pid = t.pid ∧ t'.wrotePid = t.wrotePid := by
  have htyped := h.typed.follows (Thread.follows_scan hscan)
  unfold Thread.scan at hscan
  split at hscan
  · split at hscan
    · simp at hscan
    · obtain rfl := Except.ok.inj hscan
      exact ⟨⟨h.delayedBranch, htyped⟩, rfl, rfl, rfl⟩
    · simp at hscan
  · obtain rfl := Except.ok.inj hscan
    exact ⟨h, rfl, rfl, rfl⟩

/-! ### The reader in a buffer -/

/-- The ids of a thread and its process, as the reader keeps them. -/
def HasIds (ids : BitVec 32 × BitVec 32) (ref : Memref) : Prop :=
  ref.tid = ids.1.toInt ∧ ref.pid = ids.2.toInt

/-- The reader in a buffer of a thread. -/
structure Within (ids : BitVec 32 × BitVec 32) (ρ : ReaderState) : Prop where
  curTid : ρ.curTid = ids.1.toInt
  curPid : ρ.curPid = ids.2.toInt
  curRef : HasIds ids ρ.curRef
  known : ρ.tid2pid ids.1.toInt = ids.2.toInt

variable {checks : Bool} {ids : BitVec 32 × BitVec 32} {ρ : ReaderState} {e : RawEntry}

/-- The ids that the reader does not take to be unset. -/
def IdsSet (ids : BitVec 32 × BitVec 32) : Prop := ids.1 ≠ 0 ∧ ids.2 ≠ 0

theorem requireThread_eq_ok (hids : IdsSet ids) (htid : ρ.curTid = ids.1.toInt)
    (hpid : ρ.curPid = ids.2.toInt) (next : ReaderState × List Memref) :
    ρ.requireThread checks next = .ok next := by
  have htid : ρ.curTid ≠ 0 := by
    rw [htid, ← BitVec.toInt_zero, ne_eq, BitVec.toInt_inj]
    exact hids.1
  have hpid : ρ.curPid ≠ 0 := by
    rw [hpid, ← BitVec.toInt_zero, ne_eq, BitVec.toInt_inj]
    exact hids.2
  simp [ReaderState.requireThread, htid, hpid]

/-- The reader takes an entry, stays in the buffer, and what it passes on has the buffer's ids. -/
def Stays (ids : BitVec 32 × BitVec 32) (ρ : ReaderState)
    (r : Except Ending (ReaderState × List Memref)) : Prop :=
  ∃ ρ' refs, r = .ok (ρ', refs) ∧ Within ids ρ' ∧ ρ'.tid2pid = ρ.tid2pid ∧
    ∀ ref ∈ refs, HasIds ids ref

/-- An entry that makes a reference, which is passed on or not. -/
theorem Within.stays_ref (h : Within ids ρ) (hids : IdsSet ids) {ref : Memref}
    (href : HasIds ids ref) {refs : List Memref} (hrefs : ∀ r ∈ refs, r = ref) :
    Stays ids ρ (ρ.requireThread checks ({ ρ with curRef := ref }, refs)) := by
  refine ⟨_, _, requireThread_eq_ok hids h.curTid h.curPid _, { h with curRef := href }, rfl, ?_⟩
  intro r hr
  rw [hrefs r hr]
  exact href

theorem Within.stays_fetch (h : Within ids ρ) (hids : IdsSet ids) (type : TraceType) :
    Stays ids ρ (ρ.fetch checks e type) := by
  have hrefOf : HasIds ids (ρ.refOf e type) := ⟨h.curTid, h.curPid⟩
  unfold ReaderState.fetch
  split
  · exact ⟨ρ, [], requireThread_eq_ok hids h.curTid h.curPid _, h, rfl, by simp⟩
  · exact ⟨_, _, requireThread_eq_ok hids h.curTid h.curPid _, { h with curRef := hrefOf }, rfl,
      List.forall_mem_singleton.mpr hrefOf⟩

theorem toInt_signExtend (x : BitVec 32) : (x.signExtend 64).toInt = x.toInt :=
  BitVec.toInt_signExtend_of_le (by decide)

theorem Within.stays_threadExit (h : Within ids ρ) (hids : IdsSet ids) :
    Stays ids ρ (ρ.handle checks (writeThreadExit ids.1)) := by
  have htid := toInt_signExtend ids.1
  have hpid : ρ.tid2pid (ids.1.signExtend 64).toInt = ids.2.toInt := by rw [htid, h.known]
  exact ⟨_, _, requireThread_eq_ok hids htid hpid _, ⟨htid, hpid, ⟨htid, hpid⟩, h.known⟩, rfl,
    List.forall_mem_singleton.mpr ⟨htid, hpid⟩⟩

/-- One entry of a buffer. -/
theorem Within.stays_handle (h : Within ids ρ) (hids : IdsSet ids) (he : IsBody ids.1 e) :
    Stays ids ρ (ρ.handle checks e) := by
  rcases he with he | rfl
  · have hrefOf : ∀ type, HasIds ids (ρ.refOf e type) := fun type => ⟨h.curTid, h.curPid⟩
    unfold isBodyNumber at he
    unfold ReaderState.handle
    cases htype : traceTypes[e.type.toNat]? with
    | none => simp [htype] at he
    | some type =>
      have hbody : isBodyType type = true := by simpa [htype] using he
      dsimp only
      split
      · exact h.stays_ref hids (hrefOf type) (by simp)
      next hdata =>
        cases type with
        | instr | instrDirectJump | instrIndirectJump | instrConditionalJump | instrDirectCall
        | instrIndirectCall | instrReturn | instrSysenter | instrNoFetch =>
          exact h.stays_fetch hids _
        | instrFlush | dataFlush =>
          apply h.stays_ref hids (hrefOf _)
          split <;> simp
        | instrFlushEnd =>
          have href : HasIds ids { ρ.curRef with size := e.addr - ρ.curRef.addr } := h.curRef
          exact ⟨_, _, rfl, { h with curRef := href }, rfl, List.forall_mem_singleton.mpr href⟩
        | marker => exact h.stays_ref hids ⟨h.curTid, h.curPid⟩ (by simp)
        | _ => simp [isBodyType, isFetchType, hdata] at hbody
  · exact h.stays_threadExit hids

/-! ### The reader and the loop -/

/-- The reader takes some entries with the indices of their files, and what it passes on for an
entry has the ids of the entry's file. -/
inductive Reads (checks : Bool) (ids : ℕ → BitVec 32 × BitVec 32) :
    ReaderState → List (ℕ × RawEntry) → List (List Memref) → ReaderState → Prop
  | nil (ρ : ReaderState) : Reads checks ids ρ [] [] ρ
  | cons {ρ ρ₁ ρ' : ReaderState} {i : ℕ} {e : RawEntry} {refs : List Memref}
      {es : List (ℕ × RawEntry)} {chunks : List (List Memref)} :
      ρ.handle checks e = .ok (ρ₁, refs) → (∀ ref ∈ refs, HasIds (ids i) ref) →
      Reads checks ids ρ₁ es chunks ρ' → Reads checks ids ρ ((i, e) :: es) (refs :: chunks) ρ'

section Reads

variable {ids : ℕ → BitVec 32 × BitVec 32} {ρ ρ₁ ρ' : ReaderState}
  {es es' : List (ℕ × RawEntry)} {chunks chunks' : List (List Memref)}

theorem Reads.append (h : Reads checks ids ρ es chunks ρ₁)
    (h' : Reads checks ids ρ₁ es' chunks' ρ') :
    Reads checks ids ρ (es ++ es') (chunks ++ chunks') ρ' := by
  induction h with
  | nil ρ => exact h'
  | cons hhandle hrefs _ ih => exact .cons hhandle hrefs (ih h')

theorem Reads.forall₂ (h : Reads checks ids ρ es chunks ρ') :
    List.Forall₂ (fun p refs => ∀ ref ∈ refs, HasIds (ids p.1) ref) es chunks := by
  induction h with
  | nil ρ => exact .nil
  | cons _ hrefs _ ih => exact .cons hrefs ih

/-- The whole trace, to its footer. -/
theorem Reads.readAll_eq (h : Reads checks ids ρ es chunks ρ') :
    ReaderState.readAll checks ρ (es.map Prod.snd ++ [entryOf .footer 0 0]) =
      (chunks.flatten, .eof) := by
  induction h with
  | nil ρ => rfl
  | cons hhandle _ _ ih =>
    simp only [List.map_cons, List.cons_append, ReaderState.readAll, hhandle, ih, List.flatten_cons]

/-- The entries of a buffer. -/
theorem Within.reads (checks : Bool) {i : ℕ} (h : Within (ids i) ρ) (hids : IdsSet (ids i))
    {es : List RawEntry} (hes : ∀ e ∈ es, IsBody (ids i).1 e) :
    ∃ chunks ρ', Reads checks ids ρ (es.map (i, ·)) chunks ρ' ∧ Within (ids i) ρ' ∧
      ρ'.tid2pid = ρ.tid2pid := by
  induction es generalizing ρ with
  | nil => exact ⟨[], ρ, .nil ρ, h, rfl⟩
  | cons e es ih =>
    rw [List.forall_mem_cons] at hes
    have hstays : Stays (ids i) ρ (ρ.handle checks e) := h.stays_handle hids hes.1
    obtain ⟨ρ₁, refs, hhandle, hwithin, hknown, hrefs⟩ := hstays
    obtain ⟨chunks, ρ', hreads, hwithin', hknown'⟩ := ih hwithin hes.2
    exact ⟨refs :: chunks, ρ', .cons hhandle hrefs hreads, hwithin', hknown'.trans hknown⟩

/-- The time of a buffer, after its ids. -/
theorem stays_writeTimestamp {ids : BitVec 32 × BitVec 32} (hids : IdsSet ids)
    (htid : ρ.curTid = ids.1.toInt) (hpid : ρ.curPid = ids.2.toInt)
    (hknown : ρ.tid2pid ids.1.toInt = ids.2.toInt) (time : ℕ) :
    Stays ids ρ (ρ.handle checks (writeTimestamp time)) :=
  ⟨_, _, requireThread_eq_ok hids htid hpid _, ⟨htid, hpid, ⟨htid, hpid⟩, hknown⟩, rfl,
    List.forall_mem_singleton.mpr ⟨htid, hpid⟩⟩

theorem handle_writeTid (checks : Bool) (ρ : ReaderState) (tid : BitVec 32) :
    ∃ ρ', ρ.handle checks (writeTid tid) = .ok (ρ', []) ∧ ρ'.curTid = tid.toInt ∧
      ρ'.curPid = ρ.tid2pid tid.toInt ∧ ρ'.tid2pid = ρ.tid2pid := by
  have htid := toInt_signExtend tid
  exact ⟨_, rfl, htid, congrArg ρ.tid2pid htid, rfl⟩

theorem handle_writePid (checks : Bool) (ρ : ReaderState) (pid : BitVec 32) :
    ∃ ρ', ρ.handle checks (writePid pid) = .ok (ρ', []) ∧ ρ'.curTid = ρ.curTid ∧
      ρ'.curPid = pid.toInt ∧ ρ'.tid2pid = Function.update ρ.tid2pid ρ.curTid pid.toInt := by
  have hpid := toInt_signExtend pid
  exact ⟨_, rfl, rfl, hpid, congrArg (Function.update ρ.tid2pid ρ.curTid) hpid⟩

/-- The start of a buffer. A process that was written before is known. -/
theorem reads_bufferHeader (checks : Bool) {i : ℕ} (hids : IdsSet (ids i))
    (ht : ids i = (t.tid, t.pid))
    (hknown : t.wrotePid = true → ρ.tid2pid t.tid.toInt = t.pid.toInt) :
    ∃ chunks ρ', Reads checks ids ρ (t.bufferHeader.map (i, ·)) chunks ρ' ∧ Within (ids i) ρ' ∧
      ρ'.tid2pid = Function.update ρ.tid2pid t.tid.toInt t.pid.toInt := by
  obtain ⟨ρ₁, hhandle₁, htid₁, hpid₁, hknown₁⟩ := handle_writeTid checks ρ t.tid
  -- the state before the timestamp, and the entries up to there
  obtain ⟨ρ₂, chunks, hreads, htid₂, hpid₂, hknown₂⟩ : ∃ ρ₂ chunks,
      Reads checks ids ρ₁ ((if t.wrotePid then [] else [writePid t.pid]).map (i, ·)) chunks ρ₂ ∧
        ρ₂.curTid = t.tid.toInt ∧ ρ₂.curPid = t.pid.toInt ∧
        ρ₂.tid2pid = Function.update ρ.tid2pid t.tid.toInt t.pid.toInt := by
    cases hwrote : t.wrotePid with
    | true =>
      have hpid := hknown hwrote
      refine ⟨ρ₁, [], .nil ρ₁, htid₁, hpid₁.trans hpid, ?_⟩
      rw [hknown₁, ← hpid, Function.update_eq_self]
    | false =>
      obtain ⟨ρ₂, hhandle₂, htid₂, hpid₂, hknown₂⟩ := handle_writePid checks ρ₁ t.pid
      refine ⟨ρ₂, _, .cons hhandle₂ (by simp) (.nil ρ₂), htid₂.trans htid₁, hpid₂, ?_⟩
      rw [hknown₂, hknown₁, htid₁]
  have hstays : Stays (ids i) ρ₂ (ρ₂.handle checks (writeTimestamp t.time)) := by
    apply stays_writeTimestamp hids
    · rw [htid₂, ht]
    · rw [hpid₂, ht]
    · rw [hknown₂, ht, Function.update_self]
  obtain ⟨ρ', refs, htime, hwithin, hsame, hrefs⟩ := hstays
  have hlast : Reads checks ids ρ₂ [(i, writeTimestamp t.time)] [refs] ρ' :=
    .cons htime hrefs (.nil ρ')
  refine ⟨[] :: (chunks ++ [refs]), ρ', ?_, hwithin, hsame.trans hknown₂⟩
  simp only [Thread.bufferHeader, List.map_cons, List.map_append]
  exact .cons hhandle₁ (by simp) (hreads.append hlast)

end Reads

/-- The processes of some threads are set, and threads with the same id are of the same
process. -/
structure Consistent (count : ℕ) (ids : ℕ → BitVec 32 × BitVec 32) : Prop where
  pid_ne_zero : ∀ i < count, (ids i).2 ≠ 0
  pid_eq : ∀ i < count, ∀ j < count, (ids i).1 = (ids j).1 → (ids i).2 = (ids j).2

/-- The reader of what the loop has written is in the buffer of the current thread, and knows
the processes that have been written. -/
structure Merge.Attributed (b : Binary) (checks : Bool) (ids : ℕ → BitVec 32 × BitVec 32)
    (ρ₀ : ReaderState) (m : Merge) (chunks : List (List Memref)) (ρ : ReaderState) : Prop where
  sound : m.shared.Sound b
  consistent : Consistent m.threads.length ids
  threads : ∀ i t, m.threads[i]? = some t → t.Clean ∧ ids i = (t.tid, t.pid) ∧
    (t.wrotePid = true → ρ.tid2pid t.tid.toInt = t.pid.toInt)
  reads : Reads checks ids ρ₀ m.out chunks ρ
  within : ∀ i, m.current = some i → Within (ids i) ρ ∧ IdsSet (ids i)

section Attributed

variable {ids : ℕ → BitVec 32 × BitVec 32} {ρ₀ ρ : ReaderState} {m m' : Merge}
  {chunks : List (List Memref)}

theorem Merge.Attributed.advance (hb : b.WellTyped)
    (h : m.Attributed b checks ids ρ₀ chunks ρ) {i : ℕ} (hcurrent : m.current = some i)
    (ht : m.threads[i]? = some t) (hu : t.readEntry b m.shared = .ok u) :
    ∃ chunks' ρ', (m.advance i u).Attributed b checks ids ρ₀ chunks' ρ' := by
  obtain ⟨hclean, htids, hknown⟩ := h.threads i t ht
  obtain ⟨hwithin, hids⟩ := h.within i hcurrent
  have hu := hclean.readEntry hb h.sound hu
  have hout : ∀ e ∈ u.out, IsBody (ids i).1 e := by simpa [htids] using hu.out
  obtain ⟨chunks', ρ', hreads, hwithin', hsame⟩ := hwithin.reads checks hids hout
  refine ⟨chunks ++ chunks', ρ', hu.sound, ?_, ?_, h.reads.append hreads, ?_⟩
  · simpa [Merge.advance] using h.consistent
  · intro j t' ht'
    rw [hsame]
    by_cases hij : i = j
    · subst hij
      have hi := (List.getElem?_eq_some_iff.mp ht).1
      obtain rfl : u.thread = t' := by simpa [Merge.advance, hi] using ht'
      rw [hu.tid, hu.pid, hu.wrotePid]
      exact ⟨hu.thread, htids, hknown⟩
    · simp only [Merge.advance, List.getElem?_set_ne hij] at ht'
      exact h.threads j t' ht'
  · intro j hj
    simp only [Merge.advance] at hj
    split at hj
    · obtain rfl := Option.some.inj hj
      exact ⟨hwithin', hids⟩
    · simp at hj

/-- A scan starts a buffer. -/
theorem Merge.Attributed.opened (h : m.Attributed b checks ids ρ₀ chunks ρ)
    (hcurrent : m.current = none) {i : ℕ} (hselect : m.selectThread = .ok (i, m')) :
    m'.current = some i ∧ ∃ chunks' ρ', m'.Attributed b checks ids ρ₀ chunks' ρ' := by
  obtain ⟨threads, t, hscan, -, ht, hne, rfl⟩ := Merge.selectThread_eq_ok_of_none hcurrent hselect
  have hconsistent : Consistent threads.length ids := hscan.length_eq ▸ h.consistent
  have hthreads : ∀ j t', threads[j]? = some t' → t'.Clean ∧ ids j = (t'.tid, t'.pid) ∧
      (t'.wrotePid = true → ρ.tid2pid t'.tid.toInt = t'.pid.toInt) := by
    intro j t' ht'
    obtain ⟨t₀, ht₀, hscan₀⟩ := Pointwise.exists_of_getElem? hscan.flip ht'
    obtain ⟨hclean, hids, hknown⟩ := h.threads j t₀ ht₀
    obtain ⟨hclean', htid, hpid, hwrote⟩ := hclean.scan hscan₀
    rw [htid, hpid, hwrote]
    exact ⟨hclean', hids, hknown⟩
  have hlt : ∀ {j t'}, threads[j]? = some t' → j < threads.length := fun hj =>
    (List.getElem?_eq_some_iff.mp hj).1
  obtain ⟨hclean, htids, hknown⟩ := hthreads i t ht
  have hids : IdsSet (ids i) := ⟨by rwa [htids], hconsistent.pid_ne_zero i (hlt ht)⟩
  obtain ⟨chunks', ρ', hreads, hwithin, hupdate⟩ := reads_bufferHeader checks hids htids hknown
  refine ⟨rfl, chunks ++ chunks', ρ', h.sound, ?_, ?_, h.reads.append hreads, ?_⟩
  · simpa using hconsistent
  · intro j t' ht'
    rw [hupdate]
    by_cases hij : i = j
    · subst hij
      obtain rfl : t.opened = t' := by simpa [hlt ht] using ht'
      exact ⟨⟨hclean.delayedBranch, hclean.typed⟩, htids, fun _ => Function.update_self ..⟩
    · simp only [List.getElem?_set_ne hij] at ht'
      obtain ⟨hclean', htids', hknown'⟩ := hthreads j t' ht'
      refine ⟨hclean', htids', fun hwrote => ?_⟩
      -- a thread with the same id is of the process that was written
      by_cases htid : t'.tid = t.tid
      · have hpid := hconsistent.pid_eq j (hlt ht') i (hlt ht) (by rw [htids, htids', htid])
        have hpid : t'.pid = t.pid := by simpa [htids, htids'] using hpid
        rw [htid, Function.update_self, hpid]
      · rw [Function.update_of_ne (fun heq => htid (BitVec.eq_of_toInt_eq heq))]
        exact hknown' hwrote
  · intro j hj
    obtain rfl := Option.some.inj hj
    exact ⟨hwithin, hids⟩

/-- **One turn.** The reader takes what a turn of the loop writes. -/
theorem Merge.Attributed.step (hb : b.WellTyped) (h : m.Attributed b checks ids ρ₀ chunks ρ)
    (hstep : m.step b = .ok m') : ∃ chunks' ρ', m'.Attributed b checks ids ρ₀ chunks' ρ' := by
  obtain ⟨i, m₁, t, u, hselect, ht, hu, rfl⟩ := Merge.step_eq_ok_iff.mp hstep
  cases hcurrent : m.current with
  | none =>
    obtain ⟨hcurrent₁, chunks₁, ρ₁, h₁⟩ := h.opened hcurrent hselect
    exact h₁.advance hb hcurrent₁ ht hu
  | some j =>
    obtain ⟨rfl, rfl⟩ : j = i ∧ m = m₁ := by simpa [Merge.selectThread, hcurrent] using hselect
    exact h.advance hb hcurrent ht hu

theorem Merge.Attributed.ends (hb : b.WellTyped) (h : m.Attributed b checks ids ρ₀ chunks ρ)
    (hends : Ends (Merge.step b) Merge.finished m m') :
    ∃ chunks' ρ', m'.Attributed b checks ids ρ₀ chunks' ρ' := by
  obtain ⟨m₁, ⟨chunks₁, ρ₁, h₁⟩, hstep, -⟩ := hends.induction
    (I := fun m => ∃ chunks ρ, m.Attributed b checks ids ρ₀ chunks ρ) ⟨chunks, ρ, h⟩ (by
      rintro m m' ⟨chunks, ρ, h⟩ hstep -
      exact h.step hb hstep)
  exact h₁.step hb hstep

end Attributed

/-! ### Files -/

/-- A record of the simulator's layout, with a field that the conversion does not set. -/
def rawRecord (e : RawEntry) (physAddr : BitVec 64) : List Bytes.Byte :=
  Bytes.toLe 2 e.type.toNat ++ Bytes.toLe 2 e.size.toNat ++ Bytes.toLe 8 e.addr.toNat ++
    Bytes.toLe 8 physAddr.toNat

/-- The file of some records. -/
def rawFile (physAddr : ℕ → BitVec 64) (es : List RawEntry) : List Bytes.Byte :=
  (es.zipIdx.map fun p => rawRecord p.1 (physAddr p.2)).flatten

theorem decodeEntry_rawRecord (e : RawEntry) (physAddr : BitVec 64) :
    decodeEntry (rawRecord e physAddr) = e := by
  have htype : e.type.toNat < 256 ^ 2 := e.type.isLt
  have hsize : e.size.toNat < 256 ^ 2 := e.size.isLt
  have haddr : e.addr.toNat < 256 ^ 8 := e.addr.isLt
  ext1
  · simp [decodeEntry, rawRecord, Bytes.fromLe_toLe htype]
  · simp [decodeEntry, rawRecord, Bytes.fromLe_toLe hsize]
  · have hfield : ((rawRecord e physAddr).drop 4).take 8 = Bytes.toLe 8 e.addr.toNat := by
      simp [rawRecord, List.drop_append, List.take_append]
    simp [decodeEntry, hfield, Bytes.fromLe_toLe haddr]

theorem decodeEntry_rawFile (physAddr : ℕ → BitVec 64) (es : List RawEntry) :
    (Bytes.records entrySize (rawFile physAddr es)).map decodeEntry = es := by
  have hlen : ∀ r ∈ es.zipIdx.map fun p => rawRecord p.1 (physAddr p.2), r.length = entrySize := by
    intro r hr
    obtain ⟨p, -, rfl⟩ := List.mem_map.mp hr
    simp [rawRecord, entrySize]
  rw [rawFile, Bytes.records_flatten (by decide) hlen, List.map_map]
  have hdecode : (decodeEntry ∘ fun p : RawEntry × ℕ => rawRecord p.1 (physAddr p.2)) =
      Prod.fst := by
    funext p
    exact decodeEntry_rawRecord p.1 _
  rw [hdecode, List.zipIdx_map_fst]

theorem clean_openThreadFile {words : List (BitVec 64)} (h : openThreadFile words = .ok t)
    (hinfo : ∀ w ∈ words, infoTyped (.ofWord w) = true) : t.Clean ∧ t.wrotePid = false := by
  obtain ⟨es, hcheck, hheader⟩ := bind_eq_ok_iff.mp h
  obtain ⟨valueB, hes⟩ := checkThreadFile_eq_ok hcheck
  obtain ⟨tid, pid, rest, hrest, heq⟩ := readHeader_eq_ok hheader
  have hmem : ∀ e ∈ rest, e ∈ words.map OfflineEntry.ofWord := by
    intro e he
    rw [hes]
    rcases hrest with ⟨-, rfl⟩ | ⟨usec, -, rfl⟩ <;> simp [he]
  rw [heq]
  refine ⟨⟨by simp, rest, gives_ofRest rest, ?_⟩, rfl⟩
  intro e he
  obtain ⟨w, hw, rfl⟩ := List.mem_map.mp (hmem e he)
  exact hinfo w hw

/-- **Reading a converted trace.** The reader accepts the file of a conversion that succeeds
and reads it to its end, and the references that it passes on for an entry have the thread and
the process of the raw file for which the entry was written. -/
theorem readFile_doConversion (hb : b.WellTyped) {files : List (List (BitVec 64))}
    (hinfo : ∀ words ∈ files, ∀ w ∈ words, infoTyped (.ofWord w) = true) {threads : List Thread}
    (hopen : files.mapM openThreadFile = .ok threads) (hpid : ∀ t ∈ threads, t.pid ≠ 0)
    (hsame : ∀ t ∈ threads, ∀ t' ∈ threads, t.tid = t'.tid → t.pid = t'.pid)
    {es : List RawEntry} (h : doConversion b files = .ok es) (checks : Bool) (unset : ReaderState)
    (physAddr : ℕ → BitVec 64) :
    ∃ out chunks, convertFiles b files = .ok out ∧
      readFile checks unset (rawFile physAddr es) = some (chunks.flatten, .eof) ∧
      List.Forall₂ (fun p refs => ∀ ref ∈ refs, HasIds (idsOf threads p.1) ref) out chunks := by
  obtain ⟨out, hout, h⟩ := bind_eq_ok_iff.mp h
  obtain rfl := Except.ok.inj h
  obtain ⟨threads', m, hopen', -, hends, rfl⟩ := convertFiles_eq_ok_iff.mp hout
  obtain rfl : threads = threads' := Except.ok.inj (hopen.symm.trans hopen')
  have hidsOf : ∀ i t, threads[i]? = some t → idsOf threads i = (t.tid, t.pid) := by
    intro i t ht
    simp [idsOf, ht]
  let ρ₀ : ReaderState := { curRef := unset.curRef, nextPc := unset.nextPc }
  have hinit : (initMerge threads).Attributed b checks (idsOf threads) ρ₀ [] ρ₀ := by
    refine ⟨by simp [initMerge, Shared.Sound], ⟨?_, ?_⟩, ?_, .nil _, by simp [initMerge]⟩
    · intro i hi
      rw [hidsOf i _ (List.getElem?_eq_getElem hi)]
      exact hpid _ (List.getElem_mem hi)
    · intro i hi j hj
      rw [hidsOf i _ (List.getElem?_eq_getElem hi), hidsOf j _ (List.getElem?_eq_getElem hj)]
      exact hsame _ (List.getElem_mem hi) _ (List.getElem_mem hj)
    · intro i t ht
      have ht : threads[i]? = some t := ht
      obtain ⟨words, hwords, hopen⟩ := exists_mem_of_mapM hopen (List.mem_of_getElem? ht)
      obtain ⟨hclean, hwrote⟩ := clean_openThreadFile hopen (hinfo words hwords)
      exact ⟨hclean, hidsOf i t ht, by simp [hwrote]⟩
  obtain ⟨chunks, ρ, hm⟩ := hinit.ends hb hends
  refine ⟨m.out, chunks, hout, ?_, hm.reads.forall₂⟩
  rw [readFile, decodeEntry_rawFile, wholeRawTrace, ← hm.reads.readAll_eq]
  exact if_pos (And.intro rfl rfl)

theorem wellTyped_loadJump : loadJump.WellTyped := by
  constructor
  · intro pc instr h
    simp only [loadJump] at h
    split_ifs at h <;> obtain rfl := Option.some.inj h <;> exact .inl rfl
  · intro pc instr h hprefetch
    simp only [loadJump] at h
    split_ifs at h <;> obtain rfl := Option.some.inj h <;> simp [jumpInstr, loadInstr] at hprefetch

/-- Two threads of one process. -/
theorem readFile_twoThreads :
    ∃ threads es out chunks, twoThreads.mapM openThreadFile = .ok threads ∧
      doConversion loadJump twoThreads = .ok es ∧ convertFiles loadJump twoThreads = .ok out ∧
      readFile true { curRef := default, nextPc := 0 } (rawFile (fun _ => 0) es) =
        some (chunks.flatten, .eof) ∧
      List.Forall₂ (fun p refs => ∀ ref ∈ refs, HasIds (idsOf threads p.1) ref) out chunks := by
  have hall : (twoThreads.all fun words => words.all fun w => infoTyped (.ofWord w)) = true := by
    decide +kernel
  have hinfo : ∀ words ∈ twoThreads, ∀ w ∈ words, infoTyped (.ofWord w) = true := by
    simpa only [List.all_eq_true] using hall
  obtain ⟨threads, hopen, hpid, hsame⟩ : ∃ threads, twoThreads.mapM openThreadFile = .ok threads ∧
      (∀ t ∈ threads, t.pid ≠ 0) ∧
      ∀ t ∈ threads, ∀ t' ∈ threads, t.tid = t'.tid → t.pid = t'.pid := by
    refine ⟨_, rfl, ?_, ?_⟩ <;> decide +kernel
  have hok : (doConversion loadJump twoThreads).isOk = true := by decide +kernel
  cases hes : doConversion loadJump twoThreads with
  | error e => simp [hes, Except.isOk, Except.toBool] at hok
  | ok es =>
    obtain ⟨out, chunks, h⟩ := readFile_doConversion wellTyped_loadJump hinfo hopen hpid hsame hes
      true { curRef := default, nextPc := 0 } fun _ => 0
    exact ⟨threads, es, out, chunks, hopen, rfl, h⟩

end SagePTE.Tracer
