import Mathlib.Logic.Function.Basic
import SagePTE.Lib.Scan
import SagePTE.Lib.Steps

/-!
# The enabler file

The script that runs the tracer tells the traced processes through a small file when to
start recording. It writes `0` before it launches them and `1` when the workload is ready.
Each process looks at the file from time to time. Once it reads a number other than zero it
writes its own process id over it and enables tracing. The script meanwhile reads the file
until it finds something other than `0` and `1`, and takes that for the id.

Opening a file for writing empties it, and the text comes with a later call. The script takes
no lock, so it may find the file empty, and another process may have written over an
acknowledgement. The processes look at the file one at a time, under a lock. A write puts its
whole text in place, and a read sees the file as it is at one moment.

## Main definitions

* `EnablerState` — the file, the script and the processes
* `EnablerState.scriptStep`, `EnablerState.clientStep` — the next step of each of them

## Main results

* `EnablerState.Handshake` — what holds at all times
* `EnablerState.handshake` — no process records too early, and the script takes the id of
  a process that has seen the signal
-/

set_option autoImplicit false

namespace SagePTE.Tracer

open Numerals Scan

/-- How far `run.sh` has come. -/
inductive Stage
  | starting
  /-- `echo 0` has emptied the file. -/
  | clearing
  /-- `echo 0` has written. -/
  | prepared
  /-- The traced processes have been started. -/
  | launched
  /-- `echo 1` has emptied the file. -/
  | enabling
  /-- `echo 1` has written, and the acknowledgement is awaited. -/
  | waiting
  /-- There has been one. -/
  | acknowledged
  deriving DecidableEq, Repr

/-- The traced processes are there. -/
def Stage.hasLaunched : Stage → Bool
  | .starting | .clearing | .prepared => false
  | _ => true

/-- `run.sh` has written `1`. -/
def Stage.hasEnabled : Stage → Bool
  | .waiting | .acknowledged => true
  | _ => false

/-- What the script has left in the file, as long as nobody else writes. -/
def Stage.text : Stage → Option (List Char)
  | .clearing | .enabling => some []
  | .prepared | .launched => some ['0', '\n']
  | _ => none

/-- Where a process is in `check_instr_count_threshold`. -/
inductive ClientPhase
  | outside
  /-- It has the lock. -/
  | locked
  /-- It has read a status and calls `hit_instr_count_threshold`. -/
  | acknowledging
  /-- `fopen` has emptied the file. -/
  | emptied
  /-- `fclose` has written the process id. -/
  | written
  | leaving
  deriving DecidableEq, Repr

/-- The process has decided to acknowledge. -/
def ClientPhase.acknowledges : ClientPhase → Bool
  | .acknowledging | .emptied | .written => true
  | _ => false

/-- A traced process. `sawStatus` is set once it has read a status other than zero. -/
structure Client where
  phase : ClientPhase := .outside
  tracingEnabled : Bool := false
  sawStatus : Bool := false
  deriving DecidableEq, Repr

/-- The process has not seen a signal. -/
def Client.Waits (x : Client) : Prop :=
  x.sawStatus = false ∧ x.tracingEnabled = false ∧ x.phase.acknowledges = false

/-- The file, the script, and the traced processes. -/
structure EnablerState (C : Type) where
  file : List Char
  stage : Stage := .starting
  /-- `APP_PID`, once the script has one. -/
  appPid : Option (List Char) := none
  /-- The process that has the lock. -/
  holder : Option C := none
  client : C → Client := fun _ => {}

/-- A write at the start of a file. -/
def overwrite (text file : List Char) : List Char := text ++ file.drop text.length

/-- The status that a process reads; it stays zero if there is no number. -/
def enablerFileStatus (file : List Char) : ℤ := (libcInt file).1.getD 0

/-- What the script reads, with the spaces deleted. -/
def enablerValue (file : List Char) : List Char := file.filter fun c => !isSpace c

namespace EnablerState

variable {C : Type}

/-- The next step of the script. -/
def scriptStep (s : EnablerState C) : EnablerState C :=
  match s.stage with
  | .starting => { s with file := [], stage := .clearing }
  | .clearing => { s with file := overwrite ['0', '\n'] s.file, stage := .prepared }
  | .prepared => { s with stage := .launched }
  | .launched => { s with file := [], stage := .enabling }
  | .enabling => { s with file := overwrite ['1', '\n'] s.file, stage := .waiting }
  | .waiting =>
    let value := enablerValue s.file
    if value = [] ∨ value = ['0'] ∨ value = ['1'] then s
    else { s with appPid := some value, stage := .acknowledged }
  | .acknowledged => s

variable [DecidableEq C] (pid : C → ℕ)

/-- Change one process. -/
def setClient (s : EnablerState C) (c : C) (f : Client → Client) : EnablerState C :=
  { s with client := Function.update s.client c (f (s.client c)) }

/-- The next step of a process. The lock is taken to exclude all others. -/
def clientStep (s : EnablerState C) (c : C) : EnablerState C :=
  match (s.client c).phase with
  | .outside =>
    if s.stage.hasLaunched ∧ s.holder = none then
      { s with holder := some c }.setClient c fun x => { x with phase := .locked }
    else s
  | .locked =>
    if enablerFileStatus s.file = 0 then s.setClient c fun x => { x with phase := .leaving }
    else s.setClient c fun x =>
      { x with
        sawStatus := true
        phase := if x.tracingEnabled then .leaving else .acknowledging }
  | .acknowledging => { s with file := [] }.setClient c fun x => { x with phase := .emptied }
  | .emptied =>
    { s with file := overwrite (Nat.toDigits 10 (pid c)) s.file }.setClient c fun x =>
      { x with phase := .written }
  | .written => s.setClient c fun x => { x with tracingEnabled := true, phase := .leaving }
  | .leaving => { s with holder := none }.setClient c fun x => { x with phase := .outside }

/-- A step of the script, or of a process. -/
def step (s : EnablerState C) : Option C → EnablerState C
  | none => s.scriptStep
  | some c => s.clientStep pid c

/-- The state after an interleaving. The file may hold anything at first. -/
def run (file : List Char) (schedule : List (Option C)) : EnablerState C :=
  Steps.runFrom (fun s a => (true, s.step pid a)) { file } schedule

/-! ### What holds at all times -/

/-- The text is the id of a process that has read a status. -/
def Acknowledges (s : EnablerState C) (text : List Char) : Prop :=
  ∃ c, text = Nat.toDigits 10 (pid c) ∧ (s.client c).sawStatus = true

/-- Up to the signal the file holds what the script has put there, and no process has seen
anything. Afterwards it holds the signal or an acknowledgement, unless it has just been
emptied. Only the process with the lock is at work. -/
structure Handshake (s : EnablerState C) : Prop where
  text : ∀ text ∈ s.stage.text, s.file = text
  notLaunched : s.stage.hasLaunched = false → s.holder = none
  waits : s.stage.hasEnabled = false → ∀ c, (s.client c).Waits
  holder : ∀ c, (s.client c).phase ≠ .outside → s.holder = some c
  acknowledges : ∀ c, (s.client c).phase.acknowledges = true → (s.client c).sawStatus = true
  emptied : ∀ c, (s.client c).phase = .emptied → s.file = []
  value : s.stage.hasEnabled = true →
    s.file = [] ∨ s.file = ['1', '\n'] ∨ s.Acknowledges pid s.file
  adopted : ∀ value ∈ s.appPid, s.Acknowledges pid value

variable {pid}

omit [DecidableEq C] in
theorem handshake_initial (file : List Char) : ({ file } : EnablerState C).Handshake pid where
  text _ h := by cases h
  notLaunched _ := rfl
  waits _ _ := ⟨rfl, rfl, rfl⟩
  holder _ h := absurd rfl h
  acknowledges _ h := by cases h
  emptied _ h := by cases h
  value h := by cases h
  adopted _ h := by cases h

omit [DecidableEq C] in
/-- What the script takes for an id, other than its own texts. -/
theorem Acknowledges.enablerValue {s : EnablerState C} {text : List Char}
    (h : s.Acknowledges pid text) : enablerValue text = text := by
  obtain ⟨c, rfl, -⟩ := h
  refine List.filter_eq_self.mpr fun a ha => ?_
  have hdigit := (isNumeral_decimal (pid c)).digits a ha
  rw [(not_space_of_isDigit hdigit).2.1]
  rfl

omit [DecidableEq C] in
/-- A step of the script before the signal has been given, while no process writes. -/
theorem Handshake.prepare {s t : EnablerState C} (h : s.Handshake pid)
    (hstage : s.stage.hasEnabled = false) (hclient : t.client = s.client)
    (hholder : t.holder = s.holder) (happ : t.appPid = s.appPid)
    (hlaunched : t.stage.hasLaunched = false → s.stage.hasLaunched = false)
    (htext : ∀ text ∈ t.stage.text, t.file = text)
    (hvalue : t.stage.hasEnabled = true → t.file = ['1', '\n']) : t.Handshake pid where
  text := htext
  notLaunched hnot := by rw [hholder, h.notLaunched (hlaunched hnot)]
  waits _ c := by
    rw [hclient]
    exact h.waits hstage c
  holder c hc := by
    rw [hclient] at hc
    rw [hholder, h.holder c hc]
  acknowledges c hc := by
    rw [hclient] at hc ⊢
    exact h.acknowledges c hc
  emptied c hc := by
    -- a process that waits has not emptied the file
    have hwaits := (h.waits hstage c).2.2
    rw [← hclient, hc] at hwaits
    cases hwaits
  value hon := .inr (.inl (hvalue hon))
  adopted value hv := by
    rw [happ] at hv
    obtain ⟨c, heq, hsaw⟩ := h.adopted value hv
    exact ⟨c, heq, by rw [hclient, hsaw]⟩

omit [DecidableEq C] in
theorem Handshake.scriptStep {s : EnablerState C} (h : s.Handshake pid) :
    s.scriptStep.Handshake pid := by
  unfold EnablerState.scriptStep
  cases hstage : s.stage with
  | starting =>
    refine h.prepare (by rw [hstage]; rfl) rfl rfl rfl (fun _ => by rw [hstage]; rfl) ?_
      fun hon => by cases hon
    intro text htext
    cases htext
    rfl
  | clearing =>
    have hfile := h.text [] (by rw [hstage]; rfl)
    refine h.prepare (by rw [hstage]; rfl) rfl rfl rfl (fun _ => by rw [hstage]; rfl) ?_
      fun hon => by cases hon
    intro text htext
    cases htext
    simp [hfile, overwrite]
  | prepared =>
    have hfile := h.text ['0', '\n'] (by rw [hstage]; rfl)
    refine h.prepare (by rw [hstage]; rfl) rfl rfl rfl (fun hnot => by cases hnot) ?_
      fun hon => by cases hon
    intro text htext
    cases htext
    exact hfile
  | launched =>
    refine h.prepare (by rw [hstage]; rfl) rfl rfl rfl (fun hnot => by cases hnot) ?_
      fun hon => by cases hon
    intro text htext
    cases htext
    rfl
  | enabling =>
    have hfile := h.text [] (by rw [hstage]; rfl)
    refine h.prepare (by rw [hstage]; rfl) rfl rfl rfl (fun hnot => by cases hnot)
      (fun text htext => by cases htext) fun _ => ?_
    simp [hfile, overwrite]
  | waiting =>
    dsimp only
    split_ifs with hvalue
    · exact h
    · -- neither nothing nor the signal, so an acknowledgement
      have hack : s.Acknowledges pid s.file := by
        rcases h.value (by rw [hstage]; rfl) with hfile | hfile | hack
        · simp [hfile, enablerValue] at hvalue
        · exact absurd (by rw [hfile]; decide) hvalue
        · exact hack
      obtain ⟨htext, hlaunched, hwaits, hholder, hsaw, hemptied, hfile, -⟩ := h
      rw [hstage] at hfile
      refine ⟨by simp [Stage.text], by simp [Stage.hasLaunched], by simp [Stage.hasEnabled],
        hholder, hsaw, hemptied, fun _ => hfile rfl, ?_⟩
      intro value hv
      obtain rfl := Option.some.inj hv
      rw [hack.enablerValue]
      exact hack
  | acknowledged => exact h

theorem setClient_client (s : EnablerState C) (c d : C) (f : Client → Client) :
    (s.setClient c f).client d = if d = c then f (s.client c) else s.client d := by
  simp only [setClient, Function.update_apply]

/-- What a process has seen it has seen for good. -/
theorem Acknowledges.setClient {s : EnablerState C} {text : List Char}
    (h : s.Acknowledges pid text) {t : EnablerState C} (ht : t.client = s.client) (c : C)
    {f : Client → Client}
    (hsaw : (s.client c).sawStatus = true → (f (s.client c)).sawStatus = true) :
    (t.setClient c f).Acknowledges pid text := by
  obtain ⟨d, heq, hd⟩ := h
  refine ⟨d, heq, ?_⟩
  rw [setClient_client, ht]
  split_ifs with hdc
  · exact hsaw (hdc ▸ hd)
  · exact hd

/-- A step of a process, while no other one has the lock. -/
theorem Handshake.setClient {s t : EnablerState C} (h : s.Handshake pid) {c : C}
    {f : Client → Client} (hlock : s.holder = some c ∨ s.holder = none)
    (hclient : t.client = s.client) (hstage : t.stage = s.stage) (happ : t.appPid = s.appPid)
    (hlaunched : s.stage.hasLaunched = false → t.holder = none)
    (hsaw : (s.client c).sawStatus = true → (f (s.client c)).sawStatus = true)
    (hwaits : s.stage.hasEnabled = false → t.file = s.file ∧ (f (s.client c)).Waits)
    (hholder : (f (s.client c)).phase ≠ .outside → t.holder = some c)
    (hack : (f (s.client c)).phase.acknowledges = true → (f (s.client c)).sawStatus = true)
    (hemptied : (f (s.client c)).phase = .emptied → t.file = [])
    (hvalue : s.stage.hasEnabled = true → t.file = [] ∨ t.file = s.file ∨
      t.file = Nat.toDigits 10 (pid c) ∧ (f (s.client c)).sawStatus = true) :
    (t.setClient c f).Handshake pid := by
  -- the other processes are outside
  have hothers (d : C) (hd : d ≠ c) : (s.client d).phase = .outside := by
    by_contra hphase
    have hd' := h.holder d hphase
    rcases hlock with hc | hnone
    · exact hd (Option.some.inj (hd'.symm.trans hc))
    · rw [hnone] at hd'
      cases hd'
  have hphase (d : C) : ((t.setClient c f).client d).phase =
      if d = c then (f (s.client c)).phase else .outside := by
    rw [setClient_client, hclient]
    split_ifs with hd
    · rfl
    · exact hothers d hd
  refine ⟨fun text htext => ?_, fun hnot => ?_, fun hnot d => ?_, fun d hd => ?_, fun d hd => ?_,
    fun d hd => ?_, fun hon => ?_, fun value hv => ?_⟩
  · change text ∈ t.stage.text at htext
    change t.file = text
    rw [hstage] at htext
    have hnot : s.stage.hasEnabled = false := by
      revert htext
      cases s.stage <;> simp [Stage.text, Stage.hasEnabled]
    rw [(hwaits hnot).1, h.text text htext]
  · exact hlaunched (by rw [← hstage]; exact hnot)
  · have hnot : s.stage.hasEnabled = false := by rw [← hstage]; exact hnot
    rw [setClient_client, hclient]
    split_ifs
    · exact (hwaits hnot).2
    · exact h.waits hnot d
  · rw [hphase] at hd
    split_ifs at hd with hdc
    · rw [hdc]
      exact hholder hd
    · exact absurd rfl hd
  · rw [hphase] at hd
    rw [setClient_client, hclient]
    split_ifs at hd ⊢ with hdc
    · exact hack hd
    · cases hd
  · rw [hphase] at hd
    split_ifs at hd
    exact hemptied hd
  · have hon : s.stage.hasEnabled = true := by rw [← hstage]; exact hon
    rcases hvalue hon with hnil | hsame | ⟨hown, hsaw'⟩
    · exact .inl hnil
    · change t.file = [] ∨ t.file = _ ∨ (t.setClient c f).Acknowledges pid t.file
      rw [hsame]
      rcases h.value hon with hfile | hfile | hfile
      · exact .inl hfile
      · exact .inr (.inl hfile)
      · exact .inr (.inr (hfile.setClient hclient c hsaw))
    · refine .inr (.inr ⟨c, hown, ?_⟩)
      rw [setClient_client, hclient, if_pos rfl]
      exact hsaw'
  · change value ∈ t.appPid at hv
    rw [happ] at hv
    exact (h.adopted value hv).setClient hclient c hsaw

omit [DecidableEq C] in
/-- Before the signal a process reads zero. -/
theorem Handshake.enablerFileStatus_eq_zero {s : EnablerState C} (h : s.Handshake pid)
    (hnot : s.stage.hasEnabled = false) {c : C} (hlock : s.holder = some c) :
    enablerFileStatus s.file = 0 := by
  have hlaunched : s.stage.hasLaunched = true := by
    by_contra hbefore
    rw [h.notLaunched (by simpa using hbefore)] at hlock
    cases hlock
  have htext := h.text
  cases hstage : s.stage with
  | starting | clearing | prepared => simp [hstage, Stage.hasLaunched] at hlaunched
  | launched =>
    rw [hstage] at htext
    rw [htext ['0', '\n'] rfl]
    rfl
  | enabling =>
    rw [hstage] at htext
    rw [htext [] rfl]
    rfl
  | waiting | acknowledged => simp [hstage, Stage.hasEnabled] at hnot

theorem Handshake.clientStep {s : EnablerState C} (h : s.Handshake pid) (c : C) :
    (s.clientStep pid c).Handshake pid := by
  have hinside (hphase : (s.client c).phase ≠ .outside) : s.holder = some c := h.holder c hphase
  -- whoever acknowledges has seen the signal, so that it has been given
  have henabled (hack : (s.client c).phase.acknowledges = true) :
      s.stage.hasEnabled = false → False := by
    intro hnot
    rw [(h.waits hnot c).2.2] at hack
    cases hack
  unfold EnablerState.clientStep
  cases hphase : (s.client c).phase with
  | outside =>
    dsimp only
    split_ifs with henter
    · refine h.setClient (.inr henter.2) rfl rfl rfl (fun hnot => ?_) (fun hsaw => hsaw)
        (fun hnot => ⟨rfl, ?_⟩) (fun _ => rfl) (by simp [ClientPhase.acknowledges]) (by simp)
        fun _ => .inr (.inl rfl)
      · rw [henter.1] at hnot
        cases hnot
      · obtain ⟨hsaw, htracing, -⟩ := h.waits hnot c
        exact ⟨hsaw, htracing, rfl⟩
    · exact h
  | locked =>
    have hlock := hinside (by simp [hphase])
    dsimp only
    split_ifs with hstatus
    · refine h.setClient (.inl hlock) rfl rfl rfl h.notLaunched (fun hsaw => hsaw)
        (fun hnot => ⟨rfl, ?_⟩) (fun _ => hlock) (by simp [ClientPhase.acknowledges]) (by simp)
        fun _ => .inr (.inl rfl)
      obtain ⟨hsaw, htracing, -⟩ := h.waits hnot c
      exact ⟨hsaw, htracing, rfl⟩
    · refine h.setClient (.inl hlock) rfl rfl rfl h.notLaunched (fun _ => rfl)
        (fun hnot => absurd (h.enablerFileStatus_eq_zero hnot hlock) hstatus) (fun _ => hlock)
        (fun _ => rfl) ?_ fun _ => .inr (.inl rfl)
      dsimp only
      split_ifs <;> simp
  | acknowledging =>
    have hlock := hinside (by simp [hphase])
    have hon := henabled (by rw [hphase]; rfl)
    refine h.setClient (.inl hlock) rfl rfl rfl h.notLaunched (fun hsaw => hsaw)
      (fun hnot => (hon hnot).elim) (fun _ => hlock) (fun _ => ?_) (fun _ => rfl) fun _ => .inl rfl
    exact h.acknowledges c (by rw [hphase]; rfl)
  | emptied =>
    have hlock := hinside (by simp [hphase])
    have hon := henabled (by rw [hphase]; rfl)
    have hsaw := h.acknowledges c (by rw [hphase]; rfl)
    refine h.setClient (.inl hlock) rfl rfl rfl h.notLaunched (fun hsaw => hsaw)
      (fun hnot => (hon hnot).elim) (fun _ => hlock) (fun _ => hsaw) (by simp)
      fun _ => .inr (.inr ⟨?_, hsaw⟩)
    simp [h.emptied c hphase, overwrite]
  | written =>
    have hlock := hinside (by simp [hphase])
    have hon := henabled (by rw [hphase]; rfl)
    exact h.setClient (.inl hlock) rfl rfl rfl h.notLaunched (fun hsaw => hsaw)
      (fun hnot => (hon hnot).elim) (fun _ => hlock) (by simp [ClientPhase.acknowledges]) (by simp)
      fun _ => .inr (.inl rfl)
  | leaving =>
    have hlock := hinside (by simp [hphase])
    refine h.setClient (.inl hlock) rfl rfl rfl (fun _ => rfl) (fun hsaw => hsaw)
      (fun hnot => ⟨rfl, ?_⟩) (by simp) (by simp [ClientPhase.acknowledges]) (by simp)
      fun _ => .inr (.inl rfl)
    obtain ⟨hsaw, htracing, -⟩ := h.waits hnot c
    exact ⟨hsaw, htracing, rfl⟩

/-- **The handshake.** However the steps of the script and of the processes are interleaved,
no process enables tracing before the script has written `1`, and an id that the script takes
is that of a process that has itself read a status other than zero. -/
theorem handshake (pid : C → ℕ) (file : List Char) (schedule : List (Option C)) :
    let s : EnablerState C := run pid file schedule
    (∀ c, (s.client c).tracingEnabled = true → s.stage.hasEnabled = true) ∧
      ∀ value, s.appPid = some value →
        ∃ c, value = Nat.toDigits 10 (pid c) ∧ (s.client c).sawStatus = true := by
  have h : (run pid file schedule).Handshake pid := by
    refine Steps.runFrom_induction (handshake_initial file) fun x _ hs => ?_
    cases hx : x.2 with
    | none => simpa only [step, hx] using hs.scriptStep
    | some c => simpa only [step, hx] using hs.clientStep c
  refine ⟨fun c hc => ?_, h.adopted⟩
  by_contra hnot
  rw [(h.waits (by simpa using hnot) c).2.1] at hc
  cases hc

/-- Two processes with the ids 10 and 11 acknowledge, and the script finds the id of the
second one. -/
example :
    let script : List (Option (Fin 2)) := List.replicate 5 none
    let check : Fin 2 → List (Option (Fin 2)) := fun c => List.replicate 6 (some c)
    let s := run (fun c => 10 + c.val) ['7'] (script ++ check 0 ++ check 1 ++ [none])
    s.appPid = some ['1', '1'] ∧ (s.client 0).tracingEnabled ∧ (s.client 1).tracingEnabled := by
  decide

end EnablerState

end SagePTE.Tracer
