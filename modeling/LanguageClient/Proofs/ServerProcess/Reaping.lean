import Mathlib.Data.List.Forall2
import LanguageClient.Proofs.Reentry
import LanguageClient.ServerProcess.Life
/-
  LanguageClient.Proofs.ServerProcess.Reaping — the ends of processes, and who is told of them.

  The system keeps a table of the processes that the client has started. It tells of the end
  of a process once; from then on it does not know the process any more, and the number of
  the process may come up again. The client's end reports the end to its user, as the exit
  that a poll hands over or as the answer of `terminate`.

  Whoever has the word makes the next move: a process ends, the system answers a request, the
  user starts, follows, writes to or ends the process. The user has the word when nothing
  goes on, and while being handed something.

  - `ask` is what the system tells of a process, and what that leaves of the table.
  - `take` makes one move, if it is possible, and `play` a list of them.
  - `Scene.reports` are the ends that were reported, in order.
-/

namespace LanguageClient.ServerProcess.Reaping

/-! ## The table of the system -/

structure Entry where
  pid : Nat
  /-- How the process has ended, if it has; a killed one has no exit code. -/
  ended : Option (Option Nat) := none
  /-- The client has been told of the end. -/
  isTold : Bool := false
  deriving DecidableEq

abbrev Table := List Entry

/-- A process ends, unless it has ended before. -/
def Entry.exit (e : Entry) (pid : Nat) (code : Option Nat) : Entry :=
  if e.pid = pid ∧ e.ended = none then { e with ended := some code } else e

def ask (pid : Nat) : Table → Fate × Table
  | [] => (.unknown, [])
  | e :: t =>
    if e.pid = pid then
      if e.isTold then (.unknown, e :: t)
      else
        match e.ended with
        | none => (.running, e :: t)
        | some code => (.ended code, { e with isTold := true } :: t)
    else ((ask pid t).1, e :: (ask pid t).2)

deriving instance DecidableEq for Fate

/-- What a request leaves of the table, if it can be answered so. Whoever waits for the end of a
process is not told that it runs. -/
def answer (t : Table) : (q : Service) → q.Reply → Option Table
  | .start _, .ok s => some ({ pid := s.pid } :: t)
  | .reap pid, r => if r = (ask pid t).1 then some (ask pid t).2 else none
  | .collect pid, r => if r = (ask pid t).1 ∧ r ≠ .running then some (ask pid t).2 else none
  | _, _ => some t

/-! ## Scenes -/

inductive Act where
  | launch (c : ServerConfig)
  | write (bytes : Bytes)
  | poll (wait : Int)
  | terminate (grace : Int)

abbrev Act.Answer : Act → Type
  | launch _ => Option Launch.Refusal
  | write _ => Bool
  | poll _ => Bool
  | terminate _ => Option Nat

def Act.asks : Act → Bool
  | launch _ => false
  | write _ => false
  | poll _ => true
  | terminate _ => true

abbrev acts (rounds : Nat) : Operations ServerProcess Calls where
  Op := Act
  Answer := Act.Answer
  body
    | .launch c => ServerProcess.launch c
    | .write bytes => ServerProcess.write rounds bytes
    | .poll wait => ServerProcess.poll rounds wait
    | .terminate grace => ServerProcess.terminate rounds grace

section

variable {rounds : Nat}

def isUp : List (acts rounds).Suspended → Bool
  | [] => true
  | ⟨_, _, .deliver _, _⟩ :: _ => true
  | _ :: _ => false

/-- The end of a process that the user learns of: as it is handed over, or from a `terminate` that found a process. -/
def reportOf : (acts rounds).Event → Option (Option Nat)
  | .called (.deliver (.exit code)) => some code
  | .ended (.terminate _) start code => if start.isRunning then some code else none
  | _ => none

end

structure Scene (rounds : Nat) where
  moment : (acts rounds).Moment
  table : Table

namespace Scene

variable {rounds : Nat}

def start (rounds : Nat) : Option Started → Scene rounds
  | none => ⟨⟨{}, [], []⟩, []⟩
  | some s => ⟨⟨s.process, [], []⟩, [{ pid := s.pid }]⟩

def reports (c : Scene rounds) : List (Option Nat) := c.moment.trace.filterMap reportOf

def ends (c : Scene rounds) : List (Option (Option Nat)) := c.table.reverse.map Entry.ended

/-- The client's end has been told of the end of its process, and still has it. -/
def isTold (c : Scene rounds) : Bool :=
  match c.moment.state.pid with
  | none => false
  | some pid => (c.table.find? (·.pid = pid)).any (·.isTold)

end Scene

inductive Cue where
  /-- A process ends, with an exit code or killed by a signal. -/
  | exit (pid : Nat) (code : Option Nat)
  | enter (a : Act)
  /-- The system answers the request that is waiting. -/
  | answer (q : Service) (r : q.Reply)
  /-- Whoever was handed something returns. -/
  | back

def take {rounds : Nat} (c : Scene rounds) : Cue → Option (Scene rounds)
  | .exit pid code => some { c with table := c.table.map (·.exit pid code) }
  | .enter a => if isUp c.moment.stack then some { c with moment := c.moment.enter a } else none
  | .answer q r =>
    match c.moment with
    | ⟨p, ⟨op, start, .service q', next⟩ :: stack, trace⟩ =>
      if h : q = q' then
        (Reaping.answer c.table q r).map fun t => ⟨.proceed ⟨p, stack, trace⟩ op start (next (h ▸ r)), t⟩
      else none
    | _ => none
  | .back =>
    match c.moment with
    | ⟨p, ⟨op, start, .deliver _, next⟩ :: stack, trace⟩ =>
      some { c with moment := .proceed ⟨p, stack, trace⟩ op start (next ()) }
    | _ => none

section take

variable {rounds : Nat} {c c' : Scene rounds}

theorem take_enter {a : Act} (h : take c (.enter a) = some c') :
    isUp c.moment.stack = true ∧ c' = { c with moment := c.moment.enter a } := by
  rw [take] at h
  split at h
  next hup => exact ⟨hup, (Option.some.inj h).symm⟩
  next => cases h

theorem take_answer {q : Service} {r : q.Reply} (h : take c (.answer q r) = some c') :
    ∃ p op start next stack trace t, c.moment = ⟨p, ⟨op, start, .service q, next⟩ :: stack, trace⟩ ∧
      Reaping.answer c.table q r = some t ∧ c' = ⟨.proceed ⟨p, stack, trace⟩ op start (next r), t⟩ := by
  rw [take] at h
  split at h
  next p op start q' next stack trace hmoment =>
    split at h
    next hq =>
      subst hq
      obtain ⟨t, ht, rfl⟩ := Option.map_eq_some_iff.1 h
      exact ⟨p, op, start, next, stack, trace, t, hmoment, ht, rfl⟩
    next => cases h
  next => cases h

theorem take_back (h : take c .back = some c') :
    ∃ p op start d next stack trace, c.moment = ⟨p, ⟨op, start, .deliver d, next⟩ :: stack, trace⟩ ∧
      c' = { c with moment := .proceed ⟨p, stack, trace⟩ op start (next ()) } := by
  rw [take] at h
  split at h
  next p op start d next stack trace hmoment =>
    exact ⟨p, op, start, d, next, stack, trace, hmoment, (Option.some.inj h).symm⟩
  next => cases h

end take

def play {rounds : Nat} (allows : Scene rounds → Cue → Bool) (cues : List Cue) (c : Scene rounds) :
    Option (Scene rounds) :=
  cues.foldlM (fun c cue => if allows c cue then take c cue else none) c

/-- What holds at first and is kept by every allowed move holds after every play. -/
theorem play_induct {rounds : Nat} {allows : Scene rounds → Cue → Bool} {P : Scene rounds → Prop}
    (hstep : ∀ c cue c', P c → allows c cue = true → take c cue = some c' → P c') {cues : List Cue}
    {c c' : Scene rounds} (h : play allows cues c = some c') (hc : P c) : P c' := by
  induction cues generalizing c with
  | nil =>
    cases h
    exact hc
  | cons cue cues ih =>
    unfold play at h
    rw [List.foldlM_cons] at h
    split at h
    next hallows =>
      obtain ⟨c₁, ht, hp⟩ := Option.bind_eq_some_iff.1 h
      exact ih hp (hstep c cue c₁ hc hallows ht)
    next => cases h

/-! ## What the user may do -/

namespace Scene

variable {rounds : Nat}

/-- Nobody asks again for a process of whose end the client's end was told. -/
def isClear (c : Scene rounds) : Cue → Bool
  | .enter a => !(a.asks && c.isTold)
  | _ => true

def isListening (c : Scene rounds) : Cue → Bool
  | .enter a => !a.asks || c.moment.stack.isEmpty
  | _ => true

end Scene

/-! ## What becomes of the table -/

structure Ages (e e' : Entry) : Prop where
  pid : e'.pid = e.pid
  isTold : e'.isTold = e.isTold
  ended : ∀ code, e.ended = some code → e'.ended = some code

def Drift : Table → Table → Prop := List.Forall₂ Ages

theorem Ages.refl (e : Entry) : Ages e e := ⟨rfl, rfl, fun _ h => h⟩

theorem Ages.trans {e e' e'' : Entry} (h : Ages e e') (h' : Ages e' e'') : Ages e e'' :=
  ⟨h'.pid.trans h.pid, h'.isTold.trans h.isTold, fun code hcode => h'.ended code (h.ended code hcode)⟩

theorem Drift.refl (t : Table) : Drift t t := by
  induction t with
  | nil => exact .nil
  | cons e t ih => exact .cons (.refl e) ih

theorem Drift.trans {t t' t'' : Table} (h : Drift t t') (h' : Drift t' t'') : Drift t t'' := by
  induction h generalizing t'' with
  | nil => exact h'
  | cons hage _ ih =>
    cases h' with
    | cons hage' htail => exact .cons (hage.trans hage') (ih htail)

theorem ages_exit (e : Entry) (pid : Nat) (code : Option Nat) : Ages e (e.exit pid code) := by
  unfold Entry.exit
  split
  next hrunning => exact ⟨rfl, rfl, fun code' hcode => absurd (hcode.symm.trans hrunning.2) (by simp)⟩
  next => exact .refl e

theorem drift_exit (t : Table) (pid : Nat) (code : Option Nat) : Drift t (t.map (·.exit pid code)) := by
  induction t with
  | nil => exact .nil
  | cons e t ih => exact .cons (ages_exit e pid code) ih

/-- What is said of a process that was started last and of whose end nobody was told. -/
theorem ask_head {e : Entry} (h : e.isTold = false) (t : Table) :
    ask e.pid (e :: t) = match e.ended with
      | none => (.running, e :: t)
      | some code => (.ended code, { e with isTold := true } :: t) := by
  simp [ask, h]

end LanguageClient.ServerProcess.Reaping
