import LanguageClient.Client.Editing
import LanguageClient.Client.Handshake
import LanguageClient.Client.Listening
import LanguageClient.Proofs.Client.Uses
import LanguageClient.Proofs.Reentry.Restraint
/-
  LanguageClient.Proofs.Client.Deeds — everything that is done to a client.

  `Use` is what a client is used for while its server cannot be started. To that come starts
  that may succeed, and everything that matters only then or that anybody does at any time:
  documents are worked on, what a server has published comes in, people subscribe.

  - `whole`: all of it, in any order, also by whoever is called meanwhile.
  - `advance_start`: how far a start gets by itself.
-/

namespace LanguageClient.Client

open Routine

variable {η : Type} (read : Bytes → Except Frame.Dropped Message)

def revived (c : Client η) : Client η := { c with link := { c.link with running := true } }

/-- The transport of a server that may be started; when it is ended on the way it ends with the code. -/
def server (code : Option Int) : (c : Call η) → Action η c.Reply
  | .spawn c => do
    let refusal ← Action.call (.spawn c)
    if refusal = none then modify revived
    return refusal
  | .terminate grace => transport { code := code } (.terminate grace)
  | .notice n => Action.call (.notice n)
  | .poll wait => Action.call (.poll wait)
  | .spent => Action.call .spent

inductive Deed (η : Type) where
  | use (u : Use η)
  /-- Start the server and greet it; a process that is given up ends with the code. -/
  | connect (g : Greeting) (code : Option Int)
  | openDocument (uri : Bytes) (params : Nat → Json)
  | updateDocument (uri : Bytes) (params : Nat → Json)
  | closeDocument (uri : Bytes) (params : Json)
  /-- What the client listens for by itself comes in. -/
  | hear (l : Listener) (params : Json)
  /-- Subscribe to what the client tells, or leave. -/
  | subscribe (errors exits publications : Signal η → Signal η) (router : Router η → Router η)
  /-- The transport hands in that a process has ended, whether or not one is known to run. -/
  | ended (code : Option Int)

abbrev Deed.Answer : Deed η → Type
  | use u => u.Answer
  | connect .. => Except Error ServerInfo
  | _ => Unit

def Deed.body : (d : Deed η) → Action η d.Answer
  | .use u => (u.action read).relay (transport u.fate)
  | .connect g code => (Client.connect g).relay (server code)
  | .openDocument uri params => aside (Client.openDocument uri params)
  | .updateDocument uri params => aside (Client.updateDocument uri params)
  | .closeDocument uri params => aside (Client.closeDocument uri params)
  | .hear l params => aside (Client.hear l params)
  | .subscribe errors exits publications router => modify fun c : Client η =>
    { c with
      errors := errors c.errors
      exits := exits c.exits
      publications := publications c.publications
      router := router c.router }
  | .ended code => aside (onExit code)

abbrev whole (η : Type) (read : Bytes → Except Frame.Dropped Message) : Operations (Client η) (Calls η) :=
  ⟨Deed η, Deed.Answer, Deed.body read⟩

/-! ## Starts -/

variable {c : Client η}

/-- The client neither starts a server nor has one that is ready. -/
def Calm (c : Client η) : Prop := c.phase ≠ .starting ∧ c.phase ≠ .ready

def failing {α : Type} (e : Error) : Action η (Except Error α) := do
  aside (emitError e)
  return .error e

def launched (config : ServerConfig) : Option Bytes → Action η (Except Error Unit)
  | none => do
    Routine.log (Log.info "client" (text "Started LSP server '" ++ config.name ++ text "'"))
    return .ok ()
  | some why => do
    modify fun c : Client η => { c with phase := .errored }
    Routine.log (Log.error "client" (Error.notStarted config.name why).message)
    failing (.notStarted config.name why)

def begun (c : Client η) : Client η := { c.forgetful with phase := .starting }

theorem start_eq : (Client.start : Action η (Except Error Unit)) = get >>= fun c : Client η =>
    if c.phase = .starting ∨ c.phase = .ready then return .error (.alreadyStarted c.phase.name)
    else set c.begun >>= fun _ => Action.call (.spawn c.config) >>= launched c.config := by
  unfold Client.start
  refine congrArg (get >>= ·) (funext fun c => ?_)
  split
  · rfl
  · refine congrArg (set c.begun >>= ·) (funext fun _ => ?_)
    refine congrArg (Action.call (.spawn c.config) >>= ·) (funext fun refusal => ?_)
    cases refusal <;> rfl

theorem advance_start (hc : c.Calm) :
    Client.start.advance c = (.waiting (.spawn c.config) (launched c.config), c.begun) := by
  have hphase : ¬ (c.phase = .starting ∨ c.phase = .ready) := not_or.2 hc
  simp only [start_eq, advance_get_bind, hphase, if_false, advance_set_bind]
  rfl

theorem advance_start_busy (hc : ¬ c.Calm) :
    Client.start.advance c = (.ended (.error (.alreadyStarted c.phase.name)), c) := by
  have hphase : c.phase = .starting ∨ c.phase = .ready := by
    by_contra h
    exact hc (not_or.1 h)
  simp only [start_eq, advance_get_bind, hphase, if_true]
  rfl

def greeted (g : Greeting) : Except Error Unit → Action η (Except Error ServerInfo)
  | .error e => return .error e
  | .ok () => do
    match ← greet g with
    | .ok info => return .ok info
    | .error e => return .error (← abandon e)

theorem connect_eq (g : Greeting) : (connect g : Action η (Except Error ServerInfo)) = Client.start >>= greeted g := by
  unfold connect
  refine congrArg (Client.start >>= ·) (funext fun started => ?_)
  cases started <;> rfl

theorem advance_use_start (why : Bytes) (hc : c.Calm) : (Deed.body read (.use (.start why))).advance c
    = (transport { refusal := why } (.spawn c.config) >>= fun refusal =>
        (launched c.config refusal).relay (transport { refusal := why })).advance c.begun := by
  have hbody : (Deed.body read (.use (.start why))).advance c = _ := advance_relay Client.start c
  rw [hbody, advance_start hc]
  rfl

theorem advance_connect_waiting (g : Greeting) (hc : c.Calm) : (connect g).advance c
    = (.waiting (.spawn c.config) fun refusal => launched c.config refusal >>= greeted g, c.begun) := by
  rw [connect_eq]
  refine (advance_bind Client.start _ c).trans ?_
  rw [advance_start hc]
  rfl

theorem advance_connect (g : Greeting) (code : Option Int) (hc : c.Calm) : (Deed.body read (.connect g code)).advance c
    = (server code (.spawn c.config) >>= fun refusal =>
        (launched c.config refusal >>= greeted g).relay (server code)).advance c.begun := by
  have hbody : (Deed.body read (.connect g code)).advance c = _ := advance_relay (connect g) c
  rw [hbody, advance_connect_waiting g hc]
  rfl

def Deed.Starts : Deed η → Prop
  | .use (.start _) => True
  | .connect .. => True
  | _ => False

/-- A start that is not refused begins with the call to the transport. -/
theorem advance_starts {d : Deed η} (hd : d.Starts) (hc : c.Calm) :
    ∃ next, (d.body read).advance c = (.waiting (.spawn c.config) next, c.begun) := by
  cases d with
  | use u =>
    cases u with
    | start why => exact ⟨_, advance_use_start read why hc⟩
    | _ => exact hd.elim
  | connect g code => exact ⟨_, advance_connect read g code hc⟩
  | _ => exact hd.elim

theorem advance_starts_busy {d : Deed η} (hd : d.Starts) (hc : ¬ c.Calm) :
    ∃ a, (d.body read).advance c = (.ended a, c) := by
  cases d with
  | use u =>
    cases u with
    | start why =>
      have hbody : (Deed.body read (.use (.start why))).advance c = _ := advance_relay Client.start c
      rw [advance_start_busy hc] at hbody
      exact ⟨_, hbody⟩
    | _ => exact hd.elim
  | connect g code =>
    have hconnect : (Client.connect g).advance c = _ := advance_bind_of_ended (advance_start_busy hc) _
    have hbody : (Deed.body read (.connect g code)).advance c = _ := advance_relay (Client.connect g) c
    rw [hconnect] at hbody
    exact ⟨_, hbody⟩
  | _ => exact hd.elim

/-! ## Error output -/

def takenIn (chunk : Bytes) (c : Client η) : Client η :=
  { c with
    stderrTail := Bytes.lastN c.options.stderrTailBytes (c.stderrTail ++ chunk)
    stderrLine := (splitLines (c.stderrLine ++ chunk)).2 }

def lineEntries (c : Client η) (lines : List Bytes) : List Log.Entry :=
  ((lines.map chomp).filter (· ≠ [])).map c.stderrEntry

theorem advance_onStderr (chunk : Bytes) : (onStderr chunk).advance c = (.ended (), c.takenIn chunk) :=
  advance_forM_log (S := Notices η) c.stderrEntry _ (c.takenIn chunk)

theorem noted_onStderr (chunk : Bytes) :
    (onStderr chunk).noted c = c.lineEntries (splitLines (c.stderrLine ++ chunk)).1 :=
  noted_forM_log (S := Notices η) c.stderrEntry _ (c.takenIn chunk)

theorem advance_errors (chunk : Bytes) :
    (Deed.body read (.use (.errors chunk))).advance c = (.ended (), c.takenIn chunk) := by
  rw [Deed.body, Use.action, aside, advance_relay, advance_relay, advance_onStderr]

theorem noted_errors (chunk : Bytes) : (Deed.body read (.use (.errors chunk))).noted c
    = c.lineEntries (splitLines (c.stderrLine ++ chunk)).1 := by
  have haside : (aside (onStderr chunk)).advance c = (.ended (), c.takenIn chunk) := by
    rw [aside, advance_relay, advance_onStderr]
  rw [Deed.body, Use.action, noted_relay haside, aside, noted_relay (advance_onStderr chunk), noted_onStderr]

/-! ## Stops -/

def clearUp (rejected : Nat) : Action η Unit := do
  if 0 < rejected then
    Routine.log (debug (text "Rejected " ++ Bytes.decimal rejected ++ text " pending request(s) on stop"))
  modify cleared

def dismiss : Action η Unit := aside (onPending (Pending.rejectAll .stopped)) >>= clearUp

/-- What a stop does when the server was asked to go, before it reports: the process is ended and
the session given up. -/
def wrapUp : Action η (Option Int) := do
  let c : Client η ← get
  let code ← if c.link.running then Action.call (.terminate c.options.terminateGrace) else pure c.lastExit
  dismiss
  return code

theorem stop_eq : (Client.stop : Action η Unit) = (do
    let before : Client η ← get
    if before.link.running ∨ before.phase ≠ .disconnected then set { before with phase := .stopped }
    if before.link.running ∧ before.phase = .ready then takeLeave
    report before (← wrapUp)) := by
  unfold Client.stop wrapUp dismiss clearUp report cleared
  simp only [LawfulMonad.bind_assoc, pure_bind, ite_bind]

end LanguageClient.Client
