import LanguageClient.Client.Features
import LanguageClient.Proofs.Pending.Uses
import LanguageClient.Proofs.Reentry.Invariant
/-
  LanguageClient.Proofs.Client.Uses — what a client is used for, while its server cannot be started.

  A client is used from two sides: its users start and stop it, poll it and send requests and
  notifications; its transport, mostly during a poll, hands in what the server writes and that
  its process has ended. The transport refuses every start, and the process does not run any
  more once its end was handed in or was asked for. When a process runs, and what time it
  is, is for the world to say.

  Any function may read the bodies of messages (`read`). The one that a client has is
  `Frame.read` (`onStdoutBy_read`), and nothing here depends on what it makes of a body.

  - `usesBy`: what can be done to a client, given who makes the calls it comes to.
  - `uses`: every call is made, and whoever is called may use the client.
-/

namespace LanguageClient

namespace Frame

variable (read : Bytes → Except Dropped Message)

def Block.readBy : Block → Except Dropped Message
  | .invalid header => .error (.badHeader header)
  | .frame _ body => read body

def messagesBy (bs : List Block) : List Message :=
  bs.filterMap (fun b => match b.readBy read with | .ok m => some m | .error _ => none)

def complaintsBy (bs : List Block) : List Log.Entry :=
  bs.filterMap (fun b => match b.readBy read with | .ok _ => none | .error d => some d.entry)

theorem readBy_read (b : Block) : b.readBy Frame.read = b.read := by cases b <;> rfl

theorem messagesBy_read (bs : List Block) : messagesBy Frame.read bs = messages bs := by
  simp only [messagesBy, readBy_read]
  rfl

theorem complaintsBy_read (bs : List Block) : complaintsBy Frame.read bs = complaints bs := by
  simp only [complaintsBy, readBy_read]
  rfl

end Frame

namespace Client

variable {η : Type} (read : Bytes → Except Frame.Dropped Message)

def onStdoutBy (chunk : Bytes) : Aside η Unit := do
  let c : Client η ← get
  let (blocks, decoder) := c.decoder.feed chunk
  set { c with decoder := decoder }
  (Frame.complaintsBy read blocks).forM Routine.log
  (Frame.messagesBy read blocks).forM handle

theorem onStdoutBy_read (chunk : Bytes) : onStdoutBy (η := η) Frame.read chunk = onStdout chunk := by
  simp only [onStdoutBy, onStdout, Frame.complaintsBy_read, Frame.messagesBy_read]

/-! ## Parts of a client -/

theorem pending_isPart :
    Routine.IsPart (fun c : Client η => c.pending) (fun t c => { c with pending := t }) :=
  ⟨fun _ _ => rfl, fun _ _ _ => rfl, fun _ => rfl⟩

theorem errors_isPart : Routine.IsPart (fun c : Client η => c.errors) (fun s c => { c with errors := s }) :=
  ⟨fun _ _ => rfl, fun _ _ _ => rfl, fun _ => rfl⟩

theorem exits_isPart : Routine.IsPart (fun c : Client η => c.exits) (fun s c => { c with exits := s }) :=
  ⟨fun _ _ => rfl, fun _ _ _ => rfl, fun _ => rfl⟩

theorem publications_isPart :
    Routine.IsPart (fun c : Client η => c.publications) (fun s c => { c with publications := s }) :=
  ⟨fun _ _ => rfl, fun _ _ _ => rfl, fun _ => rfl⟩

theorem router_isPart : Routine.IsPart (fun c : Client η => c.router) (fun r c => { c with router := r }) :=
  ⟨fun _ _ => rfl, fun _ _ _ => rfl, fun _ => rfl⟩

/-! ## The operations -/

def halted (c : Client η) : Client η := { c with link := { c.link with running := false } }

def exited (code : Option Int) : Action η Unit := do
  let c : Client η ← get
  if c.link.running then
    set c.halted
    aside (onExit code)

inductive Use (η : Type) where
  /-- Start the server, which the transport refuses. -/
  | start (why : Bytes)
  /-- Stop the server, whose process ends with the code. -/
  | stop (code : Option Int)
  | poll (wait : Int)
  | sendRequest (method : Bytes) (params : Json) (h : η)
  | request (method : Bytes) (params : Json)
  | notify (method : Bytes) (params : Json)
  | completions (uri : Bytes) (position : Position)
  | codeActions (uri : Bytes) (known : List Diagnostic) (range : Range)
  | formatEdits (uri : Bytes) (choice : FormattingChoice)
  | diagnostics (uri : Bytes)
  | output (chunk : Bytes)
  | errors (chunk : Bytes)
  | exit (code : Option Int)
  /-- The world goes on. -/
  | world (l : Link)

abbrev Use.Answer : Use η → Type
  | start _ => Except Error Unit
  | poll _ => Bool
  | sendRequest .. => Option Nat
  | request .. => Except Error Json
  | completions .. => Except Error (List CompletionItem)
  | codeActions .. => Except Error (List CodeAction)
  | formatEdits .. => Except Error (List TextEdit)
  | diagnostics _ => List Diagnostic
  | _ => Unit

def Use.action : (u : Use η) → Action η u.Answer
  | .start _ => Client.start
  | .stop _ => Client.stop
  | .poll wait => Client.poll wait
  | .sendRequest method params h => aside (Client.sendRequest method params h)
  | .request method params => Client.request method params
  | .notify method params => aside (sendNotification method params)
  | .completions uri position => Client.completions uri position
  | .codeActions uri known range => Client.codeActions uri known range
  | .formatEdits uri choice => Client.formatEdits uri choice
  | .diagnostics uri => pullDiagnostics uri
  | .output chunk => aside (onStdoutBy read chunk)
  | .errors chunk => aside (onStderr chunk)
  | .exit code => exited code
  | .world l => modify (fun c : Client η => { c with link := l })

/-- What comes of the calls on the process: why it is not started, and the code it ends with. -/
structure Fate where
  refusal : Bytes := []
  code : Option Int := none

def Use.fate : Use η → Fate
  | .start why => { refusal := why }
  | .stop code => { code := code }
  | .exit code => { code := code }
  | _ => {}

abbrev usesBy (up : Fate → (c : Call η) → Action η c.Reply) : Operations (Client η) (Calls η) :=
  ⟨Use η, Use.Answer, fun u => (u.action read).relay (up u.fate)⟩

/-- The transport refuses to start a server and ends one; before it says so it may be slow. -/
def transport (f : Fate) : (c : Call η) → Action η c.Reply
  | .spawn c => do
    discard (Action.call (.spawn c))
    return some f.refusal
  | .terminate grace => do
    discard (Action.call (.terminate grace))
    modify halted
    return f.code
  | .notice n => Action.call (.notice n)
  | .poll wait => Action.call (.poll wait)
  | .spent => Action.call .spent

abbrev uses (η : Type) (read : Bytes → Except Frame.Dropped Message) : Operations (Client η) (Calls η) :=
  usesBy read transport

/-! ## How far the operations get -/

section Advance

variable {α : Type} {c : Client η}

theorem aside_bind {β : Type} (p : Aside η α) (f : α → Aside η β) :
    aside (p >>= f) = aside p >>= fun a => aside (f a) :=
  Routine.relay_bind p f

theorem advance_aside_congr {p q : Aside η α} {c' : Client η} (h : p.advance c = q.advance c') :
    (aside p).advance c = (aside q).advance c' :=
  Routine.advance_relay_congr h

/-- A use that comes to no call is at its end as soon as it is entered. -/
theorem enter_of_ended {up : Fate → (c : Call η) → Action η c.Reply} {m : (usesBy read up).Moment} {u : Use η}
    {a : u.Answer} {c' : Client η} (h : (u.action read).advance m.state = (.ended a, c')) :
    m.enter u = { m with state := c', trace := m.trace ++ [.ended u m.state a] } := by
  refine Operations.Moment.proceed_of_ended ?_
  rw [Routine.advance_relay, h]

theorem advance_sendRequest (method : Bytes) (params : Json) (h : η) (hc : c.isOpen = false) :
    (Client.sendRequest method params h).advance c
      = (.waiting (.told h (.rejected .notRunning)) fun _ => .done none, c) := by
  simp only [Client.sendRequest, Routine.advance_get_bind, hc, Bool.false_eq_true, if_false]
  rfl

theorem advance_request (method : Bytes) (params : Json) (hc : c.isOpen = false) :
    (Client.request method params).advance c = (.ended (.error .notRunning), c) := by
  simp only [Client.request, Routine.advance_get_bind, hc, Bool.false_eq_true, if_false]
  rfl

theorem advance_askForList {offer : Capability} (method : Bytes) (params : Json)
    (found : Bytes → Json → Except Error (List Json)) (items : Items α) (hc : c.declared.supports offer = false) :
    (askForList offer method params found items).advance c = (.ended (.ok []), c) := by
  simp only [askForList, Routine.advance_get_bind, hc, Bool.false_eq_true, if_false]
  rfl

theorem advance_pullDiagnostics (uri : Bytes) (hc : c.declared.supports .diagnostic = false) :
    (pullDiagnostics uri).advance c = (.ended [], c) := by
  simp only [pullDiagnostics, Routine.advance_get_bind, hc, Bool.false_eq_true, if_false]
  rfl

def lost (code : Option Int) (c : Client η) : Client η :=
  { c with lastExit := code, stderrLine := [], phase := .errored, declared := {}, decoder := {} }

def giveUp (e : Error) (code : Option Int) : Aside η Unit := do
  discard (onPending (Pending.rejectAll e))
  emitExit code

/-- An end that nobody asked for closes the session. -/
theorem advance_onExit (code : Option Int) (h : c.phase ≠ .stopped) :
    (onExit code).advance c
      = (giveUp (.of .processExit (c.withStderrTail (exitMessage code)) none) code).advance (c.lost code) := by
  simp only [onExit, Routine.advance_get_bind, Routine.advance_set_bind, h, if_false]
  split <;> rfl

theorem advance_onExit_stopped (code : Option Int) (h : c.phase = .stopped) :
    (onExit code).advance c = (.ended (), { c with lastExit := code, stderrLine := [] }) := by
  simp only [onExit, Routine.advance_get_bind, Routine.advance_set_bind, h, if_true]
  split <;> rfl

def cleared (c : Client η) : Client η :=
  { c with declared := {}, documents := {}, published := {}, decoder := {}, stderrLine := [] }

def report (before : Client η) (code : Option Int) : Action η Unit := do
  if before.link.running then
    Routine.log (Log.info "client" (text "Stopped LSP server '" ++ before.config.name ++ text "'"))
    aside (emitExit code)

def windUp (before : Client η) (code : Option Int) : Action η Unit := do
  let rejected ← aside (onPending (Pending.rejectAll .stopped))
  if 0 < rejected then
    Routine.log (debug (text "Rejected " ++ Bytes.decimal rejected ++ text " pending request(s) on stop"))
  modify cleared
  report before code

/-- A server that is not ready is not asked to shut down; its process is just ended. -/
theorem advance_stop_running (hphase : c.phase ≠ .ready) (hrun : c.link.running = true) :
    stop.advance c = (Action.call (.terminate c.options.terminateGrace) >>= windUp c).advance
      { c with phase := .stopped } := by
  simp only [stop, Routine.advance_get_bind, hrun, true_or, if_true, Routine.advance_set_bind, hphase, and_false,
    if_false]
  unfold windUp report
  simp only [hrun, if_true]
  rfl

theorem advance_stop_idle (hrun : c.link.running = false) :
    stop.advance c = (windUp c c.lastExit).advance
      { c with phase := if c.phase = .disconnected then .disconnected else .stopped } := by
  simp only [stop, windUp, report, Routine.advance_get_bind, hrun, Bool.false_eq_true, false_or, false_and, if_false,
    ne_eq, ite_not]
  by_cases hnew : c.phase = .disconnected
  · have hsame : ({ c with phase := .disconnected } : Client η) = c := by rw [← hnew]
    simp only [hnew, if_true, Routine.advance_get_bind, hrun, hsame]
    rfl
  · simp only [hnew, if_false, Routine.advance_get_bind, Routine.advance_set_bind, hrun]
    rfl

end Advance

end Client

end LanguageClient
