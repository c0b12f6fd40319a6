import LanguageClient.Client.Inbound
/-
  LanguageClient.Client.Session — starting, using and stopping a server.

  - `start` forgets the last session and starts the process.
  - `poll` takes in output and rejects the requests whose time is over.
  - `sendRequest` and `sendNotification` send when the client is ready; `request` waits for
    its answer as well.
  - `stop` asks a ready server to shut down, ends the process, rejects what is pending and
    forgets the session.
-/

namespace LanguageClient.Client

variable {η α : Type}

/-! ## Starting -/

/-- The client with nothing of an earlier session but its documents and its request ids. -/
def forgetful (c : Client η) : Client η :=
  { c with decoder := {}, declared := {}, published := {}, stderrTail := [], stderrLine := [], lastExit := none }

def start : Action η (Except Error Unit) := do
  let c : Client η ← get
  if c.phase = .starting ∨ c.phase = .ready then
    return .error (.alreadyStarted c.phase.name)
  else
    set { c.forgetful with phase := .starting }
    match ← Action.call (.spawn c.config) with
    | none =>
      Routine.log (Log.info "client" (text "Started LSP server '" ++ c.config.name ++ text "'"))
      return .ok ()
    | some why =>
      modify (fun c : Client η => { c with phase := .errored })
      let e := Error.notStarted c.config.name why
      Routine.log (Log.error "client" e.message)
      aside (emitError e)
      return .error e

/-! ## Polling -/

def expire : Aside η Unit := do
  let c : Client η ← get
  discard (onPending (Pending.expire c.link.now))

/-- How long a poll may wait: no longer than to the next deadline. -/
def patience (c : Client η) (most : Int) : Int :=
  match c.pending.nextDeadline with
  | none => most
  | some d => min most (max 0 (d - c.link.now))

def pump (most : Int) : Action η Unit := do
  let c : Client η ← get
  if c.link.running then Action.call (.poll (c.patience most))
  aside expire

def poll (wait : Int) : Action η Bool := do
  let c : Client η ← get
  if c.link.running then
    pump wait
    return true
  else
    aside expire
    return false

/-! ## Requests and notifications -/

/-- Send a request whatever the phase; without a process the asker is told so at once. -/
def ask (method : Bytes) (params : Json) (asker : Asker η) : Aside η (Option Nat) := do
  let c : Client η ← get
  if c.link.running then
    let (r, table) := c.pending.issue method params asker c.link.now
    set { c with pending := table }
    unless ← post (.request r) do
      discard (onPending (Pending.reject c.pending.nextId .notRunning))
    return some c.pending.nextId
  else
    tell (asker, .rejected .notRunning)
    return none

def isOpen (c : Client η) : Bool := c.isReady && c.link.running

def sendRequest (method : Bytes) (params : Json) (h : η) : Aside η (Option Nat) := do
  let c : Client η ← get
  if c.isOpen then ask method params (.handler h)
  else
    tell (.handler h, .rejected .notRunning)
    return none

/-- Send a notification; when the client is not ready it is dropped. -/
def sendNotification (method : Bytes) (params : Json) : Aside η Unit := do
  let c : Client η ← get
  if c.isReady then discard (post (.notification ⟨method, params⟩))
  else Routine.log (debug (text "Not sending " ++ method ++ text ": client is " ++ c.phase.name))

/-- Repeat a step until it ends with a result; when there are no rounds left, `giveUp` counts as
the result. -/
def repeatedly (step : Action η (Unit ⊕ α)) (giveUp : α) : Action η α := do
  let c : Client η ← get
  match ← Routine.loop (fun () => step) c.options.rounds () with
  | .inr a => return a
  | .inl () =>
    Action.call .spent
    return giveUp

def fetch (id : Nat) : Action η (Option Pending.Verdict) := do
  let c : Client η ← get
  set { c with answers := c.answers.filter (·.1 != id) }
  return c.answers.lookup id

/-- One look for the answer to a request; while there is none, the server is polled. A request
whose answer nobody is left to give has an empty one. -/
def awaitAnswer (id : Nat) : Action η (Unit ⊕ Pending.Verdict) := do
  match ← fetch id with
  | some v => return .inr v
  | none =>
    let c : Client η ← get
    if c.link.running then
      pump c.options.pollInterval
      return .inl ()
    else
      let e := Error.of .processExit (c.withStderrTail (text "LSP process exited")) none
      discard (aside (onPending (Pending.rejectAll e)))
      return .inr ((← fetch id).getD (.resolved .null))

def converse (method : Bytes) (params : Json) : Action η (Except Error Json) := do
  let c : Client η ← get
  let id := c.pending.nextId
  discard (aside (ask method params (.caller id)))
  match ← repeatedly (awaitAnswer id) (.rejected (.timedOut method)) with
  | .resolved result => return .ok result
  | .rejected e => return .error e

/-- Send a request and wait for its answer; a client that is not ready has nobody to answer. -/
def request (method : Bytes) (params : Json) : Action η (Except Error Json) := do
  let c : Client η ← get
  if c.isOpen then converse method params else return .error .notRunning

/-! ## Stopping -/

def awaitShutdown (id : Nat) (deadline : Int) : Action η (Unit ⊕ Unit) := do
  let c : Client η ← get
  if !c.pending.isPending id || !c.link.running then return .inr ()
  else if deadline ≤ c.link.now then
    Routine.log (debug (text "LSP shutdown request timed out for '" ++ c.config.name ++ text "'"))
    return .inr ()
  else
    pump (min (deadline - c.link.now) c.options.pollInterval)
    return .inl ()

/-- Ask the server to shut down, wait a while for its answer, and tell it to exit. -/
def takeLeave : Action η Unit := do
  let c : Client η ← get
  let id := c.pending.nextId
  discard (aside (ask (text "shutdown") .null .stopper))
  let c : Client η ← get
  repeatedly (awaitShutdown id (c.link.now + c.options.shutdownTimeout)) ()
  let c : Client η ← get
  if c.link.running then discard (aside (post (.notification ⟨text "exit", .null⟩)))

def stop : Action η Unit := do
  let before : Client η ← get
  let hadProcess := before.link.running
  if hadProcess ∨ before.phase ≠ .disconnected then set { before with phase := .stopped }
  if hadProcess ∧ before.phase = .ready then takeLeave
  let c : Client η ← get
  let code ← if c.link.running then Action.call (.terminate c.options.terminateGrace) else pure c.lastExit
  let rejected ← aside (onPending (Pending.rejectAll .stopped))
  if 0 < rejected then
    Routine.log (debug (text "Rejected " ++ Bytes.decimal rejected ++ text " pending request(s) on stop"))
  modify (fun c : Client η =>
    { c with declared := {}, documents := {}, published := {}, decoder := {}, stderrLine := [] })
  if hadProcess then
    Routine.log (Log.info "client" (text "Stopped LSP server '" ++ before.config.name ++ text "'"))
    aside (emitExit code)

/-- Give the client up; a running server is stopped first. -/
def close : Action η Unit := do
  let c : Client η ← get
  if c.link.running then stop

end LanguageClient.Client
