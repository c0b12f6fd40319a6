import LanguageClient.Client.Features
import LanguageClient.Script
/-
  LanguageClient.Client.Script — a client used by a script, on a server that never starts.

  The server of the script is a part of it: the script sets whether a process is running,
  what the next polls deliver and what ending the process gives. Starting always fails.
  Subscribers of the client, and the server at its operations, may have steps on the client.

  From the moment the client is closed only the server can be changed; that goes for the
  handlers that are called while it closes too.
-/

namespace LanguageClient.Client.Script

/-- What one poll delivers; an exit comes last. -/
structure Delivery where
  stdout : Option Bytes := none
  stderr : Option Bytes := none
  exit : Option (Option Int) := none

inductive Step where
  /-- Change the server: whatever is given replaces what was there, time passes and deliveries are added. -/
  | change (running : Option Bool) (refusal : Option Bytes) (terminateCode : Option (Option Int)) (advance : Int)
      (deliveries : List Delivery) (onSpawn onPoll onTerminate : Option (List Step))
  | start
  | stop
  | poll (wait : Int)
  | request (method : Bytes)
  | notify (method : Bytes)
  | sendRequest (method : Bytes)
  | completions (uri : Bytes)
  | codeActions (uri : Bytes)
  | formatEdits (uri : Bytes)
  | diagnostics (uri : Bytes)
  | published (uri : Bytes)
  | version (uri : Bytes)
  | config
  | close

structure Handler where
  tag : Bytes
  steps : List Step := []

inductive Answer where
  | nothing
  | failed (e : Error)
  | truth (b : Bool)
  | number (n : Option Nat)
  | length (n : Nat)
  | config (c : ServerConfig)
  /-- The client was closed before. -/
  | closed

inductive Event where
  | error (e : Error)
  | exit (code : Option Int)
  | told (v : Pending.Verdict)
  | spawned (name : Bytes)
  | polled (wait : Int)
  | sent (bytes : Bytes)
  | terminated (grace : Int)
  /-- A handler performed a step of its own. -/
  | did (tag : Bytes) (step : Step) (answer : Answer)
  /-- The steps of a handler were left out. -/
  | cut (tag : Bytes)

structure Server where
  /-- Why a configuration cannot be started. -/
  refusal : ServerConfig → Bytes
  /-- Whether the operations on the server are recorded. -/
  watched : Bool
  terminateCode : Option Int := some 0
  deliveries : List Delivery := []
  onSpawn : List Step := []
  onPoll : List Step := []
  onTerminate : List Step := []

structure World where
  client : Client Handler
  isClosed : Bool := false
  server : Server
  /-- What has happened in the running step, last first. -/
  events : List Event := []
  /-- What was logged in the running step, last first. -/
  log : List Log.Entry := []

def World.record (e : Event) (w : World) : World := { w with events := e :: w.events }

def World.watch (e : Event) (w : World) : World := if w.server.watched then w.record e else w

def World.link (f : Link → Link) (w : World) : World := { w with client := { w.client with link := f w.client.link } }

def seat : Seat (Client Handler) World :=
  ⟨World.client, fun c w => { w with client := c }, fun e w => { w with log := e :: w.log }⟩

abbrev Runner := Option (Step → StateM World Answer)

def runSteps (run : Runner) (h : Handler) : StateM World Unit :=
  LanguageClient.Script.act run (World.record (.cut h.tag)) (fun s a => World.record (.did h.tag s a)) h.steps

def answerNotice (run : Runner) : (n : Notice Handler) → StateM World n.Reply
  | .failed h e => do
    modify (World.record (.error e))
    runSteps run h
  | .exited h code => do
    modify (World.record (.exit code))
    runSteps run h
  | .told _ v => modify (World.record (.told v))
  | .heard _ _ => pure ()
  | .diagnosed _ _ => pure ()
  | .send bytes => do
    modify (World.record (.sent bytes))
    return true

def runAside {α : Type} (run : Runner) (p : Aside Handler α) : StateM World α := p.run seat (answerNotice run)

/-- Deliver the next item of the queue; with nothing to deliver the time of the poll passes. -/
def deliver (run : Runner) (wait : Int) : StateM World Unit := do
  let w ← get
  match w.server.deliveries with
  | [] => modify (World.link (fun l => { l with now := l.now + wait }))
  | d :: rest =>
    set { w with server := { w.server with deliveries := rest } }
    if let some chunk := d.stdout then runAside run (onStdout chunk)
    if let some chunk := d.stderr then runAside run (onStderr chunk)
    if let some code := d.exit then
      modify (World.link ({ · with running := false }))
      runAside run (onExit code)

def answerCall (run : Runner) : (c : Call Handler) → StateM World c.Reply
  | .notice n => answerNotice run n
  | .spawn c => do
    modify (World.watch (.spawned c.name))
    runSteps run ⟨text "spawn", (← get).server.onSpawn⟩
    return some ((← get).server.refusal c)
  | .poll wait => do
    modify (World.watch (.polled wait))
    runSteps run ⟨text "poll", (← get).server.onPoll⟩
    deliver run wait
  | .terminate grace => do
    modify (World.watch (.terminated grace))
    runSteps run ⟨text "terminate", (← get).server.onTerminate⟩
    modify (World.link ({ · with running := false }))
    return (← get).server.terminateCode
  | .spent => pure ()

def runAction {α : Type} (run : Runner) (p : Action Handler α) : StateM World α := p.run seat (answerCall run)

/-! ## Steps -/

def ofResult : Except Error Unit → Answer
  | .ok () => .nothing
  | .error e => .failed e

def ofList {α : Type} : Except Error (List α) → Answer
  | .ok vs => .length vs.length
  | .error e => .failed e

def asker : Handler := ⟨text "request", []⟩

def performOpen (run : Runner) : Step → StateM World Answer
  | .change .. => pure .nothing
  | .start => do return ofResult (← runAction run Client.start)
  | .stop => do
    runAction run Client.stop
    return .nothing
  | .poll wait => do return .truth (← runAction run (Client.poll wait))
  | .request method => do
    return ofResult ((← runAction run (Client.request method .null)).map (fun _ => ()))
  | .notify method => do
    runAside run (sendNotification method .null)
    return .nothing
  | .sendRequest method => do return .number (← runAside run (Client.sendRequest method .null asker))
  | .completions uri => do return ofList (← runAction run (Client.completions uri {}))
  | .codeActions uri => do return ofList (← runAction run (Client.codeActions uri [] {}))
  | .formatEdits uri => do return ofList (← runAction run (Client.formatEdits uri {}))
  | .diagnostics uri => do return .length (← runAction run (pullDiagnostics uri)).length
  | .published uri => do return .length ((← get).client.published.of uri).length
  | .version uri => do return .number ((← get).client.documents.version? uri)
  | .config => do return .config (← get).client.config
  | .close => do
    modify ({ · with isClosed := true })
    runAction run Client.close
    return .nothing

def perform (run : Runner) : Step → StateM World Answer
  | .change running refusal terminateCode advance deliveries onSpawn onPoll onTerminate =>
    modifyGet (fun w =>
      let w := w.link (fun l => ⟨running.getD l.running, l.now + advance⟩)
      let s := w.server
      (.nothing, { w with server :=
        { s with
          refusal := match refusal with | some why => fun _ => why | none => s.refusal
          terminateCode := terminateCode.getD s.terminateCode
          deliveries := s.deliveries ++ deliveries
          onSpawn := onSpawn.getD s.onSpawn
          onPoll := onPoll.getD s.onPoll
          onTerminate := onTerminate.getD s.onTerminate } }))
  | step => do
    if (← get).isClosed then
      match step with
      | .close => return .nothing
      | _ => return .closed
    else performOpen run step

/-! ## Playing a script -/

structure Outcome where
  answer : Answer
  events : List Event
  log : List Log.Entry
  /-- The client after the step, as long as it is not closed. -/
  client : Option (Client Handler)
  link : Link

def observe (a : Answer) (w : World) : Outcome :=
  ⟨a, w.events.reverse, w.log.reverse, if w.isClosed then none else some w.client, w.client.link⟩

def fresh (w : World) : World := { w with events := [], log := [] }

structure Setup where
  config : ServerConfig
  options : ClientOptions := {}
  server : Server
  onError : List Step := []
  onExit : List Step := []

def Setup.client (s : Setup) : Client Handler :=
  { config := s.config
    options := s.options
    errors := (({} : Signal Handler).on ⟨text "error", s.onError⟩).2
    exits := (({} : Signal Handler).on ⟨text "exit", s.onExit⟩).2 }

/-- Play a script on a new client and close the client at its end; what is logged then is
given apart. -/
def play (limit : Nat) (s : Setup) (steps : List Step) : List Outcome × List Log.Entry :=
  let step := LanguageClient.Script.nested perform limit
  let (outcomes, w) :=
    LanguageClient.Script.play step fresh observe steps { client := s.client, server := s.server }
  (outcomes, (step .close (fresh w)).2.log.reverse)

end LanguageClient.Client.Script
