import LanguageClient.Cli.Commands
import LanguageClient.Catalog.Trial
import LanguageClient.Host.Parent
/-
  LanguageClient.Cli.Run — the command line on a machine.

  The machine has the files, the environment and the processes. What the command line
  prints and what it logs is kept in the order in which it is written; the level of the log
  is that of the environment until an option sets another.
-/

namespace LanguageClient.Cli

open Host (Machine)

structure World where
  machine : Machine
  level : Log.Level
  client : Option (Client Listener) := none
  /-- The process of the client's server. -/
  process : ServerProcess := {}
  trial : Catalog.Trial := {}
  /-- Whether diagnostics have come for the document that somebody waits for. -/
  received : Bool := false
  output : Bytes := []
  errors : Bytes := []

namespace World

variable {α : Type}

def logged (e : Log.Entry) (w : World) : World := { w with errors := w.errors ++ e.written w.level }

def provide (s : ServerProcess.Service) : StateM World s.Reply := fun w =>
  let (r, m) := Machine.provide s w.machine
  (r, { w with machine := m })

/-! ## The process of the client's server -/

def processSeat : Seat ServerProcess World := ⟨World.process, fun p w => { w with process := p }, logged⟩

def answerProcess (receive : ServerProcess.Delivery → StateM World Unit) :
    (c : ServerProcess.Call) → StateM World c.Reply
  | .service s => provide s
  | .deliver d => receive d

def onProcess (receive : ServerProcess.Delivery → StateM World Unit) (p : ServerProcess.Work α) : StateM World α :=
  p.run processSeat (answerProcess receive)

/-- Let the client know whether its server is running, and what time it is. -/
def relink : StateM World Unit :=
  modify (fun w =>
    { w with client := w.client.map (fun c => { c with link := ⟨w.process.isRunning, w.machine.now⟩ }) })

/-! ## The client -/

def clientSeat (c : Client Listener) : Seat (Client Listener) World :=
  ⟨fun w => w.client.getD c, fun c w => { w with client := some c }, logged⟩

def answerPlain : (n : Client.Notice Listener) → StateM World n.Reply
  | .failed _ _ => pure ()
  | .exited _ _ => pure ()
  | .told _ _ => pure ()
  | .heard _ _ => pure ()
  | .diagnosed (.own _) _ => pure ()
  | .diagnosed (.waiting uri) p => modify fun w => { w with received := w.received || p.uri == uri }
  | .send bytes => do
    let sent ← onProcess (fun _ => pure ()) (ServerProcess.write ServerProcess.patience bytes)
    relink
    return sent

def answerNotice : (n : Client.Notice Listener) → StateM World n.Reply
  | .heard (.own l) params => do
    match (← get).client with
    | none => pure ()
    | some c => (Client.hear l params).run (clientSeat c) answerPlain
  | n => answerPlain n

def tellClient (p : Client.Aside Listener Unit) : StateM World Unit := do
  relink
  match (← get).client with
  | none => pure ()
  | some c => p.run (clientSeat c) answerNotice

def receive : ServerProcess.Delivery → StateM World Unit
  | .bytes .output b => tellClient (Client.onStdout b)
  | .bytes .errors b => tellClient (Client.onStderr b)
  | .exit code => tellClient (Client.onExit (code.map Int.ofNat))

def answerClient : (c : Client.Call Listener) → StateM World c.Reply
  | .notice n => answerNotice n
  | .spawn c => do
    let refusal ← onProcess receive (ServerProcess.launch c)
    relink
    return refusal.map Launch.Refusal.message
  | .poll wait => do
    discard (onProcess receive (ServerProcess.poll ServerProcess.patience wait))
    relink
  | .terminate grace => do
    let code ← onProcess receive (ServerProcess.terminate ServerProcess.patience grace)
    relink
    return code.map Int.ofNat
  | .spent => pure ()

/-! ## The command line -/

def trialSeat : Seat Catalog.Trial World := ⟨World.trial, fun t w => { w with trial := t }, logged⟩

def check (server : KnownServer) (command : Bytes) : StateM World Bool :=
  (Catalog.verify server command).run trialSeat provide

def answer : (c : Call) → StateM World c.Reply
  | .surroundings => provide .surroundings
  | .check server command => check server command
  | .client c => answerClient c
  | .processId => pure (Int.ofNat Machine.client)
  | .hasReceived => do return (← get).received
  | .print b => modify (fun w : World => { w with output := w.output ++ b })
  | .complain b => modify (fun w : World => { w with errors := w.errors ++ b })

def seat : Seat (Option (Client Listener)) World := ⟨World.client, fun c w => { w with client := c }, logged⟩

def carryOut (p : Work α) : StateM World α := p.run seat answer

end World

/-! ## Whole runs -/

structure Outcome where
  status : Nat
  output : Bytes
  errors : Bytes

def levelOf (environment : List Bytes) : Log.Level :=
  match Environment.value? (text "NANOLSP_LOG_LEVEL") environment with
  | none => .warn
  | some s => Log.Level.ofTextOr .warn s

def workFor (level : Log.Level) : List Bytes → Log.Level × Work Nat
  | [] => (level, refuse usage)
  | name :: args =>
    match optioned? name.beforeNul with
    | none => (level, plain name.beforeNul)
    | some command =>
      match Options.read { logLevel := level } args with
      | (o, some refusal) => (o.logLevel, refuse refusal.message)
      | (o, none) => (o.logLevel, command o)

def run (m : Machine) (args : List Bytes) : Outcome :=
  let (level, work) := workFor (levelOf m.environment) args
  let (status, w) := (World.carryOut work).run { machine := m, level := level }
  ⟨status, w.output, w.errors⟩

/-- Choose the server for a file on a machine; with it comes what is said on the error output. -/
def resolve (m : Machine) (o : Options) (file : Bytes) : Option ServerConfig × Bytes :=
  let (found, w) := (World.carryOut (serverFor o file)).run { machine := m, level := o.logLevel }
  match found with
  | .ok c => (some c, w.errors)
  | .error lack => (none, w.errors ++ lack.message)

end LanguageClient.Cli
