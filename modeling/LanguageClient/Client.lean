import LanguageClient.Signal
import LanguageClient.Pending
import LanguageClient.Router
import LanguageClient.Documents
import LanguageClient.Diagnostic
import LanguageClient.Capability
import LanguageClient.Frame.Decoder
import LanguageClient.ServerConfig
/-
  LanguageClient.Client — the state of a client and the calls it makes.

  A client runs one server at a time. It is disconnected at first, starting while the
  server is being started, ready once the server has answered the greeting, stopped after
  a stop, and errored after a failed start or when the server went away by itself.

  What a client cannot do alone it asks of the world around it. Subscribers, askers and the
  writing of bytes are `Notice`s; they come up while output of the server is handled, and
  whoever is called may use the client. `Call` adds the operations on the server's process,
  and tells when a wait has gone round as often as it may, which is no timeout. The link tells
  whether a process is running and what time it is; only the world moves it.
-/

namespace LanguageClient

inductive Phase where
  | disconnected
  | starting
  | ready
  | stopped
  | errored
  deriving DecidableEq, Repr

namespace Phase

def name : Phase → Bytes
  | disconnected => text "disconnected"
  | starting => text "starting"
  | ready => text "ready"
  | stopped => text "stopped"
  | errored => text "errored"

def all : List Phase := [disconnected, starting, ready, stopped, errored]

def nameOf (code : Int) : Bytes :=
  if code < 0 then text "unknown" else (all[code.toNat]?.map name).getD (text "unknown")

end Phase

/-- Times in milliseconds. -/
structure ClientOptions where
  requestTimeout : Int := 30000
  /-- How long a waiting operation sleeps before it looks again. -/
  pollInterval : Int := 50
  /-- How long a server may take to answer the request to shut down. -/
  shutdownTimeout : Int := 2000
  /-- How long a server may take to exit before it is made to. -/
  terminateGrace : Int := 1000
  /-- How much of the end of the server's error output is kept. -/
  stderrTailBytes : Nat := 4096
  /-- How often a waiting operation looks at most. -/
  rounds : Nat := 1000000
  deriving DecidableEq, Repr

/-- What a client sees of the world: whether its server's process is running, and the time. -/
structure Link where
  running : Bool := false
  now : Int := 0
  deriving DecidableEq, Repr

inductive Asker (η : Type) where
  | handler (h : η)
  /-- The operation that waits for the answer to its request. -/
  | caller (id : Nat)
  /-- The stop that asked the server to shut down. -/
  | stopper
  deriving Repr

structure Client (η : Type) where
  config : ServerConfig
  options : ClientOptions := {}
  link : Link := {}
  phase : Phase := .disconnected
  decoder : Frame.Decoder := {}
  pending : Pending (Asker η) := { timeout := options.requestTimeout }
  /-- Answers that waiting operations have not fetched yet. -/
  answers : List (Nat × Pending.Verdict) := []
  router : Router η := {}
  declared : Declared := {}
  documents : Documents := {}
  published : Published := {}
  /-- The end of what the server wrote to its error output. -/
  stderrTail : Bytes := []
  /-- The line of its error output that is not complete yet. -/
  stderrLine : Bytes := []
  /-- The code of the last exit that was reported. -/
  lastExit : Option Int := none
  /-- Who is told when a start fails. -/
  errors : Signal η := {}
  /-- Who is told when the server's process has ended. -/
  exits : Signal η := {}
  /-- Who is told when the server has published diagnostics. -/
  publications : Signal η := {}
  deriving Repr

namespace Client

variable {η α : Type}

/-! ## Calls -/

inductive Notice (η : Type) where
  | failed (h : η) (e : Error)
  | exited (h : η) (code : Option Int)
  | told (h : η) (v : Pending.Verdict)
  | heard (h : η) (params : Json)
  | diagnosed (h : η) (p : Publication)
  /-- Write to the server, which succeeds or fails. -/
  | send (bytes : Bytes)

abbrev Notice.Reply : Notice η → Type
  | send _ => Bool
  | _ => Unit

abbrev Notices (η : Type) : Surface := ⟨Notice η, Notice.Reply⟩

inductive Call (η : Type) where
  | notice (n : Notice η)
  /-- Start the server; when that fails, the answer says why. -/
  | spawn (c : ServerConfig)
  /-- Take in what the server says, waiting for it at most `wait`. -/
  | poll (wait : Int)
  /-- End the server's process and give its exit code. -/
  | terminate (grace : Int)
  /-- A loop has gone round as often as it may; it ends when this is answered. -/
  | spent

abbrev Call.Reply : Call η → Type
  | notice n => n.Reply
  | spawn _ => Option Bytes
  | poll _ => Unit
  | terminate _ => Option Int
  | spent => Unit

abbrev Calls (η : Type) : Surface := ⟨Call η, Call.Reply⟩

/-- What the client does while it handles its server's output, and at other times too. -/
abbrev Aside (η α : Type) := Routine (Client η) (Notices η) α

abbrev Action (η α : Type) := Routine (Client η) (Calls η) α

def aside (p : Aside η α) : Action η α :=
  p.relay (fun n => Routine.ask (S := Calls η) (Call.notice n))

def Aside.call (n : Notice η) : Aside η n.Reply := Routine.ask (S := Notices η) n

def Action.call (c : Call η) : Action η c.Reply := Routine.ask (S := Calls η) c

/-! ## The parts at work -/

def debug (message : Bytes) : Log.Entry := Log.debug "client" message

def tell : Asker η × Pending.Verdict → Aside η Unit
  | (.handler h, v) => Aside.call (.told h v)
  | (.caller id, v) => modify (fun c : Client η => { c with answers := (id, v) :: c.answers })
  | (.stopper, .resolved _) => pure ()
  | (.stopper, .rejected e) => do
    let c : Client η ← get
    Routine.log (debug (text "LSP shutdown error (non-critical) for '" ++ c.config.name ++ text "': " ++ e.message))

def onPending (p : Routine (Pending (Asker η)) (Pending.Telling (Asker η)) α) : Aside η α :=
  p.within (·.pending) (fun t c => { c with pending := t })
    (fun (c : Waiting (Asker η) × Pending.Verdict) => tell (c.1.asker, c.2))

def emitError (e : Error) : Aside η Unit :=
  (Signal.emit e).within (·.errors) (fun s c => { c with errors := s })
    (fun (c : η × Error) => Aside.call (.failed c.1 c.2))

def emitExit (code : Option Int) : Aside η Unit :=
  (Signal.emit code).within (·.exits) (fun s c => { c with exits := s })
    (fun (c : η × Option Int) => Aside.call (.exited c.1 c.2))

def emitPublication (p : Publication) : Aside η Unit :=
  (Signal.emit p).within (·.publications) (fun s c => { c with publications := s })
    (fun (c : η × Publication) => Aside.call (.diagnosed c.1 c.2))

def dispatch (n : Notification) : Aside η Bool :=
  (Router.dispatch n).within (·.router) (fun r c => { c with router := r })
    (fun (c : η × Json) => Aside.call (.heard c.1 c.2))

def isReady (c : Client η) : Bool := c.phase == .ready

/-- A message followed by the end of the server's error output, if there is any. -/
def withStderrTail (c : Client η) (message : Bytes) : Bytes :=
  let tail := Bytes.dropEnd (fun b => b == Byte.lf || b == Byte.cr || b == Byte.space) c.stderrTail
  if tail = [] then message else message ++ text "\nserver stderr:\n" ++ tail

end Client

end LanguageClient
