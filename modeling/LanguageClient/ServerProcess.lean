import LanguageClient.Routine
import LanguageClient.Host.SignalNumber
import LanguageClient.ServerProcess.Launch
/-
  LanguageClient.ServerProcess — a server's process, seen from the client.

  The client has the process and the near ends of three pipes: it writes to the server's
  input and reads its output and its error output. Nothing it does blocks for long: a read
  gives what is there, and a write that finds the pipe full reads meanwhile, because the
  server may itself be waiting for room. What is read while writing is held and handed over
  by the next poll.

  - `drain` reads a stream until nothing is there, and closes it at its end.
  - `write` writes bytes to the server's input, all of them or a beginning.
-/

namespace LanguageClient

open Host (Errno SignalNumber)

inductive Stream where
  | output
  | errors
  deriving DecidableEq, Repr

structure ServerProcess where
  pid : Option Nat := none
  /-- The descriptor of the server's input. -/
  input : Option Nat := none
  output : Option Nat := none
  errors : Option Nat := none
  /-- What was read of its output while writing. -/
  heldOutput : Bytes := []
  heldErrors : Bytes := []
  deriving DecidableEq, Repr

structure Started where
  pid : Nat
  input : Nat
  output : Nat
  errors : Nat
  deriving DecidableEq, Repr

def Started.process (s : Started) : ServerProcess :=
  { pid := some s.pid, input := some s.input, output := some s.output, errors := some s.errors }

inductive Received where
  | bytes (b : Bytes)
  | interrupted
  /-- There is nothing now. -/
  | nothing
  /-- There is nothing and never will be. -/
  | ended

inductive Accepted where
  /-- So many bytes were taken, at least one. -/
  | bytes (n : Nat)
  | interrupted
  /-- There is no room now. -/
  | full
  | refused (why : Errno)

inductive Fate where
  | running
  /-- It has ended; a killed process has no exit code. This is told only once. -/
  | ended (code : Option Nat)
  /-- There is no such child, or its end has been told already. -/
  | unknown

/-- What the system fails at when it starts no process. -/
inductive Unstarted where
  | noPipe (why : Errno)
  | noFork (why : Errno)
  | notExecuted (why : Errno)
  deriving DecidableEq, Repr

def Unstarted.refusal (command : Bytes) : Unstarted → Launch.Refusal
  | noPipe why => .noPipe why
  | noFork why => .noFork why
  | notExecuted why => .notExecuted command why

namespace ServerProcess

variable {α β : Type}

/-! ## Calls -/

inductive Service where
  | surroundings
  | start (l : Launch)
  | receive (fd : Nat)
  | send (fd : Nat) (bytes : Bytes)
  /-- Wait a moment for room in a pipe, or for something to read in others; false when that fails. -/
  | awaitRoom (fd : Nat) (others : List Nat)
  /-- Wait for something to read, at most so many milliseconds. -/
  | awaitBytes (fds : List Nat) (ms : Int)
  /-- Ask whether a child has ended. -/
  | reap (pid : Nat)
  /-- Wait until a child has ended. -/
  | collect (pid : Nat)
  | signal (pid : Nat) (number : SignalNumber)
  | pause (ms : Nat)
  | time
  | close (fd : Nat)
  /-- A loop has gone round as often as it may; it ends when this is answered. -/
  | spent
  deriving DecidableEq

abbrev Service.Reply : Service → Type
  | surroundings => Surroundings
  | start _ => Except Unstarted Started
  | receive _ => Received
  | send .. => Accepted
  | awaitRoom .. => Bool
  | awaitBytes .. => Unit
  | reap _ => Fate
  | collect _ => Fate
  | signal .. => Unit
  | pause _ => Unit
  | time => Int
  | close _ => Unit
  | spent => Unit

abbrev Services : Surface := ⟨Service, Service.Reply⟩

inductive Delivery where
  | bytes (s : Stream) (b : Bytes)
  | exit (code : Option Nat)
  deriving DecidableEq, Repr

/-- The calls of the client's end: services of the system, and deliveries to whoever polls,
who may use the process. -/
inductive Call where
  | service (s : Service)
  | deliver (d : Delivery)

abbrev Call.Reply : Call → Type
  | service s => s.Reply
  | deliver _ => Unit

abbrev Calls : Surface := ⟨Call, Call.Reply⟩

abbrev Work (α : Type) := Routine ServerProcess Calls α

def request (s : Service) : Work s.Reply := Routine.ask (S := Calls) (Call.service s)

def deliver (d : Delivery) : Work Unit := Routine.ask (S := Calls) (Call.deliver d)

/-! ## Streams -/

def isRunning (p : ServerProcess) : Bool := p.pid.isSome

def descriptor (p : ServerProcess) : Stream → Option Nat
  | .output => p.output
  | .errors => p.errors

def sources (p : ServerProcess) : List Nat := p.output.toList ++ p.errors.toList

def ended (p : ServerProcess) : Stream → ServerProcess
  | .output => { p with output := none }
  | .errors => { p with errors := none }

def held (p : ServerProcess) : Stream → Bytes
  | .output => p.heldOutput
  | .errors => p.heldErrors

def setHeld (p : ServerProcess) (b : Bytes) : Stream → ServerProcess
  | .output => { p with heldOutput := b }
  | .errors => { p with heldErrors := b }

/-! ## Loops

A loop goes round at most `rounds` times. -/

/-- How often a loop goes round when somebody waits for its end. -/
def patience : Nat := 1000000

/-- Repeat a step from `b` on, until it ends with a result; when there are no rounds left,
what has been reached so far counts as the result. -/
def repeatedly (rounds : Nat) (step : β → Work (β ⊕ α)) (b : β) (giveUp : β → α) : Work α := do
  match ← Routine.loop step rounds b with
  | .inr a => return a
  | .inl reached =>
    request .spent
    return giveUp reached

/-! ## Reading -/

/-- One read of a descriptor, after what has been read; true with the result when the
stream has ended. -/
def drainStep (fd : Nat) (got : Bytes) : Work (Bytes ⊕ Bytes × Bool) := do
  match ← request (.receive fd) with
  | .bytes b => return .inl (got ++ b)
  | .interrupted => return .inl got
  | .nothing => return .inr (got, false)
  | .ended => return .inr (got, true)

def drain (rounds : Nat) (s : Stream) : Work Bytes := do
  let p : ServerProcess ← get
  match p.descriptor s with
  | none => return []
  | some fd =>
    let (got, hasEnded) ← repeatedly rounds (drainStep fd) [] (fun got => (got, false))
    if hasEnded then
      request (.close fd)
      modify (fun p : ServerProcess => p.ended s)
    return got

def hold (rounds : Nat) (s : Stream) : Work Unit := do
  let b ← drain rounds s
  modify (fun p : ServerProcess => p.setHeld (p.held s ++ b) s)

/-! ## Writing -/

/-- Take back what the pipe has not taken, while there is no room in it; the pipe may be
waited for in vain. -/
def makeRoom (rounds fd : Nat) : Work Bool := do
  let p : ServerProcess ← get
  if ← request (.awaitRoom fd p.sources) then
    hold rounds .output
    hold rounds .errors
    return true
  else return false

/-- One write of what is left; a result says whether everything has been written. -/
def writeStep (rounds fd : Nat) (rest : Bytes) : Work (Bytes ⊕ Bool) := do
  if rest = [] then return .inr true
  else
    match ← request (.send fd rest) with
    | .bytes n => return .inl (rest.drop n)
    | .interrupted => return .inl rest
    | .full => if ← makeRoom rounds fd then return .inl rest else return .inr false
    | .refused why =>
      Routine.log (Log.debug "process" (text "write to server stdin failed: " ++ why.message))
      return .inr false

def write (rounds : Nat) (bytes : Bytes) : Work Bool := do
  let p : ServerProcess ← get
  match p.input with
  | none => return false
  | some fd => repeatedly rounds (writeStep rounds fd) bytes List.isEmpty

end ServerProcess

end LanguageClient
