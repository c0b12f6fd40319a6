import LanguageClient.ServerProcess.Life
import LanguageClient.Host.Parent
import LanguageClient.Script
/-
  LanguageClient.ServerProcess.Script — a server's process used by a script, on a machine.

  What the polls hand over is collected until the script asks for it. Two steps poll again
  and again, until the exit has been handed over or until enough bytes have.
-/

namespace LanguageClient.ServerProcess.Script

open Host (Machine Pipe)

inductive Step where
  | launch (c : ServerConfig)
  | write (bytes : Bytes)
  | poll
  | pollUntilExit
  /-- Poll until so many bytes of output and of error output have come. -/
  | pollUntil (output errors : Nat)
  | terminate (grace : Int)

structure Collected where
  output : Pipe := {}
  errors : Pipe := {}
  exit : Option (Option Nat) := none

def Collected.take (c : Collected) : Delivery → Collected
  | .bytes .output b => { c with output := c.output.push b }
  | .bytes .errors b => { c with errors := c.errors.push b }
  | .exit code => { c with exit := some code }

inductive Answer where
  | launched (refusal : Option Launch.Refusal)
  | written (isWritten : Bool)
  | polled (isRunning : Bool) (c : Collected)
  | collected (c : Collected)
  | terminated (code : Option Nat)

structure World where
  machine : Machine
  process : ServerProcess := {}
  collected : Collected := {}
  /-- What was logged in the running step, last first. -/
  log : List Log.Entry := []

def seat : Seat ServerProcess World :=
  ⟨World.process, fun p w => { w with process := p }, fun e w => { w with log := e :: w.log }⟩

def onMachine {α : Type} (f : StateM Machine α) : StateM World α := fun w =>
  let (a, m) := f w.machine
  (a, { w with machine := m })

def answer : (c : Call) → StateM World c.Reply
  | .service s => onMachine (Machine.provide s)
  | .deliver d => modify (fun w : World => { w with collected := w.collected.take d })

def carryOut {α : Type} (p : Work α) : StateM World α := p.run seat answer

/-! ## Steps -/

def pollTime : Int := 50

def stepTime : Int := 5000

/-- Poll until something holds of what was collected, the time is over or there is no process. -/
def pollWhile (isDone : Collected → Bool) (deadline : Int) : Nat → StateM World Unit
  | 0 => pure ()
  | n + 1 => do
    let w ← get
    if isDone w.collected || deadline ≤ w.machine.now then pure ()
    else if ← carryOut (ServerProcess.poll ServerProcess.patience pollTime) then pollWhile isDone deadline n
    else pure ()

def pollFor (isDone : Collected → Bool) : StateM World Unit := do
  pollWhile isDone ((← get).machine.now + stepTime) patience

def collect : StateM World Collected := modifyGet (fun w => (w.collected, { w with collected := {} }))

def perform : Step → StateM World Answer
  | .launch c => do return .launched (← carryOut (ServerProcess.launch c))
  | .write bytes => do return .written (← carryOut (ServerProcess.write ServerProcess.patience bytes))
  | .poll => do
    let isRunning ← carryOut (ServerProcess.poll ServerProcess.patience 0)
    return .polled isRunning (← collect)
  | .pollUntilExit => do
    pollFor (fun c => c.exit.isSome)
    return .collected (← collect)
  | .pollUntil output errors => do
    pollFor (fun c => output ≤ c.output.size && errors ≤ c.errors.size)
    return .collected (← collect)
  | .terminate grace => do return .terminated (← carryOut (ServerProcess.terminate ServerProcess.patience grace))

/-! ## Playing a script -/

structure Outcome where
  answer : Answer
  log : List Log.Entry
  process : ServerProcess

def observe (a : Answer) (w : World) : Outcome := ⟨a, w.log.reverse, w.process⟩

def play (m : Machine) (steps : List Step) : List Outcome :=
  (LanguageClient.Script.play perform (fun w : World => { w with log := [] }) observe steps { machine := m }).1

end LanguageClient.ServerProcess.Script
