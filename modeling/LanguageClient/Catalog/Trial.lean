import LanguageClient.Catalog
import LanguageClient.ServerProcess.Life
/-
  LanguageClient.Catalog.Trial — checking that an installed server works.

  A server is checked by running its check command, which has to succeed, or by starting
  the server itself. The process of a trial is given up at its end.
-/

namespace LanguageClient.Catalog

/-- A process on trial, and its exit once that was handed over. -/
structure Trial where
  process : ServerProcess := {}
  exit : Option (Option Nat) := none

namespace Trial

variable {α : Type}

abbrev Work (α : Type) := Routine Trial ServerProcess.Services α

def request (s : ServerProcess.Service) : Work s.Reply := Routine.ask (S := ServerProcess.Services) s

def note (message : Bytes) : Work Unit := Routine.log (Log.debug "catalog" message)

def receive : (c : ServerProcess.Call) → Work c.Reply
  | .service s => request s
  | .deliver (.exit code) => modify (fun t : Trial => { t with exit := some code })
  | .deliver (.bytes ..) => pure ()

def onProcess (p : ServerProcess.Work α) : Work α :=
  p.within (·.process) (fun q t => { t with process := q }) receive

def checkTime : Int := 5000

def pollTime : Int := 100

/-- How long the process of a trial has to end by itself. -/
def grace : Int := 100

/-- One poll of a check command; the loop ends with its exit, or when the time is over. -/
def checkStep (deadline : Int) : Work (Unit ⊕ Unit) := do
  let t : Trial ← get
  if t.exit.isSome then return .inr ()
  else if deadline ≤ (← request .time) then return .inr ()
  else if ← onProcess (ServerProcess.poll ServerProcess.patience pollTime) then return .inl ()
  else return .inr ()

def follow (command : Bytes) : Work Bool := do
  let start ← request .time
  discard (Routine.loop (fun _ => checkStep (start + checkTime)) ServerProcess.patience ())
  let t : Trial ← get
  match t.exit with
  | some code => return code == some 0
  | none =>
    note (text "Check command timed out: " ++ command)
    discard (onProcess (ServerProcess.terminate ServerProcess.patience grace))
    return false

def succeeds (command : Bytes) (args : List Bytes) : Work Bool := do
  set ({} : Trial)
  match ← onProcess (ServerProcess.launch { name := text "check", command := command, args := args }) with
  | some refusal =>
    note (text "Check command failed to start: " ++ refusal.message)
    return false
  | none => follow command

def starts (server : KnownServer) (command : Bytes) : Work Bool := do
  set ({} : Trial)
  match ← onProcess (ServerProcess.launch { name := server.name, command := command, args := server.args }) with
  | some refusal =>
    note (server.name ++ text " did not start: " ++ refusal.message)
    return false
  | none =>
    discard (onProcess (ServerProcess.terminate ServerProcess.patience grace))
    return true

end Trial

def verify (server : KnownServer) (command : Bytes) : Trial.Work Bool :=
  match server.verification with
  | .version =>
    match Bytes.words server.checkCommand with
    | [] => pure true
    | _ :: args => Trial.succeeds command args
  | .lsp => Trial.starts server command
  | .none => pure true
  | .other _ => pure false

end LanguageClient.Catalog
