import LanguageClient.Routine
import LanguageClient.Message
/-
  LanguageClient.Pending — requests that wait for their answer.

  A request gets the next id, counted from 1, and a deadline. It is settled once: by the
  response with its id, when its deadline has passed, or by a rejection. Settling takes the
  request out first and then calls whoever asked, so a callback may issue new requests;
  requests issued while many are being settled at once are left alone by that operation.

  Times are milliseconds on a clock whose origin does not matter.
-/

namespace LanguageClient

structure Waiting (η : Type) where
  id : Nat
  method : Bytes
  /-- Who is to be told how the request ended. -/
  asker : η
  deadline : Int
  deriving Repr

structure Pending (η : Type) where
  /-- How long a request may wait for its answer. -/
  timeout : Int := 30000
  nextId : Nat := 1
  /-- In the order of their ids. -/
  waiting : List (Waiting η) := []
  deriving Repr

namespace Pending

variable {η : Type}

inductive Verdict where
  | resolved (result : Json)
  | rejected (e : Error)
  deriving DecidableEq, Repr

/-- The calls of the table: tell the asker of a request how the request ended. -/
abbrev Telling (η : Type) : Surface := ⟨Waiting η × Verdict, fun _ => Unit⟩

def lastId (p : Pending η) : Nat := p.nextId - 1

def count (p : Pending η) : Nat := p.waiting.length

def find? (p : Pending η) (id : Int) : Option (Waiting η) := p.waiting.find? (fun w => (w.id : Int) == id)

def isPending (p : Pending η) (id : Int) : Bool := (p.find? id).isSome

def nextDeadline (p : Pending η) : Option Int := (p.waiting.map (·.deadline)).min?

def issue (p : Pending η) (method : Bytes) (params : Json) (asker : η) (now : Int) :
    Request × Pending η :=
  (⟨.int p.nextId, method, params⟩,
    { p with nextId := p.nextId + 1, waiting := p.waiting ++ [⟨p.nextId, method, asker, now + p.timeout⟩] })

def remove (p : Pending η) (id : Int) : Pending η :=
  { p with waiting := p.waiting.filter (fun w => (w.id : Int) != id) }

/-- Take a waiting request out and tell its asker how it ended; false when none has that id. -/
def settle (id : Int) (v : Verdict) : Routine (Pending η) (Telling η) Bool := do
  match (← get).find? id with
  | none => return false
  | some w =>
    modify (fun p : Pending η => p.remove id)
    Routine.ask (S := Telling η) (w, v)
    return true

def verdictOf (r : Response) : Verdict :=
  match r.error with
  | some e => .rejected (.fromServer e.code e.message)
  | none => .resolved r.result

def complete (r : Response) : Routine (Pending η) (Telling η) Bool := do
  match r.id.integer? with
  | none =>
    Routine.log (Log.debug "correlator" (text "Response with non-integer id: " ++ r.id.written))
    return false
  | some id =>
    if (← get).isPending id then settle id (verdictOf r)
    else
      Routine.log (Log.debug "correlator" (text "No pending request for response id " ++ Bytes.ofInt id))
      return false

def reject (id : Int) (e : Error) : Routine (Pending η) (Telling η) Bool := settle id (.rejected e)

def tellAll (verdict : Waiting η → Verdict) (entry : Waiting η → List Log.Entry) :
    List (Waiting η) → Routine (Pending η) (Telling η) Unit
  | [] => pure ()
  | w :: ws => do
    (entry w).forM Routine.log
    Routine.ask (S := Telling η) (w, verdict w)
    tellAll verdict entry ws

def expiry (w : Waiting η) : Log.Entry :=
  Log.debug "correlator" (text "Request " ++ Bytes.decimal w.id ++ text " timed out: " ++ w.method)

def isDue (now : Int) (w : Waiting η) : Bool := w.deadline ≤ now

/-- Reject every request whose deadline has come, in the order of their ids, and count them. -/
def expire (now : Int) : Routine (Pending η) (Telling η) Nat := do
  let p ← get
  let due := p.waiting.filter (isDue now)
  set ({ p with waiting := p.waiting.filter (fun w => !isDue now w) } : Pending η)
  tellAll (fun w => .rejected (.timedOut w.method)) (fun w => [expiry w]) due
  return due.length

def rejectAll (e : Error) : Routine (Pending η) (Telling η) Nat := do
  let p ← get
  set ({ p with waiting := [] } : Pending η)
  tellAll (fun _ => .rejected e) (fun _ => []) p.waiting
  return p.waiting.length

end Pending

end LanguageClient
