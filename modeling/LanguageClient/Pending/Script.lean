import LanguageClient.Pending
import LanguageClient.Script
/-
  LanguageClient.Pending.Script — a table of pending requests used by a script.

  Whoever asks has steps of its own, on the same table, for a result and for an error.
-/

namespace LanguageClient.Pending.Script

inductive Step where
  | issue (method : Bytes) (now : Int) (params : Json) (onResult onError : List Step)
  | complete (response : Response)
  | expire (now : Int)
  | reject (id : Int) (e : Error)
  | rejectAll (e : Error)
  | isPending (id : Int)

structure Asker where
  method : Bytes
  onResult : List Step
  onError : List Step

inductive Answer where
  | request (r : Request)
  | number (n : Nat)
  | truth (b : Bool)

inductive Event where
  /-- An asker was told how its request ended. -/
  | told (method : Bytes) (v : Verdict)
  /-- An asker performed a step of its own. -/
  | did (method : Bytes) (step : Step) (answer : Answer)
  /-- The steps of an asker were left out. -/
  | cut (method : Bytes)

structure World where
  pending : Pending Asker := {}
  /-- What has happened in the running step, last first. -/
  events : List Event := []
  /-- What was logged in the running step, last first. -/
  log : List Log.Entry := []

def World.record (e : Event) (w : World) : World := { w with events := e :: w.events }

def seat : Seat (Pending Asker) World :=
  ⟨World.pending, fun p w => { w with pending := p }, fun e w => { w with log := e :: w.log }⟩

def Asker.stepsFor (a : Asker) : Verdict → List Step
  | .resolved _ => a.onResult
  | .rejected _ => a.onError

def tell (run : Option (Step → StateM World Answer)) (c : Waiting Asker × Verdict) : StateM World Unit := do
  let asker := c.1.asker
  modify (World.record (.told asker.method c.2))
  LanguageClient.Script.act run (World.record (.cut asker.method))
    (fun s a => World.record (.did asker.method s a)) (asker.stepsFor c.2)

def perform (run : Option (Step → StateM World Answer)) : Step → StateM World Answer
  | .issue method now params onResult onError =>
    modifyGet (fun w =>
      let (r, p) := w.pending.issue method params ⟨method, onResult, onError⟩ now
      (.request r, { w with pending := p }))
  | .complete r => do return .truth (← (complete r).run seat (tell run))
  | .expire now => do return .number (← (expire now).run seat (tell run))
  | .reject id e => do return .truth (← (reject id e).run seat (tell run))
  | .rejectAll e => do return .number (← (rejectAll e).run seat (tell run))
  | .isPending id => do return .truth ((← get).pending.isPending id)

structure Outcome where
  answer : Answer
  events : List Event
  log : List Log.Entry
  pending : Nat
  lastId : Nat
  nextDeadline : Option Int

def play (limit : Nat) (timeout : Option Int) (steps : List Step) : List Outcome :=
  let table : Pending Asker := match timeout with | none => {} | some t => { timeout := t }
  (LanguageClient.Script.play (LanguageClient.Script.nested perform limit)
    ({ · with events := [], log := [] })
    (fun a w => ⟨a, w.events.reverse, w.log.reverse, w.pending.count, w.pending.lastId, w.pending.nextDeadline⟩)
    steps { pending := table }).1

end LanguageClient.Pending.Script
