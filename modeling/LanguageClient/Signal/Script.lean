import LanguageClient.Signal
import LanguageClient.Script
/-
  LanguageClient.Signal.Script — a signal used by a script.

  The handlers of the script have a tag and steps on the same signal.
-/

namespace LanguageClient.Signal.Script

inductive Step where
  | on (tag : Bytes) (steps : List Step)
  | once (tag : Bytes) (steps : List Step)
  | off (id : Nat)
  | emit (event : Int)
  | clear
  | count

structure Handler where
  tag : Bytes
  steps : List Step

inductive Answer where
  | nothing
  | number (n : Nat)
  | truth (b : Bool)

inductive Event where
  /-- A handler ran on an event. -/
  | fired (tag : Bytes) (event : Int)
  /-- A handler performed a step of its own. -/
  | did (tag : Bytes) (step : Step) (answer : Answer)
  /-- The steps of a handler were left out. -/
  | cut (tag : Bytes)

structure World where
  signal : Signal Handler := {}
  /-- What has happened in the running step, last first. -/
  events : List Event := []

def World.record (e : Event) (w : World) : World := { w with events := e :: w.events }

def seat : Seat (Signal Handler) World := ⟨World.signal, fun s w => { w with signal := s }, fun _ w => w⟩

def handle (run : Option (Step → StateM World Answer)) (c : Handler × Int) : StateM World Unit := do
  modify (World.record (.fired c.1.tag c.2))
  LanguageClient.Script.act run (World.record (.cut c.1.tag))
    (fun s a => World.record (.did c.1.tag s a)) c.1.steps

def change (f : Signal Handler → Nat × Signal Handler) : StateM World Answer :=
  modifyGet (fun w => (.number (f w.signal).1, { w with signal := (f w.signal).2 }))

def perform (run : Option (Step → StateM World Answer)) : Step → StateM World Answer
  | .on tag steps => change (·.on ⟨tag, steps⟩)
  | .once tag steps => change (·.once ⟨tag, steps⟩)
  | .off id =>
    modifyGet (fun w => (.truth (w.signal.off id).1, { w with signal := (w.signal.off id).2 }))
  | .emit event => do
    (emit event).run seat (handle run)
    pure .nothing
  | .clear => modifyGet (fun w => (.nothing, { w with signal := w.signal.clear }))
  | .count => do return .number (← get).signal.count

structure Outcome where
  answer : Answer
  events : List Event
  count : Nat

def play (limit : Nat) (steps : List Step) : List Outcome :=
  (LanguageClient.Script.play (LanguageClient.Script.nested perform limit) ({ · with events := [] })
    (fun a w => ⟨a, w.events.reverse, w.signal.count⟩) steps {}).1

end LanguageClient.Signal.Script
