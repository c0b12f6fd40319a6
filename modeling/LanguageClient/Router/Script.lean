import LanguageClient.Router
import LanguageClient.Script
/-
  LanguageClient.Router.Script — a router used by a script.

  The handlers of the script have a tag and steps on the same router.
-/

namespace LanguageClient.Router.Script

inductive Step where
  | register (method tag : Bytes) (steps : List Step)
  | unregister (method : Bytes)
  | dispatch (n : Notification)
  | handles (method : Bytes)

structure Handler where
  tag : Bytes
  steps : List Step

inductive Answer where
  | nothing
  | truth (b : Bool)

inductive Event where
  /-- A handler ran on the parameters of a notification. -/
  | fired (tag : Bytes) (params : Json)
  /-- A handler performed a step of its own. -/
  | did (tag : Bytes) (step : Step) (answer : Answer)
  /-- The steps of a handler were left out. -/
  | cut (tag : Bytes)

structure World where
  router : Router Handler := {}
  /-- What has happened in the running step, last first. -/
  events : List Event := []
  /-- What was logged in the running step, last first. -/
  log : List Log.Entry := []

def World.record (e : Event) (w : World) : World := { w with events := e :: w.events }

def seat : Seat (Router Handler) World :=
  ⟨World.router, fun r w => { w with router := r }, fun e w => { w with log := e :: w.log }⟩

def handle (run : Option (Step → StateM World Answer)) (c : Handler × Json) : StateM World Unit := do
  modify (World.record (.fired c.1.tag c.2))
  LanguageClient.Script.act run (World.record (.cut c.1.tag))
    (fun s a => World.record (.did c.1.tag s a)) c.1.steps

def perform (run : Option (Step → StateM World Answer)) : Step → StateM World Answer
  | .register method tag steps =>
    modifyGet (fun w => (.nothing, { w with router := w.router.register method ⟨tag, steps⟩ }))
  | .unregister method => modifyGet (fun w => (.nothing, { w with router := w.router.unregister method }))
  | .dispatch n => do return .truth (← (dispatch n).run seat (handle run))
  | .handles method => do return .truth ((← get).router.handles method)

structure Outcome where
  answer : Answer
  events : List Event
  log : List Log.Entry

def play (limit : Nat) (steps : List Step) : List Outcome :=
  (LanguageClient.Script.play (LanguageClient.Script.nested perform limit)
    ({ · with events := [], log := [] })
    (fun a w => ⟨a, w.events.reverse, w.log.reverse⟩) steps {}).1

end LanguageClient.Router.Script
