import LanguageClient.Routine
import LanguageClient.Message
/-
  LanguageClient.Router — who is told about which notification.

  Handlers are registered for a method, any number of them. Dispatching a notification runs
  the handlers registered for its method when the dispatch began, in the order of their
  registration; what handlers register or unregister meanwhile counts for later dispatches.
-/

namespace LanguageClient

structure Router (η : Type) where
  /-- In the order in which they were made. -/
  registrations : List (Bytes × η) := []
  deriving Repr

namespace Router

variable {η : Type}

def register (r : Router η) (method : Bytes) (handler : η) : Router η :=
  ⟨r.registrations ++ [(method, handler)]⟩

def unregister (r : Router η) (method : Bytes) : Router η :=
  ⟨r.registrations.filter (·.1 != method)⟩

def handlers (r : Router η) (method : Bytes) : List η :=
  (r.registrations.filter (·.1 == method)).map (·.2)

def handles (r : Router η) (method : Bytes) : Bool := r.registrations.any (·.1 == method)

abbrev Handling (η : Type) : Surface := ⟨η × Json, fun _ => Unit⟩

def runAll (params : Json) : List η → Routine (Router η) (Handling η) Unit
  | [] => pure ()
  | h :: hs => do
    Routine.ask (S := Handling η) (h, params)
    runAll params hs

/-- Run the handlers of a notification; false when its method has none. -/
def dispatch (n : Notification) : Routine (Router η) (Handling η) Bool := do
  let r ← get
  if r.handles n.method then
    runAll n.params (r.handlers n.method)
    return true
  else
    Routine.log (Log.debug "dispatcher" (text "Unhandled notification: " ++ n.method))
    return false

end Router

end LanguageClient
