import LanguageClient.Routine
/-
  LanguageClient.Signal — subscribers to an event.

  A signal keeps its subscriptions in the order in which they were made; each has an id of
  its own, and ids are never used again. Emitting an event gives every subscription that is
  there at the start its turn, in order. A handler may use the signal: a subscription that
  was removed before its turn came is passed over, and one that was made meanwhile has no
  turn in the running emission. A one-shot subscription is removed when its turn comes,
  before its handler runs.
-/

namespace LanguageClient

structure Subscription (η : Type) where
  id : Nat
  handler : η
  /-- Whether it ends with its first turn. -/
  once : Bool
  deriving Repr

structure Signal (η : Type) where
  /-- In the order in which they were made. -/
  subscriptions : List (Subscription η) := []
  nextId : Nat := 1
  deriving Repr

namespace Signal

variable {η α : Type}

def subscribe (s : Signal η) (handler : η) (once : Bool) : Nat × Signal η :=
  (s.nextId, ⟨s.subscriptions ++ [⟨s.nextId, handler, once⟩], s.nextId + 1⟩)

def on (s : Signal η) (handler : η) : Nat × Signal η := s.subscribe handler false

def once (s : Signal η) (handler : η) : Nat × Signal η := s.subscribe handler true

def find? (s : Signal η) (id : Nat) : Option (Subscription η) := s.subscriptions.find? (·.id == id)

def isSubscribed (s : Signal η) (id : Nat) : Bool := (s.find? id).isSome

def remove (s : Signal η) (id : Nat) : Signal η :=
  { s with subscriptions := s.subscriptions.filter (·.id != id) }

def off (s : Signal η) (id : Nat) : Bool × Signal η := (s.isSubscribed id, s.remove id)

def clear (s : Signal η) : Signal η := { s with subscriptions := [] }

def count (s : Signal η) : Nat := s.subscriptions.length

def ids (s : Signal η) : List Nat := s.subscriptions.map (·.id)

/-- Give a subscription its turn: its handler, if it is still there, and what is left of the signal. -/
def turn? (s : Signal η) (id : Nat) : Option (η × Signal η) :=
  (s.find? id).map (fun sub => (sub.handler, if sub.once then s.remove id else s))

abbrev Handling (η α : Type) : Surface := ⟨η × α, fun _ => Unit⟩

def turns (event : α) : List Nat → Routine (Signal η) (Handling η α) Unit
  | [] => pure ()
  | id :: ids => do
    match (← get).turn? id with
    | none => turns event ids
    | some (handler, s) =>
      set s
      Routine.ask (S := Handling η α) (handler, event)
      turns event ids

/-- Emit an event to everyone subscribed now. -/
def emit (event : α) : Routine (Signal η) (Handling η α) Unit := do
  turns event (← get).ids

end Signal

end LanguageClient
