import LanguageClient.Proofs.Reentry
import LanguageClient.Proofs.ServerProcess.Child
import LanguageClient.ServerProcess.Life
/-
  LanguageClient.Proofs.ServerProcess.Scene — a client and a child, move by move.

  A scene is a moment of the client's end together with the child. Whoever has the word makes
  the next move: the child does something, the system answers a request, whoever uses the
  process polls or writes. A poll is entered when nothing else goes on; a write also by whoever
  is being handed something.

  - `take` makes one move, if it is possible, and `play` a list of them.
  - `Faithful` says that what was handed over is what was written.
-/

namespace LanguageClient.ServerProcess

inductive Use where
  | poll (wait : Int)
  | write (bytes : Bytes)
  deriving DecidableEq

def uses (rounds : Nat) : Operations ServerProcess Calls where
  Op := Use
  Answer _ := Bool
  body
    | .poll wait => poll rounds wait
    | .write bytes => write rounds bytes

section

variable {rounds : Nat}

def Use.mayEnter : List (uses rounds).Suspended → Use → Bool
  | [], _ => true
  | ⟨_, _, .deliver _, _⟩ :: _, .write _ => true
  | _ :: _, _ => false

def deliveryOf : (uses rounds).Event → Option Delivery
  | .called (.deliver d) => some d
  | _ => none

def deliveries (trace : List (uses rounds).Event) : List Delivery := trace.filterMap deliveryOf

end

structure Scene (rounds : Nat) where
  moment : (uses rounds).Moment
  child : Child

namespace Scene

variable {rounds : Nat}

def start (rounds : Nat) (x : Spawned) : Scene rounds := ⟨⟨x.process, [], []⟩, {}⟩

def handed (c : Scene rounds) : List Delivery := deliveries c.moment.trace

end Scene

inductive Cue where
  | child (m : Child.Move)
  | enter (u : Use)
  /-- The system answers the request that is waiting. -/
  | answer (q : Service) (r : q.Reply)
  /-- Whoever was handed something returns. -/
  | back

def take {rounds : Nat} (x : Spawned) (c : Scene rounds) : Cue → Option (Scene rounds)
  | .child m => some { c with child := c.child.move m }
  | .enter u => if u.mayEnter c.moment.stack then some { c with moment := c.moment.enter u } else none
  | .answer q r =>
    match c.moment with
    | ⟨p, ⟨op, start, .service q', next⟩ :: stack, trace⟩ =>
      if h : q = q' then
        (c.child.answer x q r).map fun k => ⟨.proceed ⟨p, stack, trace⟩ op start (next (h ▸ r)), k⟩
      else none
    | _ => none
  | .back =>
    match c.moment with
    | ⟨p, ⟨op, start, .deliver _, next⟩ :: stack, trace⟩ =>
      some { c with moment := .proceed ⟨p, stack, trace⟩ op start (next ()) }
    | _ => none

section take

variable {rounds : Nat} {x : Spawned} {c c' : Scene rounds}

theorem take_enter {u : Use} (h : take x c (.enter u) = some c') :
    u.mayEnter c.moment.stack = true ∧ c' = { c with moment := c.moment.enter u } := by
  rw [take] at h
  split at h
  · rename_i hmay
    exact ⟨hmay, (Option.some.inj h).symm⟩
  · cases h

theorem take_answer {q : Service} {r : q.Reply} (h : take x c (.answer q r) = some c') :
    ∃ p op start next stack trace k, c.moment = ⟨p, ⟨op, start, .service q, next⟩ :: stack, trace⟩ ∧
      c.child.answer x q r = some k ∧ c' = ⟨.proceed ⟨p, stack, trace⟩ op start (next r), k⟩ := by
  rw [take] at h
  split at h
  · rename_i p op start q' next stack trace hmoment
    split at h
    · rename_i hq
      subst hq
      obtain ⟨k, hk, rfl⟩ := Option.map_eq_some_iff.1 h
      exact ⟨p, op, start, next, stack, trace, k, hmoment, hk, rfl⟩
    · cases h
  · cases h

theorem take_back (h : take x c .back = some c') :
    ∃ p op start d next stack trace, c.moment = ⟨p, ⟨op, start, .deliver d, next⟩ :: stack, trace⟩ ∧
      c' = { c with moment := .proceed ⟨p, stack, trace⟩ op start (next ()) } := by
  rw [take] at h
  split at h
  · rename_i p op start d next stack trace hmoment
    exact ⟨p, op, start, d, next, stack, trace, hmoment, (Option.some.inj h).symm⟩
  · cases h

end take

def play {rounds : Nat} (x : Spawned) (allows : Scene rounds → Cue → Bool) (cues : List Cue) (c : Scene rounds) :
    Option (Scene rounds) :=
  cues.foldlM (fun c cue => if allows c cue then take x c cue else none) c

theorem play_cons {rounds : Nat} {x : Spawned} {allows : Scene rounds → Cue → Bool} {cue : Cue} {cues : List Cue}
    {c c' : Scene rounds} (h : play x allows (cue :: cues) c = some c') :
    allows c cue = true ∧ ∃ c₁, take x c cue = some c₁ ∧ play x allows cues c₁ = some c' := by
  unfold play at h
  rw [List.foldlM_cons] at h
  split at h
  · rename_i hallows
    obtain ⟨c₁, ht, hp⟩ := Option.bind_eq_some_iff.1 h
    exact ⟨hallows, c₁, ht, hp⟩
  · cases h

/-! ## What was handed over -/

def bytesOf (s : Stream) (ds : List Delivery) : Bytes :=
  ds.flatMap fun
    | .bytes t b => if t = s then b else []
    | .exit _ => []

/-- The bytes of each stream were handed over in the order in which they were written, none of
them twice and none left out; and the exit was handed over last, after everything that had been
written when the child ended. -/
structure Faithful (k : Child) (ds : List Delivery) : Prop where
  in_order : ∀ s, bytesOf s ds <+: k.written s
  complete : ∀ before code after, ds = before ++ .exit code :: after →
    after = [] ∧ ∃ l, k.last = some l ∧ ∀ s, l s <+: bytesOf s before

namespace Scene

variable {rounds : Nat}

/-- A poll that asks whether the child has ended holds nothing. -/
def isSettled (c : Scene rounds) (_ : Cue) : Bool :=
  match c.moment.stack with
  | ⟨.poll _, _, .service (.reap _), _⟩ :: _ => c.moment.state.heldOutput.isEmpty && c.moment.state.heldErrors.isEmpty
  | _ => true

def isListening (c : Scene rounds) : Cue → Bool
  | .enter _ => c.moment.stack.isEmpty
  | _ => true

end Scene

end LanguageClient.ServerProcess
