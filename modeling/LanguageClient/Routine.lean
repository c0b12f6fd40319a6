import LanguageClient.Log
/-
  LanguageClient.Routine — computations on a state that call out, and may be re-entered
  while they wait.

  Handlers, callbacks and the transport run in the middle of an operation of the client and
  may use the client themselves. An operation is therefore not a function from state to
  state but a routine: it looks at the state, puts a new one, notes log entries, and makes
  calls whose answer it waits for. While a call is out the state may change in any way, so a
  routine that needs the state again looks again.

  - `run` carries a routine out inside a larger world, given an answer to each call.
  - `within` makes a routine on a part of a state one on the whole, `relay` makes its calls
    by other calls.
  - `loop` repeats a step until it comes to an end, a bounded number of times.
-/

namespace LanguageClient

/-- The calls a routine can make, and what each of them is answered with. -/
structure Surface where
  Call : Type
  Reply : Call → Type

inductive Routine (σ : Type) (S : Surface) (α : Type) : Type where
  | done (a : α)
  | look (next : σ → Routine σ S α)
  | put (s : σ) (next : Routine σ S α)
  | note (e : Log.Entry) (next : Routine σ S α)
  | call (c : S.Call) (next : S.Reply c → Routine σ S α)

/-- How a routine's state and its log entries sit in a larger world. -/
structure Seat (σ ω : Type) where
  look : ω → σ
  put : σ → ω → ω
  note : Log.Entry → ω → ω

namespace Routine

variable {σ τ ω α β : Type} {S T : Surface}

def bind : Routine σ S α → (α → Routine σ S β) → Routine σ S β
  | done a, f => f a
  | look next, f => look (fun s => (next s).bind f)
  | put s next, f => put s (next.bind f)
  | note e next, f => note e (next.bind f)
  | call c next, f => call c (fun r => (next r).bind f)

instance : Monad (Routine σ S) where
  pure := done
  bind := bind

instance : MonadStateOf σ (Routine σ S) where
  get := look done
  set s := put s (done ⟨⟩)
  modifyGet f := look (fun s => put (f s).2 (done (f s).1))

def log (e : Log.Entry) : Routine σ S Unit := note e (done ())

def ask (c : S.Call) : Routine σ S (S.Reply c) := call c done

theorem bind_done (p : Routine σ S α) : p.bind done = p := by
  induction p with
  | done => rfl
  | look _ ih => simp [bind, ih]
  | put _ _ ih => simp [bind, ih]
  | note _ _ ih => simp [bind, ih]
  | call _ _ ih => simp [bind, ih]

theorem bind_assoc {γ : Type} (p : Routine σ S α) (f : α → Routine σ S β) (g : β → Routine σ S γ) :
    (p.bind f).bind g = p.bind (fun a => (f a).bind g) := by
  induction p with
  | done => rfl
  | look _ ih => simp [bind, ih]
  | put _ _ ih => simp [bind, ih]
  | note _ _ ih => simp [bind, ih]
  | call _ _ ih => simp [bind, ih]

/-- Carry a routine out in a world that answers its calls. -/
def run (seat : Seat σ ω) (answer : (c : S.Call) → StateM ω (S.Reply c)) : Routine σ S α → StateM ω α
  | done a => fun w => (a, w)
  | look next => fun w => run seat answer (next (seat.look w)) w
  | put s next => fun w => run seat answer next (seat.put s w)
  | note e next => fun w => run seat answer next (seat.note e w)
  | call c next => fun w =>
    let (r, w') := answer c w
    run seat answer (next r) w'

theorem run_bind (seat : Seat σ ω) (answer : (c : S.Call) → StateM ω (S.Reply c)) (p : Routine σ S α)
    (f : α → Routine σ S β) (w : ω) :
    (p.bind f).run seat answer w = (f (p.run seat answer w).1).run seat answer (p.run seat answer w).2 := by
  induction p generalizing w with
  | done => rfl
  | look _ ih => exact ih _ w
  | put _ _ ih => exact ih _
  | note _ _ ih => exact ih _
  | call c _ ih => exact ih _ _

/-- A routine on a part of a state as one on the whole state, with its calls made by `up`. -/
def within (part : τ → σ) (place : σ → τ → τ) (up : (c : S.Call) → Routine τ T (S.Reply c)) :
    Routine σ S α → Routine τ T α
  | done a => done a
  | look next => look (fun t => within part place up (next (part t)))
  | put s next => look (fun t => put (place s t) (within part place up next))
  | note e next => note e (within part place up next)
  | call c next => (up c).bind (fun r => within part place up (next r))

def relay (up : (c : S.Call) → Routine σ T (S.Reply c)) (p : Routine σ S α) : Routine σ T α :=
  within id (fun s _ => s) up p

/-- Repeat a step from `b` on, until it ends with a result; after `rounds` steps what has
been reached so far is given instead. -/
def loop (step : β → Routine σ S (β ⊕ α)) : Nat → β → Routine σ S (β ⊕ α)
  | 0, b => done (.inl b)
  | rounds + 1, b => (step b).bind fun
    | .inl b' => loop step rounds b'
    | .inr a => done (.inr a)

end Routine

end LanguageClient
