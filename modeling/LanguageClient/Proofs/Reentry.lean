import Mathlib.Logic.Relation
import LanguageClient.Routine
/-
  LanguageClient.Proofs.Reentry — operations that are entered again while they call out.

  A component offers operations, each a routine on its state. Whoever is called while an
  operation waits may use the component: enter operations, again and again, until it
  returns. Nothing else is known about it. A `Moment` is a state of the component at which
  somebody else has the word, with the operations that wait for a reply, the innermost
  first, and everything that happened so far.

  - `Step`: whoever has the word enters an operation or replies; the component then gets as
    far as it can by itself (`Routine.advance`).
  - `Reachable.induct`: what holds at first and is kept by every step holds at every moment.
  - `StepIf`: the steps that are left when not every operation may be entered at any time.
  - `proceed_run`: carrying an operation out in a world whose answers use the component only
    through its operations is a sequence of steps.
-/

namespace LanguageClient

namespace Routine

variable {σ α β : Type} {S : Surface}

inductive Pause (σ : Type) (S : Surface) (α : Type) where
  | ended (a : α)
  | waiting (c : S.Call) (next : S.Reply c → Routine σ S α)

def advance : Routine σ S α → σ → Pause σ S α × σ
  | done a, s => (.ended a, s)
  | look next, s => (next s).advance s
  | put s next, _ => next.advance s
  | note _ next, s => next.advance s
  | call c next, s => (.waiting c next, s)

theorem advance_bind (p : Routine σ S α) (f : α → Routine σ S β) (s : σ) :
    (p.bind f).advance s = match p.advance s with
      | (.ended a, s') => (f a).advance s'
      | (.waiting c next, s') => (.waiting c fun r => (next r).bind f, s') := by
  induction p generalizing s with
  | done a => rfl
  | look next ih => exact ih s s
  | put t next ih => exact ih t
  | note e next ih => exact ih s
  | call c next _ => rfl

theorem advance_bind_of_ended {p : Routine σ S α} {a : α} {s s' : σ} (h : p.advance s = (.ended a, s'))
    (f : α → Routine σ S β) : (p >>= f).advance s = (f a).advance s' :=
  (advance_bind p f s).trans (by rw [h])

@[simp] theorem advance_get_bind (f : σ → Routine σ S α) (s : σ) : (get >>= f).advance s = (f s).advance s := rfl

@[simp] theorem advance_set_bind (t : σ) (f : PUnit → Routine σ S α) (s : σ) :
    (set t >>= f).advance s = (f ⟨⟩).advance t := rfl

/-- Noting entries leads nowhere else. -/
theorem advance_log_bind (es : List Log.Entry) (p : Unit → Routine σ S β) (s : σ) :
    ((es.forM (m := Routine σ S) log).bind p).advance s = (p ()).advance s := by
  induction es with
  | nil => rfl
  | cons e es ih => exact ih

structure IsPart {τ : Type} (part : τ → σ) (place : σ → τ → τ) : Prop where
  part_place : ∀ s t, part (place s t) = s
  place_place : ∀ s s' t, place s' (place s t) = place s' t
  place_part : ∀ t, place (part t) t = t

theorem IsPart.whole : IsPart (id : σ → σ) (fun s _ => s) := ⟨fun _ _ => rfl, fun _ _ _ => rfl, fun _ => rfl⟩

/-- A routine on a part gets as far as it would on the part alone; its first call is then made
by `up`. -/
theorem advance_within {τ : Type} {T : Surface} {part : τ → σ} {place : σ → τ → τ}
    {up : (c : S.Call) → Routine τ T (S.Reply c)} (hpart : IsPart part place) (p : Routine σ S α) (t : τ) :
    (p.within part place up).advance t = match p.advance (part t) with
      | (.ended a, s) => (.ended a, place s t)
      | (.waiting c next, s) => ((up c).bind fun r => (next r).within part place up).advance (place s t) := by
  have key : ∀ (s : σ) (t : τ), (p.within part place up).advance (place s t) = match p.advance s with
      | (.ended a, s') => (.ended a, place s' t)
      | (.waiting c next, s') => ((up c).bind fun r => (next r).within part place up).advance (place s' t) := by
    induction p with
    | done a => exact fun s t => rfl
    | look next ih =>
      intro s t
      show ((next (part (place s t))).within part place up).advance (place s t) = _
      rw [hpart.part_place]
      exact ih s s t
    | put s' next ih =>
      intro s t
      show (next.within part place up).advance (place s' (place s t)) = _
      rw [hpart.place_place]
      exact ih s' t
    | note e next ih => exact ih
    | call c next _ => exact fun s t => rfl
  have hwhole := key (part t) t
  rwa [hpart.place_part] at hwhole

/-- A routine on a part may be left for another that gets as far. -/
theorem advance_within_congr {τ : Type} {T : Surface} {part : τ → σ} {place : σ → τ → τ}
    {up : (c : S.Call) → Routine τ T (S.Reply c)} (hpart : IsPart part place) {p q : Routine σ S α} {s : σ} {t : τ}
    (h : p.advance (part t) = q.advance s) :
    (p.within part place up).advance t = (q.within part place up).advance (place s t) := by
  rw [advance_within hpart, advance_within hpart, hpart.part_place, h]
  cases q.advance s with
  | mk pause s' => cases pause <;> simp only [hpart.place_place]

theorem within_bind {τ : Type} {T : Surface} {part : τ → σ} {place : σ → τ → τ}
    {up : (c : S.Call) → Routine τ T (S.Reply c)} (p : Routine σ S α) (f : α → Routine σ S β) :
    (p.bind f).within part place up = (p.within part place up).bind fun a => (f a).within part place up := by
  induction p with
  | done a => rfl
  | look next ih => simp [bind, within, ih]
  | put s next ih => simp [bind, within, ih]
  | note e next ih => simp [bind, within, ih]
  | call c next ih => simp [bind, within, ih, bind_assoc]

theorem advance_relay {T : Surface} {up : (c : S.Call) → Routine σ T (S.Reply c)} (p : Routine σ S α) (s : σ) :
    (p.relay up).advance s = match p.advance s with
      | (.ended a, s') => (.ended a, s')
      | (.waiting c next, s') => ((up c).bind fun r => (next r).relay up).advance s' :=
  advance_within .whole p s

theorem advance_relay_congr {T : Surface} {up : (c : S.Call) → Routine σ T (S.Reply c)} {p q : Routine σ S α}
    {s s' : σ} (h : p.advance s = q.advance s') : (p.relay up).advance s = (q.relay up).advance s' :=
  advance_within_congr .whole h

theorem relay_bind {T : Surface} {up : (c : S.Call) → Routine σ T (S.Reply c)} (p : Routine σ S α)
    (f : α → Routine σ S β) : (p >>= f).relay up = p.relay up >>= fun a => (f a).relay up :=
  within_bind p f

theorem run_get_bind {ω : Type} (seat : Seat σ ω) (answer : (c : S.Call) → StateM ω (S.Reply c))
    (f : σ → Routine σ S α) (w : ω) : (get >>= f).run seat answer w = (f (seat.look w)).run seat answer w := rfl

theorem run_set_bind {ω : Type} (seat : Seat σ ω) (answer : (c : S.Call) → StateM ω (S.Reply c)) (s : σ)
    (f : PUnit → Routine σ S α) (w : ω) : (set s >>= f).run seat answer w = (f ⟨⟩).run seat answer (seat.put s w) := rfl

theorem relay_ask_bind {T : Surface} {up : (c : S.Call) → Routine σ T (S.Reply c)} (c : S.Call)
    (f : S.Reply c → Routine σ S α) : (ask c >>= f).relay up = up c >>= fun r => (f r).relay up := rfl

end Routine

/-- The state is found as it was put, and notes do not touch it. -/
structure Seat.Lawful {σ ω : Type} (seat : Seat σ ω) : Prop where
  look_put : ∀ s w, seat.look (seat.put s w) = s
  look_note : ∀ e w, seat.look (seat.note e w) = seat.look w

def Seat.whole {σ : Type} : Seat σ σ := ⟨id, fun s _ => s, fun _ s => s⟩

theorem Seat.whole_lawful {σ : Type} : (Seat.whole (σ := σ)).Lawful := ⟨fun _ _ => rfl, fun _ _ => rfl⟩

structure Operations (σ : Type) (S : Surface) where
  Op : Type
  Answer : Op → Type
  body : (o : Op) → Routine σ S (Answer o)

namespace Operations

variable {σ : Type} {S : Surface}

structure Suspended (O : Operations σ S) where
  op : O.Op
  /-- The state in which it was entered. -/
  start : σ
  call : S.Call
  next : S.Reply call → Routine σ S (O.Answer op)

inductive Event (O : Operations σ S) where
  | called (c : S.Call)
  /-- An operation, entered in the state `start`, has come to its end. -/
  | ended (op : O.Op) (start : σ) (answer : O.Answer op)

structure Moment (O : Operations σ S) where
  state : σ
  /-- The operations that wait, the innermost first. -/
  stack : List O.Suspended := []
  trace : List O.Event := []

variable {O : Operations σ S}

namespace Moment

def proceed (m : O.Moment) (op : O.Op) (start : σ) (p : Routine σ S (O.Answer op)) : O.Moment :=
  match p.advance m.state with
  | (.ended a, s) => { m with state := s, trace := m.trace ++ [.ended op start a] }
  | (.waiting c next, s) => ⟨s, ⟨op, start, c, next⟩ :: m.stack, m.trace ++ [.called c]⟩

def enter (m : O.Moment) (op : O.Op) : O.Moment := m.proceed op m.state (O.body op)

theorem proceed_of_ended {m : O.Moment} {op : O.Op} {start s : σ} {p : Routine σ S (O.Answer op)} {a : O.Answer op}
    (h : p.advance m.state = (.ended a, s)) :
    m.proceed op start p = { m with state := s, trace := m.trace ++ [.ended op start a] } := by
  rw [proceed, h]

theorem proceed_of_waiting {m : O.Moment} {op : O.Op} {start s : σ} {p : Routine σ S (O.Answer op)} {c : S.Call}
    {next : S.Reply c → Routine σ S (O.Answer op)} (h : p.advance m.state = (.waiting c next, s)) :
    m.proceed op start p = ⟨s, ⟨op, start, c, next⟩ :: m.stack, m.trace ++ [.called c]⟩ := by
  rw [proceed, h]

theorem proceed_state (m : O.Moment) (op : O.Op) (start : σ) (p : Routine σ S (O.Answer op)) :
    (m.proceed op start p).state = (p.advance m.state).2 := by
  unfold proceed
  split <;> rename_i h <;> rw [h]

/-- How an operation goes on depends on how it advances only. -/
theorem proceed_congr {m : O.Moment} {op : O.Op} {start s : σ} {p q : Routine σ S (O.Answer op)}
    (h : p.advance m.state = q.advance s) : m.proceed op start p = { m with state := s }.proceed op start q := by
  rw [proceed, proceed, h]

end Moment

/-- Whoever has the word enters an operation, or replies to the innermost call. -/
inductive Step : O.Moment → O.Moment → Prop
  | enter (m : O.Moment) (op : O.Op) : Step m (m.enter op)
  | reply (s : σ) (f : O.Suspended) (stack : List O.Suspended) (trace : List O.Event) (r : S.Reply f.call) :
      Step ⟨s, f :: stack, trace⟩ (Moment.proceed ⟨s, stack, trace⟩ f.op f.start (f.next r))

inductive Reachable (O : Operations σ S) (s : σ) : O.Moment → Prop
  | init : Reachable O s ⟨s, [], []⟩
  | step {m m' : O.Moment} : Reachable O s m → Step m m' → Reachable O s m'

theorem Reachable.enter {s : σ} {m : O.Moment} (h : O.Reachable s m) (op : O.Op) : O.Reachable s (m.enter op) :=
  .step h (.enter m op)

theorem Reachable.steps {s : σ} {m m' : O.Moment} (h : O.Reachable s m) (hs : Relation.ReflTransGen Step m m') :
    O.Reachable s m' := by
  induction hs with
  | refl => exact h
  | tail _ hlast ih => exact ih.step hlast

/-- What holds at first and is kept by every step holds at every moment. -/
theorem Reachable.induct {s : σ} {P : O.Moment → Prop} (h0 : P ⟨s, [], []⟩)
    (hstep : ∀ m m', P m → Step m m' → P m') {m : O.Moment} (h : O.Reachable s m) : P m := by
  induction h with
  | init => exact h0
  | step _ hs ih => exact hstep _ _ ih hs

/-- A step that enters only what may be entered at its moment. -/
inductive StepIf (may : O.Moment → O.Op → Prop) : O.Moment → O.Moment → Prop
  | enter {m : O.Moment} {op : O.Op} : may m op → StepIf may m (m.enter op)
  | reply (s : σ) (f : O.Suspended) (stack : List O.Suspended) (trace : List O.Event) (r : S.Reply f.call) :
      StepIf may ⟨s, f :: stack, trace⟩ (Moment.proceed ⟨s, stack, trace⟩ f.op f.start (f.next r))

theorem StepIf.step {may : O.Moment → O.Op → Prop} {m m' : O.Moment} (h : StepIf may m m') : Step m m' := by
  cases h with
  | enter _ => exact .enter _ _
  | reply s f stack trace r => exact .reply s f stack trace r

def ReachableIf (O : Operations σ S) (may : O.Moment → O.Op → Prop) (s : σ) (m : O.Moment) : Prop :=
  Relation.ReflTransGen (StepIf may) ⟨s, [], []⟩ m

theorem ReachableIf.reachable {may : O.Moment → O.Op → Prop} {s : σ} {m : O.Moment} (h : O.ReachableIf may s m) :
    O.Reachable s m := by
  induction h with
  | refl => exact .init
  | tail _ hs ih => exact ih.step hs.step

theorem Reachable.unrestricted {s : σ} {m : O.Moment} (h : O.Reachable s m) : O.ReachableIf (fun _ _ => True) s m := by
  induction h with
  | init => exact .refl
  | step _ hs ih =>
    refine ih.tail ?_
    cases hs with
    | enter _ op => exact .enter trivial
    | reply s f stack trace r => exact .reply s f stack trace r

/-- What holds at first and is kept by every allowed step holds at every moment. -/
theorem ReachableIf.induct {may : O.Moment → O.Op → Prop} {s : σ} {P : O.Moment → Prop} (h0 : P ⟨s, [], []⟩)
    (hstep : ∀ m m', O.ReachableIf may s m → P m → StepIf may m m' → P m') {m : O.Moment}
    (h : O.ReachableIf may s m) : P m := by
  induction h with
  | refl => exact h0
  | tail hm hs ih => exact hstep _ _ hm ih hs

/-! ## Operations in a larger world -/

variable {ω α : Type} {seat : Seat σ ω} {answer : (c : S.Call) → StateM ω (S.Reply c)}

/-- From `m` the component can come to the state `s` with the operations of `stack` waiting. -/
def Leads (m : O.Moment) (stack : List O.Suspended) (s : σ) : Prop :=
  ∃ m', Relation.ReflTransGen Step m m' ∧ m'.stack = stack ∧ m'.state = s

theorem Leads.trans {m : O.Moment} {stack stack' : List O.Suspended} {s s' : σ} (h : Leads m stack s)
    (h' : ∀ trace, Leads (O := O) ⟨s, stack, trace⟩ stack' s') : Leads m stack' s' := by
  obtain ⟨⟨_, _, trace⟩, hsteps, rfl, rfl⟩ := h
  obtain ⟨m', hsteps', hstack, hstate⟩ := h' trace
  exact ⟨m', hsteps.trans hsteps', hstack, hstate⟩

theorem Leads.head {m m' : O.Moment} {stack : List O.Suspended} {s : σ} (h : Step m m') (h' : Leads m' stack s) :
    Leads m stack s := by
  obtain ⟨m'', hsteps, hstack, hstate⟩ := h'
  exact ⟨m'', .head h hsteps, hstack, hstate⟩

/-- Whoever is called uses the component through its operations only, and returns. -/
def WellBehaved (O : Operations σ S) (seat : Seat σ ω) (answer : (c : S.Call) → StateM ω (S.Reply c)) : Prop :=
  ∀ c w (m : O.Moment), m.state = seat.look w → Leads m m.stack (seat.look (answer c w).2)

/-- Carrying an operation on in a world is a sequence of steps. -/
theorem proceed_run (hseat : seat.Lawful) (hanswer : O.WellBehaved seat answer) {op : O.Op} {start : σ}
    (p : Routine σ S (O.Answer op)) : ∀ (w : ω) (m : O.Moment), m.state = seat.look w →
    Leads (m.proceed op start p) m.stack (seat.look (p.run seat answer w).2) := by
  induction p with
  | done a =>
    intro w m hm
    exact ⟨_, .refl, rfl, hm⟩
  | look next ih =>
    intro w m hm
    show Leads (m.proceed op start (next m.state)) _ _
    rw [hm]
    exact ih (seat.look w) w m hm
  | put s next ih =>
    intro w m _
    exact ih (seat.put s w) { m with state := s } (hseat.look_put s w).symm
  | note e next ih =>
    intro w m hm
    exact ih (seat.note e w) m (hm.trans (hseat.look_note e w).symm)
  | call c next ih =>
    intro w m hm
    -- the callee runs on top of the operation that waits for it
    refine Leads.trans (hanswer c w (m.proceed op start (.call c next)) hm) fun trace => ?_
    exact Leads.head (.reply _ ⟨op, start, c, next⟩ m.stack trace (answer c w).1) (ih _ (answer c w).2 _ rfl)

theorem enter_run (hseat : seat.Lawful) (hanswer : O.WellBehaved seat answer) (op : O.Op) {w : ω} {m : O.Moment}
    (hm : m.state = seat.look w) : Leads m m.stack (seat.look ((O.body op).run seat answer w).2) :=
  Leads.head (.enter m op) (proceed_run hseat hanswer (O.body op) w m hm)

end Operations

end LanguageClient
