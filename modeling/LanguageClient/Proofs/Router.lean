import Mathlib.Data.List.DropRight
import LanguageClient.Proofs.Reentry.Course
import LanguageClient.Router
/-
  LanguageClient.Proofs.Router — whose handlers a dispatch runs.

  A router is used by anybody, handlers amid a dispatch among them. What happened tells which
  handlers a method has: those that were registered since it was last unregistered
  (`registered`). A dispatch looks at the router once, when it begins, and then runs down what
  it found. It never writes to the router, so whatever is done while its handlers have the
  word is done to the router alone, and the dispatch does not see it.

  - `advance_dispatch`: to dispatch is to run down the handlers of the start.
  - `going`: at every moment the router is as what happened tells, and all that waits is
    dispatches with a rest to run down.
  - `course_dispatch`: what a dispatch has called and what it has yet to call are what it found.
  - `dispatch_runs_registered`: what follows for every dispatch, nested or not.
-/

namespace LanguageClient.Router

variable {η : Type}

/-! ## Registrations -/

theorem handlers_register (r : Router η) (m method : Bytes) (handler : η) :
    (r.register m handler).handlers method = r.handlers method ++ if m = method then [handler] else [] := by
  rw [register, handlers, List.filter_append, List.map_append]
  refine congrArg (r.handlers method ++ ·) ?_
  by_cases h : m = method <;> simp [h]

theorem handlers_unregister (r : Router η) (m method : Bytes) :
    (r.unregister m).handlers method = if m = method then [] else r.handlers method := by
  show ((r.registrations.filter (·.1 != m)).filter (·.1 == method)).map (·.2) = _
  rw [List.filter_filter]
  split
  next h =>
    rw [List.map_eq_nil_iff, List.filter_eq_nil_iff]
    simp [h]
  next h =>
    refine congrArg (List.map Prod.snd) (List.filter_congr fun x _ => ?_)
    by_cases hx : x.1 = method
    · simp [hx, Ne.symm h]
    · simp [hx]

theorem handles_iff {r : Router η} {method : Bytes} : r.handles method = true ↔ r.handlers method ≠ [] := by
  rw [handles, handlers, Ne, List.map_eq_nil_iff, List.filter_eq_nil_iff, List.any_eq_true]
  simp

/-! ## Running down -/

abbrev runAllThen {α : Type} (params : Json) (hs : List η) (a : α) : Routine (Router η) (Handling η) α :=
  (runAll params hs).bind fun _ => .done a

theorem advance_runAllThen_cons {α : Type} (params : Json) (h : η) (hs : List η) (a : α) (r : Router η) :
    (runAllThen params (h :: hs) a).advance r = (.waiting (h, params) fun _ => runAllThen params hs a, r) := rfl

/-- To dispatch is to run down the handlers of the start. -/
theorem advance_dispatch (n : Notification) (r : Router η) :
    (dispatch n).advance r = (runAllThen n.params (r.handlers n.method) (r.handles n.method)).advance r := by
  rw [dispatch, Routine.advance_get_bind]
  split
  next h => rw [h]; rfl
  next h =>
    have hnone : r.handlers n.method = [] := by simpa [handles_iff] using h
    rw [hnone, Bool.eq_false_iff.2 h]
    rfl

/-! ## Operations -/

inductive Use (η : Type) where
  | register (method : Bytes) (handler : η)
  | unregister (method : Bytes)
  | dispatch (n : Notification)

abbrev Use.Answer : Use η → Type
  | register .. => Unit
  | unregister _ => Unit
  | dispatch _ => Bool

def Use.body : (u : Use η) → Routine (Router η) (Handling η) u.Answer
  | .register method handler => modify fun r => r.register method handler
  | .unregister method => modify fun r => r.unregister method
  | .dispatch n => Router.dispatch n

abbrev uses (η : Type) : Operations (Router η) (Handling η) := ⟨Use η, Use.Answer, Use.body⟩

def registers? (method : Bytes) : (uses η).Event → Option η
  | .ended (.register m handler) _ _ => if m = method then some handler else none
  | _ => none

def unregisters (method : Bytes) : (uses η).Event → Bool
  | .ended (.unregister m) _ _ => m == method
  | _ => false

/-- The handlers registered for a method since it was last unregistered, in that order. -/
def registered (method : Bytes) (trace : List (uses η).Event) : List η :=
  (trace.rtakeWhile fun e => !unregisters method e).filterMap (registers? method)

theorem registered_concat (method : Bytes) (trace : List (uses η).Event) (e : (uses η).Event) :
    registered method (trace ++ [e]) =
      if unregisters method e then [] else registered method trace ++ (registers? method e).toList := by
  rw [registered, List.rtakeWhile_concat]
  cases unregisters method e with
  | true => rfl
  | false =>
    rw [if_pos (by rfl), if_neg (by simp), List.filterMap_append, registered]
    cases h : registers? method e <;> simp [h]

/-- A dispatch that waits, with `hs` to run down yet and `a` to answer. -/
def dispatching (n : Notification) (start : Router η) (call : η × Json) (hs : List η) (a : Bool) :
    (uses η).Suspended :=
  ⟨.dispatch n, start, call, fun _ => runAllThen n.params hs a⟩

/-- The router is as what happened tells, and all that waits is dispatches. -/
structure Going (m : (uses η).Moment) : Prop where
  handlers : ∀ method, m.state.handlers method = registered method m.trace
  waiting : ∀ f ∈ m.stack, ∃ n start call hs a, f = dispatching n start call hs a

theorem going_new : Going (⟨{}, [], []⟩ : (uses η).Moment) := ⟨fun _ => rfl, fun _ h => by cases h⟩

/-- Running handlers down leaves the router alone. -/
theorem Going.runAll {m : (uses η).Moment} (h : Going m) (n : Notification) (start : Router η) (hs : List η)
    (a : Bool) : Going (m.proceed (.dispatch n) start (runAllThen n.params hs a)) := by
  -- neither a call nor the end of a dispatch registers or unregisters anything
  have htold : ∀ e : (uses η).Event, (∀ method, unregisters method e = false ∧ registers? method e = none) →
      ∀ method, m.state.handlers method = registered method (m.trace ++ [e]) := by
    intro e he method
    rw [registered_concat, (he method).1, (he method).2, h.handlers method]
    simp
  cases hs with
  | nil => exact ⟨htold (.ended (.dispatch n) start a) fun _ => ⟨rfl, rfl⟩, h.waiting⟩
  | cons handler hs =>
    rw [Operations.Moment.proceed_of_waiting (advance_runAllThen_cons n.params handler hs a m.state)]
    refine ⟨htold (.called (handler, n.params)) fun _ => ⟨rfl, rfl⟩, List.forall_mem_cons.2 ⟨?_, h.waiting⟩⟩
    exact ⟨n, start, (handler, n.params), hs, a, rfl⟩

theorem enter_dispatch (m : (uses η).Moment) (n : Notification) : m.enter (.dispatch n) =
    m.proceed (.dispatch n) m.state (runAllThen n.params (m.state.handlers n.method) (m.state.handles n.method)) :=
  Operations.Moment.proceed_congr (advance_dispatch n m.state)

theorem Going.enter {m : (uses η).Moment} (h : Going m) (u : Use η) : Going (m.enter u) := by
  cases u with
  | register method' handler =>
    refine ⟨fun method => ?_, h.waiting⟩
    show (m.state.register method' handler).handlers method
      = registered method (m.trace ++ [.ended (.register method' handler) m.state ()])
    rw [registered_concat, handlers_register, h.handlers method]
    simp only [unregisters, registers?]
    split <;> rfl
  | unregister method' =>
    refine ⟨fun method => ?_, h.waiting⟩
    show (m.state.unregister method').handlers method
      = registered method (m.trace ++ [.ended (.unregister method') m.state ()])
    rw [registered_concat, handlers_unregister, h.handlers method]
    simp [unregisters, registers?]
  | dispatch n =>
    rw [enter_dispatch]
    exact h.runAll n m.state _ _

theorem Going.step {m m' : (uses η).Moment} (h : Going m) (hs : Operations.Step m m') : Going m' := by
  cases hs with
  | enter _ u => exact h.enter u
  | reply s f stack trace r =>
    obtain ⟨n, start, call, hs, a, rfl⟩ := h.waiting f List.mem_cons_self
    have hrest : Going (⟨s, stack, trace⟩ : (uses η).Moment) :=
      ⟨h.handlers, fun g hg => h.waiting g (List.mem_cons_of_mem _ hg)⟩
    exact hrest.runAll n start hs a

theorem going {m : (uses η).Moment} (h : (uses η).Reachable {} m) : Going m :=
  h.induct going_new fun _ _ hm hs => hm.step hs

/-! ## A dispatch -/

/-- Given replies, a dispatch runs down what it has yet to call, whatever is done to the router. -/
theorem dispatching_goes {n : Notification} {start : Router η} {call : η × Json} {hs : List η} {a : Bool}
    {log : List (Router η × (Handling η).Call)} {g : (uses η).Suspended}
    (h : (dispatching n start call hs a).Goes log g) : ∃ called rest call',
      hs = called ++ rest ∧ log.map (·.2) = called.map (·, n.params) ∧ g = dispatching n start call' rest a := by
  induction h with
  | start => exact ⟨[], hs, call, rfl, rfl, rfl⟩
  | @reply g log s s' r c next _ hadv ih =>
    obtain ⟨called, rest, call', rfl, hlog, rfl⟩ := ih
    cases rest with
    | nil => cases hadv
    | cons handler rest =>
      cases hadv
      refine ⟨called ++ [handler], rest, (handler, n.params), by simp, ?_, rfl⟩
      rw [List.map_append, List.map_append, hlog]
      rfl

/-- A dispatch has called some of the handlers that it found, and waits with the rest. -/
theorem course_dispatch {m m' : (uses η).Moment} {n : Notification} {log : List (Router η × (Handling η).Call)}
    (h : Operations.Course m (.dispatch n) log m') : ∃ called rest call above,
      m.state.handlers n.method = called ++ rest ∧ called ≠ [] ∧ log.map (·.2) = called.map (·, n.params) ∧
      m'.stack = above ++ dispatching n m.state call rest true :: m.stack := by
  obtain ⟨c, next, s, more, above, g, hadv, rfl, hstack, hgoes⟩ := h.goes
  have hadv := (advance_dispatch n m.state).symm.trans hadv
  cases hhs : m.state.handlers n.method with
  | nil =>
    rw [hhs] at hadv
    cases hadv
  | cons handler hs =>
    have htrue : m.state.handles n.method = true := handles_iff.2 (by simp [hhs])
    rw [hhs, htrue] at hadv
    cases hadv
    obtain ⟨called, rest, call, rfl, hlog, rfl⟩ := dispatching_goes hgoes
    exact ⟨handler :: called, rest, call, above, rfl, List.cons_ne_nil _ _, by simp [hlog], hstack⟩

/-- When a dispatch that waits has the word, it is the one with the rest to run down. -/
theorem course_innermost {m : (uses η).Moment} {n : Notification} {log : List (Router η × (Handling η).Call)}
    {s : Router η} {f : (uses η).Suspended} {trace : List (uses η).Event}
    (h : Operations.Course m (.dispatch n) log ⟨s, f :: m.stack, trace⟩) : ∃ called rest call,
      m.state.handlers n.method = called ++ rest ∧ called ≠ [] ∧ log.map (·.2) = called.map (·, n.params) ∧
      f = dispatching n m.state call rest true := by
  obtain ⟨called, rest, call, above, hhs, hsome, hlog, hstack⟩ := course_dispatch h
  exact ⟨called, rest, call, hhs, hsome, hlog, (Operations.innermost hstack).2⟩

/-- A dispatch that finds no handlers ends at once. -/
theorem enter_unheard {m : (uses η).Moment} {n : Notification} (h : m.state.handlers n.method = []) :
    m.enter (.dispatch n) = { m with trace := m.trace ++ [.ended (.dispatch n) m.state false] } := by
  have hfalse : m.state.handles n.method = false := by
    rw [← Bool.not_eq_true, handles_iff, h]
    simp
  rw [enter_dispatch, h, hfalse]
  rfl

structure Dispatched (n : Notification) (hs : List η) (m : (uses η).Moment) : Prop where
  handles : m.state.handles n.method = true ↔ hs ≠ []
  unheard : hs = [] →
    m.enter (.dispatch n) = { m with trace := m.trace ++ [.ended (.dispatch n) m.state false] }
  first : ∀ h rest, hs = h :: rest →
    Operations.Course m (.dispatch n) [(m.state, (h, n.params))] (m.enter (.dispatch n))
  /-- Each time it gets the word it runs the next handler, or it ends when all were run. -/
  next : ∀ log s f trace r, Operations.Course m (.dispatch n) log ⟨s, f :: m.stack, trace⟩ →
    let m' := Operations.Moment.proceed ⟨s, m.stack, trace⟩ f.op f.start (f.next r)
    m'.state = s ∧
      ((∃ h, hs[log.length]? = some h ∧ Operations.Course m (.dispatch n) (log ++ [(s, (h, n.params))]) m') ∨
        (log.length = hs.length ∧ Operations.Ended m (.dispatch n) log s m'))
  /-- At no time has it run any but those, nor in another order. -/
  course : ∀ log m', Operations.Course m (.dispatch n) log m' → log.map (·.2) <+: hs.map (·, n.params)
  /-- When it has ended it has run them all, and has answered whether there were any. -/
  ended : ∀ log found m', Operations.Ended m (.dispatch n) log found m' →
    log.map (·.2) = hs.map (·, n.params) ∧ m'.stack = m.stack ∧
      ∃ during, m'.trace = m.trace ++ during ++ [.ended (.dispatch n) m.state (!hs.isEmpty)]

theorem dispatched (m : (uses η).Moment) (n : Notification) : Dispatched n (m.state.handlers n.method) m where
  handles := handles_iff
  unheard := enter_unheard
  first := by
    intro handler rest hhs
    have hadv := advance_dispatch n m.state
    rw [hhs, advance_runAllThen_cons] at hadv
    exact .intro hadv .start
  next := by
    intro log s f trace r hcourse
    obtain ⟨called, rest, call, hhs, _, hlog, rfl⟩ := course_innermost hcourse
    have hlen : log.length = called.length := by simpa using congrArg List.length hlog
    cases rest with
    | nil => exact ⟨rfl, Or.inr ⟨by rw [hhs, hlen, List.append_nil], .reply hcourse rfl⟩⟩
    | cons handler rest =>
      refine ⟨rfl, Or.inl ⟨handler, ?_, hcourse.trans (.reply .start rfl)⟩⟩
      rw [hhs, hlen]
      simp
  course := by
    intro log m' hcourse
    obtain ⟨called, rest, _, _, hhs, _, hlog, _⟩ := course_dispatch hcourse
    rw [hhs, hlog, List.map_append]
    exact List.prefix_append _ _
  ended := by
    intro log found m' hended
    cases hended with
    | enter hadv =>
      have hadv := (advance_dispatch n m.state).symm.trans hadv
      cases hhs : m.state.handlers n.method with
      | nil => exact ⟨rfl, by rw [enter_unheard hhs], [], by simp [enter_unheard hhs]⟩
      | cons handler hs =>
        rw [hhs] at hadv
        cases hadv
    | reply hcourse hadv =>
      obtain ⟨called, rest, call, hhs, hsome, hlog, rfl⟩ := course_innermost hcourse
      obtain ⟨during, _, htrace, _⟩ := hcourse.calls
      cases rest with
      | nil =>
        rw [List.append_nil] at hhs
        refine ⟨by rw [hhs, hlog], rfl, during, ?_⟩
        rw [hhs, List.isEmpty_eq_false_iff.2 hsome, ← htrace]
        rfl
      | cons handler rest => cases hadv

/-- A dispatch runs the handlers registered for its method when it began, each once for each
registration and in that order, whatever they do to the router meanwhile, and answers whether
there were any. -/
theorem dispatch_runs_registered {m : (uses η).Moment} (h : (uses η).Reachable {} m) (n : Notification) :
    Dispatched n (registered n.method m.trace) m := by
  rw [← (going h).handlers n.method]
  exact dispatched m n

def registeredTwice : (uses Nat).Moment :=
  (((⟨{}, [], []⟩ : (uses Nat).Moment).enter (.register [1] 10)).enter (.register [2] 40)).enter (.register [1] 20)

/-- The first handler unregisters the method, registers another handler for it and dispatches
again: the dispatch inside runs that one only, and the one outside goes on with its second. -/
theorem dispatch_runs_registered_amid_changes : (uses Nat).Reachable {} registeredTwice ∧
    (∃ log found m', Operations.Ended registeredTwice (.dispatch ⟨[1], .null⟩) log found m' ∧
      m'.state.handlers [1] = [30] ∧
      m'.trace.filterMap Operations.Event.call? = [(10, .null), (30, .null), (20, .null)]) ∧
    Dispatched ⟨[1], .null⟩ (registered [1] registeredTwice.trace) registeredTwice := by
  have h : (uses Nat).Reachable {} registeredTwice := ((Operations.Reachable.init.enter _).enter _).enter _
  let n : Notification := ⟨[1], .null⟩
  have hchanged : Operations.Meanwhile [] (registeredTwice.enter (.dispatch n)) []
      (((registeredTwice.enter (.dispatch n)).enter (.unregister [1])).enter (.register [1] 30)) :=
    .enter (.enter .start _) _
  have hinside := (hchanged.enter (.dispatch n)).above (by decide) ()
  have hsecond := Operations.Meanwhile.reply (r := ()) hinside rfl
  exact ⟨h, ⟨_, _, _, .reply (r := ()) (.intro rfl hsecond) rfl, rfl, rfl⟩, dispatch_runs_registered h n⟩

end LanguageClient.Router
