import LanguageClient.Proofs.Client.Unready
/-
  LanguageClient.Proofs.Client.Ending — the end of a process is reported once, by a client in order.

  A process ends because a stop has asked it to, or by itself, which the transport hands in.
  Subscribers of errors and exits may do with the client what they like, and so may whoever
  is called while it polls or starts; whoever asked for something, and the transport while it
  ends a process, leave the client alone (`attended`). Then each end is one emission, which
  begins when everything else is done: the session is closed and nobody waits any more
  (`reported_once`).
-/

namespace LanguageClient.Client

open Routine

variable {η : Type} {read : Bytes → Except Frame.Dropped Message} {c : Client η}

/-! ## Who leaves the client alone -/

def quietly (f : Fate) : (c : Call η) → Action η c.Reply
  | .notice (.told _ _) => pure ()
  | .terminate _ => do
    modify halted
    return f.code
  | other => transport f other

abbrev attended (η : Type) (read : Bytes → Except Frame.Dropped Message) : Operations (Client η) (Calls η) :=
  usesBy read quietly

theorem quietly_obliging {new : Prop} (u : Use η) : Obliging new u (quietly u.fate) where
  keeps := by
    intro call c hcall hc
    have hask := (transport_obliging u).keeps call c hcall hc
    cases call with
    | notice n => cases n <;> first | exact hask | exact hc
    | spawn config => exact hask
    | poll wait => exact hask
    | spent => exact hask
    | terminate grace => exact ⟨hc.not_ready, hc.unissued, hc.undeclared⟩
  ends := fun grace c hc => ⟨⟨hc.not_ready, hc.unissued, hc.undeclared⟩, rfl⟩

def emission (code : Option Int) : Action η Unit := (aside (emitExit code)).relay (quietly { code := code })

structure Closed (phase : Phase) (c : Client η) : Prop where
  phase_eq : c.phase = phase
  halted : c.link.running = false
  undeclared : c.declared.capabilities = none
  buffer_empty : c.decoder.held = []
  none_pending : c.pending.count = 0

/-! ## Rejecting without a word -/

theorem advance_quiet_tell (f : Fate) (asker : Asker η) (v : Pending.Verdict) (c : Client η) :
    ∃ answers, ((aside (tell (asker, v))).relay (quietly f)).advance c
      = (.ended (), { c with answers := answers }) := by
  cases asker with
  | handler h => exact ⟨c.answers, rfl⟩
  | caller id => exact ⟨_, rfl⟩
  | stopper => cases v <;> exact ⟨c.answers, rfl⟩

/-- Telling askers leaves a note for those who wait, and nothing else. -/
theorem advance_quiet_tellThen {α : Type} (f : Fate) (verdict : Waiting (Asker η) → Pending.Verdict)
    (entry : Waiting (Asker η) → List Log.Entry) (ws : List (Waiting (Asker η))) (a : α) (c : Client η) :
    ∃ answers, ((aside (onPending (Pending.tellThen verdict entry ws a))).relay (quietly f)).advance c
      = (.ended a, { c with answers := answers }) := by
  induction ws generalizing c with
  | nil => exact ⟨c.answers, rfl⟩
  | cons w ws ih =>
    have hcall : (onPending (Pending.tellThen verdict entry (w :: ws) a)).advance c
        = ((tell (w.asker, verdict w)).bind fun _ => onPending (Pending.tellThen verdict entry ws a)).advance c := by
      unfold onPending
      rw [advance_within pending_isPart, Pending.advance_tellThen_cons]
    obtain ⟨answers, htell⟩ := advance_quiet_tell f w.asker (verdict w) c
    obtain ⟨answers', hrest⟩ := ih { c with answers := answers }
    refine ⟨answers', (advance_relay_congr (advance_aside_congr hcall)).trans ?_⟩
    -- one asker is told without a word, so the others are told right after
    show ((aside (tell (w.asker, verdict w) >>= _)).relay (quietly f)).advance c = _
    rw [aside_bind, relay_bind, advance_bind_of_ended htell]
    exact hrest

def emptied (answers : List (Nat × Pending.Verdict)) (c : Client η) : Client η :=
  { c with pending := { c.pending with waiting := [] }, answers := answers }

/-- Everybody who waits is rejected at once. -/
theorem advance_quiet_rejectAll (f : Fate) (e : Error) (c : Client η) :
    ∃ answers, ((aside (onPending (Pending.rejectAll e))).relay (quietly f)).advance c
      = (.ended c.pending.count, c.emptied answers) := by
  obtain ⟨answers, htold⟩ := advance_quiet_tellThen f (fun _ => .rejected e) (fun _ => []) c.pending.waiting
    c.pending.count { c with pending := { c.pending with waiting := [] } }
  refine ⟨answers, Eq.trans ?_ htold⟩
  exact advance_relay_congr (advance_aside_congr
    (advance_within_congr pending_isPart (Pending.advance_rejectAll e c.pending)))

theorem advance_quiet_giveUp (f : Fate) (e : Error) (code : Option Int) (c : Client η) :
    ∃ answers, ((aside (giveUp e code)).relay (quietly f)).advance c
      = ((aside (emitExit code)).relay (quietly f)).advance (c.emptied answers) := by
  obtain ⟨answers, hreject⟩ := advance_quiet_rejectAll f e c
  have hdiscard : ((aside (discard (onPending (Pending.rejectAll e)))).relay (quietly f)).advance c
      = (.ended ⟨⟩, c.emptied answers) := by
    show ((aside (onPending (Pending.rejectAll e) >>= fun _ => pure PUnit.unit)).relay (quietly f)).advance c = _
    rw [aside_bind, relay_bind, advance_bind_of_ended hreject]
    rfl
  refine ⟨answers, ?_⟩
  rw [giveUp, aside_bind, relay_bind, advance_bind_of_ended hdiscard]

/-- A stop clears the client, and emits if there was a process. -/
theorem advance_quiet_windUp (f : Fate) (before : Client η) (code : Option Int) (c : Client η) :
    ∃ answers, ((windUp before code).relay (quietly f)).advance c
      = ((report before code).relay (quietly f)).advance (c.emptied answers).cleared := by
  obtain ⟨answers, hreject⟩ := advance_quiet_rejectAll f .stopped c
  refine ⟨answers, ?_⟩
  rw [windUp, relay_bind, advance_bind_of_ended hreject]
  split <;> rfl

/-! ## The emission -/

/-- Up to the first handler an emission touches the subscriptions only. -/
theorem emission_state (code : Option Int) (c : Client η) :
    ∃ s, ((emission code).advance c).2 = { c with exits := s } := by
  unfold emission aside emitExit
  rw [advance_relay, advance_relay, advance_within exits_isPart]
  cases (Signal.emit code).advance c.exits with
  | mk pause s => cases pause <;> exact ⟨s, rfl⟩

theorem Closed.emission {phase : Phase} (h : Closed phase c) (code : Option Int) :
    Closed phase ((emission code).advance c).2 := by
  obtain ⟨s, hs⟩ := emission_state code c
  rw [hs]
  exact ⟨h.phase_eq, h.halted, h.undeclared, h.buffer_empty, h.none_pending⟩

/-- An end that nobody asked for closes the session and is reported. -/
theorem advance_exit {code : Option Int} (hrun : c.link.running = true) (hphase : c.phase ≠ .stopped) :
    ∃ c', Closed .errored c' ∧ ((attended η read).body (.exit code)).advance c = (emission code).advance c' := by
  have hexit : (exited code).advance c = (aside (giveUp
      (.of .processExit (c.withStderrTail (exitMessage code)) none) code)).advance (c.halted.lost code) := by
    simp only [exited, advance_get_bind, hrun, if_true, advance_set_bind]
    exact advance_aside_congr (advance_onExit code hphase)
  obtain ⟨answers, hgive⟩ := advance_quiet_giveUp { code := code }
    (.of .processExit (c.withStderrTail (exitMessage code)) none) code (c.halted.lost code)
  exact ⟨_, ⟨rfl, rfl, rfl, rfl, rfl⟩, (advance_relay_congr hexit).trans hgive⟩

/-- An end during a stop is not reported. -/
theorem advance_exit_stopped {code : Option Int} (hrun : c.link.running = true) (hphase : c.phase = .stopped) :
    (exited code).advance c = (.ended (), { c.halted with lastExit := code, stderrLine := [] }) := by
  simp only [exited, advance_get_bind, hrun, if_true, advance_set_bind]
  exact advance_aside_congr (q := pure ()) (advance_onExit_stopped code hphase)

/-- A stop that ends a process closes the session and reports it. -/
theorem advance_stop {code : Option Int} (hrun : c.link.running = true) (hphase : c.phase ≠ .ready) :
    ∃ c', Closed .stopped c' ∧ ((attended η read).body (.stop code)).advance c = (emission code).advance c' := by
  obtain ⟨answers, hwind⟩ := advance_quiet_windUp { code := code } c code { c.halted with phase := .stopped }
  have hclosed : Closed .stopped (emptied answers { c.halted with phase := .stopped }).cleared :=
    ⟨rfl, rfl, rfl, rfl, rfl⟩
  refine ⟨_, hclosed, ?_⟩
  refine (advance_relay_congr (advance_stop_running hphase hrun)).trans (Eq.trans (by rfl) (hwind.trans ?_))
  simp only [report, hrun, if_true]
  rfl

theorem advance_stop_without {code : Option Int} (hrun : c.link.running = false) :
    ∃ c', ((attended η read).body (.stop code)).advance c = (.ended (), c') := by
  obtain ⟨answers, hwind⟩ := advance_quiet_windUp { code := code } c c.lastExit
    { c with phase := if c.phase = .disconnected then .disconnected else .stopped }
  have hreport (c' : Client η) :
      ((report c c.lastExit).relay (quietly { code := code })).advance c' = (.ended (), c') := by
    simp only [report, hrun, Bool.false_eq_true, if_false]
    rfl
  exact ⟨_, (advance_relay_congr (advance_stop_idle hrun)).trans (hwind.trans (hreport _))⟩

/-! ## Reported once -/

/-- Entered now, a use first closes the session and is one emission from then on; so the session
is closed when the first handler gets the word. -/
structure Reports (m : (attended η read).Moment) (u : Use η) (phase : Phase) (p : Action η u.Answer) : Prop where
  emits : ∃ c, Closed phase c ∧ m.enter u = Operations.Moment.proceed { m with state := c } u m.state p
  closed : Closed phase (m.enter u).state

/-- Every end of a process is reported once, unless it comes by itself after a stop. -/
structure ReportedOnce (m : (attended η read).Moment) : Prop where
  exit_reported : ∀ code, m.state.link.running = true → m.state.phase ≠ .stopped →
    Reports m (.exit code) .errored (emission code)
  exit_unreported : ∀ code, m.state.link.running = true → m.state.phase = .stopped →
    ∃ c, c.link.running = false ∧
      m.enter (.exit code) = { m with state := c, trace := m.trace ++ [.ended (.exit code) m.state ()] }
  stop_reported : ∀ code, m.state.link.running = true → Reports m (.stop code) .stopped (emission code)
  stop_unreported : ∀ code, m.state.link.running = false →
    ∃ c, m.enter (.stop code) = { m with state := c, trace := m.trace ++ [.ended (.stop code) m.state ()] }
  /-- Nobody else reports an end, and nobody another code. -/
  reported_by : ∀ f ∈ m.stack, ∀ h code, f.call = .notice (.exited h code) → f.op = .exit code ∨ f.op = .stop code

theorem reports {m : (attended η read).Moment} {u : Use η} {phase : Phase} {p : Action η u.Answer} {c : Client η}
    (hc : Closed phase c) (hemit : Closed phase (p.advance c).2)
    (h : ((attended η read).body u).advance m.state = p.advance c) : Reports m u phase p := by
  have henter : m.enter u = Operations.Moment.proceed { m with state := c } u m.state p :=
    Operations.Moment.proceed_congr h
  refine ⟨⟨c, hc, henter⟩, ?_⟩
  rw [henter, Operations.Moment.proceed_state]
  exact hemit

/-- However a client that is not ready is used, and whoever uses it while it calls out. -/
theorem reported_once {s : Client η} (hs : s.phase ≠ .ready) {m : (attended η read).Moment}
    (h : (attended η read).Reachable s m) : ReportedOnce m := by
  have hkept : Operations.Kept (Unready False) (MayCall False) m :=
    Operations.kept (O := attended η read) (fun m u _ hm => keeps_body (quietly_obliging u) (fun h => h.elim) hm)
      ⟨hs, False.elim, False.elim⟩ h.unrestricted
  refine
    { exit_reported := fun code hrun hphase => ?_
      exit_unreported := fun code hrun hphase => ⟨_, rfl, enter_of_ended read (advance_exit_stopped hrun hphase)⟩
      stop_reported := fun code hrun => ?_
      stop_unreported := fun code hrun => ?_
      reported_by := fun f hf h code hcall => ?_ }
  · obtain ⟨c, hc, hadv⟩ := advance_exit hrun hphase
    exact reports hc (hc.emission code) hadv
  · obtain ⟨c, hc, hadv⟩ := advance_stop hrun hkept.state.not_ready
    exact reports hc (hc.emission code) hadv
  · obtain ⟨c, hadv⟩ := advance_stop_without hrun
    exact ⟨c, Operations.Moment.proceed_of_ended hadv⟩
  · have hmay := (hkept.waiting f hf).1
    rw [hcall] at hmay
    exact hmay

/-- The process of a client that was never started has ended by itself. The subscriber who is
being told so has stopped the client, in vain, and starts it again. -/
def amidReport : (attended Unit Frame.read).Moment :=
  let config : ServerConfig := { name := text "demo", command := text "demo" }
  let m : (attended Unit Frame.read).Moment :=
    ⟨{ config := config, link := { running := true }, exits := (Signal.on {} ()).2 }, [], []⟩
  ((m.enter (.exit (some 3))).enter (.stop none)).enter (.start (text "no such file"))

theorem reported_once_amid_report : amidReport.stack.length = 2 ∧ amidReport.trace.length = 3 ∧
    amidReport.state.phase = .starting ∧ ReportedOnce amidReport := by
  have h : (attended Unit Frame.read).Reachable
      { config := { name := text "demo", command := text "demo" }, link := { running := true },
        exits := (Signal.on {} ()).2 } amidReport :=
    ((Operations.Reachable.init.enter _).enter _).enter _
  exact ⟨rfl, rfl, rfl, reported_once (by decide) h⟩

end LanguageClient.Client
