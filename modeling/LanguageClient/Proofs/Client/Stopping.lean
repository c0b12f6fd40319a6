import LanguageClient.Proofs.Client.Refusal
/-
  LanguageClient.Proofs.Client.Stopping — a stop brings a client to rest before it tells anybody.

  A stop of a client that is not ready ends the process, rejects whoever waits and forgets the
  session; only then those are told who want to know of an exit. The transport, while it ends
  the process, and those who are rejected have the word before that and may use the client. The
  session is forgotten whatever they do; if they do not start the server again, the client is
  at rest as well (`stop_comes_to_rest`), and a second stop has nothing to do.

  If they do start it, and are refused, the client is errored when the exit is reported
  (`a_start_amid_the_end`).
-/

namespace LanguageClient.Client

open Routine Operations

variable {η : Type} {read : Bytes → Except Frame.Dropped Message} {before c c' : Client η} {said : Prop}

/-! ## What a stop leaves -/

structure Emptied (c : Client η) : Prop where
  undeclared : c.declared = {}
  untracked : c.documents = {}
  unpublished : c.published = {}
  buffer_empty : c.decoder = {}
  line_empty : c.stderrLine = []

theorem emptied_cleared (c : Client η) : Emptied c.cleared := ⟨rfl, rfl, rfl, rfl, rfl⟩

theorem Emptied.cleared_eq (h : Emptied c) : c.cleared = c := by
  unfold cleared
  rw [← h.undeclared, ← h.untracked, ← h.unpublished, ← h.buffer_empty, ← h.line_empty]

def stoppedPhase (c : Client η) : Phase :=
  if c.link.running = true ∨ c.phase ≠ .disconnected then .stopped else .disconnected

structure AtRest (before c : Client η) : Prop where
  emptied : Emptied c
  halted : c.link.running = false
  none_pending : c.pending.waiting = []
  phase_eq : c.phase = before.stoppedPhase
  nextId_eq : c.pending.nextId = before.pending.nextId

/-- A client at rest is not stopped again. -/
theorem AtRest.advance_stop (h : AtRest before c) : Client.stop.advance c = (.ended (), c) := by
  have hphase : { c with phase := if c.phase = .disconnected then .disconnected else .stopped } = c := by
    have hsame : (if c.phase = .disconnected then Phase.disconnected else .stopped) = c.phase := by
      rw [h.phase_eq, stoppedPhase]
      split <;> rfl
    rw [hsame]
  have hnone : (Pending.rejectAll .stopped).advance c.pending = (.ended 0, c.pending) := by
    have hsame : { c.pending with waiting := [] } = c.pending := by rw [← h.none_pending]
    rw [Pending.advance_rejectAll, hsame, h.none_pending]
    rfl
  have hreject : (aside (onPending (Pending.rejectAll .stopped))).advance c = (.ended 0, c) := by
    rw [aside, advance_relay, onPending, advance_within pending_isPart, hnone]
  rw [advance_stop_idle h.halted, hphase, windUp, advance_bind_of_ended hreject]
  show (report c c.lastExit).advance c.cleared = _
  rw [h.emptied.cleared_eq, report, h.halted]
  rfl

/-! ## Who has the word meanwhile -/

def Call.Parting : Call η → Prop
  | terminate _ => True
  | notice (.told ..) => True
  | _ => False

def Call.Unending : Call η → Prop
  | terminate _ => False
  | _ => True

/-- What may be done to a client that is being stopped: everything but to start it again. No process
comes to run by itself, and of a client that is not stopped no process ends. Whether anything more
of the error output comes in is left open (`said`). -/
def Leaves (said : Prop) (m : (whole η read).Moment) : Deed η → Prop
  | .use (.start _) => False
  | .connect .. => False
  | .use (.errors _) => said
  | .use (.world l) => l.running = true → m.state.link.running = true
  | .ended _ => m.state.phase = .stopped
  | _ => True

/-- Somebody cares for a client at rest, and for the end of the error output if no more comes in. -/
def restCare (said : Prop) : Care := ⟨¬ said, False, False, True⟩

theorem allowed_of_leaves {m : (whole η read).Moment} {d : Deed η} (h : Leaves said m d) :
    d.Allowed (restCare said) m.state := by
  cases d with
  | use u =>
    cases u with
    | start why => exact h
    | stop code => exact id
    | exit code => exact False.elim
    | errors chunk => exact ⟨fun hunsaid => hunsaid h, id⟩
    | world l => exact fun _ => h
    | _ => trivial
  | connect g code => exact h
  | ended code => exact ⟨False.elim, fun _ => h⟩
  | _ => trivial

/-- However a client at rest is used, it stays at rest. -/
theorem spares_of_leaves (hc : c.Settled) {trace : List (whole η read).Event}
    (h : (whole η read).ReachableIf (Leaves said) c ⟨c', [], trace⟩) : Spares (restCare said) c c' :=
  moves_of_steps (R := sparing (restCare said) Call.Mild)
    (fun _ _ hmay hm => heeds_body (fun _ h => h) (allowed_of_leaves hmay) hm) (fun _ => hc)
    (fun _ hf => absurd hf List.not_mem_nil) h

section World

variable {ω : Type} {seat : Seat (Client η) ω} {answer : (c : Call η) → StateM ω c.Reply} {w : ω}

/-- The transport while it ends a process, and whoever is told how a request has ended, use the
client but do not start it; and the process is ended. -/
structure Considerate (read : Bytes → Except Frame.Dropped Message) (seat : Seat (Client η) ω)
    (answer : (c : Call η) → StateM ω c.Reply) (said : Prop) : Prop where
  leaves : ∀ call w, call.Parting → ∃ trace,
    (whole η read).ReachableIf (Leaves said) (seat.look w) ⟨seat.look (answer call w).2, [], trace⟩
  ends : ∀ grace w, (seat.look (answer (.terminate grace) w).2).link.running = false

structure Still (seat : Seat (Client η) ω) (answer : (c : Call η) → StateM ω c.Reply) : Prop where
  alone : ∀ call w, call.Unending → seat.look (answer call w).2 = seat.look w
  ends : ∀ grace w, seat.look (answer (.terminate grace) w).2 = (seat.look w).halted

theorem Still.considerate (h : Still seat answer) : Considerate read seat answer False where
  leaves := by
    intro call w hparting
    cases call with
    | terminate grace =>
      have hstep : StepIf (Leaves False) (⟨seat.look w, [], []⟩ : (whole η read).Moment)
          (Moment.enter (O := whole η read) ⟨seat.look w, [], []⟩ (.use (.world (seat.look w).halted.link))) :=
        .enter fun hr => by cases hr
      rw [h.ends]
      exact ⟨_, .single hstep⟩
    | notice n =>
      rw [h.alone (.notice n) w trivial]
      exact ⟨_, .refl⟩
    | _ => exact hparting.elim
  ends := by
    intro grace w
    rw [h.ends]
    rfl

/-! ## The run of a stop -/

def layDown : Action η (Option Int) := do
  let before : Client η ← get
  if before.link.running ∨ before.phase ≠ .disconnected then set { before with phase := .stopped }
  wrapUp

/-- A server that is not ready is not asked to shut down. -/
theorem run_stop (answer : (c : Call η) → StateM ω c.Reply) (hphase : (seat.look w).phase ≠ .ready) :
    Client.stop.run seat answer w =
      (report (seat.look w) (layDown.run seat answer w).1).run seat answer
        (layDown.run seat answer w).2 := by
  rw [stop_eq, run_get_bind, layDown, run_get_bind]
  simp only [hphase, and_false, if_false]
  split
  · exact run_bind seat answer wrapUp _ _
  · exact run_bind seat answer wrapUp _ _

def laidDown (c : Client η) : Client η := { c with phase := c.stoppedPhase }

theorem settled_laidDown (c : Client η) : c.laidDown.Settled := by
  by_cases h : c.link.running = true ∨ c.phase ≠ .disconnected
  · exact Or.inl (if_pos h)
  · exact Or.inr ⟨if_neg h, Bool.eq_false_iff.2 (not_or.1 h).1⟩

theorem run_layDown (hseat : seat.Lawful) (answer : (c : Call η) → StateM ω c.Reply) (w : ω) :
    ∃ w', seat.look w' = (seat.look w).laidDown ∧ layDown.run seat answer w = wrapUp.run seat answer w' := by
  rw [layDown, run_get_bind]
  by_cases h : (seat.look w).link.running = true ∨ (seat.look w).phase ≠ .disconnected
  · rw [if_pos h, run_set_bind]
    refine ⟨_, ?_, rfl⟩
    rw [hseat.look_put, laidDown, stoppedPhase, if_pos h]
  · rw [if_neg h]
    refine ⟨w, ?_, rfl⟩
    rw [laidDown, stoppedPhase, if_neg h, ← not_not.1 (not_or.1 h).2]

/-- Then the process is ended, if there is one. -/
theorem run_wrapUp (seat : Seat (Client η) ω) (answer : (c : Call η) → StateM ω c.Reply) (w : ω) :
    ∃ w', (wrapUp.run seat answer w).2 = (dismiss.run seat answer w').2 ∧
    ((seat.look w).link.running = true ∧ (∃ grace, w' = (answer (.terminate grace) w).2) ∨
      (seat.look w).link.running = false ∧ w' = w) := by
  have hlast : ∀ (code : Option Int) (w : ω), ((dismiss >>= fun _ => return code).run seat answer w).2
      = (dismiss.run seat answer w).2 := fun code w => congrArg Prod.snd (run_bind seat answer dismiss _ w)
  rw [wrapUp, run_get_bind]
  cases hrun : (seat.look w).link.running with
  | true => exact ⟨_, hlast _ _, Or.inl ⟨rfl, _, rfl⟩⟩
  | false => exact ⟨w, hlast _ _, Or.inr ⟨rfl, rfl⟩⟩

/-- Then whoever waits does so no more, and is told. -/
theorem run_dismiss (hseat : seat.Lawful) (answer : (c : Call η) → StateM ω c.Reply) (w : ω) : ∃ w' rejected,
    seat.look w' = { seat.look w with pending := { (seat.look w).pending with waiting := [] } } ∧
    dismiss.run seat answer w = (aside (onPending (Pending.tellThen (fun _ => .rejected .stopped) (fun _ => [])
      (seat.look w).pending.waiting rejected)) >>= clearUp).run seat answer w' :=
  ⟨_, _, hseat.look_put _ w, rfl⟩

/-- In the end the session is forgotten. -/
theorem look_clearUp (hseat : seat.Lawful) (rejected : Nat) (w : ω) :
    seat.look ((clearUp rejected).run seat answer w).2 = (seat.look w).cleared := by
  unfold clearUp
  split
  · show seat.look (seat.put _ _) = _
    rw [hseat.look_put, hseat.look_note]
  · exact hseat.look_put _ w

theorem emptied_dismiss (hseat : seat.Lawful) (w : ω) : Emptied (seat.look (dismiss.run seat answer w).2) := by
  have hclear : dismiss.run seat answer w = _ := run_bind seat answer _ clearUp w
  rw [hclear, look_clearUp hseat]
  exact emptied_cleared _

/-- While the process is ended and everybody is told, the client stays at rest. -/
theorem Considerate.spares (h : Considerate read seat answer said) (call : Call η) (hcall : call.Parting)
    (hw : (seat.look w).Settled) : Spares (restCare said) (seat.look w) (seat.look (answer call w).2) := by
  obtain ⟨trace, hreach⟩ := h.leaves call w hcall
  exact spares_of_leaves hw hreach

theorem Considerate.wrapUp (h : Considerate read seat answer said) (hseat : seat.Lawful) (hw : (seat.look w).Settled) :
    Spares (restCare said) (seat.look w) (seat.look (Client.wrapUp.run seat answer w).2) ∧
      (seat.look (Client.wrapUp.run seat answer w).2).link.running = false ∧
      (seat.look (Client.wrapUp.run seat answer w).2).pending.waiting = [] := by
  obtain ⟨w₁, hwrap, hended⟩ := run_wrapUp seat answer w
  obtain ⟨w₂, rejected, hlook, hdismiss⟩ := run_dismiss hseat answer w₁
  have hhalted : Spares (restCare said) (seat.look w) (seat.look w₁) ∧ (seat.look w₁).link.running = false := by
    rcases hended with ⟨_, grace, rfl⟩ | ⟨hidle, rfl⟩
    · exact ⟨h.spares (.terminate grace) trivial hw, h.ends grace w⟩
    · exact ⟨.refl _, hidle⟩
  have hempty : Spares (restCare said) (seat.look w₁) (seat.look w₂) := by
    rw [hlook]
    exact ⟨rfl, rfl, fun _ => rfl, fun _ => rfl, fun _ h => h, fun _ => rfl, fun _ => rfl,
      fun _ _ hnone => absurd hnone List.not_mem_nil, fun _ h => h⟩
  have hsettled : (seat.look w₂).Settled := (hhalted.1.trans hempty).settled trivial hw
  have htold : Spares (restCare said) (seat.look w₂) (seat.look (dismiss.run seat answer w₁).2) := by
    rw [hdismiss]
    refine Heeds.run (R := sparing (restCare said) Call.Parting) hseat
      (fun call w hcall hw => h.spares call hcall (hw trivial)) (fun _ => hsettled) ?_
    refine (heeds_aside (fun _ => hsettled) (heeds_onPending (fun _ _ => trivial) (fun _ => hsettled) ?_)).bind
      (fun _ => hsettled) fun rejected c _ => heeds_clearUp id rejected
    exact heeds_tellThen (by simp) _ _
  rw [hwrap]
  refine ⟨(hhalted.1.trans hempty).trans htold, ?_, ?_⟩
  · cases hrun : (seat.look (dismiss.run seat answer w₁).2).link.running with
    | false => rfl
    | true =>
      have hbefore := htold.running trivial hrun
      rw [hlook, hhalted.2] at hbefore
      cases hbefore
  · refine List.eq_nil_iff_forall_not_mem.2 fun x hx => ?_
    have hbefore := htold.waiting trivial x hx
    rw [hlook] at hbefore
    exact List.not_mem_nil hbefore

abbrev exitsOnly (η : Type) : Restraint (Client η) (Calls η) := .onPart exits_isPart Call.Unending

theorem heeds_report_exitsOnly (before : Client η) (code : Option Int) :
    (report before code).Heeds (exitsOnly η) c := by
  have hemit : (emitExit code).Heeds (Restraint.onPart exits_isPart fun n => Call.Unending (.notice n)) c :=
    heeds_onPart (S := Signal.Handling η (Option Int)) exits_isPart (fun n => Call.Unending (.notice n))
      (fun call _ => heeds_ask (S := Notices η) (c := .exited call.1 call.2) trivial) (Signal.emit code)
  unfold report
  split
  · exact (heeds_log_bind _ _).2 ⟨trivial, heeds_aside_onPart hemit⟩
  · trivial

theorem AtRest.report (h : AtRest before (seat.look w)) (hseat : seat.Lawful) (hstill : Still seat answer)
    (code : Option Int) : AtRest before (seat.look ((Client.report before code).run seat answer w).2) := by
  obtain ⟨s, hs⟩ := Heeds.run (R := exitsOnly η) hseat (fun call w hcall _ => ⟨_, hstill.alone call w hcall⟩) (w := w)
    trivial (heeds_report_exitsOnly before code)
  rw [hs]
  exact ⟨⟨h.emptied.undeclared, h.emptied.untracked, h.emptied.unpublished, h.emptied.buffer_empty,
    h.emptied.line_empty⟩, h.halted, h.none_pending, h.phase_eq, h.nextId_eq⟩

theorem heeds_layDown : (layDown (η := η)).Heeds (.only Call.Parting) c := by
  have hwrapUp : ∀ c : Client η, Client.wrapUp.Heeds (.only Call.Parting) c := fun c =>
    Heeds.mono (R := sparing ⟨False, False, False, False⟩ Call.Parting) (Q := .only Call.Parting) (fun _ _ => False.elim)
      (fun _ _ _ => trivial) (fun _ _ => trivial) (fun _ h => h)
      (heeds_wrapUp (fun _ => trivial) (fun _ _ => trivial) id False.elim)
  simp only [layDown, heeds_get_bind]
  split
  · exact ⟨trivial, hwrapUp _⟩
  · exact hwrapUp c

structure ComesToRest (read : Bytes → Except Frame.Dropped Message) (seat : Seat (Client η) ω)
    (answer : (c : Call η) → StateM ω c.Reply) (w : ω) : Prop where
  /-- It ends the process and rejects whoever waits, and then it reports the exit. -/
  reported : Client.stop.run seat answer w =
    (report (seat.look w) (layDown.run seat answer w).1).run seat answer (layDown.run seat answer w).2
  /-- Before the report nobody else is called. -/
  parting : layDown.Heeds (.only Call.Parting) (seat.look w)
  emptied : Emptied (seat.look (layDown.run seat answer w).2)
  /-- If those who are called do not start the server, the client is at rest when the report begins. -/
  at_rest : ∀ said, Considerate read seat answer said → AtRest (seat.look w) (seat.look (layDown.run seat answer w).2) ∧
    (¬ said → (seat.look (layDown.run seat answer w).2).stderrTail = (seat.look w).stderrTail)
  /-- If they leave the client alone, another stop calls nobody and changes nothing. -/
  again : Still seat answer → Client.stop.advance (seat.look (Client.stop.run seat answer w).2)
    = (.ended (), seat.look (Client.stop.run seat answer w).2)

/-- A stop of a client that is not ready, whatever was before, with a process or without. -/
theorem stop_comes_to_rest (hseat : seat.Lawful) (hphase : (seat.look w).phase ≠ .ready) :
    ComesToRest read seat answer w := by
  obtain ⟨w₀, hlook, hlay⟩ := run_layDown hseat answer w
  have hempty : Emptied (seat.look (layDown.run seat answer w).2) := by
    obtain ⟨w₁, hwrap, -⟩ := run_wrapUp seat answer w₀
    rw [hlay, hwrap]
    exact emptied_dismiss hseat w₁
  have hrest : ∀ said, Considerate read seat answer said →
      AtRest (seat.look w) (seat.look (layDown.run seat answer w).2) ∧
        (¬ said → (seat.look (layDown.run seat answer w).2).stderrTail = (seat.look w).stderrTail) := by
    intro said hconsiderate
    obtain ⟨hspared, hhalted, hnone⟩ := hconsiderate.wrapUp hseat (w := w₀) (by rw [hlook]; exact settled_laidDown _)
    rw [← hlay, hlook] at hspared
    rw [← hlay] at hhalted hnone
    exact ⟨⟨hempty, hhalted, hnone, hspared.phase trivial, hspared.ids trivial⟩, hspared.tail⟩
  have hrun := run_stop answer hphase
  refine ⟨hrun, heeds_layDown, hempty, hrest, fun hstill => ?_⟩
  rw [hrun]
  exact ((hrest False (hstill.considerate)).1.report hseat hstill _).advance_stop

end World

def ending : (call : Call Unit) → StateM (Client Unit) call.Reply
  | .terminate _ => do
    modify halted
    return some 0
  | other => refusing [] other

/-- A client that has lost its session in the middle of a frame and of a line, while its process
goes on and somebody waits for an answer. -/
def leftBehind : Client Unit :=
  { config := { name := text "demo", command := text "demo" }
    link := { running := true }
    phase := .errored
    decoder := ⟨text "Content-Le"⟩
    pending := { timeout := 30000, nextId := 8, waiting := [⟨7, text "shutdown", .handler (), 30000⟩] }
    documents := ⟨[(text "file:///a", 3)]⟩
    stderrTail := text "oops"
    stderrLine := text "oo" }

theorem stop_comes_to_rest_of_left_behind : (Client.stop.run Seat.whole ending leftBehind).2.phase = .stopped ∧
    (Client.stop.run Seat.whole ending leftBehind).2.stderrTail = text "oops" ∧
    ComesToRest Frame.read Seat.whole ending leftBehind ∧
    AtRest leftBehind (layDown.run Seat.whole ending leftBehind).2 ∧
    Client.stop.advance (Client.stop.run Seat.whole ending leftBehind).2
      = (.ended (), (Client.stop.run Seat.whole ending leftBehind).2) := by
  have hstill : Still Seat.whole ending := by
    refine ⟨fun call c hcall => ?_, fun _ _ => rfl⟩
    cases call with
    | notice n => cases n <;> rfl
    | terminate grace => exact hcall.elim
    | _ => rfl
  have hstop : ComesToRest Frame.read Seat.whole ending leftBehind := stop_comes_to_rest Seat.whole_lawful (by decide)
  exact ⟨rfl, rfl, hstop, (hstop.at_rest False hstill.considerate).1, hstop.again hstill⟩

def recording : Seat (Client Unit) (Client Unit × List (Client Unit)) :=
  ⟨Prod.fst, fun c w => (c, w.2 ++ [c]), fun _ w => w⟩

/-- The transport starts the server, in vain, before it ends the process. -/
def meddling : (call : Call Unit) → StateM (Client Unit × List (Client Unit)) call.Reply
  | .terminate _ => do
    discard (Client.start.run recording (refusing (text "no such file")))
    modify fun w => recording.put w.1.halted w
    return some 0
  | other => refusing [] other

def unstarted : Client Unit :=
  { config := { name := text "demo", command := text "demo" }, link := { running := true } }

/-- If the server is started while the process is ended, and is refused, there is no state of the
client in which no process runs and the client is stopped. In the end it is errored. -/
theorem a_start_amid_the_end : (Client.stop.run recording meddling (unstarted, [])).2.1.phase = .errored ∧
    ∀ c ∈ unstarted :: (Client.stop.run recording meddling (unstarted, [])).2.2,
      ¬ (c.link.running = false ∧ c.phase = .stopped) := by
  decide

end LanguageClient.Client
