import LanguageClient.Proofs.Host.Children
import LanguageClient.Proofs.ServerProcess.ExitCodes
import LanguageClient.ServerProcess.Script
/-
  LanguageClient.Proofs.ServerProcess.Script — the ends of servers on a machine.

  A script starts servers on a machine, writes to them, polls them and ends them. The servers are
  processes of the machine, and what they run is mostly scripts of its shell. Whatever they run,
  and whatever the script does, a run is a play with the table of the system (`Shows.act`). So the
  ends that the script is told of are the ends of the servers that it has started, one after the
  other, and all of them when no server is left (`ends_of_script`).

  What is asked of a system is seen of a machine elsewhere: it answers as the table allows
  (`Host.Machine.provide_agrees`). One thing lies with the client's end. A wait for the end of a
  process might last as long as the process; but the client's end waits without a limit only for
  a process that it has just killed.

  - `Patient`: a routine that does so, and that makes certain calls only. `patient_body` says it of
    every act.
  - `Shows`: nothing goes on, and the machine tells of processes what the table tells.
  - `carry_on`: carrying a routine out on a machine leads from scene to scene, by induction on the routine.
  - `Tells`: what a script has been told of, between its steps. While it polls, `Hears`.
-/

namespace LanguageClient.ServerProcess.Reaping

open Host (Machine SignalNumber)
open Host.Machine (Agrees afterEnds provide_agrees sound_provide pid_ne_of_kill collect_ne_running)
open ServerProcess.Script (World seat carryOut)

/-! ## No wait in vain -/

/-- Whoever waits for the end of a process, however long, has just killed it. -/
def forcing (may : Call → Prop) : Contract ServerProcess Calls (Option Nat) where
  record _ killed := killed
  safe c _ killed := may c ∧ ∀ pid, c = .service (.collect pid) → killed = some pid
  answers
    | .service (.signal pid number), p, _, _, p', killed =>
      p' = p ∧ killed = if number = SignalNumber.kill then some pid else none
    | .service _, p, _, _, p', killed => p' = p ∧ killed = none
    | .deliver _, _, _, _, _, killed => killed = none

theorem same_of_answers {may : Call → Prop} {q : Service} {p p' : ServerProcess} {killed killed' : Option Nat}
    {r : q.Reply} (h : (forcing may).answers (.service q) p killed r p' killed') : p' = p := by
  cases q <;> exact h.1

/-- Whatever it finds, a routine makes certain calls only, and waits for no process that it has not killed. -/
def Patient {α : Type} (may : Call → Prop) (r : Work α) : Prop :=
  ∀ p killed, r.Holds (forcing may) (fun _ _ _ => True) p killed

section patient

variable {α β : Type} {may : Call → Prop}

theorem patient_pure (a : α) : Patient may (pure a) := fun _ _ => trivial

theorem Patient.bind {r : Work α} {f : α → Work β} (h : Patient may r) (hf : ∀ a, Patient may (f a)) :
    Patient may (r >>= f) := fun p killed =>
  (Routine.holds_bind r f).2 ((h p killed).mono fun a p killed _ => hf a p killed)

theorem patient_get : Patient may (get : Work ServerProcess) := fun _ _ => trivial

theorem patient_set (p : ServerProcess) : Patient may (set p : Work PUnit) := fun _ _ => trivial

theorem patient_modify (f : ServerProcess → ServerProcess) : Patient may (modify f : Work PUnit) := fun _ _ => trivial

theorem patient_note (b : Bytes) : Patient may (note b) := fun _ _ => trivial

theorem patient_request {q : Service} (hmay : may (.service q)) (hq : ∀ pid, q ≠ .collect pid) :
    Patient may (request q) := fun _ _ =>
  ⟨⟨hmay, fun pid heq => absurd (Call.service.inj heq) (hq pid)⟩, fun _ _ _ _ => trivial⟩

theorem patient_deliver {d : Delivery} (hmay : may (.deliver d)) : Patient may (deliver d) := fun _ _ =>
  ⟨⟨hmay, fun _ heq => nomatch heq⟩, fun _ _ _ _ => trivial⟩

theorem patient_repeatedly {step : β → Work (β ⊕ α)} {giveUp : β → α} (hmay : may (.service .spent))
    (hstep : ∀ b, Patient may (step b)) (rounds : Nat) (b : β) : Patient may (repeatedly rounds step b giveUp) := by
  refine Patient.bind (fun p killed => ?_) fun r => ?_
  · exact Routine.Holds.loop (fun _ _ _ => True) (fun b p killed _ => hstep b p killed) trivial rounds
  · cases r with
    | inl b => exact (patient_request hmay fun _ => nofun).bind fun _ => patient_pure _
    | inr a => exact patient_pure a

variable {rounds : Nat}

theorem patient_reap (hmay : ∀ pid, may (.service (.reap pid))) : Patient may ServerProcess.reap := by
  refine patient_get.bind fun p => ?_
  cases p.pid with
  | none => exact patient_pure _
  | some pid =>
    refine (patient_request (hmay pid) fun _ => nofun).bind fun fate => ?_
    cases fate <;> exact patient_pure _

theorem patient_handOver (hdeliver : ∀ d, may (.deliver d)) (s : Stream) (b : Bytes) : Patient may (handOver s b) := by
  unfold handOver
  split
  next => exact patient_pure _
  next => exact (patient_deliver (hdeliver _)).bind fun _ => patient_get.bind fun _ => patient_pure _

theorem patient_release (hdeliver : ∀ d, may (.deliver d)) (s : Stream) : Patient may (release s) :=
  patient_get.bind fun _ => (patient_set _).bind fun _ => patient_handOver hdeliver s _

variable (hmay : ∀ q, (∀ l, q ≠ .start l) → may (.service q))

include hmay

theorem patient_service {q : Service} (hstart : ∀ l, q ≠ .start l) (hcollect : ∀ pid, q ≠ .collect pid) :
    Patient may (request q) := patient_request (hmay q hstart) hcollect

/-- What asks for no process is patient. -/
theorem patient_quiet {r : Work α} (h : ∀ p, r.Heeds (quiet p.pid) p) : Patient may r := by
  have key : ∀ (pid : Option Nat) (p : ServerProcess) (killed : Option Nat), p.pid = pid → r.Heeds (quiet pid) p →
      r.Holds (forcing may) (fun _ _ _ => True) p killed := by
    clear h
    intro pid p killed hpid h
    induction r generalizing p killed with
    | done a => trivial
    | look next ih => exact ih p p killed hpid h
    | put t next ih => exact ih t killed (h.1.trans hpid) h.2
    | note e next ih => exact ih p killed hpid h.2
    | call c next ih =>
      cases c with
      | deliver d => exact h.1.elim
      | service q =>
        have hq : isQuiet q = true := h.1
        refine ⟨⟨hmay q fun l heq => ?_, fun pid heq => ?_⟩, fun r p' killed' hanswer => ?_⟩
        · cases heq
          cases hq
        · cases heq
          cases hq
        · obtain rfl := same_of_answers hanswer
          exact ih r p' killed' hpid (h.2 r p' hpid)
  exact fun p killed => key p.pid p killed rfl (h p)

theorem patient_awaitEnd (ms : Int) : Patient may (awaitEnd rounds ms) := by
  refine (patient_service hmay (by nofun) (by nofun)).bind fun start => ?_
  refine patient_repeatedly (hmay _ (by nofun)) (fun _ => ?_) rounds _
  refine (patient_reap fun pid => hmay _ fun _ => nofun).bind fun told => ?_
  cases told with
  | some code => exact patient_pure _
  | none =>
    refine (patient_service hmay (by nofun) (by nofun)).bind fun now => ?_
    split
    next => exact patient_pure _
    next => exact (patient_service hmay (by nofun) (by nofun)).bind fun _ => patient_pure _

theorem patient_abandon : Patient may abandon :=
  (patient_modify _).bind fun _ => patient_quiet hmay fun _ => heeds_closeAll rfl

/-- The wait for a process that has been killed. -/
theorem patient_force (pid : Nat) (grace : Int) : Patient may (force rounds pid grace) := by
  refine (patient_note _).bind fun _ => ?_
  refine (patient_service hmay (by nofun) (by nofun)).bind fun _ => ?_
  refine (patient_awaitEnd hmay grace).bind fun told => ?_
  cases told with
  | some code => exact patient_pure _
  | none =>
    -- nothing comes between the kill and the wait
    refine (patient_note _).bind fun _ => fun p killed => ?_
    refine ⟨⟨hmay _ fun _ => nofun, fun _ => nofun⟩, ?_⟩
    rintro _ p' _ ⟨rfl, rfl⟩
    refine ⟨⟨hmay _ fun _ => nofun, fun pid' heq => ?_⟩, fun fate _ _ _ => ?_⟩
    · cases heq
      rfl
    · cases fate <;> trivial

theorem patient_terminate (grace : Int) : Patient may (terminate rounds grace) := by
  refine patient_get.bind fun p => ?_
  cases p.pid with
  | none => exact (patient_quiet hmay fun _ => heeds_closeAll rfl).bind fun _ => patient_pure _
  | some pid =>
    refine (patient_quiet hmay fun _ => heeds_closeInput rfl).bind fun _ => ?_
    have hclosing : ∀ code : Option Nat, Patient may (abandon >>= fun _ => pure code) := fun code =>
      (patient_abandon hmay).bind fun _ => patient_pure _
    refine (patient_awaitEnd hmay grace).bind fun told => ?_
    cases told with
    | some code => exact hclosing code
    | none => exact (patient_force hmay pid grace).bind hclosing

theorem patient_takeIn (ms : Int) : Patient may (takeIn rounds ms) := by
  refine (patient_quiet hmay fun _ => heeds_drainBoth rfl).bind fun read => ?_
  refine patient_get.bind fun p => ?_
  dsimp only
  split
  next => exact (patient_awaitEnd hmay ms).bind fun _ => patient_pure _
  next =>
    refine (patient_reap fun pid => hmay _ fun _ => nofun).bind fun told => ?_
    cases told with
    | none => exact patient_pure _
    | some code => exact (patient_quiet hmay fun _ => heeds_drainBoth rfl).bind fun _ => patient_pure _

theorem patient_look (ms : Int) : Patient may (look rounds ms) := by
  refine patient_get.bind fun p => ?_
  split
  next => exact patient_takeIn hmay ms
  next =>
    exact (patient_service hmay (by nofun) (by nofun)).bind fun _ => patient_takeIn hmay _

variable (hdeliver : ∀ d, may (.deliver d))

include hdeliver

theorem patient_handOverAll (found : Found) : Patient may (handOverAll found) := by
  refine (patient_handOver hdeliver _ _).bind fun isThere => ?_
  split
  next =>
    refine (patient_handOver hdeliver _ _).bind fun isThere => ?_
    split
    next =>
      cases found.exit with
      | none => exact patient_pure _
      | some code =>
        refine patient_get.bind fun p => (patient_note _).bind fun _ => ?_
        exact (patient_abandon hmay).bind fun _ => patient_deliver (hdeliver _)
    next => exact patient_pure _
  next => exact patient_pure _

theorem patient_poll (wait : Int) : Patient may (poll rounds wait) := by
  refine (patient_get.bind fun p => patient_pure p.isRunning).bind fun isRunning => ?_
  split
  next =>
    refine (patient_release hdeliver .output).bind fun isThere => ?_
    dsimp only
    split
    next =>
      refine (patient_release hdeliver .errors).bind fun isThere => ?_
      split
      next =>
        refine (patient_look hmay wait).bind fun found => ?_
        exact (patient_handOverAll hmay hdeliver found).bind fun _ => patient_pure _
      next => exact patient_pure _
    next => exact patient_pure _
  next => exact patient_pure _

end patient

/-! ## A world is a scene -/

structure Shows (w : World) (c : Scene patience) : Prop where
  rest : c.moment.stack = []
  process : c.moment.state = w.process
  sound : w.machine.Sound
  agrees : Agrees w.machine c.table

section play

variable {rounds : Nat} {c c' : Scene rounds} {cues : List Cue}

theorem play_cons {cue : Cue} (hcue : c.isListening cue = true) (h : take c cue = some c') :
    play Scene.isListening (cue :: cues) c = play Scene.isListening cues c' := by
  rw [play, List.foldlM_cons, if_pos hcue, h]
  rfl

theorem take_of_answer {p start : ServerProcess} {a : Act} {q : Service} {r : q.Reply} {next : q.Reply → Work a.Answer}
    {stack : List (acts rounds).Suspended} {trace : List (acts rounds).Event} {t t' : Table}
    (h : Reaping.answer t q r = some t') :
    take ⟨⟨p, ⟨a, start, .service q, next⟩ :: stack, trace⟩, t⟩ (.answer q r) =
      some ⟨Operations.Moment.proceed ⟨p, stack, trace⟩ a start (next r), t'⟩ := by
  simp [take, h]

theorem play_append {cues' : List Cue} (h : play Scene.isListening cues c = some c') :
    play Scene.isListening (cues ++ cues') c = play Scene.isListening cues' c' := by
  rw [play, List.foldlM_append]
  exact congrArg (· >>= _) h

theorem play_ends (ends : List (Nat × Option Nat)) (m : (acts rounds).Moment) (t : Table) :
    play Scene.isListening (ends.map fun e => .exit e.1 e.2) ⟨m, t⟩ = some ⟨m, afterEnds ends t⟩ := by
  induction ends generalizing t with
  | nil => rfl
  | cons e ends ih => exact (play_cons rfl rfl).trans (ih _)

end play

theorem length_afterEnds (ends : List (Nat × Option Nat)) (t : Table) : (afterEnds ends t).length = t.length := by
  induction ends generalizing t with
  | nil => rfl
  | cons e ends ih => exact (ih _).trans (List.length_map _)

theorem length_ask (pid : Nat) (t : Table) : (ask pid t).2.length = t.length := by
  induction t with
  | nil => rfl
  | cons e t ih =>
    rw [ask]
    split
    next =>
      split
      next => rfl
      next => split <;> rfl
    next => exact congrArg Nat.succ ih

theorem length_answer {t t' : Table} {q : Service} {r : q.Reply} (hq : ∀ l, q ≠ .start l)
    (h : Reaping.answer t q r = some t') : t'.length = t.length := by
  cases q with
  | start l => exact absurd rfl (hq l)
  | reap pid =>
    rw [Reaping.answer, Option.ite_none_right_eq_some] at h
    exact Option.some.inj h.2 ▸ length_ask pid t
  | collect pid =>
    rw [Reaping.answer, Option.ite_none_right_eq_some] at h
    exact Option.some.inj h.2 ▸ length_ask pid t
  | _ => exact congrArg List.length (Option.some.inj h).symm

/-- Of the kill that comes before a wait the machine has taken notice. -/
theorem answers_provide (may : Call → Prop) (m : Machine) (p : ServerProcess) (q : Service) (killed : Option Nat) :
    ∃ killed', (forcing may).answers (.service q) p killed (m.provide q).1 p killed' ∧
      ∀ pid, killed' = some pid → ∀ q' ∈ (m.provide q).2.processes, q'.pid ≠ pid := by
  cases q with
  | signal pid number =>
    refine ⟨_, ⟨rfl, rfl⟩, fun k hk => ?_⟩
    split at hk
    next hnumber =>
      cases hk
      rw [hnumber]
      exact pid_ne_of_kill m pid
    next => cases hk
  | _ => exact ⟨none, ⟨rfl, rfl⟩, nofun⟩

/-- From where it is, an act goes on to its end, while processes end between the services it asks for. -/
theorem carry_on (may : Call → Prop) {a : Act} (start : ServerProcess) (r : Work a.Answer) {w : World}
    (trace : List (acts patience).Event) {t : Table} {killed : Option Nat}
    (hr : r.Holds (forcing may) (fun _ _ _ => True) w.process killed)
    (hkilled : ∀ pid, killed = some pid → ∀ q ∈ w.machine.processes, q.pid ≠ pid) (hm : w.machine.Sound)
    (ha : Agrees w.machine t) :
    ∃ cues c heard,
      play Scene.isListening cues ⟨Operations.Moment.proceed ⟨w.process, [], trace⟩ a start r, t⟩ = some c ∧
      Shows (r.run seat Script.answer w).2 c ∧
      c.reports = trace.filterMap reportOf ++ heard ++
        (reportOf (.ended a start (r.run seat Script.answer w).1 : (acts patience).Event)).toList ∧
      (r.run seat Script.answer w).2.collected.exit = heard.getLast?.or w.collected.exit ∧
      (heard ≠ [] → ∃ d, may (.deliver d)) ∧ ((∀ l, ¬ may (.service (.start l))) → c.table.length = t.length) := by
  induction r generalizing w trace t killed with
  | done answer =>
    refine ⟨[], _, [], rfl, ⟨rfl, rfl, hm, ha⟩, ?_, rfl, fun h => absurd rfl h, fun _ => rfl⟩
    show (trace ++ [_]).filterMap reportOf = _
    rw [List.filterMap_append, List.append_nil]
    rfl
  | look next ih => exact ih w.process trace hr hkilled hm ha
  | put p next ih => exact ih (w := seat.put p w) trace hr hkilled hm ha
  | note e next ih => exact ih (w := seat.note e w) trace hr hkilled hm ha
  | call c next ih =>
    cases c with
    | service q =>
      obtain ⟨⟨hmay, hforced⟩, hnext⟩ := hr
      obtain ⟨ends, t', hanswer, hagrees⟩ := provide_agrees hm ha q fun pid hq =>
        collect_ne_running (hkilled pid (hforced pid (congrArg Call.service hq)))
      obtain ⟨killed', hanswers, hkilled'⟩ := answers_provide may w.machine w.process q killed
      obtain ⟨cues, c, heard, hplay, hshows, hreports, hexit, hheard, hlength⟩ :=
        ih (w.machine.provide q).1 (w := { w with machine := (w.machine.provide q).2 })
          (trace ++ [.called (.service q)]) (hnext _ _ _ hanswers) hkilled' (sound_provide hm q).1 hagrees
      -- first the ends, then the answer, then what the induction gives
      refine ⟨(ends.map fun e => .exit e.1 e.2) ++ .answer q (w.machine.provide q).1 :: cues, c, heard, ?_, hshows,
        ?_, hexit, hheard, fun hstart => ?_⟩
      · rw [play_append (play_ends ends _ t)]
        exact (play_cons rfl (take_of_answer hanswer)).trans hplay
      · rw [hreports, List.filterMap_append]
        exact congrArg (· ++ heard ++ _) (List.append_nil _)
      · rw [hlength hstart, length_answer (fun l hl => hstart l (hl ▸ hmay)) hanswer, length_afterEnds]
    | deliver d =>
      obtain ⟨⟨hmay, -⟩, hnext⟩ := hr
      obtain ⟨cues, c, heard, hplay, hshows, hreports, hexit, hheard, hlength⟩ :=
        ih () (w := { w with collected := w.collected.take d }) (trace ++ [.called (.deliver d)])
          (hnext () w.process none rfl) nofun hm ha
      refine ⟨.back :: cues, c, (reportOf (.called (.deliver d) : (acts patience).Event)).toList ++ heard,
        (play_cons rfl rfl).trans hplay, hshows, ?_, ?_, fun _ => ⟨d, hmay⟩, hlength⟩
      · rw [hreports, List.filterMap_append, ← List.append_assoc]
        cases d <;> rfl
      · refine hexit.trans ?_
        cases d with
        | bytes s b => cases s <;> rfl
        | exit code =>
          show heard.getLast?.or (some code) = ((code :: heard).getLast?).or _
          rw [List.getLast?_cons]
          cases heard.getLast? <;> rfl

/-! ## Acts -/

def mayCall : Act → Call → Prop
  | .poll _, .deliver _ => True
  | _, .deliver _ => False
  | .launch _, .service _ => True
  | _, .service (.start _) => False
  | _, .service _ => True

theorem mayCall_service {a : Act} {q : Service} (hq : ∀ l, q ≠ .start l) : mayCall a (.service q) := by
  cases q with
  | start l => exact absurd rfl (hq l)
  | _ => cases a <;> trivial

theorem patient_launch (c : ServerConfig) : Patient (mayCall (.launch c)) (ServerProcess.launch c) := by
  refine patient_get.bind fun p => ?_
  split
  next => exact patient_pure _
  next =>
    refine (patient_request trivial (by nofun)).bind fun surroundings => ?_
    split
    next => exact patient_pure _
    next l _ =>
      refine (patient_request trivial (by nofun)).bind fun started => ?_
      cases started with
      | error fault => exact patient_pure _
      | ok s => exact (patient_set _).bind fun _ => (patient_note _).bind fun _ => patient_pure _

theorem patient_body {rounds : Nat} (a : Act) : Patient (mayCall a) ((acts rounds).body a) := by
  have hmay : ∀ q : Service, (∀ l, q ≠ .start l) → mayCall a (.service q) := fun q hq => mayCall_service hq
  cases a with
  | launch c => exact patient_launch c
  | write bytes => exact patient_quiet hmay fun _ => heeds_write bytes rfl
  | poll wait => exact patient_poll hmay (fun _ => trivial) wait
  | terminate grace => exact patient_terminate hmay grace

/-- Carried out on a machine, an act is a part of a play. Its reports are what was handed over meanwhile and, of a
process that is ended by it, its answer. -/
theorem Shows.act {w : World} {c : Scene patience} (h : Shows w c) (a : Act) :
    ∃ cues c' heard, play Scene.isListening cues c = some c' ∧ Shows (carryOut ((acts patience).body a) w).2 c' ∧
      c'.reports = c.reports ++ heard ++
        (reportOf (.ended a w.process (carryOut ((acts patience).body a) w).1 : (acts patience).Event)).toList ∧
      (carryOut ((acts patience).body a) w).2.collected.exit = heard.getLast?.or w.collected.exit ∧
      (heard ≠ [] → ∃ wait, a = .poll wait) ∧ ((∀ l, a ≠ .launch l) → c'.table.length = c.table.length) := by
  obtain ⟨⟨p, stack, trace⟩, t⟩ := c
  obtain ⟨hrest, hprocess, hsound, hagrees⟩ := h
  obtain rfl : stack = [] := hrest
  obtain rfl : p = w.process := hprocess
  obtain ⟨cues, c', heard, hplay, hshows, hreports, hexit, hheard, hlength⟩ :=
    carry_on (mayCall a) w.process ((acts patience).body a) trace
      (patient_body a w.process none) nofun hsound hagrees
  refine ⟨.enter a :: cues, c', heard, ?_, hshows, hreports, hexit, fun hne => ?_,
    fun hlaunch => hlength fun l hmay => ?_⟩
  · refine (play_cons ?_ rfl).trans hplay
    exact Bool.or_true _
  · obtain ⟨d, hmay⟩ := hheard hne
    cases a with
    | poll wait => exact ⟨wait, rfl⟩
    | _ => exact hmay.elim
  · cases a with
    | launch l => exact hlaunch l rfl
    | _ => exact hmay.elim

/-! ## Scripts -/

/-- What a script is told of the ends of processes by a step that began with a process. -/
def endsTold (start : ServerProcess) : Script.Answer → List (Option Nat)
  | .polled _ c => c.exit.toList
  | .collected c => c.exit.toList
  | .terminated code => if start.isRunning then [code] else []
  | _ => []

def allEndsTold : ServerProcess → List Script.Outcome → List (Option Nat)
  | _, [] => []
  | p, o :: os => endsTold p o.answer ++ allEndsTold o.process os

def Played (c : Scene patience) : Prop := ∃ cues, play Scene.isListening cues (Scene.start patience none) = some c

theorem Played.play {c c' : Scene patience} (h : Played c) {cues : List Cue}
    (hplay : play Scene.isListening cues c = some c') : Played c' := by
  obtain ⟨cues₀, h₀⟩ := h
  exact ⟨cues₀ ++ cues, (play_append h₀).trans hplay⟩

theorem Paid.length {t : Table} {reports : List (Option Nat)} (h : Paid t reports) : t.length = reports.length := by
  simpa using congrArg List.length h

/-- One process at most has not been reported. -/
theorem Played.entries {c : Scene patience} (h : Played c) {w : World} (hshows : Shows w c) :
    c.table.length = c.reports.length + if w.process.isRunning then 1 else 0 := by
  obtain ⟨cues, hplay⟩ := h
  have hsound : c.IsSound :=
    play_induct (fun _ _ _ hc hlistening ht => hc.take (hc.clear hlistening) ht) hplay (Scene.start_sound patience none)
  unfold Scene.IsSound at hsound
  rw [hshows.rest, hshows.process] at hsound
  rcases (hsound : Stands none _ _) with hf | ⟨-, hnone⟩
  · obtain ⟨pid, hpid⟩ := hf.running
    rw [isRunning, hpid]
    generalize hg : (⟨c.table, c.reports⟩ : Ledger) = g at hf
    cases hf with
    | untold _ _ hpaid =>
      obtain ⟨htable, rfl⟩ := Ledger.mk.inj hg
      rw [htable]
      exact congrArg Nat.succ hpaid.length
  · rw [isRunning, hnone.1]
    exact hnone.2.length

/-- Since a time at which all but one of the processes at most had been reported, no process was started. What was
reported since is kept for the script. -/
structure Hears (told : List (Option Nat)) (entries : Nat) (w : World) (c : Scene patience)
    (heard : List (Option Nat)) : Prop where
  played : Played c
  shows : Shows w c
  reports : c.reports = told ++ heard
  exit : w.collected.exit = heard.getLast?
  entries : c.table.length = entries

variable {told heard : List (Option Nat)} {entries : Nat} {w : World} {c : Scene patience}

theorem Hears.poll (h : Hears told entries w c heard) (wait : Int) :
    ∃ c' heard', Hears told entries (carryOut (ServerProcess.poll patience wait) w).2 c' heard' := by
  obtain ⟨cues, c', more, hplay, hshows, hreports, hexit, -, hlength⟩ := h.shows.act (.poll wait)
  have hreports : c'.reports = c.reports ++ more ++ [] := hreports
  refine ⟨c', heard ++ more, h.played.play hplay, hshows, ?_, ?_, (hlength nofun).trans h.entries⟩
  · rw [hreports, h.reports, List.append_nil, List.append_assoc]
  · refine hexit.trans ?_
    rw [h.exit, List.getLast?_append]

theorem pollWhile_succ (isDone : Script.Collected → Bool) (deadline : Int) (n : Nat) (w : World) :
    (Script.pollWhile isDone deadline (n + 1) w).2 =
      if isDone w.collected || deadline ≤ w.machine.now then w
      else
        let r := carryOut (ServerProcess.poll patience Script.pollTime) w
        if r.1 then (Script.pollWhile isDone deadline n r.2).2 else r.2 := by
  show ((if (isDone w.collected || decide (deadline ≤ w.machine.now)) = true then (pure () : StateM World Unit)
    else carryOut (ServerProcess.poll patience Script.pollTime) >>= fun isRunning =>
      if isRunning = true then Script.pollWhile isDone deadline n else pure ()) w).2 = _
  split
  next => rfl
  next =>
    show ((if (carryOut (ServerProcess.poll patience Script.pollTime) w).1 = true then
        Script.pollWhile isDone deadline n else pure () : StateM World Unit)
      (carryOut (ServerProcess.poll patience Script.pollTime) w).2).2 = _
    dsimp only
    split <;> rfl

theorem Hears.pollWhile (h : Hears told entries w c heard) (isDone : Script.Collected → Bool) (deadline : Int)
    (n : Nat) :
    ∃ c' heard', Hears told entries (Script.pollWhile isDone deadline n w).2 c' heard' := by
  induction n generalizing w c heard with
  | zero => exact ⟨c, heard, h⟩
  | succ n ih =>
    obtain ⟨c', heard', h'⟩ := h.poll Script.pollTime
    rw [pollWhile_succ]
    dsimp only
    split
    next => exact ⟨c, heard, h⟩
    next =>
      split
      next => exact ih h'
      next => exact ⟨c', heard', h'⟩

theorem Hears.pollFor (h : Hears told entries w c heard) (isDone : Script.Collected → Bool) :
    ∃ c' heard', Hears told entries (Script.pollFor isDone w).2 c' heard' := h.pollWhile isDone _ _

structure Tells (told : List (Option Nat)) (w : World) (c : Scene patience) : Prop where
  played : Played c
  shows : Shows w c
  reports : c.reports = told
  nothing : w.collected.exit = none

theorem Tells.hears (h : Tells told w c) : Hears told c.table.length w c [] :=
  ⟨h.played, h.shows, by rw [h.reports, List.append_nil], h.nothing, rfl⟩

/-- At most one process ends while there is one process. -/
theorem Hears.collect (h : Hears told entries w c heard) (hentries : entries ≤ told.length + 1) :
    Tells (told ++ w.collected.exit.toList) { w with collected := {} } c := by
  refine ⟨h.played, ⟨h.shows.rest, h.shows.process, h.shows.sound, h.shows.agrees⟩, ?_, rfl⟩
  have hlength := h.played.entries h.shows
  rw [h.entries, h.reports, List.length_append] at hlength
  rw [h.reports, h.exit]
  match heard, hlength with
  | [], _ => rfl
  | [code], _ => rfl
  | _ :: _ :: _, hlength =>
    rw [List.length_cons, List.length_cons] at hlength
    omega

theorem Tells.entries_le (h : Tells told w c) : c.table.length ≤ told.length + 1 := by
  rw [h.played.entries h.shows, h.reports]
  split <;> omega

/-- An act that hands nothing over leaves nothing to be told but its answer. -/
theorem Tells.act (h : Tells told w c) {a : Act} (ha : ∀ wait, a ≠ .poll wait) :
    ∃ c', Tells (told ++ (reportOf
      (.ended a w.process (carryOut ((acts patience).body a) w).1 : (acts patience).Event)).toList)
      (carryOut ((acts patience).body a) w).2 c' := by
  obtain ⟨cues, c', heard, hplay, hshows, hreports, hexit, hheard, -⟩ := h.shows.act a
  obtain rfl : heard = [] := by
    by_contra hne
    obtain ⟨wait, heq⟩ := hheard hne
    exact ha wait heq
  refine ⟨c', h.played.play hplay, hshows, ?_, hexit.trans h.nothing⟩
  rw [hreports, h.reports, List.append_nil]

theorem Tells.perform (h : Tells told w c) (s : Script.Step) :
    ∃ c', Tells (told ++ endsTold w.process (Script.perform s w).1) (Script.perform s w).2 c' := by
  have hpolled : ∀ {w' : World}, (∃ c' heard', Hears told c.table.length w' c' heard') →
      ∃ c', Tells (told ++ w'.collected.exit.toList) { w' with collected := {} } c' := by
    rintro w' ⟨c', heard', h'⟩
    exact ⟨c', h'.collect h.entries_le⟩
  cases s with
  | launch config =>
    obtain ⟨c', h'⟩ := h.act (a := .launch config) nofun
    exact ⟨c', h'⟩
  | write bytes =>
    obtain ⟨c', h'⟩ := h.act (a := .write bytes) nofun
    exact ⟨c', h'⟩
  | poll => exact hpolled (h.hears.poll 0)
  | pollUntilExit => exact hpolled (h.hears.pollFor fun c => c.exit.isSome)
  | pollUntil output errors =>
    exact hpolled (h.hears.pollFor fun c => output ≤ c.output.size && errors ≤ c.errors.size)
  | terminate grace =>
    obtain ⟨c', h'⟩ := h.act (a := .terminate grace) nofun
    have htold : (reportOf (.ended (.terminate grace) w.process
        (carryOut ((acts patience).body (.terminate grace)) w).1 : (acts patience).Event)).toList =
          endsTold w.process (Script.perform (.terminate grace) w).1 := by
      show (if w.process.isRunning = true then some _ else none).toList = if w.process.isRunning = true then _ else _
      split <;> rfl
    exact ⟨c', htold ▸ h'⟩

def worldAfter (m : Machine) (steps : List Script.Step) : World :=
  (LanguageClient.Script.play Script.perform (fun w : World => { w with log := [] }) Script.observe steps
    { machine := m }).2

theorem Tells.play (h : Tells told w c) (steps : List Script.Step) :
    ∃ c', Tells (told ++ allEndsTold w.process (LanguageClient.Script.play Script.perform
        (fun w : World => { w with log := [] }) Script.observe steps w).1)
      (LanguageClient.Script.play Script.perform (fun w : World => { w with log := [] }) Script.observe steps w).2
      c' := by
  induction steps generalizing told w c with
  | nil =>
    refine ⟨c, ?_⟩
    show Tells (told ++ []) w c
    rwa [List.append_nil]
  | cons s steps ih =>
    have hfresh : Tells told { w with log := [] } c :=
      ⟨h.played, ⟨h.shows.rest, h.shows.process, h.shows.sound, h.shows.agrees⟩, h.reports, h.nothing⟩
    obtain ⟨c₁, h₁⟩ := hfresh.perform s
    obtain ⟨c', h'⟩ := ih h₁
    refine ⟨c', ?_⟩
    rw [List.append_assoc] at h'
    exact h'

/-- The ends that a script is told of are those of the servers that it has started, one after the other; when no server
is left, it has been told of all of them. -/
theorem ends_of_script {m : Machine} (hm : m.Sound) (hfree : ∀ pid, m.fate pid = .unknown) (steps : List Script.Step) :
    ∃ c, Played c ∧ Shows (worldAfter m steps) c ∧ c.reports = allEndsTold {} (Script.play m steps) ∧
      c.reports.map some <+: c.ends ∧
      ((worldAfter m steps).process.isRunning = false → c.reports.map some = c.ends) := by
  have hfirst : Tells [] { machine := m } (Scene.start patience none) :=
    ⟨⟨[], rfl⟩, ⟨rfl, rfl, hm, fun pid => (hfree pid).symm⟩, rfl, rfl⟩
  obtain ⟨c, h⟩ := hfirst.play steps
  obtain ⟨cues, hplay⟩ := h.played
  obtain ⟨hbeginning, hall⟩ := reports_of_listening patience none cues c hplay
  refine ⟨c, h.played, h.shows, h.reports, hbeginning, fun hgone => hall ?_ ?_⟩
  · rw [h.shows.rest]
    rfl
  · rw [h.shows.process]
    exact hgone

/-- So it is on the usual host, whatever is planted there. -/
theorem ends_of_script_on_host (here : Host.Place) (environment : List Bytes) (t : Host.Tree)
    (steps : List Script.Step) :
    ∃ c, Played c ∧ Shows (worldAfter { Machine.standard here environment with tree := t } steps) c ∧
      c.reports = allEndsTold {} (Script.play { Machine.standard here environment with tree := t } steps) ∧
      c.reports.map some <+: c.ends ∧
      ((worldAfter { Machine.standard here environment with tree := t } steps).process.isRunning = false →
        c.reports.map some = c.ends) :=
  ends_of_script (Host.Machine.sound_standard here environment t) (fun _ => rfl) steps

end LanguageClient.ServerProcess.Reaping
