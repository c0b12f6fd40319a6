import LanguageClient.Proofs.Client.Sparing
import LanguageClient.Proofs.Reentry.Contract
/-
  LanguageClient.Proofs.Client.Refusal — what a start leaves behind that the transport refuses.

  A start forgets the last session before it asks for a process. When there is none to be had,
  the client is errored before anybody is told, the subscribers are told once, and the start
  fails with what they were told (`refused_start`). They may start the client again, whatever
  they and the transport did to it meanwhile, for it is never at work when one of them has the
  word (`calm_when_failed`).

  The wording is handed on as a C string, so a report contains the name of the server and what
  the transport says only if there is no NUL in them.
-/

namespace LanguageClient.Client

open Routine Operations

variable {η α : Type} {read : Bytes → Except Frame.Dropped Message} {c : Client η}

/-! ## In a world -/

def fallen (c : Client η) : Client η := { c with phase := .errored }

/-- Nothing is left of an earlier session but the documents and the ids of requests. -/
structure Renewed (before c : Client η) : Prop where
  buffer_empty : c.decoder = {}
  undeclared : c.declared = {}
  unpublished : c.published = {}
  tail_empty : c.stderrTail = []
  line_empty : c.stderrLine = []
  no_exit : c.lastExit = none
  documents_eq : c.documents = before.documents
  nextId_eq : c.pending.nextId = before.pending.nextId

theorem renewed_begun (c : Client η) : Renewed c c.begun := ⟨rfl, rfl, rfl, rfl, rfl, rfl, rfl, rfl⟩

def fails (e : Error) : Action η (Except Error α) := do
  modify fallen
  Routine.log (Log.error "client" e.message)
  failing e

/-- No server is greeted when none was started. -/
theorem launched_greeted (config : ServerConfig) (why : Bytes) (g : Greeting) :
    (launched config (some why) >>= greeted g : Action η (Except Error ServerInfo))
      = fails (.notStarted config.name why) := by
  have hfailing : ∀ e : Error, (failing e >>= greeted g : Action η (Except Error ServerInfo)) = failing e := by
    intro e
    unfold failing
    rw [LawfulMonad.bind_assoc]
    rfl
  unfold fails
  rw [← hfailing]
  rfl

section World

variable {ω : Type} {seat : Seat (Client η) ω} {answer : (c : Call η) → StateM ω c.Reply} {w w' : ω} {why : Bytes}

/-- The world at the moment at which a failed start begins to tell its subscribers. -/
def whenFallen (seat : Seat (Client η) ω) (e : Error) (w : ω) : ω :=
  seat.note (Log.error "client" e.message) (seat.put (seat.look w).fallen w)

/-- A start that is refused becomes the report of the failure. -/
theorem run_connect (hcalm : (seat.look w).Calm)
    (hspawn : answer (.spawn (seat.look w).config) (seat.put (seat.look w).begun w) = (some why, w')) (g : Greeting) :
    (connect g).run seat answer w = (failing (.notStarted (seat.look w).config.name why)).run seat answer
      (whenFallen seat (.notStarted (seat.look w).config.name why) w') := by
  set e := Error.notStarted (seat.look w).config.name why
  have hphase : ¬ ((seat.look w).phase = .starting ∨ (seat.look w).phase = .ready) := not_or.2 hcalm
  calc (connect g).run seat answer w
    _ = (Action.call (.spawn (seat.look w).config) >>= fun refusal =>
          launched (seat.look w).config refusal >>= greeted g).run seat answer (seat.put (seat.look w).begun w) := by
        simp only [connect_eq, start_eq, LawfulMonad.bind_assoc, ite_bind]
        rw [run_get_bind, if_neg hphase, run_set_bind]
    _ = (launched (seat.look w).config (some why) >>= greeted g).run seat answer w' := by
        show (_ : Action η (Except Error ServerInfo)).run seat answer (answer _ _).2 = _
        rw [hspawn]
        rfl
    _ = (fails e).run seat answer w' := by rw [launched_greeted]
    _ = (failing e).run seat answer (whenFallen seat e w') := rfl

/-- What is thrown is what the subscribers were told, whatever they do. -/
theorem run_failing (e : Error) (w : ω) : ((failing (α := α) e).run seat answer w).1 = .error e := by
  show ((aside (emitError e)).bind _ |>.run seat answer w).1 = _
  rw [run_bind]
  rfl

/-- A report of an error changes nothing but its subscriptions. -/
theorem heeds_failing (e : Error) : (failing (α := α) e).Heeds (.onPart errors_isPart fun _ => True) c := by
  have hemit : (emitError e).Heeds (Restraint.onPart errors_isPart fun _ => True) c :=
    heeds_onPart (S := Signal.Handling η Error) errors_isPart (fun _ => True)
      (fun call _ => heeds_ask (S := Notices η) (c := .failed call.1 call.2) trivial) (Signal.emit e)
  exact (heeds_aside_onPart hemit).bind trivial fun _ _ _ => trivial

/-- Where nobody else touches the client, what it is then depends on the session in no way. -/
theorem look_run_connect (hseat : seat.Lawful) (halone : ∀ call w, seat.look (answer call w).2 = seat.look w)
    (hcalm : (seat.look w).Calm)
    (hspawn : answer (.spawn (seat.look w).config) (seat.put (seat.look w).begun w) = (some why, w')) (g : Greeting) :
    ∃ s, seat.look ((connect g).run seat answer w).2 = { (seat.look w).begun.fallen with errors := s } := by
  have hw' : seat.look w' = (seat.look w).begun := by
    have hkept := halone (.spawn (seat.look w).config) (seat.put (seat.look w).begun w)
    rwa [hspawn, hseat.look_put] at hkept
  obtain ⟨s, hs⟩ := Heeds.run (R := .onPart errors_isPart fun _ => True) hseat (fun call w _ _ => ⟨_, halone call w⟩)
    (w := whenFallen seat (.notStarted (seat.look w).config.name why) w') trivial (heeds_failing _)
  refine ⟨s, ?_⟩
  rw [run_connect hcalm hspawn g, hs, whenFallen, hseat.look_note, hseat.look_put, hw']

end World

/-! ## Among others -/

def Call.Failure : Call η → Prop
  | notice (.failed ..) => True
  | _ => False

def Refuses : (call : Call η) → call.Reply → Prop
  | .spawn _, r => r ≠ none
  | _, _ => True

/-- Whoever is told that a start has failed finds a calm client. While anybody has the word a calm
client stays calm. -/
def calmly : Contract (Client η) (Calls η) Unit where
  record _ g := g
  safe call c _ := call.Failure → c.Calm
  answers call c _ r c' _ := Refuses call r ∧ (c.Calm → c'.Calm)

def calmCare : Care := ⟨False, False, True, False⟩

/-- What heeds the care keeps the contract, if it tells of a failure only where the client is calm. -/
theorem holds_of_heeds (calm : Prop) {calls : Call η → Prop} {p : Action η α} (h : ActionSpares calmCare calls p c)
    (hfailure : ∀ call, calls call → call.Failure → calm) (hc : calm → c.Calm) :
    p.Holds calmly (fun _ c' _ => calm → c'.Calm) c () := by
  induction p generalizing c with
  | done a => exact hc
  | look next ih => exact ih c h hc
  | put t next ih => exact ih h.2 fun hcalm => h.1.calm trivial (hc hcalm)
  | note e next ih => exact ih h.2 hc
  | call call next ih =>
    refine ⟨fun hfails => hc (hfailure call h.1 hfails), fun r c' _ hr => ih r (h.2 r c' False.elim) ?_⟩
    exact fun hcalm => hr.2 (hc hcalm)

theorem holds_fails {up : (call : Call η) → Action η call.Reply} (hup : ∀ call c, Call.NoSpawn call →
    ActionSpares calmCare Call.NoSpawn (up call) c) (e : Error) :
    ((fails (α := α) e).relay up).Holds calmly (fun _ c' _ => c'.Calm) c () := by
  have hfailing : ActionSpares calmCare Call.NoSpawn (failing (α := α) e) c.fallen :=
    (heeds_aside False.elim (heeds_emitError (fun _ => trivial) False.elim)).bind False.elim fun _ _ _ => trivial
  have hrelay : ActionSpares calmCare Call.NoSpawn ((failing (α := α) e).relay up) c.fallen :=
    Heeds.relay (fun call c _ hcall => hup call c hcall) False.elim hfailing
  exact (holds_of_heeds True hrelay (fun _ _ _ => trivial) fun _ => ⟨by simp [fallen], by simp [fallen]⟩).mono
    fun _ c _ hc => hc trivial

/-- A start of a calm client asks for a process; when there is none to be had, it has failed. -/
theorem holds_starts {d : Deed η} (hd : d.Starts) (hc : c.Calm) :
    (d.body read).Holds calmly (fun _ c' _ => c'.Calm) c () := by
  cases d with
  | use u =>
    cases u with
    | start why =>
      refine .congr (advance_use_start read why hc) ⟨False.elim, fun refusal c' _ _ => ?_⟩
      exact holds_fails (fun call c hcall => heeds_transport _ hcall hcall False.elim) (.notStarted c.config.name why)
    | _ => exact hd.elim
  | connect g code =>
    refine .congr (advance_connect read g code hc) ⟨False.elim, fun refusal c' _ hanswer => ?_⟩
    cases refusal with
    | none => exact absurd rfl hanswer.1
    | some why =>
      show ((launched c.config (some why) >>= greeted g).relay (server code)).Holds _ _ _ _
      rw [launched_greeted]
      exact holds_fails (fun call c hcall => heeds_server code hcall hcall False.elim) _
  | _ => exact hd.elim

theorem holds_body (d : Deed η) : (d.body read).Holds calmly (fun _ c' _ => c.Calm → c'.Calm) c () := by
  by_cases hstarts : d.Starts
  · by_cases hc : c.Calm
    · exact (holds_starts hstarts hc).mono fun _ _ _ hcalm _ => hcalm
    · obtain ⟨a, hadv⟩ := advance_starts_busy read hstarts hc
      rw [holds_iff_advance, hadv]
      exact id
  · have hheeds : ActionSpares calmCare Call.Mild (d.body read) c :=
      heeds_body (fun _ h => h) (Deed.allowed id id hstarts False.elim) False.elim
    refine holds_of_heeds c.Calm hheeds ?_ id
    intro call hmild hfailure
    cases call with
    | notice n => cases n <;> first | exact hmild.elim | exact hfailure.elim
    | _ => exact hfailure.elim

abbrev AllCalm (m : (whole η read).Moment) : Prop :=
  Sound (O := whole η read) (fun _ => calmly) (fun _ _ => True) m.stack m.state ()

/-- They keep it as well when the client is calmer. -/
theorem Sound.calmer {stack : List (whole η read).Suspended} {c' : Client η} (hc : c.Calm → c'.Calm)
    (h : Sound (O := whole η read) (fun _ => calmly) (fun _ _ => True) stack c ()) :
    Sound (O := whole η read) (fun _ => calmly) (fun _ _ => True) stack c' () := by
  cases stack with
  | nil => trivial
  | cons f stack =>
    exact ⟨fun hfails => hc (h.1 hfails), fun r c'' _ hr => h.2 r c'' () ⟨hr.1, fun hcalm => hr.2 (hc hcalm)⟩⟩

inductive RefusingStep : (whole η read).Moment → (whole η read).Moment → Prop
  | enter (m : (whole η read).Moment) (d : Deed η) : RefusingStep m (m.enter d)
  | reply (c : Client η) (f : (whole η read).Suspended) (stack : List (whole η read).Suspended)
      (trace : List (whole η read).Event) (r : f.call.Reply) : Refuses f.call r →
      RefusingStep ⟨c, f :: stack, trace⟩ (Moment.proceed (O := whole η read) ⟨c, stack, trace⟩ f.op f.start (f.next r))

variable {m m' : (whole η read).Moment}

theorem AllCalm.step (hm : AllCalm m) (h : RefusingStep m m') : AllCalm m' := by
  cases h with
  | enter _ d =>
    refine Sound.proceed (O := whole η read) (fun _ => ()) (fun _ _ => rfl) (fun _ _ _ => rfl) ?_
    exact (holds_body d).mono fun _ c _ hc => Sound.calmer hc hm
  | reply c f stack trace r hr =>
    refine Sound.proceed (O := whole η read) (fun _ => ()) (fun _ _ => rfl) (fun _ _ _ => rfl) ?_
    exact hm.2 r c () ⟨hr, id⟩

theorem allCalm (h : Relation.ReflTransGen RefusingStep ⟨c, [], []⟩ m) : AllCalm m := by
  induction h with
  | refl => trivial
  | tail _ hstep ih => exact ih.step hstep

/-- Who is told that a start has failed may start again, and it is not refused as one that comes too early:
a process is asked for. -/
def Restartable (m : (whole η read).Moment) : Prop :=
  ∀ f, m.stack.head? = some f → f.call.Failure → ∀ d : Deed η, d.Starts → ∃ next,
    m.enter d = ⟨m.state.begun, ⟨d, m.state, .spawn m.state.config, next⟩ :: m.stack,
      m.trace ++ [.called (.spawn m.state.config)]⟩

/-- Whoever is told that a start has failed finds a calm client, whatever was done to it before. -/
theorem calm_when_failed (h : Relation.ReflTransGen RefusingStep ⟨c, [], []⟩ m) {f : (whole η read).Suspended}
    (hf : m.stack.head? = some f) (hfails : f.call.Failure) : m.state.Calm := by
  obtain ⟨stack, hstack⟩ := List.head?_eq_some_iff.1 hf
  have hm := allCalm h
  rw [AllCalm, hstack] at hm
  exact hm.1 hfails

theorem restartable (h : Relation.ReflTransGen RefusingStep ⟨c, [], []⟩ m) : Restartable m := by
  intro f hf hfails d hd
  obtain ⟨next, hadv⟩ := advance_starts read hd (calm_when_failed h hf hfails)
  exact ⟨next, Moment.proceed_of_waiting hadv⟩

/-! ## A refused start -/

def session (c : Client η) : Phase × Frame.Decoder × Declared × Published × Bytes × Bytes × Option Int :=
  (c.phase, c.decoder, c.declared, c.published, c.stderrTail, c.stderrLine, c.lastExit)

/-- What becomes of a start that is entered in the world `w` and that the transport refuses, which
leaves the world `w'`. -/
structure Refused {ω : Type} (seat : Seat (Client η) ω) (answer : (c : Call η) → StateM ω c.Reply) (g : Greeting)
    (w w' : ω) (why : Bytes) (e : Error) : Prop where
  /-- It asks for a process before anything else, and has forgotten the last session then. -/
  asks : ∃ next, (connect g).advance (seat.look w) = (.waiting (.spawn (seat.look w).config) next, (seat.look w).begun)
  renewed : Renewed (seat.look w) (seat.look w).begun
  /-- Then it is a report of the error, and the client is errored when that begins. -/
  reported : (connect g).run seat answer w = (failing e).run seat answer (whenFallen seat e w')
  errored : (seat.look (whenFallen seat e w')).phase = .errored
  thrown : ((connect g).run seat answer w).1 = .error e
  kind_eq : e.kind = .spawnFailure
  message_eq : e.message
    = (text "Failed to start LSP server '" ++ (seat.look w).config.name ++ text "': " ++ why).beforeNul
  /-- The report contains the name of the server and what the transport says, if they end at no NUL. -/
  message_contains : 0 ∉ (seat.look w).config.name → 0 ∉ why →
    (seat.look w).config.name <:+: e.message ∧ why <:+: e.message
  /-- When nobody else touches the client, only subscriptions of errors change besides the session. -/
  alone : (∀ call w, seat.look (answer call w).2 = seat.look w) →
    ∃ s, seat.look ((connect g).run seat answer w).2 = { (seat.look w).begun.fallen with errors := s }
  /-- Then the session is the same as after any other start that is refused. -/
  same_session : (∀ call w, seat.look (answer call w).2 = seat.look w) → ∀ v v' why', (seat.look v).Calm →
    answer (.spawn (seat.look v).config) (seat.put (seat.look v).begun v) = (some why', v') →
    session (seat.look ((connect g).run seat answer v).2) = session (seat.look ((connect g).run seat answer w).2)

theorem message_contains {server why : Bytes} (hserver : 0 ∉ server) (hwhy : 0 ∉ why) :
    server <:+: (Error.notStarted server why).message ∧ why <:+: (Error.notStarted server why).message := by
  have hwords : 0 ∉ text "Failed to start LSP server '" ∧ 0 ∉ text "': " := by decide
  have hmessage : (Error.notStarted server why).message
      = text "Failed to start LSP server '" ++ server ++ text "': " ++ why := by
    refine Bytes.beforeNul_eq_self ?_
    simp only [List.mem_append, not_or]
    exact ⟨⟨⟨hwords.1, hserver⟩, hwords.2⟩, hwhy⟩
  rw [hmessage]
  exact ⟨⟨text "Failed to start LSP server '", text "': " ++ why, by simp only [List.append_assoc]⟩,
    (List.suffix_append _ _).isInfix⟩

/-- A start of a client that is not at work, when the transport refuses it: whatever was before, and
whatever everybody who is called does. A subscriber who is being told so may start the client again. -/
theorem refused_start (read : Bytes → Except Frame.Dropped Message) {ω : Type} {seat : Seat (Client η) ω}
    {answer : (c : Call η) → StateM ω c.Reply} (hseat : seat.Lawful) {w w' : ω} (hcalm : (seat.look w).Calm) {why : Bytes}
    (hspawn : answer (.spawn (seat.look w).config) (seat.put (seat.look w).begun w) = (some why, w')) (g : Greeting) :
    Refused seat answer g w w' why (.notStarted (seat.look w).config.name why) ∧
      ∀ c (m : (whole η read).Moment), Relation.ReflTransGen RefusingStep ⟨c, [], []⟩ m → Restartable m := by
  have hrun := run_connect hcalm hspawn g
  refine ⟨?_, fun c m => restartable⟩
  refine
    { asks := ⟨_, advance_connect_waiting g hcalm⟩
      renewed := renewed_begun _
      reported := hrun
      errored := ?_
      thrown := by rw [hrun, run_failing]
      kind_eq := rfl
      message_eq := rfl
      message_contains := message_contains
      alone := fun halone => look_run_connect hseat halone hcalm hspawn g
      same_session := ?_ }
  · rw [whenFallen, hseat.look_note, hseat.look_put]
    rfl
  · intro halone v v' why' hcalm' hspawn'
    obtain ⟨s, hs⟩ := look_run_connect hseat halone hcalm hspawn g
    obtain ⟨s', hs'⟩ := look_run_connect hseat halone hcalm' hspawn' g
    rw [hs, hs']
    rfl

def refusing {ω : Type} (why : Bytes) : (call : Call Unit) → StateM ω call.Reply
  | .spawn _ => return some why
  | .poll _ => return ()
  | .terminate _ => return none
  | .spent => return ()
  | .notice (.send _) => return true
  | .notice (.failed ..) => return ()
  | .notice (.exited ..) => return ()
  | .notice (.told ..) => return ()
  | .notice (.heard ..) => return ()
  | .notice (.diagnosed ..) => return ()

def leftOver : Client Unit :=
  { config := { name := text "demo", command := text "demo" }
    phase := .stopped
    decoder := ⟨text "Content-Le"⟩
    stderrTail := text "oops"
    stderrLine := text "oo"
    lastExit := some 3
    errors := (Signal.on {} ()).2 }

def plainGreeting : Greeting := ⟨.null, .null, fun _ => .ok {}⟩

theorem refused_start_of_left_over :
    Refused Seat.whole (refusing (text "no such file")) plainGreeting leftOver leftOver.begun (text "no such file")
      ⟨.spawnFailure, text "Failed to start LSP server 'demo': no such file", none⟩ ∧
    ∃ (m : (whole Unit Frame.read).Moment) (f : (whole Unit Frame.read).Suspended), Restartable m ∧ m.stack = [f] ∧
      f.call.Failure ∧ m.state.phase = .errored := by
  have hspawn : refusing (text "no such file") (.spawn leftOver.config) leftOver.begun
      = (some (text "no such file"), leftOver.begun) := rfl
  obtain ⟨hrefused, hrestartable⟩ := refused_start Frame.read Seat.whole_lawful (w := leftOver)
    ⟨by decide, by decide⟩ hspawn plainGreeting
  have hasked : Relation.ReflTransGen RefusingStep (⟨leftOver, [], []⟩ : (whole Unit Frame.read).Moment) _ :=
    .single (.enter _ (.use (.start (text "no such file"))))
  have htold := hasked.tail (.reply _ _ _ _ (some (text "no such file")) (by intro h; cases h))
  exact ⟨hrefused, _, _, hrestartable _ _ htold, rfl, trivial, rfl⟩

/-- What the transport says is not told beyond a NUL. -/
theorem a_nul_cuts_the_report :
    let why := text "no" ++ 0 :: text "such"
    ((connect plainGreeting).run Seat.whole (refusing why) leftOver).1
        = .error ⟨.spawnFailure, text "Failed to start LSP server 'demo': no", none⟩ ∧
      ¬ why <:+: text "Failed to start LSP server 'demo': no" := by
  exact ⟨rfl, by decide⟩

end LanguageClient.Client
