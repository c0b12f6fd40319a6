import LanguageClient.Proofs.Client.Deeds
/-
  LanguageClient.Proofs.Client.Sparing — what the operations of a client leave alone.

  Most operations have nothing to do with the error output of the server, with the phase or
  with the ids of requests, and this can be read off each of them, whoever is called meanwhile.
  Which of these things somebody cares about is for them to say (`Care`).

  - `Spares`: how far a client may be moved under a care; `sparing`: the restraint that asks
    for it, for the log entries that come with it, and for who is called.
  - `heeds_…`: the parts of the client, and what is asked of it, under any care that allows it.
  - `heeds_body`: every deed, where it may be done (`Deed.Allowed`).
  - `heedsLater_body`: a start, and an end of the process, from the first call on.
-/

namespace LanguageClient.Client

open Routine

variable {η α : Type} {read : Bytes → Except Frame.Dropped Message} {c c' : Client η}

/-! ## What somebody cares about -/

/-- The client is stopped, or disconnected without a process: it is at rest. -/
def Settled (c : Client η) : Prop := c.phase = .stopped ∨ c.phase = .disconnected ∧ c.link.running = false

theorem Settled.not_ready (h : c.Settled) : c.phase ≠ .ready := by
  intro hready
  rcases h with hphase | ⟨hphase, -⟩
  · simp [hready] at hphase
  · simp [hready] at hphase

structure Care where
  /-- The end of the error output. -/
  tail : Prop
  /-- The line of the error output that is not complete. -/
  line : Prop
  /-- That a calm client stays calm. -/
  calm : Prop
  /-- That a client at rest stays as it is, and that it is at rest whenever somebody else has had the word. -/
  rest : Prop

structure Spares (k : Care) (c c' : Client η) : Prop where
  config : c'.config = c.config
  options : c'.options = c.options
  tail : k.tail → c'.stderrTail = c.stderrTail
  line : k.line → c'.stderrLine = c.stderrLine
  calm : k.calm → c.Calm → c'.Calm
  phase : k.rest → c'.phase = c.phase
  ids : k.rest → c'.pending.nextId = c.pending.nextId
  waiting : k.rest → ∀ w ∈ c'.pending.waiting, w ∈ c.pending.waiting
  running : k.rest → c'.link.running = true → c.link.running = true

variable {k : Care} {calls : Call η → Prop}

theorem Spares.refl (c : Client η) : Spares k c c :=
  ⟨rfl, rfl, fun _ => rfl, fun _ => rfl, fun _ h => h, fun _ => rfl, fun _ => rfl, fun _ _ h => h, fun _ h => h⟩

theorem Spares.trans {c'' : Client η} (h : Spares k c c') (h' : Spares k c' c'') : Spares k c c'' where
  config := h'.config.trans h.config
  options := h'.options.trans h.options
  tail hk := (h'.tail hk).trans (h.tail hk)
  line hk := (h'.line hk).trans (h.line hk)
  calm hk hc := h'.calm hk (h.calm hk hc)
  phase hk := (h'.phase hk).trans (h.phase hk)
  ids hk := (h'.ids hk).trans (h.ids hk)
  waiting hk w hw := h.waiting hk w (h'.waiting hk w hw)
  running hk hr := h.running hk (h'.running hk hr)

theorem Spares.settled (h : Spares k c c') (hk : k.rest) (hc : c.Settled) : c'.Settled := by
  rcases hc with hphase | ⟨hphase, hhalted⟩
  · exact Or.inl ((h.phase hk).trans hphase)
  · refine Or.inr ⟨(h.phase hk).trans hphase, ?_⟩
    cases hr : c'.link.running with
    | false => rfl
    | true => exact absurd (h.running hk hr) (by simp [hhalted])

def essence (c : Client η) : ServerConfig × ClientOptions × Bytes × Bytes × Phase × Pending (Asker η) × Link :=
  (c.config, c.options, c.stderrTail, c.stderrLine, c.phase, c.pending, c.link)

theorem Spares.of_essence (h : c'.essence = c.essence) : Spares k c c' := by
  simp only [essence, Prod.mk.injEq] at h
  obtain ⟨hconfig, hoptions, htail, hline, hphase, hpending, hlink⟩ := h
  refine ⟨hconfig, hoptions, fun _ => htail, fun _ => hline, ?_, fun _ => hphase, ?_, ?_, ?_⟩
  · intro _ hc
    rwa [Calm, hphase]
  all_goals simp [hpending, hlink]

theorem Spares.halted (c : Client η) : Spares k c c.halted :=
  ⟨rfl, rfl, fun _ => rfl, fun _ => rfl, fun _ h => h, fun _ => rfl, fun _ => rfl, fun _ _ h => h, fun _ h => by cases h⟩

/-- Where nobody cares for calm and for rest, the error output is all there is to care for. -/
theorem Spares.of_output (hcalm : ¬ k.calm) (hrest : ¬ k.rest) (hconfig : c'.config = c.config)
    (hoptions : c'.options = c.options) (htail : c'.stderrTail = c.stderrTail) (hline : c'.stderrLine = c.stderrLine) :
    Spares k c c' :=
  ⟨hconfig, hoptions, fun _ => htail, fun _ => hline, fun h => absurd h hcalm, fun h => absurd h hrest,
    fun h => absurd h hrest, fun h => absurd h hrest, fun h => absurd h hrest⟩

theorem restless (hrest : ¬ k.rest) (c : Client η) : k.rest → c.Settled := fun hr => absurd hr hrest

def Call.Mild : Call η → Prop
  | spawn _ => False
  | notice (.failed ..) => False
  | _ => True

def Call.NoSpawn : Call η → Prop
  | spawn _ => False
  | _ => True

theorem Call.Mild.noSpawn {call : Call η} (h : Call.Mild call) : Call.NoSpawn call := by
  cases call with
  | spawn config => exact h
  | _ => trivial

def sparing (k : Care) (calls : Call η → Prop) : Restraint (Client η) (Calls η) where
  trust c := k.rest → c.Settled
  moves := Spares k
  notes e := k.line → e.source ≠ text "stderr"
  calls := calls
  stays := .refl
  chain := .trans
  trusted hc hmove hk := hmove.settled hk (hc hk)

abbrev asideSparing (k : Care) (calls : Call η → Prop) : Restraint (Client η) (Notices η) :=
  (sparing k calls).calling fun n => calls (.notice n)

abbrev AsideSpares (k : Care) (calls : Call η → Prop) (p : Aside η α) (c : Client η) : Prop :=
  p.Heeds (asideSparing k calls) c

abbrev ActionSpares (k : Care) (calls : Call η → Prop) (p : Action η α) (c : Client η) : Prop :=
  p.Heeds (sparing k calls) c

theorem heeds_notice (n : Notice η) (hn : calls (.notice n)) : AsideSpares k calls (Aside.call n) c :=
  heeds_ask (S := Notices η) hn

theorem heeds_call (call : Call η) (hcall : calls call) : ActionSpares k calls (Action.call call) c :=
  heeds_ask (S := Calls η) hcall

theorem heeds_aside {p : Aside η α} (hc : k.rest → c.Settled) (h : AsideSpares k calls p c) :
    ActionSpares k calls (aside p) c := by
  unfold aside
  refine Heeds.relay ?_ hc h
  exact fun n c _ hn => heeds_call (.notice n) hn

/-- An aside that changes only a part of the client does so within an action too. -/
theorem heeds_aside_onPart {σ : Type} {part : Client η → σ} {place : σ → Client η → Client η}
    {hpart : IsPart part place} {p : Aside η α} (h : p.Heeds (.onPart hpart fun n => calls (.notice n)) c) :
    (aside p).Heeds (.onPart hpart calls) c :=
  Heeds.relay (Q := .onPart hpart calls) (fun n _ _ hn => heeds_ask (S := Calls η) (c := .notice n) hn) trivial h

theorem client_ne_stderr : text "client" ≠ text "stderr" := by decide

/-! ## The parts at work -/

def tableSparing (k : Care) : Restraint (Pending (Asker η)) (Pending.Telling (Asker η)) where
  trust _ := True
  moves t t' := k.rest → t'.nextId = t.nextId ∧ ∀ w ∈ t'.waiting, w ∈ t.waiting
  notes e := k.line → e.source ≠ text "stderr"
  calls _ := True
  stays _ _ := ⟨rfl, fun _ hw => hw⟩
  chain h h' hk := ⟨(h' hk).1.trans (h hk).1, fun w hw => (h hk).2 w ((h' hk).2 w hw)⟩
  trusted _ _ := trivial

section Table

variable {t : Pending (Asker η)}

theorem heeds_settle (id : Int) (v : Pending.Verdict) : (Pending.settle id v).Heeds (tableSparing k) t := by
  simp only [Pending.settle, heeds_get_bind]
  split
  · trivial
  · simp only [heeds_modify_bind]
    exact ⟨fun _ => ⟨rfl, fun w hw => (List.mem_filter.1 hw).1⟩,
      (heeds_ask (R := tableSparing k) trivial).bind trivial fun _ _ _ => trivial⟩

theorem heeds_complete (r : Response) : (Pending.complete r).Heeds (tableSparing k) t := by
  have hsource : text "correlator" ≠ text "stderr" := by decide
  simp only [Pending.complete]
  split
  · simp only [heeds_log_bind]
    exact ⟨fun _ => hsource, trivial⟩
  · simp only [heeds_get_bind]
    split
    · exact heeds_settle _ _
    · simp only [heeds_log_bind]
      exact ⟨fun _ => hsource, trivial⟩

theorem heeds_tellAll {verdict : Waiting (Asker η) → Pending.Verdict} {entry : Waiting (Asker η) → List Log.Entry}
    (hentry : ∀ w, ∀ e ∈ entry w, e.source ≠ text "stderr") (ws : List (Waiting (Asker η))) :
    (Pending.tellAll verdict entry ws).Heeds (tableSparing k) t := by
  induction ws generalizing t with
  | nil => trivial
  | cons w ws ih =>
    refine heeds_log_all_bind (fun e he _ => hentry w e he) ?_
    exact (heeds_ask (R := tableSparing k) trivial).bind trivial fun _ _ _ => ih

theorem heeds_tellThen {verdict : Waiting (Asker η) → Pending.Verdict} {entry : Waiting (Asker η) → List Log.Entry}
    (hentry : ∀ w, ∀ e ∈ entry w, e.source ≠ text "stderr") (ws : List (Waiting (Asker η))) (a : α) :
    (Pending.tellThen verdict entry ws a).Heeds (tableSparing k) t :=
  (heeds_tellAll hentry ws).bind trivial fun _ _ _ => trivial

theorem heeds_expireTable (now : Int) : (Pending.expire now).Heeds (tableSparing k) t := by
  have hsource : text "correlator" ≠ text "stderr" := by decide
  simp only [Pending.expire, heeds_get_bind, heeds_set_bind]
  refine ⟨fun _ => ⟨rfl, fun w hw => (List.mem_filter.1 hw).1⟩, heeds_tellThen ?_ _ _⟩
  intro w e he
  rwa [List.mem_singleton.1 he]

theorem heeds_rejectAllTable (e : Error) : (Pending.rejectAll e).Heeds (tableSparing k) t := by
  simp only [Pending.rejectAll, heeds_get_bind, heeds_set_bind]
  exact ⟨fun _ => ⟨rfl, by simp⟩, heeds_tellThen (by simp) _ _⟩

end Table

theorem heeds_tell (hk : ∀ h v, calls (.notice (.told h v))) (asker : Asker η) (v : Pending.Verdict) :
    AsideSpares k calls (tell (asker, v)) c := by
  cases asker with
  | handler h => exact heeds_notice _ (hk h v)
  | caller id => exact (heeds_modify _).2 (.of_essence rfl)
  | stopper =>
    cases v with
    | resolved result => trivial
    | rejected e =>
      simp only [tell, heeds_get_bind, heeds_log]
      exact fun _ => client_ne_stderr

theorem heeds_onPending (hk : ∀ h v, calls (.notice (.told h v))) (hc : k.rest → c.Settled)
    {p : Routine (Pending (Asker η)) (Pending.Telling (Asker η)) α} (h : p.Heeds (tableSparing k) c.pending) :
    AsideSpares k calls (onPending p) c := by
  refine Heeds.within (Q := asideSparing k calls) pending_isPart (fun _ _ => trivial) ?_ (fun _ h => h) ?_ hc h
  · exact fun t c ht => ⟨rfl, rfl, fun _ => rfl, fun _ => rfl, fun _ h => h, fun _ => rfl, fun hr => (ht hr).1,
      fun hr => (ht hr).2, fun _ h => h⟩
  · exact fun call c _ _ => heeds_tell hk _ _

theorem heeds_rejectAll (hk : ∀ h v, calls (.notice (.told h v))) (e : Error) (hc : k.rest → c.Settled) :
    AsideSpares k calls (onPending (Pending.rejectAll e)) c :=
  heeds_onPending hk hc (heeds_rejectAllTable e)

theorem heeds_clearUp (hline : ¬ k.line) (rejected : Nat) : ActionSpares k calls (clearUp rejected) c := by
  have hcleared : Spares k c c.cleared :=
    ⟨rfl, rfl, fun _ => rfl, fun h => absurd h hline, fun _ h => h, fun _ => rfl, fun _ => rfl, fun _ _ h => h,
      fun _ h => h⟩
  unfold clearUp
  split
  · exact (heeds_log_bind _ _).2 ⟨fun _ => client_ne_stderr, (heeds_modify _).2 hcleared⟩
  · exact (heeds_modify _).2 hcleared

theorem heeds_wrapUp (hterminate : ∀ grace, calls (.terminate grace)) (htold : ∀ h v, calls (.notice (.told h v)))
    (hline : ¬ k.line) (hc : k.rest → c.Settled) : ActionSpares k calls wrapUp c := by
  have hdismiss : ∀ (code : Option Int) (c : Client η), (k.rest → c.Settled) →
      ActionSpares k calls (dismiss >>= fun _ => return code) c := fun code c hc =>
    ((heeds_aside hc (heeds_rejectAll htold _ hc)).bind hc fun rejected c _ => heeds_clearUp hline rejected).bind hc
      fun _ _ _ => trivial
  simp only [wrapUp, heeds_get_bind]
  split
  · exact (heeds_call _ (hterminate _)).bind hc fun code c hc => hdismiss code c hc
  · exact hdismiss _ c hc

def partSparing {σ : Type} {S : Surface} (k : Care) (calls : S.Call → Prop) : Restraint σ S where
  trust _ := True
  moves _ _ := True
  notes e := k.line → e.source ≠ text "stderr"
  calls := calls
  stays _ := trivial
  chain _ _ := trivial
  trusted _ _ := trivial

theorem heeds_turns {β : Type} (event : β) (ids : List Nat) (s : Signal η) :
    (Signal.turns event ids).Heeds (partSparing k fun call : η × β => call.2 = event) s := by
  induction ids generalizing s with
  | nil => trivial
  | cons id ids ih =>
    simp only [Signal.turns, heeds_get_bind]
    cases s.turn? id with
    | none => exact ih s
    | some turn => exact ⟨trivial, rfl, fun _ s' _ => ih s'⟩

theorem heeds_emitError {e : Error} (hk : ∀ h, calls (.notice (.failed h e))) (hc : k.rest → c.Settled) :
    AsideSpares k calls (emitError e) c := by
  refine Heeds.within (Q := asideSparing k calls) errors_isPart (fun _ _ => trivial) ?_ (fun _ h => h) ?_ hc
    (heeds_turns e _ c.errors)
  · exact fun s c _ => .of_essence rfl
  · rintro call c _ rfl
    exact heeds_notice _ (hk _)

theorem heeds_emitExit {code : Option Int} (hk : ∀ h, calls (.notice (.exited h code))) (hc : k.rest → c.Settled) :
    AsideSpares k calls (emitExit code) c := by
  refine Heeds.within (Q := asideSparing k calls) exits_isPart (fun _ _ => trivial) ?_ (fun _ h => h) ?_ hc
    (heeds_turns code _ c.exits)
  · exact fun s c _ => .of_essence rfl
  · rintro call c _ rfl
    exact heeds_notice _ (hk _)

theorem heeds_emitPublication {p : Publication} (hk : ∀ h, calls (.notice (.diagnosed h p))) (hc : k.rest → c.Settled) :
    AsideSpares k calls (emitPublication p) c := by
  refine Heeds.within (Q := asideSparing k calls) publications_isPart (fun _ _ => trivial) ?_ (fun _ h => h) ?_ hc
    (heeds_turns p _ c.publications)
  · exact fun s c _ => .of_essence rfl
  · rintro call c _ rfl
    exact heeds_notice _ (hk _)

/-- Once the transport has answered, a start has no more to do with the error output. -/
theorem heeds_launched (hfailed : ∀ h e, calls (.notice (.failed h e))) (hcalm : ¬ k.calm) (hrest : ¬ k.rest)
    (config : ServerConfig) (refusal : Option Bytes) : ActionSpares k calls (launched config refusal) c := by
  have hc : ∀ c : Client η, k.rest → c.Settled := restless hrest
  cases refusal with
  | none => exact (heeds_log_bind _ _).2 ⟨fun _ => client_ne_stderr, trivial⟩
  | some why =>
    have herrored : Spares k c { c with phase := .errored } := .of_output hcalm hrest rfl rfl rfl rfl
    refine (heeds_modify_bind _ _).2 ⟨herrored, (heeds_log_bind _ _).2 ⟨fun _ => client_ne_stderr, ?_⟩⟩
    exact (heeds_aside (hc _) (heeds_emitError (fun h => hfailed h _) (hc _))).bind (hc _) fun _ _ _ => trivial

theorem heeds_declare (capabilities : ServerCapabilities) : AsideSpares k calls (declare capabilities) c := by
  have hsource : text "capabilities" ≠ text "stderr" := by decide
  simp only [declare, heeds_get_bind]
  refine heeds_log_all_bind ?_ ((heeds_set _).2 (.of_essence rfl))
  intro e he _
  unfold Declared.set at he
  split at he
  · cases he
  · rw [List.mem_singleton.1 he]
    exact hsource

/-- What is said about a block that carries no message is said by the codec. -/
theorem source_of_complaint {bs : List Frame.Block} {e : Log.Entry} (h : e ∈ Frame.complaintsBy read bs) :
    e.source = text "frame-codec" := by
  obtain ⟨b, _, hb⟩ := List.mem_filterMap.1 h
  split at hb
  · cases hb
  · rename_i d _
    rw [← Option.some.inj hb]
    cases d <;> rfl

/-- What is said about an item that cannot be read is said by the client. -/
theorem source_of_unread {items : Items α} {method : Bytes} {js : List Json} {e : Log.Entry}
    (h : e ∈ (items.readAll method js).2) : e.source = text "client" := by
  obtain ⟨j, _, hj⟩ := List.mem_filterMap.1 h
  simp only [Items.readOne] at hj
  split at hj
  · cases hj
  · rw [← Option.some.inj hj]
    rfl

/-- A client at rest is not open to requests. -/
theorem rest_of_isOpen (hopen : c.isOpen = true) (hc : k.rest → c.Settled) : ¬ k.rest := by
  intro hr
  simp only [isOpen, isReady, Bool.and_eq_true, beq_iff_eq] at hopen
  exact (hc hr).not_ready hopen.1

/-! ## With everybody mild -/

section Mild

variable (hk : ∀ call, Call.Mild call → calls call)

include hk

theorem told_of_mild (h : η) (v : Pending.Verdict) : calls (.notice (.told h v)) := hk (.notice (.told h v)) trivial

theorem heeds_dispatch (n : Notification) (hc : k.rest → c.Settled) : AsideSpares k calls (dispatch n) c := by
  refine Heeds.within (Q := asideSparing k calls) router_isPart (R := partSparing k fun _ => True) (fun _ _ => trivial)
    ?_ (fun _ h => h) ?_ hc ?_
  · exact fun r c _ => .of_essence rfl
  · exact fun call c _ _ => heeds_notice (.heard call.1 call.2) (hk (.notice (.heard call.1 call.2)) trivial)
  · have hrun : ∀ (hs : List η) (r : Router η), (Router.runAll n.params hs).Heeds (partSparing k fun _ => True) r := by
      intro hs
      induction hs with
      | nil => exact fun _ => trivial
      | cons h hs ih => exact fun r => ⟨trivial, fun _ r' _ => ih r'⟩
    have hsource : text "dispatcher" ≠ text "stderr" := by decide
    simp only [Router.dispatch, heeds_get_bind]
    split
    · exact (hrun _ _).bind trivial fun _ _ _ => trivial
    · exact (heeds_log_bind _ _).2 ⟨fun _ => hsource, trivial⟩

theorem heeds_post (m : Message) (hc : k.rest → c.Settled) : AsideSpares k calls (post m) c := by
  simp only [post, heeds_get_bind]
  split
  · refine (heeds_notice (.send _) (hk (.notice (.send _)) trivial)).bind hc fun sent c _ => ?_
    split
    · trivial
    · exact (heeds_log_bind _ _).2 ⟨fun _ => client_ne_stderr, trivial⟩
  · trivial

/-! ## What comes in -/

theorem heeds_handle (m : Message) (hc : k.rest → c.Settled) : AsideSpares k calls (handle m) c := by
  have hnote : ∀ {c : Client η} (message : Bytes), AsideSpares k calls (Routine.log (debug message)) c :=
    fun message => (heeds_log _).2 fun _ => client_ne_stderr
  cases m with
  | response r =>
    refine (heeds_onPending (told_of_mild hk) hc (heeds_complete r)).bind hc fun found c _ => ?_
    cases found
    · exact hnote _
    · trivial
  | request r =>
    simp only [handle, serve, heeds_get_bind]
    split
    · exact (heeds_post hk _ hc).discard hc
    · exact (hnote _).bind hc fun _ _ hc => (heeds_post hk _ hc).discard hc
  | notification n => exact (heeds_dispatch hk n hc).discard hc

theorem heeds_onStdoutBy (chunk : Bytes) (hc : k.rest → c.Settled) : AsideSpares k calls (onStdoutBy read chunk) c := by
  have hcodec : text "frame-codec" ≠ text "stderr" := by decide
  simp only [onStdoutBy, heeds_get_bind, heeds_set_bind]
  refine ⟨.of_essence rfl, heeds_log_all_bind ?_ ?_⟩
  · intro e he _
    rwa [source_of_complaint he]
  · exact heeds_forM (fun m _ c hc => heeds_handle hk m hc) hc

/-! ## What is asked for -/

theorem heeds_expire (hc : k.rest → c.Settled) : ActionSpares k calls (aside Client.expire) c := by
  refine heeds_aside hc ?_
  simp only [Client.expire, heeds_get_bind]
  exact (heeds_onPending (told_of_mild hk) hc (heeds_expireTable _)).discard hc

theorem heeds_pump (most : Int) (hc : k.rest → c.Settled) : ActionSpares k calls (pump most) c := by
  simp only [pump, heeds_get_bind]
  split
  · exact (heeds_call _ (hk (.poll _) trivial)).bind hc fun _ _ hc => heeds_expire hk hc
  · exact heeds_expire hk hc

theorem heeds_poll (wait : Int) (hc : k.rest → c.Settled) : ActionSpares k calls (Client.poll wait) c := by
  simp only [Client.poll, heeds_get_bind]
  split
  · exact (heeds_pump hk wait hc).bind hc fun _ _ _ => trivial
  · exact (heeds_expire hk hc).bind hc fun _ _ _ => trivial

/-- Requests are issued only where nobody cares for a client at rest. -/
theorem heeds_askIssued (hrest : ¬ k.rest) (method : Bytes) (params : Json) (asker : Asker η) :
    AsideSpares k calls (ask method params asker) c := by
  have hc : ∀ c : Client η, k.rest → c.Settled := restless hrest
  simp only [ask, heeds_get_bind]
  split
  · refine (heeds_set_bind _ _).2 ⟨?_, ?_⟩
    · exact ⟨rfl, rfl, fun _ => rfl, fun _ => rfl, fun _ h => h, fun hr => absurd hr hrest, fun hr => absurd hr hrest,
        fun hr => absurd hr hrest, fun hr => absurd hr hrest⟩
    · refine (heeds_post hk _ (hc _)).bind (hc _) fun sent c _ => ?_
      split
      · trivial
      · refine ((heeds_onPending (told_of_mild hk) (hc _) (heeds_settle _ _)).discard (hc _)).bind (hc _) ?_
        exact fun _ _ _ => trivial
  · exact (heeds_tell (told_of_mild hk) _ _).bind (hc _) fun _ _ _ => trivial

theorem heeds_sendRequest (method : Bytes) (params : Json) (h : η) (hc : k.rest → c.Settled) :
    AsideSpares k calls (Client.sendRequest method params h) c := by
  simp only [Client.sendRequest, heeds_get_bind]
  split
  · rename_i hopen
    exact heeds_askIssued hk (rest_of_isOpen hopen hc) _ _ _
  · exact (heeds_tell (told_of_mild hk) _ _).bind hc fun _ _ _ => trivial

theorem heeds_sendNotification (method : Bytes) (params : Json) (hc : k.rest → c.Settled) :
    AsideSpares k calls (sendNotification method params) c := by
  simp only [sendNotification, heeds_get_bind]
  split
  · exact (heeds_post hk _ hc).discard hc
  · exact (heeds_log _).2 fun _ => client_ne_stderr

theorem heeds_repeatedly {step : Action η (Unit ⊕ α)}
    (hstep : ∀ c, (k.rest → c.Settled) → ActionSpares k calls step c) (hc : k.rest → c.Settled) (giveUp : α) :
    ActionSpares k calls (repeatedly step giveUp) c := by
  simp only [repeatedly, heeds_get_bind]
  refine (heeds_loop (fun _ c hc => hstep c hc) hc _ _).bind hc fun r c hc => ?_
  cases r with
  | inr a => trivial
  | inl => exact (heeds_call _ (hk .spent trivial)).bind hc fun _ _ _ => trivial

theorem heeds_awaitAnswer (id : Nat) (hc : k.rest → c.Settled) : ActionSpares k calls (awaitAnswer id) c := by
  have hfetch : ∀ c : Client η, ActionSpares k calls (fetch id) c := fun c =>
    (heeds_set_bind _ _).2 ⟨.of_essence rfl, trivial⟩
  refine (hfetch c).bind hc fun found c hc => ?_
  cases found with
  | some v => trivial
  | none =>
    simp only [heeds_get_bind]
    split
    · exact (heeds_pump hk _ hc).bind hc fun _ _ _ => trivial
    · refine ((heeds_aside hc ?_).discard hc).bind hc fun _ c hc => (hfetch c).bind hc fun _ _ _ => trivial
      exact heeds_rejectAll (told_of_mild hk) _ hc

theorem heeds_converse (hrest : ¬ k.rest) (method : Bytes) (params : Json) :
    ActionSpares k calls (converse method params) c := by
  have hc : ∀ c : Client η, k.rest → c.Settled := restless hrest
  simp only [converse, heeds_get_bind]
  refine ((heeds_aside (hc _) (heeds_askIssued hk hrest _ _ _)).discard (hc _)).bind (hc _) fun _ c _ => ?_
  refine (heeds_repeatedly hk (fun c hc => heeds_awaitAnswer hk _ hc) (hc _) _).bind (hc _) fun verdict c _ => ?_
  cases verdict <;> trivial

theorem heeds_request (method : Bytes) (params : Json) (hc : k.rest → c.Settled) :
    ActionSpares k calls (Client.request method params) c := by
  simp only [Client.request, heeds_get_bind]
  split
  · rename_i hopen
    exact heeds_converse hk (rest_of_isOpen hopen hc) _ _
  · trivial

theorem heeds_requestList (method : Bytes) (params : Json) (found : Bytes → Json → Except Error (List Json))
    (items : Items α) (hc : k.rest → c.Settled) : ActionSpares k calls (requestList method params found items) c := by
  refine (heeds_request hk method params hc).bind hc fun answer c _ => ?_
  split
  · trivial
  · split
    · trivial
    · refine heeds_log_all_bind (fun e he _ => ?_) trivial
      rw [source_of_unread he]
      exact client_ne_stderr

theorem heeds_askForList (offer : Capability) (method : Bytes) (params : Json)
    (found : Bytes → Json → Except Error (List Json)) (items : Items α) (hc : k.rest → c.Settled) :
    ActionSpares k calls (askForList offer method params found items) c := by
  simp only [askForList, heeds_get_bind]
  split
  · exact heeds_requestList hk _ _ _ _ hc
  · trivial

theorem heeds_pullDiagnostics (uri : Bytes) (hc : k.rest → c.Settled) : ActionSpares k calls (pullDiagnostics uri) c := by
  simp only [pullDiagnostics, heeds_get_bind]
  split
  · refine (heeds_requestList hk _ _ _ _ hc).bind hc fun r c _ => ?_
    split
    · trivial
    · exact (heeds_log_bind _ _).2 ⟨fun _ => client_ne_stderr, trivial⟩
  · trivial

theorem heeds_revise (move : Documents → Nat × Documents) (method : Bytes) (params : Nat → Json)
    (hc : k.rest → c.Settled) : AsideSpares k calls (revise move method params) c :=
  (heeds_set_bind _ _).2 ⟨.of_essence rfl, heeds_sendNotification hk _ _ hc⟩

theorem heeds_closeDocument (uri : Bytes) (params : Json) (hc : k.rest → c.Settled) :
    AsideSpares k calls (Client.closeDocument uri params) c :=
  (heeds_set_bind _ _).2 ⟨.of_essence rfl, heeds_sendNotification hk _ _ hc⟩

theorem heeds_hear (l : Listener) (params : Json) (hc : k.rest → c.Settled) : AsideSpares k calls (hear l params) c := by
  have hserver : text "server" ≠ text "stderr" := by decide
  cases l with
  | publications =>
    simp only [hear, publish]
    split
    · exact (heeds_log _).2 fun _ => client_ne_stderr
    · refine (heeds_modify_bind _ _).2 ⟨.of_essence rfl, ?_⟩
      exact heeds_emitPublication (fun h => hk (.notice (.diagnosed h _)) trivial) hc
  | messages =>
    simp only [hear, logMessage, heeds_get_bind]
    split
    · exact (heeds_log _).2 fun _ => hserver
    · trivial

/-! ## The end of the process -/

theorem heeds_giveUp (e : Error) (code : Option Int) (hc : k.rest → c.Settled) :
    AsideSpares k calls (giveUp e code) c :=
  ((heeds_rejectAll (told_of_mild hk) e hc).discard hc).bind hc fun _ _ hc =>
    heeds_emitExit (fun h => hk (.notice (.exited h code)) trivial) hc

/-- The line that is not complete is logged and forgotten when the process ends. -/
theorem heeds_onExit (code : Option Int) (hline : k.line → c.stderrLine = []) (hc : k.rest → c.phase = .stopped) :
    AsideSpares k calls (onExit code) c := by
  have hforgotten : Spares k c { c with lastExit := code, stderrLine := [] } :=
    ⟨rfl, rfl, fun _ => rfl, fun h => (hline h).symm, fun _ h => h, fun _ => rfl, fun _ => rfl, fun _ _ h => h,
      fun _ h => h⟩
  have hrest : AsideSpares k calls (if c.phase = .stopped then
        Routine.log (debug (text "LSP server '" ++ c.config.name ++ text "' exited during stop"))
      else do
        Routine.log (Log.warn "client" (text "'" ++ c.config.name ++ text "': " ++ exitMessage code))
        set (c.lost code)
        giveUp (.of .processExit (c.withStderrTail (exitMessage code)) none) code)
      { c with lastExit := code, stderrLine := [] } := by
    split
    · exact (heeds_log _).2 fun _ => client_ne_stderr
    · rename_i hphase
      have hrest : ¬ k.rest := fun hr => hphase (hc hr)
      have hlost : Spares k { c with lastExit := code, stderrLine := [] } (c.lost code) :=
        ⟨rfl, rfl, fun _ => rfl, fun _ => rfl, fun _ _ => by simp [Calm, lost], fun h => absurd h hrest,
          fun h => absurd h hrest, fun h => absurd h hrest, fun h => absurd h hrest⟩
      exact ⟨fun _ => client_ne_stderr, hlost, heeds_giveUp hk _ _ fun h => absurd h hrest⟩
  simp only [onExit, heeds_get_bind, heeds_set_bind]
  refine ⟨hforgotten, ?_⟩
  split
  · exact hrest
  · rename_i hsome
    exact ⟨fun h => absurd (hline h) hsome, hrest⟩

/-- When the line is logged and forgotten, an end of the process has no more to do with it. -/
theorem heedsLater_onExit (code : Option Int) (hrest : ¬ k.rest) :
    (onExit code).HeedsLater (asideSparing k calls) c := by
  by_cases h : c.phase = .stopped
  · exact .of_ended (advance_onExit_stopped code h)
  · exact .congr (advance_onExit code h) (heeds_giveUp hk _ _ fun hr => absurd hr hrest).later

theorem heeds_exited (code : Option Int) (hline : k.line → c.stderrLine = []) (hc : k.rest → c.Settled) :
    ActionSpares k calls (exited code) c := by
  simp only [exited, heeds_get_bind]
  split
  · rename_i hrun
    have hstopped : k.rest → c.phase = .stopped := by
      intro hr
      rcases hc hr with h | h
      · exact h
      · rw [hrun] at h
        cases h.2
    refine (heeds_set_bind _ _).2 ⟨.halted c, heeds_aside (fun hr => Or.inl (hstopped hr)) ?_⟩
    exact heeds_onExit hk code hline hstopped
  · trivial

/-! ## Stops -/

theorem heeds_report (before : Client η) (code : Option Int) (hc : k.rest → c.Settled) :
    ActionSpares k calls (report before code) c := by
  unfold report
  split
  · refine (heeds_log_bind _ _).2 ⟨fun _ => client_ne_stderr, heeds_aside hc ?_⟩
    exact heeds_emitExit (fun h => hk (.notice (.exited h code)) trivial) hc
  · trivial

theorem heeds_takeLeave (hrest : ¬ k.rest) : ActionSpares k calls takeLeave c := by
  have hc : ∀ c : Client η, k.rest → c.Settled := restless hrest
  have hawait : ∀ (id : Nat) (deadline : Int) (c : Client η), ActionSpares k calls (awaitShutdown id deadline) c := by
    intro id deadline c
    simp only [awaitShutdown, heeds_get_bind]
    split
    · trivial
    · split
      · exact (heeds_log_bind _ _).2 ⟨fun _ => client_ne_stderr, trivial⟩
      · exact (heeds_pump hk _ (hc _)).bind (hc _) fun _ _ _ => trivial
  simp only [takeLeave, heeds_get_bind]
  refine ((heeds_aside (hc _) (heeds_askIssued hk hrest _ _ _)).discard (hc _)).bind (hc _) fun _ c _ => ?_
  simp only [heeds_get_bind]
  refine (heeds_repeatedly hk (fun c _ => hawait _ _ c) (hc _) _).bind (hc _) fun _ c _ => ?_
  simp only [heeds_get_bind]
  split
  · exact (heeds_aside (hc _) (heeds_post hk _ (hc _))).discard (hc _)
  · trivial

/-- A client at rest has nothing to take its leave of, and its phase stays. -/
theorem heeds_stop (hline : ¬ k.line) (hc : k.rest → c.Settled) : ActionSpares k calls Client.stop c := by
  have hend : ∀ (before c : Client η), (k.rest → c.Settled) → ActionSpares k calls (wrapUp >>= report before) c :=
    fun before c hc =>
    (heeds_wrapUp (fun _ => hk (.terminate _) trivial) (told_of_mild hk) hline hc).bind hc fun code _ hc =>
      heeds_report hk before code hc
  have hleave : ∀ c' : Client η, (k.rest → c'.Settled) → ActionSpares k calls (do
      if c.link.running ∧ c.phase = .ready then takeLeave
      report c (← wrapUp)) c' := by
    intro c' hc'
    split
    · rename_i hready
      have hrest : ¬ k.rest := fun hr => (hc hr).not_ready hready.2
      exact (heeds_takeLeave hk hrest).bind hc' fun _ c' hc' => hend c c' hc'
    · exact hend c c' hc'
  simp only [stop_eq, heeds_get_bind]
  split
  · rename_i hstops
    have hstopped : Spares k c { c with phase := .stopped } := by
      refine ⟨rfl, rfl, fun _ => rfl, fun _ => rfl, fun _ _ => by simp [Calm], fun hr => ?_, fun _ => rfl,
        fun _ _ h => h, fun _ h => h⟩
      rcases hc hr with h | h
      · exact h.symm
      · simp [h.1, h.2] at hstops
    exact (heeds_set_bind _ _).2 ⟨hstopped, hleave _ fun hr => hstopped.settled hr (hc hr)⟩
  · exact hleave c hc

/-! ## Starts -/

theorem heeds_greet (hcalm : ¬ k.calm) (hrest : ¬ k.rest) (g : Greeting) : ActionSpares k calls (greet g) c := by
  have hc : ∀ c : Client η, k.rest → c.Settled := restless hrest
  have hready : ∀ c : Client η, Spares k c { c with phase := .ready } := fun c =>
    .of_output hcalm hrest rfl rfl rfl rfl
  unfold greet
  refine (heeds_converse hk hrest _ _).bind (hc _) fun r c _ => ?_
  split
  · trivial
  · split
    · trivial
    · refine (heeds_aside (hc _) (heeds_declare _)).bind (hc _) fun _ c _ => ?_
      refine (heeds_aside (hc _) (heeds_post hk _ (hc _))).bind (hc _) fun sent c _ => ?_
      split
      · simp only [heeds_modify_bind, heeds_get_bind, heeds_log_bind]
        exact ⟨hready c, fun _ => client_ne_stderr, trivial⟩
      · trivial

theorem heeds_abandon (hfailed : ∀ h e, calls (.notice (.failed h e))) (hcalm : ¬ k.calm) (hrest : ¬ k.rest)
    (e : Error) : ActionSpares k calls (abandon e) c := by
  have hc : ∀ c : Client η, k.rest → c.Settled := restless hrest
  have hfallen : ∀ c : Client η, Spares k c { c with declared := {}, decoder := {}, phase := .errored } := fun c =>
    .of_output hcalm hrest rfl rfl rfl rfl
  have hreported : ∀ (e : Error) (c : Client η), ActionSpares k calls (do
      discard (aside (onPending (Pending.rejectAll .stopped)))
      modify fun c : Client η => { c with declared := {}, decoder := {}, phase := .errored }
      Routine.log (Log.error "client" e.message)
      aside (emitError e)
      return e) c := by
    intro e c
    have hrejected : ∀ c : Client η, ActionSpares k calls (aside (onPending (Pending.rejectAll .stopped))) c := fun c =>
      heeds_aside (hc _) (heeds_rejectAll (told_of_mild hk) _ (hc _))
    refine ((hrejected c).discard (hc _)).bind (hc _) fun _ c _ => ?_
    refine (heeds_modify_bind _ _).2 ⟨hfallen c, (heeds_log_bind _ _).2 ⟨fun _ => client_ne_stderr, ?_⟩⟩
    exact (heeds_aside (hc _) (heeds_emitError (fun h => hfailed h _) (hc _))).bind (hc _) fun _ _ _ => trivial
  simp only [abandon, heeds_get_bind]
  split
  · exact ((heeds_call _ (hk (.terminate _) trivial)).discard (hc _)).bind (hc _) fun _ c _ => hreported _ c
  · exact hreported _ c

end Mild

/-! ## Every operation -/

/-- The deeds that may be done to a client under a care; a start is not one of them, since it
forgets the error output and the phase. -/
def Deed.Allowed (k : Care) (c : Client η) : Deed η → Prop
  | .use (.start _) => False
  | .connect .. => False
  | .use (.stop _) => ¬ k.line
  | .use (.exit _) => k.line → c.stderrLine = []
  | .use (.errors _) => ¬ k.tail ∧ ¬ k.line
  | .use (.world l) => k.rest → l.running = true → c.link.running = true
  | .ended _ => (k.line → c.stderrLine = []) ∧ (k.rest → c.phase = .stopped)
  | _ => True

/-- Where nobody cares for the line and for a client at rest, only starts and error output may do harm. -/
theorem Deed.allowed {d : Deed η} (hline : ¬ k.line) (hrest : ¬ k.rest) (hstarts : ¬ d.Starts)
    (herrors : k.tail → ∀ chunk, d ≠ .use (.errors chunk)) : d.Allowed k c := by
  cases d with
  | use u =>
    cases u with
    | start why => exact hstarts trivial
    | stop code => exact hline
    | exit code => exact fun h => absurd h hline
    | errors chunk => exact ⟨fun h => herrors h chunk rfl, hline⟩
    | world l => exact fun h => absurd h hrest
    | _ => trivial
  | connect g code => exact hstarts trivial
  | ended code => exact ⟨fun h => absurd h hline, fun h => absurd h hrest⟩
  | _ => trivial

theorem heeds_transport (f : Fate) {call : Call η} (hcall : calls call) (hspawn : Call.NoSpawn call)
    (hc : k.rest → c.Settled) : ActionSpares k calls (transport f call) c := by
  have hask : ∀ c : Client η, ActionSpares k calls (Action.call call) c := fun c => heeds_call call hcall
  cases call with
  | notice n => exact hask c
  | spawn config => exact hspawn.elim
  | poll wait => exact hask c
  | spent => exact hask c
  | terminate grace => exact ((hask c).discard hc).bind hc fun _ c _ => (heeds_modify_bind _ _).2 ⟨.halted c, trivial⟩

theorem heeds_server (code : Option Int) {call : Call η} (hcall : calls call) (hspawn : Call.NoSpawn call)
    (hc : k.rest → c.Settled) : ActionSpares k calls (server code call) c := by
  have htransport := heeds_transport { code := code } hcall hspawn hc
  cases call with
  | spawn config => exact hspawn.elim
  | _ => exact htransport

theorem heeds_onStderr (chunk : Bytes) (htail : ¬ k.tail) (hline : ¬ k.line) (hc : k.rest → c.Settled) :
    AsideSpares k calls (onStderr chunk) c := by
  simp only [onStderr, heeds_get_bind, heeds_set_bind]
  refine ⟨⟨rfl, rfl, fun h => absurd h htail, fun h => absurd h hline, fun _ h => h, fun _ => rfl, fun _ => rfl,
    fun _ _ h => h, fun _ h => h⟩, heeds_forM (fun line _ c _ => ?_) hc⟩
  exact (heeds_log _).2 fun h => absurd h hline

/-- Every deed that may be done under a care heeds it. -/
theorem heeds_body (hk : ∀ call, Call.Mild call → calls call) {d : Deed η} (hd : d.Allowed k c)
    (hc : k.rest → c.Settled) : ActionSpares k calls (d.body read) c := by
  have hmild : ∀ call : Call η, Call.Mild call → Call.Mild call := fun _ h => h
  have huse : ∀ {α : Type} {p : Action η α} (f : Fate), ActionSpares k Call.Mild p c →
      ActionSpares k calls (p.relay (transport f)) c := fun f h =>
    Heeds.relay (fun call c hc hcall => heeds_transport f (hk call hcall) hcall.noSpawn hc) hc h
  cases d with
  | use u =>
    refine huse u.fate ?_
    cases u with
    | start why => exact hd.elim
    | stop code => exact heeds_stop hmild hd hc
    | poll wait => exact heeds_poll hmild wait hc
    | sendRequest method params h => exact heeds_aside hc (heeds_sendRequest hmild method params h hc)
    | request method params => exact heeds_request hmild method params hc
    | notify method params => exact heeds_aside hc (heeds_sendNotification hmild method params hc)
    | completions uri position => exact heeds_askForList hmild _ _ _ _ _ hc
    | codeActions uri known range => exact heeds_askForList hmild _ _ _ _ _ hc
    | formatEdits uri choice => exact heeds_askForList hmild _ _ _ _ _ hc
    | diagnostics uri => exact heeds_pullDiagnostics hmild uri hc
    | output chunk => exact heeds_aside hc (heeds_onStdoutBy hmild chunk hc)
    | errors chunk => exact heeds_aside hc (heeds_onStderr chunk hd.1 hd.2 hc)
    | exit code => exact heeds_exited hmild code hd hc
    | world l =>
      exact (heeds_modify _).2
        ⟨rfl, rfl, fun _ => rfl, fun _ => rfl, fun _ h => h, fun _ => rfl, fun _ => rfl, fun _ _ h => h, hd⟩
  | connect g code => exact hd.elim
  | openDocument uri params => exact heeds_aside hc (heeds_revise hk _ _ _ hc)
  | updateDocument uri params => exact heeds_aside hc (heeds_revise hk _ _ _ hc)
  | closeDocument uri params => exact heeds_aside hc (heeds_closeDocument hk _ _ hc)
  | hear l params => exact heeds_aside hc (heeds_hear hk l params hc)
  | subscribe errors exits publications router => exact (heeds_modify _).2 (.of_essence rfl)
  | ended code => exact heeds_aside hc (heeds_onExit hk code hd.1 hd.2)

/-! ## From the first call on -/

/-- A stop forgets the line of the error output after it has called. -/
def Deed.Stops : Deed η → Prop
  | .use (.stop _) => True
  | _ => False

section Later

theorem heedsLater_call (call : Call η) : (Action.call call).HeedsLater (sparing k calls) c :=
  heedsLater_ask (S := Calls η) call

variable (hk : ∀ call, Call.NoSpawn call → calls call) (hcalm : ¬ k.calm) (hrest : ¬ k.rest)

include hrest

theorem transport_later (f : Fate) (call : Call η) : (transport f call).HeedsLater (sparing k calls) c := by
  have hc : ∀ c : Client η, k.rest → c.Settled := restless hrest
  have hask : ∀ call : Call η, (discard (Action.call call)).HeedsLater (sparing k calls) c := fun call =>
    (heedsLater_call call).discard
  cases call with
  | notice n => exact heedsLater_call (.notice n)
  | poll wait => exact heedsLater_call (.poll wait)
  | spent => exact heedsLater_call .spent
  | spawn config => exact (hask _).bind fun _ _ => heeds_pure _
  | terminate grace => exact (hask _).bind fun _ c => (heeds_modify_bind _ _).2 ⟨.halted c, trivial⟩

theorem server_later (code : Option Int) (call : Call η) : (server code call).HeedsLater (sparing k calls) c := by
  have hc : ∀ c : Client η, k.rest → c.Settled := restless hrest
  have hrevived : ∀ c : Client η, Spares k c c.revived := fun c =>
    ⟨rfl, rfl, fun _ => rfl, fun _ => rfl, fun _ h => h, fun _ => rfl, fun _ => rfl, fun _ _ h => h,
      fun hr => absurd hr hrest⟩
  have htransport : (transport { code := code } call).HeedsLater (sparing k calls) c := transport_later hrest _ call
  cases call with
  | spawn config =>
    refine (heedsLater_call _).bind fun refusal c => ?_
    split
    · exact (heeds_modify_bind _ _).2 ⟨hrevived c, trivial⟩
    · trivial
  | _ => exact htransport

theorem heedsLater_exited (hk : ∀ call, Call.Mild call → calls call) (code : Option Int) :
    (exited code).HeedsLater (sparing k calls) c := by
  have hc : ∀ c : Client η, k.rest → c.Settled := restless hrest
  by_cases hrun : c.link.running = true
  · have hhalt : (exited code).advance c = (aside (onExit code)).advance c.halted := by
      simp only [exited, advance_get_bind, hrun, if_true, advance_set_bind]
    refine .congr hhalt (HeedsLater.relay hc (fun n _ => heedsLater_call (.notice n)) ?_
      (heedsLater_onExit hk code hrest))
    exact fun n _ hn => heeds_call (.notice n) hn
  · refine .of_ended (a := ()) (t := c) ?_
    simp only [exited, advance_get_bind, hrun]
    rfl

include hcalm

/-- From its first call on, which starts the server, a start leaves the error output alone. -/
theorem heedsLater_start : Client.start.HeedsLater (sparing k Call.NoSpawn) c := by
  have hc : ∀ c : Client η, k.rest → c.Settled := restless hrest
  by_cases hcalmed : c.Calm
  · refine .congr (q := Action.call (.spawn c.config) >>= launched c.config) (t := c.begun) (advance_start hcalmed) ?_
    refine (heedsLater_call _).bind fun refusal c => ?_
    exact heeds_launched (fun _ _ => trivial) hcalm hrest _ _
  · exact .of_ended (advance_start_busy hcalmed)

theorem heedsLater_connect (g : Greeting) : (Client.connect g).HeedsLater (sparing k Call.NoSpawn) c := by
  have hc : ∀ c : Client η, k.rest → c.Settled := restless hrest
  have hmild : ∀ call : Call η, Call.Mild call → Call.NoSpawn call := fun _ h => h.noSpawn
  refine (heedsLater_start hcalm hrest).bind fun started c => ?_
  split
  · trivial
  · refine (heeds_greet hmild hcalm hrest g).bind (hc _) fun r c _ => ?_
    split
    · trivial
    · exact (heeds_abandon hmild (fun _ _ => trivial) hcalm hrest _).bind (hc _) fun _ _ _ => trivial

include hk

/-- From its first call on a deed leaves alone what somebody cares about, even a start. -/
theorem heedsLater_body {d : Deed η} (hd : k.line → ¬ d.Stops) : (d.body read).HeedsLater (sparing k calls) c := by
  have hc : ∀ c : Client η, k.rest → c.Settled := restless hrest
  have hmild : ∀ call, Call.Mild call → calls call := fun call h => hk call h.noSpawn
  have hallowed : d.Allowed k c → (d.body read).HeedsLater (sparing k calls) c := fun h =>
    (heeds_body hmild h (hc c)).later
  cases d with
  | use u =>
    have huse : ∀ {α : Type} {p : Action η α} (f : Fate), p.HeedsLater (sparing k Call.NoSpawn) c →
        (p.relay (transport f)).HeedsLater (sparing k calls) c := fun f h =>
      HeedsLater.relay hc (fun call _ => transport_later hrest f call)
        (fun call c hcall => heeds_transport f (hk call hcall) hcall (hc c)) h
    cases u with
    | start why => exact huse _ (heedsLater_start hcalm hrest)
    | stop code => exact hallowed fun hline => hd hline trivial
    | exit code => exact huse _ (heedsLater_exited hrest (fun _ h => h.noSpawn) code)
    | errors chunk => exact .of_ended (advance_errors read chunk)
    | world l => exact hallowed fun hr => absurd hr hrest
    | _ => exact hallowed trivial
  | connect g code =>
    exact HeedsLater.relay hc (fun call _ => server_later hrest code call)
      (fun call c hcall => heeds_server code (hk call hcall) hcall (hc c)) (heedsLater_connect hcalm hrest g)
  | ended code =>
    exact HeedsLater.relay hc (fun n _ => heedsLater_call (.notice n))
      (fun n _ hn => heeds_call (.notice n) hn) (heedsLater_onExit hmild code hrest)
  | _ => exact hallowed trivial

end Later

end LanguageClient.Client
