import LanguageClient.Proofs.Client.Uses
/-
  LanguageClient.Proofs.Client.Unready — a client whose server cannot be started.

  Such a client does not get ready, whatever is done to it and whoever uses it while it calls
  out. What it does then depends on one thing only: whether it is still as new, with no
  request issued and no capabilities declared. Then it has nothing to write and nothing to
  tell but that no server is running.
-/

namespace LanguageClient.Client

open Routine

variable {η α : Type} {read : Bytes → Except Frame.Dropped Message} {new : Prop} {u : Use η} {c : Client η}

/-! ## What is kept -/

def Unissued (p : Pending (Asker η)) : Prop := p.nextId = 1 ∧ p.waiting = []

/-- The client is not ready, and has never been if it is as `new`. -/
structure Unready (new : Prop) (c : Client η) : Prop where
  not_ready : c.phase ≠ .ready
  unissued : new → Unissued c.pending
  undeclared : new → c.declared = {}

def MayNotice (new : Prop) (u : Use η) : Notice η → Prop
  | .failed .. => True
  | .exited _ code => u = .exit code ∨ u = .stop code
  | .told _ v => new → v = .rejected .notRunning
  | .heard .. => ¬ new
  | .diagnosed .. => ¬ new
  | .send _ => ¬ new

def MayCall (new : Prop) (u : Use η) : Call η → Prop
  | .notice n => MayNotice new u n
  | _ => True

abbrev AsideKeeps (new : Prop) (u : Use η) (p : Aside η α) (c : Client η) : Prop :=
  p.Keeps (Unready new) (MayNotice new u) c

abbrev ActionKeeps (new : Prop) (u : Use η) (p : Action η α) (c : Client η) : Prop :=
  p.Keeps (Unready new) (MayCall new u) c

theorem keeps_aside {p : Aside η α} (hc : Unready new c) (h : AsideKeeps new u p c) :
    ActionKeeps new u (aside p) c := by
  unfold aside
  refine Keeps.relay ?_ hc h
  intro n c hc hn
  exact keeps_ask (S := Calls η) (c := .notice n) hc hn

theorem keeps_notice (n : Notice η) (hn : MayNotice new u n) (hc : Unready new c) :
    AsideKeeps new u (Aside.call n) c := keeps_ask (S := Notices η) hc hn

theorem keeps_call (call : Call η) (hcall : MayCall new u call) (hc : Unready new c) :
    ActionKeeps new u (Action.call call) c := keeps_ask (S := Calls η) hc hcall

/-! ## The parts at work -/

theorem keeps_tell {asker : Asker η} {v : Pending.Verdict} (hv : new → v = .rejected .notRunning)
    (hc : Unready new c) : AsideKeeps new u (tell (asker, v)) c := by
  cases asker with
  | handler h => exact keeps_notice (.told h v) hv hc
  | caller id => exact ⟨hc.not_ready, hc.unissued, hc.undeclared⟩
  | stopper => cases v <;> exact hc

/-- An operation on the pending requests that leaves it at none, if none was issued. -/
theorem keeps_onPending {p : Routine (Pending (Asker η)) (Pending.Telling (Asker η)) α} (hc : Unready new c)
    (h : p.Keeps (fun t => new → Unissued t) (fun _ => ¬ new) c.pending) : AsideKeeps new u (onPending p) c := by
  unfold onPending
  refine Keeps.within pending_isPart (fun _ hc => hc.unissued) ?_ ?_ hc h
  · intro t c hc ht
    exact ⟨hc.not_ready, ht, hc.undeclared⟩
  · intro call c hc hused
    exact keeps_tell (fun hnew => absurd hnew hused) hc

/-- When requests were issued nothing is kept of them. -/
theorem keeps_of_issued (hused : ¬ new) (p : Routine (Pending (Asker η)) (Pending.Telling (Asker η)) α)
    (t : Pending (Asker η)) : p.Keeps (fun t => new → Unissued t) (fun _ => ¬ new) t :=
  keeps_of_trivial (fun _ hnew => absurd hnew hused) (fun _ => hused) p

/-- Where nobody waits, nobody can be taken out. -/
theorem keeps_of_takes {p : Routine (Pending (Asker η)) (Pending.Telling (Asker η)) α} {t : Pending (Asker η)} {a : α}
    (ht : new → Unissued t) (h : Pending.Takes p t a) : p.Keeps (fun t => new → Unissued t) (fun _ => ¬ new) t := by
  by_cases hnew : new
  · obtain ⟨verdict, entry, ws, rest, hadv, hperm⟩ := h
    obtain ⟨hid, hwaiting⟩ := ht hnew
    rw [hwaiting] at hperm
    obtain ⟨rfl, rfl⟩ := List.append_eq_nil_iff.1 hperm.eq_nil
    exact Keeps.of_ended (hadv.trans (Pending.advance_tellThen_nil ..)) fun _ => ⟨hid, rfl⟩
  · exact keeps_of_issued hnew p t

theorem keeps_rejectAll (e : Error) (hc : Unready new c) : AsideKeeps new u (onPending (Pending.rejectAll e)) c :=
  keeps_onPending hc (keeps_of_takes hc.unissued (Pending.takes_rejectAll _ e))

/-- An emission makes calls on its own event only. -/
theorem keeps_turns {β : Type} (event : β) (ids : List Nat) (s : Signal η) :
    (Signal.turns event ids).Keeps (fun _ => True) (fun call : η × β => call.2 = event) s := by
  induction ids generalizing s with
  | nil => trivial
  | cons id ids ih =>
    simp only [Signal.turns, keeps_get_bind]
    cases s.turn? id with
    | none => exact ih s
    | some turn => exact ⟨⟨trivial, rfl⟩, fun _ s' _ _ => ih s'⟩

theorem keeps_emitError (e : Error) (hc : Unready new c) : AsideKeeps new u (emitError e) c := by
  unfold emitError
  refine Keeps.within errors_isPart ?_ ?_ ?_ hc (keeps_turns e _ c.errors)
  · exact fun _ _ => trivial
  · exact fun _ c hc _ => ⟨hc.not_ready, hc.unissued, hc.undeclared⟩
  · exact fun call c hc _ => keeps_notice (.failed call.1 call.2) trivial hc

theorem keeps_emitExit {code : Option Int} (hu : u = .exit code ∨ u = .stop code) (hc : Unready new c) :
    AsideKeeps new u (emitExit code) c := by
  unfold emitExit
  refine Keeps.within exits_isPart ?_ ?_ ?_ hc (keeps_turns code _ c.exits)
  · exact fun _ _ => trivial
  · exact fun _ c hc _ => ⟨hc.not_ready, hc.unissued, hc.undeclared⟩
  · rintro call c hc rfl
    exact keeps_notice (.exited call.1 call.2) hu hc

theorem keeps_dispatch (n : Notification) (hused : ¬ new) (hc : Unready new c) : AsideKeeps new u (dispatch n) c := by
  unfold dispatch
  refine Keeps.within router_isPart ?_ ?_ ?_ hc
    (keeps_of_trivial (I := fun _ => True) (fun _ => trivial) (fun _ => trivial) (Router.dispatch n))
  · exact fun _ _ => trivial
  · exact fun _ c hc _ => ⟨hc.not_ready, hc.unissued, hc.undeclared⟩
  · exact fun call c hc _ => keeps_notice (.heard call.1 call.2) hused hc

theorem keeps_post (m : Message) (hused : ¬ new) (hc : Unready new c) : AsideKeeps new u (post m) c := by
  simp only [post, keeps_get_bind]
  split
  · refine Keeps.bind (keeps_notice (.send _) hused hc) ?_
    intro sent c hc
    split <;> exact hc
  · exact hc

/-! ## What comes in -/

theorem keeps_handle (m : Message) (hused : ¬ new) (hc : Unready new c) : AsideKeeps new u (handle m) c := by
  cases m with
  | response r =>
    refine Keeps.bind (keeps_onPending hc (keeps_of_issued hused _ _)) ?_
    intro found c hc
    cases found <;> exact hc
  | request r =>
    simp only [handle, serve, keeps_get_bind]
    split
    · exact (keeps_post _ hused hc).discard
    · exact (keeps_post _ hused hc).discard
  | notification n => exact (keeps_dispatch n hused hc).discard

/-- Output that carries no message is taken in without a word. -/
theorem keeps_onStdoutBy {chunk : Bytes} (hmute : new → Frame.messagesBy read (c.decoder.feed chunk).1 = [])
    (hc : Unready new c) : AsideKeeps new u (onStdoutBy read chunk) c := by
  simp only [onStdoutBy, keeps_get_bind, keeps_set_bind]
  refine Keeps.bind (keeps_forM (fun _ _ hc => hc) ⟨hc.not_ready, hc.unissued, hc.undeclared⟩ _) ?_
  intro _ c' hc'
  by_cases hnew : new
  · rw [hmute hnew]
    exact hc'
  · exact keeps_forM (fun m _ hc => keeps_handle m hnew hc) hc' _

theorem keeps_onStderr (chunk : Bytes) (hc : Unready new c) : AsideKeeps new u (onStderr chunk) c := by
  simp only [onStderr, keeps_get_bind, keeps_set_bind]
  exact keeps_forM (fun _ _ hc => hc) ⟨hc.not_ready, hc.unissued, hc.undeclared⟩ _

theorem keeps_onExit {code : Option Int} (hu : u = .exit code ∨ u = .stop code) (hc : Unready new c) :
    AsideKeeps new u (onExit code) c := by
  by_cases h : c.phase = .stopped
  · exact Keeps.of_ended (advance_onExit_stopped code h) ⟨hc.not_ready, hc.unissued, hc.undeclared⟩
  · refine Keeps.congr (advance_onExit code h) ?_
    have hlost : Unready new (c.lost code) := ⟨(by decide : Phase.errored ≠ .ready), hc.unissued, fun _ => rfl⟩
    unfold giveUp
    refine Keeps.bind (keeps_rejectAll _ hlost).discard ?_
    exact fun _ _ hc => keeps_emitExit hu hc

theorem keeps_exited {code : Option Int} (hc : Unready new c) : ActionKeeps new (.exit code) (exited code) c := by
  simp only [exited, keeps_get_bind]
  split
  · have hhalted : Unready new c.halted := ⟨hc.not_ready, hc.unissued, hc.undeclared⟩
    simp only [keeps_set_bind]
    exact keeps_aside hhalted (keeps_onExit (Or.inl rfl) hhalted)
  · exact hc

/-! ## What is asked for -/

theorem keeps_start (hc : Unready new c) : ActionKeeps new u Client.start c := by
  simp only [Client.start, keeps_get_bind]
  split
  · exact hc
  · simp only [keeps_set_bind]
    have hstarting : Unready new { c.forgetful with phase := .starting } :=
      ⟨(by decide : Phase.starting ≠ .ready), hc.unissued, fun _ => rfl⟩
    refine Keeps.bind (keeps_call (.spawn _) trivial hstarting) ?_
    intro refusal c hc
    cases refusal with
    | none => exact hc
    | some why =>
      have herrored : Unready new { c with phase := .errored } :=
        ⟨(by decide : Phase.errored ≠ .ready), hc.unissued, hc.undeclared⟩
      simp only [keeps_modify_bind, keeps_log_bind]
      exact (keeps_aside herrored (keeps_emitError _ herrored)).bind fun _ _ hc => hc

theorem keeps_report {before : Client η} {code : Option Int} (hu : before.link.running = true → u = .stop code)
    (hc : Unready new c) : ActionKeeps new u (report before code) c := by
  unfold report
  split
  · rename_i hrun
    simp only [keeps_log_bind]
    exact keeps_aside hc (keeps_emitExit (Or.inr (hu hrun)) hc)
  · exact hc

theorem keeps_windUp {before : Client η} {code : Option Int} (hu : before.link.running = true → u = .stop code)
    (hc : Unready new c) : ActionKeeps new u (windUp before code) c := by
  unfold windUp
  refine Keeps.bind (keeps_aside hc (keeps_rejectAll _ hc)) ?_
  intro rejected c hc
  have hcleared : Unready new c.cleared := ⟨hc.not_ready, hc.unissued, fun _ => rfl⟩
  split
  · simp only [keeps_log_bind, keeps_modify_bind]
    exact keeps_report hu hcleared
  · simp only [keeps_modify_bind]
    exact keeps_report hu hcleared

theorem keeps_expireNow (hc : Unready new c) : ActionKeeps new u (aside Client.expire) c := by
  refine keeps_aside hc ?_
  simp only [Client.expire, keeps_get_bind]
  exact (keeps_onPending hc (keeps_of_takes hc.unissued (Pending.takes_expire _ _))).discard

theorem keeps_pump (most : Int) (hc : Unready new c) : ActionKeeps new u (pump most) c := by
  simp only [pump, keeps_get_bind]
  split
  · exact (keeps_call (.poll _) trivial hc).bind fun _ _ hc => keeps_expireNow hc
  · exact keeps_expireNow hc

theorem keeps_poll (wait : Int) (hc : Unready new c) : ActionKeeps new u (Client.poll wait) c := by
  simp only [Client.poll, keeps_get_bind]
  split
  · exact (keeps_pump wait hc).bind fun _ _ hc => hc
  · exact (keeps_expireNow hc).bind fun _ _ hc => hc

theorem isOpen_of_unready (hc : Unready new c) : c.isOpen = false := by
  simp [isOpen, isReady, hc.not_ready]

theorem keeps_request (method : Bytes) (params : Json) (hc : Unready new c) :
    ActionKeeps new u (Client.request method params) c :=
  Keeps.of_ended (advance_request method params (isOpen_of_unready hc)) hc

theorem keeps_sendRequest (method : Bytes) (params : Json) (h : η) (hc : Unready new c) :
    AsideKeeps new u (Client.sendRequest method params h) c := by
  simp only [Client.sendRequest, keeps_get_bind, isOpen_of_unready hc, Bool.false_eq_true, if_false]
  exact (keeps_tell (fun _ => rfl) hc).bind fun _ _ hc => hc

theorem keeps_sendNotification (method : Bytes) (params : Json) (hc : Unready new c) :
    AsideKeeps new u (sendNotification method params) c := by
  have hready : c.isReady = false := by simp [isReady, hc.not_ready]
  simp only [sendNotification, keeps_get_bind, hready, Bool.false_eq_true, if_false]
  exact hc

theorem keeps_requestList {α : Type} (method : Bytes) (params : Json)
    (found : Bytes → Json → Except Error (List Json)) (items : Items α) (hc : Unready new c) :
    ActionKeeps new u (requestList method params found items) c := by
  refine (keeps_request method params hc).bind fun answer c hc => ?_
  split
  · exact hc
  · split
    · exact hc
    · exact (keeps_forM (fun _ _ hc => hc) hc _).bind fun _ _ hc => hc

theorem keeps_askForList {α : Type} (offer : Capability) (method : Bytes) (params : Json)
    (found : Bytes → Json → Except Error (List Json)) (items : Items α) (hc : Unready new c) :
    ActionKeeps new u (askForList offer method params found items) c := by
  simp only [askForList, keeps_get_bind]
  split
  · exact keeps_requestList _ _ _ _ hc
  · exact hc

theorem keeps_pullDiagnostics (uri : Bytes) (hc : Unready new c) : ActionKeeps new u (pullDiagnostics uri) c := by
  simp only [pullDiagnostics, keeps_get_bind]
  split
  · refine (keeps_requestList _ _ _ _ hc).bind fun r c hc => ?_
    split <;> exact hc
  · exact hc

/-! ## Every operation -/

/-- Those who make the calls of a use leave the client unready, and end a process with the code
that is its fate. -/
structure Obliging (new : Prop) (u : Use η) (up : (c : Call η) → Action η c.Reply) : Prop where
  keeps : ∀ call c, MayCall new u call → Unready new c → ActionKeeps new u (up call) c
  ends : ∀ grace c, Unready new c → (up (.terminate grace)).Holds (.keeping (Unready new) (MayCall new u))
    (fun code c _ => Unready new c ∧ code = u.fate.code) c ()

variable {up : Fate → (c : Call η) → Action η c.Reply}

theorem keeps_relay {p : Action η α} (hup : Obliging new u (up u.fate)) (hc : Unready new c)
    (h : ActionKeeps new u p c) : ActionKeeps new u (p.relay (up u.fate)) c :=
  Keeps.relay (fun call c hc hcall => hup.keeps call c hcall hc) hc h

theorem keeps_stop {code : Option Int} (hup : Obliging new (.stop code) (up (Use.stop (η := η) code).fate))
    (hc : Unready new c) : ActionKeeps new (.stop code) (Client.stop.relay (up (Use.stop (η := η) code).fate)) c := by
  cases hrun : c.link.running with
  | true =>
    have hstopped : Unready new { c with phase := .stopped } :=
      ⟨(by decide : Phase.stopped ≠ .ready), hc.unissued, hc.undeclared⟩
    refine Keeps.congr (advance_relay_congr (advance_stop_running hc.not_ready hrun)) ?_
    rw [Action.call, relay_ask_bind]
    refine (holds_bind _ _).2 ?_
    -- what is reported is the reply, and of a reply `Keeps` says nothing
    refine (hup.ends _ _ hstopped).mono ?_
    rintro _ c _ ⟨hc, rfl⟩
    exact keeps_relay hup hc (keeps_windUp (fun _ => rfl) hc)
  | false =>
    refine Keeps.congr (advance_relay_congr (advance_stop_idle hrun)) ?_
    have hidle : Unready new { c with phase := if c.phase = .disconnected then .disconnected else .stopped } :=
      ⟨by dsimp only; split <;> decide, hc.unissued, hc.undeclared⟩
    refine keeps_relay hup hidle (keeps_windUp (fun h => ?_) hidle)
    simp [hrun] at h

/-- What a client that is not ready is used for leaves it so, with nothing issued if nothing was
and the output carries no message. -/
theorem keeps_body (hup : Obliging new u (up u.fate)) (hmute : new → ∀ chunk, u = .output chunk →
    Frame.messagesBy read (c.decoder.feed chunk).1 = []) (hc : Unready new c) :
    ActionKeeps new u ((usesBy read up).body u) c := by
  cases u with
  | start why => exact keeps_relay hup hc (keeps_start hc)
  | stop code => exact keeps_stop hup hc
  | poll wait => exact keeps_relay hup hc (keeps_poll wait hc)
  | sendRequest method params h => exact keeps_relay hup hc (keeps_aside hc (keeps_sendRequest method params h hc))
  | request method params => exact keeps_relay hup hc (keeps_request method params hc)
  | notify method params => exact keeps_relay hup hc (keeps_aside hc (keeps_sendNotification method params hc))
  | completions uri position => exact keeps_relay hup hc (keeps_askForList _ _ _ _ _ hc)
  | codeActions uri known range => exact keeps_relay hup hc (keeps_askForList _ _ _ _ _ hc)
  | formatEdits uri choice => exact keeps_relay hup hc (keeps_askForList _ _ _ _ _ hc)
  | diagnostics uri => exact keeps_relay hup hc (keeps_pullDiagnostics uri hc)
  | output chunk =>
    exact keeps_relay hup hc (keeps_aside hc (keeps_onStdoutBy (fun hnew => hmute hnew chunk rfl) hc))
  | errors chunk => exact keeps_relay hup hc (keeps_aside hc (keeps_onStderr chunk hc))
  | exit code => exact keeps_relay hup hc (keeps_exited hc)
  | world l => exact keeps_relay hup hc ⟨hc.not_ready, hc.unissued, hc.undeclared⟩

theorem transport_obliging (u : Use η) : Obliging new u (transport u.fate) where
  keeps := by
    intro call c hcall hc
    have hask : ActionKeeps new u (Action.call call) c := keeps_call call hcall hc
    cases call with
    | notice n => exact hask
    | spawn config => exact hask.discard.bind fun _ _ hc => hc
    | poll wait => exact hask
    | spent => exact hask
    | terminate grace => exact hask.discard.bind fun _ _ hc => ⟨hc.not_ready, hc.unissued, hc.undeclared⟩
  ends := by
    intro grace c hc
    refine (holds_bind _ _).2 (Holds.mono (keeps_call (.terminate grace) trivial hc).discard ?_)
    exact fun _ c _ hc => ⟨⟨hc.not_ready, hc.unissued, hc.undeclared⟩, rfl⟩

end LanguageClient.Client
