import LanguageClient.Proofs.ServerProcess.Order
/-
  LanguageClient.Proofs.ServerProcess.Listening — users that only listen to a poll.

  When nobody uses the process while being handed something, a poll finds the client's end as
  it has left it. It then has handed over all that was held before it reads, and holds nothing
  when it asks whether the child has ended. So everything is handed over in order
  (`faithful_of_listening`).
-/

namespace LanguageClient.ServerProcess

variable {x : Spawned} {rounds : Nat} {p : ServerProcess} {u : Use}

/-- Nobody changes the client's end while a use waits, and a poll that asks whether the child
has ended holds nothing. -/
def undisturbed (u : Use) : Contract ServerProcess Calls Unit where
  record _ g := g
  safe c p _ := ∀ wait pid, u = .poll wait → c = .service (.reap pid) → ∀ s, p.held s = []
  answers _ p _ _ p' _ := p' = p

theorem undisturbed_ask {c : Call} {post : Calls.Reply c → ServerProcess → Unit → Prop} (hc : ∀ pid, c ≠ .service (.reap pid))
    (h : ∀ r, post r p ()) : (Routine.ask (S := Calls) c).Holds (undisturbed u) post p () := by
  refine Routine.holds_ask.2 ⟨?_, ?_⟩
  · intro _ pid _ heq
    exact absurd heq (hc pid)
  · rintro r p' _ rfl
    exact h r

theorem undisturbed_reap {pid : Nat} {post : Fate → ServerProcess → Unit → Prop} (hempty : ∀ s, p.held s = [])
    (h : ∀ fate, post fate p ()) : (request (.reap pid)).Holds (undisturbed u) post p () := by
  refine Routine.holds_ask.2 ⟨fun _ _ _ _ => hempty, ?_⟩
  rintro fate p' _ rfl
  exact h fate

/-- A loop whose steps leave the client's end as it is. -/
theorem undisturbed_repeatedly {α β : Type} {step : β → Work (β ⊕ α)} {giveUp : β → α}
    {post : α → ServerProcess → Unit → Prop} (h : ∀ a, post a p ())
    (hstep : ∀ b, (step b).Holds (undisturbed u) (fun _ p' _ => p' = p) p ()) (b : β) :
    (repeatedly rounds step b giveUp).Holds (undisturbed u) post p () := by
  have hloop : (Routine.loop step rounds b).Holds (undisturbed u) (fun _ p' _ => p' = p) p () := by
    refine Routine.Holds.loop (fun _ p' _ => p' = p) ?_ rfl rounds
    rintro b p' _ rfl
    exact hstep b
  unfold repeatedly
  rw [Routine.holds_bind]
  refine hloop.mono ?_
  rintro r p' _ rfl
  cases r with
  | inl b =>
    rw [Routine.holds_bind]
    exact undisturbed_ask (by simp) fun _ => h _
  | inr a => exact h a

theorem undisturbed_drain {s : Stream} {post : Bytes → ServerProcess → Unit → Prop}
    (h : ∀ got p', (∀ t, p'.held t = p.held t) → post got p' ()) : (drain rounds s).Holds (undisturbed u) post p () := by
  unfold drain
  simp only [Routine.holds_bind, Routine.holds_get]
  cases p.descriptor s with
  | none => exact h [] p fun _ => rfl
  | some fd =>
    simp only [Routine.holds_bind]
    refine undisturbed_repeatedly ?_ ?_ []
    · rintro ⟨got, hasEnded⟩
      cases hasEnded with
      | false => exact h got p fun _ => rfl
      | true =>
        simp only [if_true, Routine.holds_bind, Routine.holds_modify]
        exact undisturbed_ask (by simp) fun _ => h got _ (held_ended p s)
    · intro got
      unfold drainStep
      rw [Routine.holds_bind]
      refine undisturbed_ask (by simp) fun r => ?_
      cases r <;> rfl

/-! ## A poll -/

theorem undisturbed_askEnd {post : Option (Option Nat) → ServerProcess → Unit → Prop} (hempty : ∀ s, p.held s = [])
    (h : ∀ r, post r p ()) : ServerProcess.reap.Holds (undisturbed u) post p () := by
  unfold ServerProcess.reap
  simp only [Routine.holds_bind, Routine.holds_get]
  cases p.pid with
  | none => exact h (some none)
  | some pid =>
    simp only [Routine.holds_bind]
    refine undisturbed_reap hempty fun fate => ?_
    cases fate <;> exact h _

theorem undisturbed_awaitEnd {ms : Int} {post : Option (Option Nat) → ServerProcess → Unit → Prop}
    (hempty : ∀ s, p.held s = []) (h : ∀ r, post r p ()) : (awaitEnd rounds ms).Holds (undisturbed u) post p () := by
  unfold awaitEnd
  rw [Routine.holds_bind]
  refine undisturbed_ask (by simp) fun start => ?_
  refine undisturbed_repeatedly h ?_ ()
  intro _
  unfold awaitStep
  rw [Routine.holds_bind]
  refine undisturbed_askEnd hempty fun r => ?_
  cases r with
  | some code => rfl
  | none =>
    rw [Routine.holds_bind]
    refine undisturbed_ask (by simp) fun now => ?_
    split
    · rfl
    · rw [Routine.holds_bind]
      exact undisturbed_ask (by simp) fun _ => rfl

theorem undisturbed_drainBoth {post : Bytes × Bytes → ServerProcess → Unit → Prop}
    (h : ∀ got p', (∀ t, p'.held t = p.held t) → post got p' ()) : (drainBoth rounds).Holds (undisturbed u) post p () := by
  unfold drainBoth
  rw [Routine.holds_bind]
  refine undisturbed_drain fun output p₁ h₁ => ?_
  rw [Routine.holds_bind]
  refine undisturbed_drain fun errors p₂ h₂ => ?_
  exact h (output, errors) p₂ fun t => (h₂ t).trans (h₁ t)

/-- What a poll finds it takes in with nothing held. -/
theorem undisturbed_takeIn {ms : Int} {post : Found → ServerProcess → Unit → Prop} (hempty : ∀ s, p.held s = [])
    (h : ∀ found p', post found p' ()) : (takeIn rounds ms).Holds (undisturbed u) post p () := by
  unfold takeIn
  simp only [Routine.holds_bind, Routine.holds_get]
  refine undisturbed_drainBoth ?_
  rintro ⟨output, errors⟩ p₁ h₁
  have hempty₁ : ∀ s, p₁.held s = [] := fun s => (h₁ s).trans (hempty s)
  dsimp only
  split
  · rw [Routine.holds_bind]
    exact undisturbed_awaitEnd hempty₁ fun exit => h _ p₁
  · rw [Routine.holds_bind]
    refine undisturbed_askEnd hempty₁ fun exit => ?_
    cases exit with
    | none => exact h _ p₁
    | some code =>
      simp only [Routine.holds_bind]
      exact undisturbed_drainBoth fun more p₂ _ => h _ p₂

theorem undisturbed_look {ms : Int} {post : Found → ServerProcess → Unit → Prop} (hempty : ∀ s, p.held s = [])
    (h : ∀ found p', post found p' ()) : (look rounds ms).Holds (undisturbed u) post p () := by
  unfold look
  simp only [Routine.holds_bind, Routine.holds_get]
  split
  · exact undisturbed_takeIn hempty h
  · rw [Routine.holds_bind]
    exact undisturbed_ask (by simp) fun _ => undisturbed_takeIn hempty h

theorem undisturbed_handOver {s : Stream} {b : Bytes} {post : Bool → ServerProcess → Unit → Prop} (h : ∀ a, post a p ()) :
    (handOver s b).Holds (undisturbed u) post p () := by
  unfold handOver
  split
  · exact h true
  · rw [Routine.holds_bind]
    exact undisturbed_ask (by simp) fun _ => h _

theorem undisturbed_release {s : Stream} {post : Bool → ServerProcess → Unit → Prop}
    (h : ∀ a, post a (p.setHeld [] s) ()) : (release s).Holds (undisturbed u) post p () := by
  unfold release
  simp only [Routine.holds_bind, Routine.holds_get, Routine.holds_set]
  exact undisturbed_handOver h

theorem undisturbed_closing {fds : List Nat} {post : Unit → ServerProcess → Unit → Prop} (h : post () p ()) :
    (fds.forM fun fd => request (.close fd)).Holds (undisturbed u) post p () := by
  induction fds with
  | nil => exact h
  | cons fd fds ih =>
    rw [List.forM, Routine.holds_bind]
    exact undisturbed_ask (by simp) fun _ => ih

theorem undisturbed_handOverAll {found : Found} :
    (handOverAll found).Holds (undisturbed u) (fun _ _ _ => True) p () := by
  unfold handOverAll
  rw [Routine.holds_bind]
  refine undisturbed_handOver fun isThere => ?_
  cases isThere with
  | false => trivial
  | true =>
    simp only [if_true, Routine.holds_bind]
    refine undisturbed_handOver fun isThere => ?_
    cases isThere with
    | false => trivial
    | true =>
      simp only [if_true]
      cases found.exit with
      | none => trivial
      | some code =>
        unfold handOverExit abandon closeAll note
        simp only [Routine.holds_bind, Routine.holds_get, Routine.holds_log, Routine.holds_modify, Routine.holds_set]
        exact undisturbed_closing (undisturbed_ask (by simp) fun _ => trivial)

theorem undisturbed_poll {wait : Int} : (poll rounds wait).Holds (undisturbed u) (fun _ _ _ => True) p () := by
  unfold poll isThere
  simp only [Routine.holds_bind, Routine.holds_get, Routine.holds_pure]
  cases p.isRunning with
  | false => trivial
  | true =>
    simp only [if_true, Routine.holds_bind]
    refine undisturbed_release fun isThere => ?_
    cases isThere with
    | false => trivial
    | true =>
      simp only [if_true, Routine.holds_bind]
      refine undisturbed_release fun isThere => ?_
      cases isThere with
      | false => trivial
      | true =>
        have hempty : ∀ s, ((p.setHeld [] .output).setHeld [] .errors).held s = [] := by
          intro s
          cases s <;> rfl
        simp only [if_true, Routine.holds_bind]
        exact undisturbed_look hempty fun found p' => undisturbed_handOverAll.mono fun _ _ _ _ => trivial

theorem undisturbed_body (u : Use) : ((uses rounds).body u).Holds (undisturbed u) (fun _ _ _ => True) p () := by
  cases u with
  | poll wait => exact undisturbed_poll
  | write bytes => exact Routine.Holds.of_safe (fun _ _ _ _ _ heq => by cases heq) (fun _ _ _ => trivial) _

/-! ## Whole runs -/

def Scene.IsQuiet (c : Scene rounds) : Prop :=
  Operations.Sound undisturbed (fun _ _ => True) c.moment.stack c.moment.state ()

theorem undisturbed_proceed {m : (uses rounds).Moment} {start : ServerProcess} {r : Routine ServerProcess Calls Bool}
    (h : r.Holds (undisturbed u) (fun _ => Operations.Sound (O := uses rounds) undisturbed (fun _ _ => True) m.stack)
      m.state ()) :
    Operations.Sound undisturbed (fun _ _ => True) (m.proceed u start r).stack (m.proceed u start r).state () :=
  Operations.Sound.proceed (O := uses rounds) (fun _ => ()) (fun _ _ => rfl) (fun _ _ _ => rfl) h

theorem Scene.IsQuiet.take {c c' : Scene rounds} (h : c.IsQuiet) {cue : Cue} (hlisten : c.isListening cue = true)
    (ht : ServerProcess.take x c cue = some c') : c'.IsQuiet := by
  obtain ⟨⟨p, stack, trace⟩, k⟩ := c
  cases cue with
  | child move =>
    cases ht
    exact h
  | enter u =>
    obtain ⟨_, rfl⟩ := take_enter ht
    obtain rfl := List.isEmpty_iff.1 hlisten
    exact undisturbed_proceed (undisturbed_body u)
  | answer q r =>
    obtain ⟨p', u, start, next, stack', trace', k', hmoment, _, rfl⟩ := take_answer ht
    cases hmoment
    exact undisturbed_proceed (h.2 r p () rfl)
  | back =>
    obtain ⟨p', u, start, d, next, stack', trace', hmoment, rfl⟩ := take_back ht
    cases hmoment
    exact undisturbed_proceed (h.2 () p () rfl)

theorem Scene.IsQuiet.settled {c : Scene rounds} (h : c.IsQuiet) (cue : Cue) : c.isSettled cue = true := by
  obtain ⟨⟨p, stack, trace⟩, k⟩ := c
  unfold Scene.isSettled
  split
  · rename_i wait start pid next rest hstack
    obtain rfl : stack = _ := hstack
    have hempty := h.1 wait pid rfl rfl
    rw [Bool.and_eq_true, List.isEmpty_iff, List.isEmpty_iff]
    exact ⟨hempty .output, hempty .errors⟩
  · rfl

theorem Scene.IsQuiet.play {cues : List Cue} {c c' : Scene rounds} (h : c.IsQuiet)
    (hp : ServerProcess.play x Scene.isListening cues c = some c') : ServerProcess.play x Scene.isSettled cues c = some c' := by
  induction cues generalizing c with
  | nil => exact hp
  | cons cue cues ih =>
    obtain ⟨hlisten, c₁, ht, hp⟩ := play_cons hp
    have hrest := ih (h.take hlisten ht) hp
    unfold ServerProcess.play at *
    rw [List.foldlM_cons, h.settled cue, if_pos rfl, ht]
    exact hrest

/-- Whoever only listens is handed everything in order, and the exit after all of it. -/
theorem faithful_of_listening (x : Spawned) (rounds : Nat) (cues : List Cue) (c : Scene rounds)
    (h : play x Scene.isListening cues (Scene.start rounds x) = some c) : Faithful c.child c.handed := by
  have hstart : (Scene.start rounds x).IsQuiet := trivial
  have hsound := (Scene.start_sound x rounds).play (hstart.play h)
  exact hsound.faithful

end LanguageClient.ServerProcess
