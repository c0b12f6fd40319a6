import LanguageClient.Proofs.Reentry.Contract
import LanguageClient.Proofs.ServerProcess.Scene
/-
  LanguageClient.Proofs.ServerProcess.Reading — what reading does, and what may happen to a
  poll while it waits.

  Reading moves bytes from a stream to the client's end. `Progress` tells how many were moved;
  they are held (`Keeps`) or in somebody's hands (`Drained`). A write reads only to hold, so to
  a poll that is handing something over a write can do no more than `Keeps` says, and this is
  what a poll relies on (`contract`).
-/

namespace LanguageClient.ServerProcess

structure Around where
  child : Child
  handed : List Delivery

variable {x : Spawned} {rounds : Nat} {p p' p'' : ServerProcess} {g g' g'' : Around}

/-- The descriptors lead to the streams, and a stream that was closed had nothing more to give. -/
structure Tied (x : Spawned) (p : ServerProcess) (k : Child) : Prop where
  descriptor : ∀ s fd, p.descriptor s = some fd → fd = x.descriptor s
  dry : p.isRunning = true → ∀ s, p.descriptor s = none → (k.flow s).IsDry

structure Safe (x : Spawned) (p : ServerProcess) (g : Around) : Prop where
  tied : Tied x p g.child
  faithful : Faithful g.child g.handed

/-! ## Progress -/

structure Progress (x : Spawned) (got : Stream → Bytes) (p : ServerProcess) (g : Around) (p' : ServerProcess)
    (g' : Around) : Prop where
  tied : Tied x p' g'.child
  pid : p'.pid = p.pid
  handed : g'.handed = g.handed
  read : ∀ s, g'.child.read s = g.child.read s ++ got s
  written : ∀ s, g.child.written s <+: g'.child.written s
  last : ∀ l, g.child.last = some l → g'.child.last = some l

def only (s : Stream) (b : Bytes) : Stream → Bytes := fun t => if t = s then b else []

theorem only_append (s : Stream) (a b : Bytes) (t : Stream) : only s a t ++ only s b t = only s (a ++ b) t := by
  by_cases h : t = s
  · simp [only, h]
  · simp [only, h]

theorem only_nil (s t : Stream) : only s [] t = [] := by simp [only]

theorem Progress.refl (h : Tied x p g.child) : Progress x (fun _ => []) p g p g :=
  ⟨h, rfl, rfl, fun _ => (List.append_nil _).symm, fun _ => List.prefix_rfl, fun _ hl => hl⟩

theorem Progress.trans {got got' : Stream → Bytes} (h : Progress x got p g p' g') (h' : Progress x got' p' g' p'' g'') :
    Progress x (fun s => got s ++ got' s) p g p'' g'' where
  tied := h'.tied
  pid := h'.pid.trans h.pid
  handed := h'.handed.trans h.handed
  read s := by rw [h'.read, h.read, List.append_assoc]
  written s := (h.written s).trans (h'.written s)
  last l hl := h'.last l (h.last l hl)

theorem Progress.congr {got got' : Stream → Bytes} (h : Progress x got p g p' g') (heq : ∀ s, got s = got' s) :
    Progress x got' p g p' g' := by
  have : got = got' := funext heq
  rwa [← this]

/-- What the client's end does to itself. -/
theorem Progress.put {got : Stream → Bytes} (h : Progress x got p g p' g') (ht : Tied x p'' g'.child)
    (hpid : p''.pid = p'.pid) : Progress x got p g p'' g' :=
  { h with tied := ht, pid := hpid.trans h.pid }

theorem Progress.isRunning {got : Stream → Bytes} (h : Progress x got p g p' g') (hrun : p.isRunning = true) :
    p'.isRunning = true := by
  unfold ServerProcess.isRunning at *
  rwa [h.pid]

/-- As long as nothing is handed over, what was handed over stays faithful. -/
theorem Faithful.grow {k k' : Child} {ds : List Delivery} (h : Faithful k ds) (hwritten : ∀ s, k.written s <+: k'.written s)
    (hlast : ∀ l, k.last = some l → k'.last = some l) : Faithful k' ds := by
  refine ⟨fun s => (h.in_order s).trans (hwritten s), ?_⟩
  intro before code after heq
  obtain ⟨hafter, l, hl, hbefore⟩ := h.complete before code after heq
  exact ⟨hafter, l, hlast l hl, hbefore⟩

theorem Progress.safe {got : Stream → Bytes} (h : Progress x got p g p' g') (hs : Safe x p g) : Safe x p' g' := by
  refine ⟨h.tied, ?_⟩
  rw [h.handed]
  exact hs.faithful.grow h.written h.last

def Keeps (x : Spawned) (p : ServerProcess) (g : Around) (p' : ServerProcess) (g' : Around) : Prop :=
  ∃ got, Progress x got p g p' g' ∧ ∀ s, p'.held s = p.held s ++ got s

theorem Keeps.of_progress (h : Progress x (fun _ => []) p g p g') : Keeps x p g p g' :=
  ⟨_, h, fun _ => (List.append_nil _).symm⟩

theorem Keeps.trans (h : Keeps x p g p' g') (h' : Keeps x p' g' p'' g'') : Keeps x p g p'' g'' := by
  obtain ⟨got, hprog, hheld⟩ := h
  obtain ⟨got', hprog', hheld'⟩ := h'
  exact ⟨_, hprog.trans hprog', fun s => by rw [hheld', hheld, List.append_assoc]⟩

/-! ## What a request leaves behind -/

structure Served (x : Spawned) (q : Service) (r : q.Reply) (g g' : Around) : Prop where
  handed : g'.handed = g.handed
  answer : ∃ k, Child.Drift g.child k ∧ k.answer x q r = some g'.child

theorem Tied.drift {k k' : Child} (h : Tied x p k) (hd : Child.Drift k k') : Tied x p k' :=
  ⟨h.descriptor, fun hrun s hs => hd.dry (h.dry hrun s hs)⟩

/-- Nothing is asked of the streams of a process that is given up. -/
theorem Tied.abandoned {k : Child} (h : Tied x p k) : Tied x { p with pid := none } k :=
  ⟨h.descriptor, fun hrun => absurd hrun Bool.false_ne_true⟩

theorem tied_blank (k : Child) : Tied x {} k where
  descriptor s fd hfd := by cases s <;> cases hfd
  dry hrun := absurd hrun Bool.false_ne_true

theorem Progress.of_drift (ht : Tied x p g.child) (hhanded : g'.handed = g.handed)
    (hd : Child.Drift g.child g'.child) : Progress x (fun _ => []) p g p g' where
  tied := ht.drift hd
  pid := rfl
  handed := hhanded
  read s := (hd.read s).trans (List.append_nil _).symm
  written := hd.written
  last := hd.last

theorem Progress.of_receive {k : Child} {s : Stream} {b : Bytes} (ht : Tied x p g.child)
    (hhanded : g'.handed = g.handed) (hd : Child.Drift g.child k) (h : k.receive s (.bytes b) = some g'.child) :
    Progress x (only s b) p g p g' := by
  obtain ⟨hb, hprefix, hflow, hothers, hlast⟩ := Child.receive_bytes h
  have hread : ∀ t, g'.child.read t = k.read t ++ only s b t := by
    intro t
    unfold Child.read only
    by_cases hts : t = s
    · rw [hts, hflow, if_pos rfl]
      rfl
    · rw [hothers t hts, if_neg hts, List.append_nil]
  have hwritten : ∀ t, k.written t <+: g'.child.written t := by
    intro t
    unfold Child.written
    by_cases hts : t = s
    · rw [hts, hflow]
      exact Flow.written_take hprefix
    · rw [hothers t hts]
  have hdry : p.isRunning = true → ∀ t, p.descriptor t = none → (g'.child.flow t).IsDry := by
    intro hrun t hnone
    have hdry := (ht.drift hd).dry hrun t hnone
    by_cases hts : t = s
    · -- there is nothing to be read from a stream that was closed
      rw [hts] at hdry
      rw [hdry.1] at hprefix
      exact absurd (List.prefix_nil.1 hprefix) hb
    · rwa [hothers t hts]
  exact
    { tied := ⟨ht.descriptor, hdry⟩
      pid := rfl
      handed := hhanded
      read := fun t => by rw [hread, hd.read]
      written := fun t => (hd.written t).trans (hwritten t)
      last := fun l hl => hlast.trans (hd.last l hl) }

theorem Served.drift {q : Service} {r : q.Reply} (h : Served x q r g g') (hq : ∀ fd, q ≠ .receive fd) :
    Child.Drift g.child g'.child := by
  obtain ⟨k, hd, hanswer⟩ := h.answer
  rwa [← Child.eq_of_answer hq hanswer] at hd

theorem Served.progress {q : Service} {r : q.Reply} (h : Served x q r g g') (hq : ∀ fd, q ≠ .receive fd)
    (ht : Tied x p g.child) : Progress x (fun _ => []) p g p g' :=
  .of_drift ht h.handed (h.drift hq)

/-- What a read leaves behind. -/
theorem Served.receive {s : Stream} {r : Received} (h : Served x (.receive (x.descriptor s)) r g g')
    (ht : Tied x p g.child) : match r with
    | .bytes b => Progress x (only s b) p g p g'
    | .interrupted => Progress x (fun _ => []) p g p g'
    | .nothing => Progress x (fun _ => []) p g p g' ∧ (g'.child.flow s).unread = []
    | .ended => Progress x (fun _ => []) p g p g' ∧ (g'.child.flow s).IsDry := by
  obtain ⟨k, hd, hanswer⟩ := h.answer
  rw [Child.answer_receive] at hanswer
  cases r with
  | bytes b => exact .of_receive ht h.handed hd hanswer
  | interrupted => exact .of_drift ht h.handed (Option.some.inj hanswer ▸ hd)
  | nothing =>
    obtain ⟨hsame, hempty⟩ := Child.receive_nothing hanswer
    exact ⟨.of_drift ht h.handed (hsame ▸ hd), hsame ▸ hempty⟩
  | ended =>
    obtain ⟨hsame, hdry⟩ := Child.receive_ended hanswer
    exact ⟨.of_drift ht h.handed (hsame ▸ hd), hsame ▸ hdry⟩

/-! ## The contract -/

/-- What may have happened while something was handed over: a write. -/
structure Later (x : Spawned) (p : ServerProcess) (g : Around) (p' : ServerProcess) (g' : Around) : Prop where
  keeps : Keeps x p g p' g'
  /-- Without a process nothing happens. -/
  gone : p = {} → p' = {}

theorem Later.trans (h : Later x p g p' g') (h' : Later x p' g' p'' g'') : Later x p g p'' g'' :=
  ⟨h.keeps.trans h'.keeps, fun hp => h'.gone (h.gone hp)⟩

def record : Call → Around → Around
  | .deliver d, g => { g with handed := g.handed ++ [d] }
  | .service _, g => g

/-- How a call comes back. A poll that asks whether the child has ended is settled. -/
def answers (x : Spawned) (u : Use) : (c : Call) → ServerProcess → Around → c.Reply → ServerProcess → Around → Prop
  | .service q, p, g, r, p', g' =>
    p' = p ∧ Served x q r g g' ∧ ∀ wait pid, u = .poll wait → q = .reap pid → ∀ s, p.held s = []
  | .deliver _, p, g, _, p', g' => Later x p g p' g'

def contract (x : Spawned) (u : Use) : Contract ServerProcess Calls Around := ⟨record, fun _ => Safe x, answers x u⟩

variable {u : Use}

theorem holds_request {q : Service} {post : q.Reply → ServerProcess → Around → Prop} (hs : Safe x p g)
    (h : ∀ r g', Served x q r g g' → post r p g') : (request q).Holds (contract x u) post p g := by
  refine Routine.holds_ask.2 ⟨hs, ?_⟩
  rintro r p' g' ⟨rfl, hserved, _⟩
  exact h r g' hserved

/-- A loop that is safe in every round ends with its result. -/
theorem repeatedly_holds {α β : Type} {step : β → Work (β ⊕ α)} {giveUp : β → α}
    {post : α → ServerProcess → Around → Prop} (inv : β → ServerProcess → Around → Prop)
    (hsafe : ∀ b p g, inv b p g → Safe x p g)
    (hstep : ∀ b p g, inv b p g → (step b).Holds (contract x u) (Sum.elim inv post) p g) {b : β} (h : inv b p g) :
    (repeatedly rounds step b giveUp).Holds (contract x u) post p g := by
  unfold repeatedly
  rw [Routine.holds_bind]
  refine (Routine.Holds.loop (Sum.elim inv post) hstep h rounds).mono ?_
  intro r p g hr
  cases r with
  | inr a => exact hr
  | inl b =>
    -- when there are no rounds left, the loop is not told to end
    rw [Routine.holds_bind]
    refine holds_request (hsafe b p g hr) ?_
    intro _ g' hserved
    obtain ⟨k, _, hanswer⟩ := hserved.answer
    cases hanswer

/-! ## Reading -/

structure Drained (x : Spawned) (s : Stream) (got : Bytes) (p : ServerProcess) (g : Around) (p' : ServerProcess)
    (g' : Around) : Prop where
  progress : Progress x (only s got) p g p' g'
  held : ∀ t, p'.held t = p.held t
  /-- If the child had ended, all that it had written was read. -/
  last_read : p.isRunning = true → ∀ l, g.child.last = some l → l s <+: g'.child.read s

theorem held_ended (p : ServerProcess) (s t : Stream) : (p.ended s).held t = p.held t := by
  cases s <;> cases t <;> rfl

theorem pid_ended (p : ServerProcess) (s : Stream) : (p.ended s).pid = p.pid := by
  cases s <;> rfl

theorem descriptor_ended (p : ServerProcess) (s t : Stream) :
    (p.ended s).descriptor t = if t = s then none else p.descriptor t := by
  cases s <;> cases t <;> rfl

theorem Tied.ended {k : Child} (h : Tied x p k) {s : Stream} (hdry : (k.flow s).IsDry) : Tied x (p.ended s) k := by
  constructor
  · intro t fd hfd
    rw [descriptor_ended] at hfd
    split at hfd
    · cases hfd
    · exact h.descriptor t fd hfd
  · intro hrun t hnone
    rw [descriptor_ended] at hnone
    split at hnone
    · rename_i hts
      exact hts ▸ hdry
    · have hrun' : p.isRunning = true := by
        unfold ServerProcess.isRunning at *
        rwa [pid_ended] at hrun
      exact h.dry hrun' t hnone

/-- One read after another, until nothing is there or the stream has ended. -/
theorem readUp_holds {s : Stream} {post : Bytes × Bool → ServerProcess → Around → Prop} {giveUp : Bytes → Bytes × Bool}
    (hs : Safe x p g)
    (h : ∀ got hasEnded g', Drained x s got p g p g' → (hasEnded = true → (g'.child.flow s).IsDry) →
      post (got, hasEnded) p g') :
    (repeatedly rounds (drainStep (x.descriptor s)) [] giveUp).Holds (contract x u) post p g := by
  -- meanwhile nothing changes at this end, and all that was read is in the result
  refine repeatedly_holds (fun got p' g' => p' = p ∧ Progress x (only s got) p g p g') ?_ ?_
    ⟨rfl, (Progress.refl hs.tied).congr fun t => (only_nil s t).symm⟩
  · rintro got p' g' ⟨rfl, hprog⟩
    exact hprog.safe hs
  · rintro got p' g' ⟨rfl, hprog⟩
    unfold drainStep
    rw [Routine.holds_bind]
    refine holds_request (hprog.safe hs) ?_
    intro r g'' hserved
    have hafter := hserved.receive hprog.tied
    have hup : (g''.child.flow s).unread = [] → Progress x (fun _ => []) p' g' p' g'' →
        Drained x s got p' g p' g'' := by
      intro hempty hafter
      have hall : Progress x (only s got) p' g p' g'' := (hprog.trans hafter).congr fun t => List.append_nil _
      exact ⟨hall, fun _ => rfl, fun _ l hl => g''.child.last_read (hall.last l hl) hempty⟩
    cases r with
    | bytes b => exact ⟨rfl, (hprog.trans hafter).congr (only_append s got b)⟩
    | interrupted => exact ⟨rfl, (hprog.trans hafter).congr fun t => List.append_nil _⟩
    | nothing => exact h got false g'' (hup hafter.2 hafter.1) (by simp)
    | ended => exact h got true g'' (hup hafter.2.1 hafter.1) fun _ => hafter.2

theorem drain_holds {s : Stream} {post : Bytes → ServerProcess → Around → Prop} (hs : Safe x p g)
    (h : ∀ got p' g', Drained x s got p g p' g' → post got p' g') :
    (drain rounds s).Holds (contract x u) post p g := by
  unfold drain
  simp only [Routine.holds_bind, Routine.holds_get]
  cases hfd : p.descriptor s with
  | none =>
    have hprog : Progress x (only s []) p g p g := (Progress.refl hs.tied).congr fun t => (only_nil s t).symm
    exact h [] p g ⟨hprog, fun _ => rfl, fun hrun l hl => g.child.last_read hl (hs.tied.dry hrun s hfd).1⟩
  | some fd =>
    obtain rfl := hs.tied.descriptor s fd hfd
    simp only [Routine.holds_bind]
    refine readUp_holds hs ?_
    intro got hasEnded g' hd hdry
    cases hasEnded with
    | false => exact h got p g' hd
    | true =>
      simp only [if_true, Routine.holds_bind, Routine.holds_modify, Routine.holds_pure]
      refine holds_request (hd.progress.safe hs) ?_
      intro _ g'' hserved
      have hclosing : Progress x (fun _ => []) p g' p g'' := hserved.progress (by simp) hd.progress.tied
      have hall : Progress x (only s got) p g p g'' := (hd.progress.trans hclosing).congr fun t => List.append_nil _
      have hdry' : (g''.child.flow s).IsDry := (hserved.drift (by simp)).dry (hdry rfl)
      refine h got _ g'' ⟨hall.put (hall.tied.ended hdry') (pid_ended p s), held_ended p s, fun hrun l hl => ?_⟩
      rw [hclosing.read, List.append_nil]
      exact hd.last_read hrun l hl

/-! ## Holding what was read -/

theorem held_setHeld (p : ServerProcess) (b : Bytes) (s t : Stream) :
    (p.setHeld b s).held t = if t = s then b else p.held t := by
  cases s <;> cases t <;> rfl

theorem descriptor_setHeld (p : ServerProcess) (b : Bytes) (s t : Stream) :
    (p.setHeld b s).descriptor t = p.descriptor t := by
  cases s <;> cases t <;> rfl

theorem pid_setHeld (p : ServerProcess) (b : Bytes) (s : Stream) : (p.setHeld b s).pid = p.pid := by
  cases s <;> rfl

theorem Tied.setHeld {k : Child} (h : Tied x p k) (b : Bytes) (s : Stream) : Tied x (p.setHeld b s) k := by
  constructor
  · intro t fd hfd
    rw [descriptor_setHeld] at hfd
    exact h.descriptor t fd hfd
  · intro hrun t hnone
    rw [descriptor_setHeld] at hnone
    have hrun' : p.isRunning = true := by
      unfold ServerProcess.isRunning at *
      rwa [pid_setHeld] at hrun
    exact h.dry hrun' t hnone

theorem hold_holds {s : Stream} {post : Unit → ServerProcess → Around → Prop} (hs : Safe x p g)
    (h : ∀ p' g', Keeps x p g p' g' → post () p' g') :
    (hold rounds s).Holds (contract x u) post p g := by
  unfold hold
  rw [Routine.holds_bind]
  refine drain_holds hs ?_
  intro got p' g' hd
  refine h _ g' ⟨only s got, hd.progress.put (hd.progress.tied.setHeld _ s) (pid_setHeld p' _ s), ?_⟩
  intro t
  rw [held_setHeld, only]
  split
  · rename_i hts
    rw [hts, hd.held]
  · rw [hd.held, List.append_nil]

theorem Keeps.safe (h : Keeps x p g p' g') (hs : Safe x p g) : Safe x p' g' := by
  obtain ⟨_, hprog, _⟩ := h
  exact hprog.safe hs

theorem makeRoom_holds {fd : Nat} {post : Bool → ServerProcess → Around → Prop} (hs : Safe x p g)
    (h : ∀ a p' g', Keeps x p g p' g' → post a p' g') :
    (makeRoom rounds fd).Holds (contract x u) post p g := by
  unfold makeRoom
  simp only [Routine.holds_bind, Routine.holds_get]
  refine holds_request hs ?_
  intro isReady g₁ hserved
  have h₁ : Keeps x p g p g₁ := .of_progress (hserved.progress (by simp) hs.tied)
  cases isReady with
  | false => exact h false p g₁ h₁
  | true =>
    simp only [if_true, Routine.holds_bind]
    refine hold_holds (h₁.safe hs) ?_
    intro p₂ g₂ h₂
    refine hold_holds ((h₁.trans h₂).safe hs) ?_
    intro p₃ g₃ h₃
    exact h true p₃ g₃ ((h₁.trans h₂).trans h₃)

/-- A write reads only to hold. -/
theorem write_holds {bytes : Bytes} {post : Bool → ServerProcess → Around → Prop} (hs : Safe x p g)
    (h : ∀ a p' g', Keeps x p g p' g' → post a p' g') :
    (write rounds bytes).Holds (contract x u) post p g := by
  have hstart : Keeps x p g p g := .of_progress (.refl hs.tied)
  unfold write
  simp only [Routine.holds_bind, Routine.holds_get]
  cases p.input with
  | none => exact h false p g hstart
  | some fd =>
    refine repeatedly_holds (fun _ p' g' => Keeps x p g p' g') (fun _ p' g' hk => hk.safe hs) ?_ hstart
    intro rest p' g' hk
    unfold writeStep
    split
    · exact h true p' g' hk
    · rw [Routine.holds_bind]
      refine holds_request (hk.safe hs) ?_
      intro r g₁ hserved
      have h₁ : Keeps x p g p' g₁ := hk.trans (.of_progress (hserved.progress (by simp) (hk.safe hs).tied))
      cases r with
      | bytes n => exact h₁
      | interrupted => exact h₁
      | full =>
        simp only [Routine.holds_bind]
        refine makeRoom_holds (h₁.safe hs) ?_
        intro isReady p₂ g₂ h₂
        cases isReady with
        | false => exact h false p₂ g₂ (h₁.trans h₂)
        | true => exact h₁.trans h₂
      | refused why => exact h false p' g₁ h₁

/-- Without a process nothing is written. -/
theorem write_gone {bytes : Bytes} {post : Bool → ServerProcess → Around → Prop} (h : post false {} g) :
    (write rounds bytes).Holds (contract x u) post {} g := h

theorem write_later {bytes : Bytes} {post : Bool → ServerProcess → Around → Prop} (hs : Safe x p g)
    (h : ∀ a p' g', Later x p g p' g' → post a p' g') : (write rounds bytes).Holds (contract x u) post p g := by
  by_cases hp : p = {}
  · subst hp
    exact write_gone (h false {} g ⟨.of_progress (.refl hs.tied), fun hp => hp⟩)
  · exact write_holds hs fun a p' g' hk => h a p' g' ⟨hk, fun hp' => absurd hp' hp⟩

end LanguageClient.ServerProcess
