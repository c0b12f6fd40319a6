import LanguageClient.Proofs.ServerProcess.Ledger
/-
  LanguageClient.Proofs.ServerProcess.ExitCodes — every process is reported as it has ended.

  Between being told of the end of its process and reporting it, the client's end hands over
  the last output. If the user lets it ask again then, it learns nothing and reports an end
  without an exit code (`an_exit_code_is_lost`). If not, each process is reported once, in
  order and as it ended, whatever the user does (`reports_are_exit_codes`); so it is when
  those who are handed something neither poll nor end the process (`reports_of_listening`).
-/

namespace LanguageClient.ServerProcess.Reaping

variable {told : Option (Option Nat)} {p p' : ServerProcess} {g g' : Ledger}

/-! ## What asks for the process -/

section asking

variable {rounds : Nat} {α β : Type}

/-- What holds at the beginning and is kept by every round holds at the end. -/
theorem repeatedly_holds {step : β → Work (β ⊕ α)} {giveUp : β → α} (inv : β ⊕ α → ServerProcess → Ledger → Prop)
    {post : α → ServerProcess → Ledger → Prop} (hlasting : ∀ b, Lasting (inv (.inl b)))
    (hstep : ∀ b p g, inv (.inl b) p g → (step b).Holds contract inv p g)
    (hgive : ∀ b p g, inv (.inl b) p g → inv (.inr (giveUp b)) p g) {b : β} (h : inv (.inl b) p g)
    (hpost : ∀ a p' g', inv (.inr a) p' g' → post a p' g') :
    (repeatedly rounds step b giveUp).Holds contract post p g := by
  unfold repeatedly
  rw [Routine.holds_bind]
  refine (Routine.Holds.loop inv hstep h rounds).mono fun r p' g' hr => ?_
  cases r with
  | inl b =>
    rw [Routine.holds_bind]
    exact holds_quiet (hlasting b) hr rfl fun _ g'' h => hpost _ p' g'' (hgive b p' g'' h)
  | inr a => exact hpost a p' g' hr

/-- A process whose end has not been told runs, or its end is told now. -/
theorem Follows.reaped {pid : Nat} {fate : Fate} (h : Follows none p g) (hpid : p.pid = some pid)
    (hserved : Served (.reap pid) g fate g') :
    (fate = .running ∧ Follows none p g') ∨ ∃ code, fate = .ended code ∧ Follows (some code) p g' := by
  obtain ⟨t', reports⟩ := g'
  obtain ⟨rfl, t, hdrift, hanswer⟩ := hserved
  have hanswer : (if fate = (ask pid t).1 then some (ask pid t).2 else none) = some t' := hanswer
  split at hanswer
  next hfate =>
    cases hanswer
    rw [hfate]
    exact h.asked hpid hdrift
  next => cases hanswer

/-- Whoever waits for its end is told the end. -/
theorem Follows.collected {pid : Nat} {fate : Fate} (h : Follows none p g) (hpid : p.pid = some pid)
    (hserved : Served (.collect pid) g fate g') : ∃ code, fate = .ended code ∧ Follows (some code) p g' := by
  obtain ⟨t', reports⟩ := g'
  obtain ⟨rfl, t, hdrift, hanswer⟩ := hserved
  have hanswer : (if fate = (ask pid t).1 ∧ fate ≠ .running then some (ask pid t).2 else none) = some t' := hanswer
  split at hanswer
  next hfate =>
    cases hanswer
    rcases h.asked hpid hdrift with ⟨hrunning, -⟩ | hended
    · exact absurd (hfate.1.trans hrunning) hfate.2
    · rw [hfate.1]
      exact hended
  next => cases hanswer

/-- Asked for the process, the system tells that it runs or how it has ended. -/
theorem reap_holds {post : Option (Option Nat) → ServerProcess → Ledger → Prop} (hf : Follows none p g)
    (h : ∀ told g', Follows told p g' → post told p g') : ServerProcess.reap.Holds contract post p g := by
  obtain ⟨pid, hpid⟩ := hf.running
  unfold ServerProcess.reap
  simp only [Routine.holds_bind, Routine.holds_get, hpid]
  refine holds_request ((follows_lasting none).fair hf) fun fate g' hserved => ?_
  rcases hf.reaped hpid hserved with ⟨rfl, hf'⟩ | ⟨code, rfl, hf'⟩
  · exact h none g' hf'
  · exact h (some code) g' hf'

theorem awaitEnd_holds {ms : Int} {post : Option (Option Nat) → ServerProcess → Ledger → Prop} (hf : Follows none p g)
    (h : ∀ told p' g', p'.pid = p.pid → Follows told p' g' → post told p' g') :
    (awaitEnd rounds ms).Holds contract post p g := by
  have hlasting := (follows_lasting none).same p.pid
  unfold awaitEnd
  rw [Routine.holds_bind]
  refine holds_quiet hlasting ⟨rfl, hf⟩ rfl fun start g₁ hf₁ => ?_
  refine repeatedly_holds (fun r p' g' => p'.pid = p.pid ∧ Follows (r.elim (fun _ => none) id) p' g')
    (fun _ => hlasting) ?_ (fun _ _ _ hf => hf) (b := ()) hf₁ fun told p' g' hf' => h told p' g' hf'.1 hf'.2
  rintro _ p' g' ⟨hp, hf⟩
  unfold awaitStep
  rw [Routine.holds_bind]
  refine reap_holds hf fun told g₂ hf₂ => ?_
  cases told with
  | some code => exact ⟨hp, hf₂⟩
  | none =>
    rw [Routine.holds_bind]
    refine holds_quiet hlasting ⟨hp, hf₂⟩ rfl fun now g₃ hf₃ => ?_
    split
    next => exact hf₃
    next =>
      rw [Routine.holds_bind]
      exact holds_quiet hlasting hf₃ rfl fun _ _ hf₄ => hf₄

/-- An end that is forced is told. -/
theorem force_holds {pid : Nat} {grace : Int} {post : Option Nat → ServerProcess → Ledger → Prop}
    (hpid : p.pid = some pid) (hf : Follows none p g) (h : ∀ code p' g', Follows (some code) p' g' → post code p' g') :
    (force rounds pid grace).Holds contract post p g := by
  unfold force note
  simp only [Routine.holds_bind, Routine.holds_log]
  refine holds_quiet (follows_lasting none) hf rfl fun _ g₁ hf₁ => ?_
  refine awaitEnd_holds hf₁ fun told p₂ g₂ hp₂ hf₂ => ?_
  cases told with
  | some code => exact h code p₂ g₂ hf₂
  | none =>
    simp only [Routine.holds_bind, Routine.holds_log]
    refine holds_quiet (follows_lasting none) hf₂ rfl fun _ g₃ hf₃ => ?_
    refine holds_request ((follows_lasting none).fair hf₃) fun fate g₄ hserved => ?_
    obtain ⟨code, rfl, hf₄⟩ := hf₃.collected (hp₂.trans hpid) hserved
    exact h code p₂ g₄ hf₄

/-! ## The acts -/

theorem abandon_holds {code : Option Nat} {post : Unit → ServerProcess → Ledger → Prop} (hf : Follows (some code) p g)
    (h : ∀ p' g', Owes code p' g' → post () p' g') : abandon.Holds contract post p g := by
  unfold abandon
  rw [Routine.holds_bind, Routine.holds_modify]
  exact (owes_lasting code).holds (heeds_closeAll rfl) rfl (hf.owes rfl) fun _ p' g' howes => h p' g' howes

/-- What `terminate` answers is how the process has ended. -/
theorem terminate_holds {grace : Int} {post : Option Nat → ServerProcess → Ledger → Prop} (hs : Stands none p g)
    (hended : p.isRunning = true → ∀ code p' g', Owes code p' g' → post code p' g')
    (hnone : p.isRunning = false → ∀ p' g', Without p' g' → post none p' g') :
    (terminate rounds grace).Holds contract post p g := by
  unfold terminate
  simp only [Routine.holds_bind, Routine.holds_get]
  rcases hs with hf | ⟨-, hwithout⟩
  · obtain ⟨pid, hpid⟩ := hf.running
    have hended := hended (by rw [isRunning, hpid]; rfl)
    have hclosing : ∀ {code p' g'}, Follows (some code) p' g' →
        (abandon >>= fun _ => pure code).Holds contract post p' g' :=
      fun hf => (Routine.holds_bind _ _).2 (abandon_holds hf (hended _))
    simp only [hpid, Routine.holds_bind]
    refine ((follows_lasting none).same (some pid)).holds (heeds_closeInput hpid) hpid ⟨hpid, hf⟩ ?_
    rintro _ p₁ g₁ ⟨hpid₁, hf₁⟩
    refine awaitEnd_holds hf₁ fun told p₂ g₂ hp₂ hf₂ => ?_
    cases told with
    | some code => exact hclosing hf₂
    | none =>
      rw [Routine.holds_bind]
      exact force_holds (hp₂.trans hpid₁) hf₂ fun code p₃ g₃ hf₃ => hclosing hf₃
  · have hnone := hnone (by rw [isRunning, hwithout.1]; rfl)
    simp only [hwithout.1, Routine.holds_bind]
    exact without_lasting.holds (heeds_closeAll hwithout.1) hwithout.1 hwithout fun _ p' g' h' => hnone p' g' h'

/-- A process that is started is the next to be reported. -/
theorem launch_holds {c : ServerConfig} {post : Option Launch.Refusal → ServerProcess → Ledger → Prop}
    (hs : Stands told p g) (h : ∀ refusal p' g', Stands told p' g' → post refusal p' g') :
    (launch c).Holds contract post p g := by
  unfold launch
  simp only [Routine.holds_bind, Routine.holds_get]
  rcases hs with hf | ⟨rfl, hnone⟩
  · obtain ⟨pid, hpid⟩ := hf.running
    rw [isRunning, hpid]
    exact h _ p g (Or.inl hf)
  · simp only [isRunning, hnone.1, Option.isSome_none, Bool.false_eq_true, if_false, Routine.holds_bind]
    refine holds_quiet without_lasting hnone rfl fun surroundings g₁ hnone₁ => ?_
    split
    next refusal _ => exact h _ p g₁ (Or.inr ⟨rfl, hnone₁⟩)
    next l _ =>
      rw [Routine.holds_bind]
      refine holds_request (without_lasting.fair hnone₁) fun started g₂ hserved => ?_
      obtain ⟨t₂, reports⟩ := g₂
      obtain ⟨rfl, t, hdrift, hanswer⟩ := hserved
      have hpaid := hnone₁.2.drift hdrift
      cases started with
      | error why =>
        cases hanswer
        exact h _ p _ (Or.inr ⟨rfl, hnone.1, hpaid⟩)
      | ok s =>
        cases hanswer
        exact h none s.process _ (Or.inl (.untold rfl rfl hpaid))

/-! ## A poll -/

/-- Handed something, the user leaves a process of whose end was told; of another one it may be that it is gone. -/
theorem handOver_holds {s : Stream} {b : Bytes} {post : Bool → ServerProcess → Ledger → Prop} (hf : Follows told p g)
    (hgoes : ∀ p' g', Follows told p' g' → post true p' g')
    (hgone : told = none → ∀ p' g', Without p' g' → post false p' g') : (handOver s b).Holds contract post p g := by
  unfold handOver
  split
  next => exact hgoes p g hf
  next =>
    unfold deliver isThere
    simp only [Routine.holds_bind, Routine.holds_get, Routine.holds_pure]
    refine Routine.holds_ask.2 ⟨⟨told, Or.inl hf⟩, fun _ p' g' hlater => ?_⟩
    rcases hlater told (Or.inl hf) with hf' | ⟨htold, hnone⟩
    · obtain ⟨pid, hpid⟩ := hf'.running
      rw [isRunning, hpid]
      exact hgoes p' g' hf'
    · rw [isRunning, hnone.1]
      exact hgone htold p' g' hnone

theorem release_holds {s : Stream} {post : Bool → ServerProcess → Ledger → Prop} (hf : Follows none p g)
    (hgoes : ∀ p' g', Follows none p' g' → post true p' g') (hgone : ∀ p' g', Without p' g' → post false p' g') :
    (release s).Holds contract post p g := by
  unfold release
  simp only [Routine.holds_bind, Routine.holds_get, Routine.holds_set]
  refine handOver_holds ((follows_lasting none).keeps hf ?_ (.refl g)) hgoes fun _ => hgone
  cases s <;> rfl

/-- A look finds the end of the process when it is told of it. -/
theorem takeIn_holds {ms : Int} {post : Found → ServerProcess → Ledger → Prop} (hf : Follows none p g)
    (h : ∀ found p' g', Follows found.exit p' g' → post found p' g') : (takeIn rounds ms).Holds contract post p g := by
  unfold takeIn
  simp only [Routine.holds_bind, Routine.holds_get]
  refine (follows_lasting none).holds (heeds_drainBoth rfl) rfl hf ?_
  rintro ⟨output, errors⟩ p₁ g₁ hf₁
  dsimp only
  split
  next =>
    rw [Routine.holds_bind]
    exact awaitEnd_holds hf₁ fun told p₂ g₂ _ hf₂ => h ⟨output, errors, told⟩ p₂ g₂ hf₂
  next =>
    rw [Routine.holds_bind]
    refine reap_holds hf₁ fun told g₂ hf₂ => ?_
    cases told with
    | none => exact h ⟨output, errors, none⟩ p₁ g₂ hf₂
    | some code =>
      -- the rest of the output is read with the process told of and still there
      simp only [Routine.holds_bind]
      refine (follows_lasting (some code)).holds (heeds_drainBoth rfl) rfl hf₂ ?_
      rintro ⟨more, moreErrors⟩ p₃ g₃ hf₃
      exact h ⟨output ++ more, errors ++ moreErrors, some code⟩ p₃ g₃ hf₃

theorem look_holds {ms : Int} {post : Found → ServerProcess → Ledger → Prop} (hf : Follows none p g)
    (h : ∀ found p' g', Follows found.exit p' g' → post found p' g') : (look rounds ms).Holds contract post p g := by
  unfold look
  simp only [Routine.holds_bind, Routine.holds_get]
  split
  next => exact takeIn_holds hf h
  next =>
    rw [Routine.holds_bind]
    exact holds_quiet (follows_lasting none) hf rfl fun _ g₁ hf₁ => takeIn_holds hf₁ h

/-- The exit that is handed over is how the process has ended. -/
theorem handOverExit_holds {code : Option Nat} {post : Unit → ServerProcess → Ledger → Prop}
    (hf : Follows (some code) p g) (h : ∀ p' g', Stands none p' g' → post () p' g') : (handOverExit code).Holds contract post p g := by
  unfold handOverExit note deliver
  simp only [Routine.holds_bind, Routine.holds_get, Routine.holds_log]
  refine abandon_holds hf fun p₁ g₁ howes => ?_
  have hpaid : Stands none p₁ (record (.deliver (.exit code)) g₁) := Or.inr ⟨rfl, howes⟩
  exact Routine.holds_ask.2 ⟨⟨none, hpaid⟩, fun _ p' g' hlater => h p' g' (hlater none hpaid)⟩

theorem handOverAll_holds {found : Found} {post : Unit → ServerProcess → Ledger → Prop} (hf : Follows found.exit p g)
    (h : ∀ p' g', Stands none p' g' → post () p' g') : (handOverAll found).Holds contract post p g := by
  have hgone : ∀ p' g', Without p' g' → post () p' g' := fun p' g' hnone => h p' g' (Or.inr ⟨rfl, hnone⟩)
  unfold handOverAll
  rw [Routine.holds_bind]
  refine handOver_holds hf (fun p₁ g₁ hf₁ => ?_) fun _ => hgone
  simp only [if_true, Routine.holds_bind]
  refine handOver_holds hf₁ (fun p₂ g₂ hf₂ => ?_) fun _ => hgone
  simp only [if_true]
  cases hexit : found.exit with
  | none =>
    rw [hexit] at hf₂
    exact h p₂ g₂ (Or.inl hf₂)
  | some code =>
    rw [hexit] at hf₂
    exact handOverExit_holds hf₂ h

/-- A poll begins with a process of whose end was not told, or with none, and ends so. -/
theorem poll_holds {wait : Int} {post : Bool → ServerProcess → Ledger → Prop} (hs : Stands none p g)
    (h : ∀ there p' g', Stands none p' g' → post there p' g') : (poll rounds wait).Holds contract post p g := by
  have hgone : ∀ there p' g', Without p' g' → post there p' g' :=
    fun there p' g' hnone => h there p' g' (Or.inr ⟨rfl, hnone⟩)
  unfold poll isThere
  simp only [Routine.holds_bind, Routine.holds_get, Routine.holds_pure]
  rcases hs with hf | ⟨-, hnone⟩
  · obtain ⟨pid, hpid⟩ := hf.running
    simp only [isRunning, hpid, Option.isSome_some, if_true, Routine.holds_bind]
    refine release_holds hf (fun p₁ g₁ hf₁ => ?_) (hgone true)
    simp only [if_true, Routine.holds_bind]
    refine release_holds hf₁ (fun p₂ g₂ hf₂ => ?_) (hgone true)
    simp only [if_true, Routine.holds_bind]
    refine look_holds hf₂ fun found p₃ g₃ hf₃ => ?_
    exact handOverAll_holds hf₃ fun p₄ g₄ hs₄ => h true p₄ g₄ hs₄
  · simp only [isRunning, hnone.1, Option.isSome_none]
    exact hgone false p g hnone

end asking

/-! ## Whole runs -/

variable {rounds : Nat}

/-- Every act that waits keeps the contract; with none, nobody has been told of the end of a process that is there. -/
def Sound (stack : List (acts rounds).Suspended) (p : ServerProcess) (g : Ledger) : Prop :=
  Operations.SoundWith (O := acts rounds) (fun _ => contract) (finish rounds) (Stands none) stack p g

/-- Whoever has the word knows where the client's end stands. -/
theorem Sound.stands {stack : List (acts rounds).Suspended} (h : Sound stack p g) (hup : isUp stack = true) :
    ∃ told, Stands told p g := by
  cases stack with
  | nil => exact ⟨none, h⟩
  | cons f stack =>
    obtain ⟨op, start, call, next⟩ := f
    cases call with
    | service q => cases hup
    | deliver d => exact h.1

theorem Sound.fair {stack : List (acts rounds).Suspended} (h : Sound stack p g) : Fair g := by
  cases stack with
  | nil => exact (stands_lasting none).fair h
  | cons f stack =>
    obtain ⟨op, start, call, next⟩ := f
    cases call with
    | service q => exact h.1
    | deliver d =>
      obtain ⟨told, hs⟩ := h.1
      exact (stands_lasting told).fair hs

/-- Whoever has the word may do what is allowed then. -/
theorem Sound.later {stack : List (acts rounds).Suspended} (h : Sound stack p g) (hup : isUp stack = true)
    (hlater : Later p g p' g') : Sound stack p' g' := by
  cases stack with
  | nil => exact hlater none h
  | cons f stack =>
    obtain ⟨op, start, call, next⟩ := f
    cases call with
    | service q => cases hup
    | deliver d =>
      obtain ⟨told, hs⟩ := h.1
      refine ⟨⟨told, hlater told hs⟩, fun r p'' g'' hanswer => ?_⟩
      exact h.2 r p'' g'' fun told hs => hanswer told (hlater told hs)

theorem Fair.drift (h : Fair g) (hpasses : Passes g g') : Fair g' := by
  obtain ⟨newer, older, htable, hpaid⟩ := h
  have hdrift := hpasses.table
  rw [htable] at hdrift
  refine ⟨g'.table.take newer.length, g'.table.drop newer.length, (List.take_append_drop ..).symm, ?_⟩
  rw [hpasses.reports]
  refine hpaid.drift ?_
  have hdrop := List.forall₂_drop newer.length hdrift
  rwa [List.drop_left] at hdrop

/-- Processes end while somebody waits. -/
theorem Sound.drift {stack : List (acts rounds).Suspended} (h : Sound stack p g) (hpasses : Passes g g') :
    Sound stack p g' := by
  have hlater : Later p g p g' := fun told hs => (stands_lasting told).keeps hs rfl hpasses
  cases hup : isUp stack with
  | true => exact h.later hup hlater
  | false =>
    cases stack with
    | nil => cases hup
    | cons f stack =>
      obtain ⟨op, start, call, next⟩ := f
      cases call with
      | deliver d => cases hup
      | service q =>
        refine ⟨h.1.drift hpasses, ?_⟩
        rintro r p'' g'' ⟨rfl, hreports, t, hdrift, hanswer⟩
        exact h.2 r p'' g'' ⟨rfl, hreports.trans hpasses.reports, t, hpasses.table.trans hdrift, hanswer⟩

theorem finish_of_none {a : Act} {start : ServerProcess} {answer : a.Answer}
    (h : reportOf (.ended a start answer : (acts rounds).Event) = none) : finish rounds a start answer g = g := by
  rw [finish, h, Option.toList_none, List.append_nil]

/-- An act that may be entered leaves the client's end where it stood. -/
theorem body_holds (a : Act) (hs : Stands told p g) (hclear : a.asks = true → told = none) :
    ((acts rounds).body a).Holds contract (fun answer p' g' => Stands told p' (finish rounds a p answer g'))
      p g := by
  cases a with
  | launch c =>
    refine launch_holds hs fun refusal p' g' hs' => ?_
    rw [finish_of_none rfl]
    exact hs'
  | write bytes =>
    refine (stands_lasting told).holds (heeds_write bytes rfl) rfl hs fun there p' g' hs' => ?_
    rw [finish_of_none rfl]
    exact hs'
  | poll wait =>
    obtain rfl := hclear rfl
    refine poll_holds hs fun there p' g' hs' => ?_
    rw [finish_of_none rfl]
    exact hs'
  | terminate grace =>
    obtain rfl := hclear rfl
    refine terminate_holds hs (fun hrunning code p' g' howes => Or.inr ⟨rfl, ?_⟩)
      fun hgone p' g' hnone => Or.inr ⟨rfl, ?_⟩
    · have hreport : reportOf (.ended (.terminate grace) p code : (acts rounds).Event) = some code := if_pos hrunning
      rw [finish, hreport]
      exact howes
    · have hreport : reportOf (.ended (.terminate grace) p none : (acts rounds).Event) = none := by
        show (if p.isRunning then some none else none) = none
        rw [hgone]
        rfl
      rw [finish_of_none hreport]
      exact hnone

theorem Sound.body {stack : List (acts rounds).Suspended} (h : Sound stack p g) (hup : isUp stack = true) (a : Act)
    (hs : Stands told p g) (hclear : a.asks = true → told = none) :
    ((acts rounds).body a).Holds contract (fun answer p' g' => Sound stack p' (finish rounds a p answer g'))
      p g := by
  refine (body_holds a hs hclear).mono fun answer p' g' hs' => h.later hup fun told' htold' => ?_
  rw [htold'.unique hs]
  exact hs'

theorem Sound.proceed {m : (acts rounds).Moment} {t : Table} {a : Act} {start : ServerProcess}
    {r : Work (Act.Answer a)}
    (h : r.Holds contract (fun answer p' g' => Sound m.stack p' (finish rounds a start answer g')) m.state
      ⟨t, m.trace.filterMap reportOf⟩) :
    Sound (m.proceed a start r).stack (m.proceed a start r).state
      ⟨t, (m.proceed a start r).trace.filterMap reportOf⟩ := by
  refine Operations.SoundWith.proceed (O := acts rounds) (K := fun _ => contract)
    (fun trace => ⟨t, trace.filterMap reportOf⟩) ?_ ?_ h
  · intro trace c
    rw [List.filterMap_append]
    cases c with
    | service q => exact congrArg (Ledger.mk t) (List.append_nil _)
    | deliver d =>
      cases d with
      | bytes s b => exact congrArg (Ledger.mk t) (List.append_nil _)
      | exit code => rfl
  · intro trace start answer
    rw [List.filterMap_append]
    unfold finish
    cases hreport : reportOf (.ended a start answer) with
    | none => simp [hreport]
    | some code => simp [hreport]

def Scene.IsSound (c : Scene rounds) : Prop := Sound c.moment.stack c.moment.state ⟨c.table, c.reports⟩

theorem Scene.start_sound (rounds : Nat) (s : Option Started) : (Scene.start rounds s).IsSound := by
  cases s with
  | none => exact Or.inr ⟨rfl, rfl, rfl⟩
  | some s => exact Or.inl (.untold rfl rfl rfl)

theorem isTold_of_follows {c : Scene rounds} {code : Option Nat}
    (h : Follows (some code) c.moment.state ⟨c.table, c.reports⟩) : c.isTold = true := by
  unfold Scene.isTold
  generalize hg : (⟨c.table, c.reports⟩ : Ledger) = g at h
  cases h with
  | told hpid htold _ _ =>
    obtain ⟨htable, -⟩ := Ledger.mk.inj hg
    simp [hpid, htable, htold]

theorem Scene.IsSound.take {c c' : Scene rounds} (h : c.IsSound) {cue : Cue} (hclear : c.isClear cue = true)
    (ht : Reaping.take c cue = some c') : c'.IsSound := by
  obtain ⟨m, t⟩ := c
  cases cue with
  | exit pid code =>
    cases ht
    exact Sound.drift h ⟨drift_exit t pid code, rfl⟩
  | enter a =>
    obtain ⟨hup, rfl⟩ := take_enter ht
    obtain ⟨told, hs⟩ := Sound.stands h hup
    refine Sound.proceed (Sound.body h hup a hs fun hasks => ?_)
    cases told with
    | none => rfl
    | some code =>
      -- this is where the condition on the user is needed
      have hfollows := hs.resolve_right fun hnone => by cases hnone.1
      have htold := isTold_of_follows hfollows
      have hclear : (!(a.asks && Scene.isTold ⟨m, t⟩)) = true := hclear
      rw [hasks, htold] at hclear
      cases hclear
  | answer q r =>
    obtain ⟨p, a, start, next, stack, trace, t', rfl, ht', rfl⟩ := take_answer ht
    exact Sound.proceed (h.2 r p ⟨t', trace.filterMap reportOf⟩ ⟨rfl, rfl, t, .refl t, ht'⟩)
  | back =>
    obtain ⟨p, a, start, d, next, stack, trace, rfl, rfl⟩ := take_back ht
    exact Sound.proceed (h.2 () p ⟨t, trace.filterMap reportOf⟩ fun told hs => hs)

/-- What is reported when every act keeps the contract. -/
theorem Scene.IsSound.reports {c : Scene rounds} (h : c.IsSound) :
    c.reports.map some <+: c.ends ∧
    (isUp c.moment.stack = true → c.moment.state.isRunning = false → c.reports.map some = c.ends) := by
  refine ⟨?_, fun hup hgone => ?_⟩
  · obtain ⟨newer, older, htable, hpaid⟩ := Sound.fair h
    have htable : c.table = newer ++ older := htable
    refine ⟨newer.reverse.map Entry.ended, ?_⟩
    rw [Scene.ends, htable, List.reverse_append, List.map_append, hpaid.in_order]
  · obtain ⟨told, hf | ⟨-, hnone⟩⟩ := Sound.stands h hup
    · obtain ⟨pid, hpid⟩ := hf.running
      rw [isRunning, hpid] at hgone
      cases hgone
    · exact hnone.2.in_order.symm

/-- When nothing goes on, no end was told that is not reported. -/
theorem isTold_of_stands {c : Scene rounds} (h : Stands none c.moment.state ⟨c.table, c.reports⟩) :
    c.isTold = false := by
  unfold Scene.isTold
  generalize hg : (⟨c.table, c.reports⟩ : Ledger) = g at h
  rcases h with hf | ⟨-, hnone⟩
  · cases hf with
    | untold hpid htold _ =>
      obtain ⟨htable, -⟩ := Ledger.mk.inj hg
      simp [hpid, htable, htold]
  · rw [hnone.1]

theorem Scene.IsSound.clear {c : Scene rounds} (h : c.IsSound) {cue : Cue} (hlistening : c.isListening cue = true) :
    c.isClear cue = true := by
  cases cue with
  | enter a =>
    have hlistening : (!a.asks || c.moment.stack.isEmpty) = true := hlistening
    show (!(a.asks && c.isTold)) = true
    rcases Bool.or_eq_true_iff.1 hlistening with hasks | hempty
    · have hasks : a.asks = false := by simpa using hasks
      rw [hasks]
      rfl
    · have hstands : Sound c.moment.stack c.moment.state ⟨c.table, c.reports⟩ := h
      rw [List.isEmpty_iff.1 hempty] at hstands
      rw [isTold_of_stands hstands, Bool.and_false]
      rfl
  | _ => rfl

/-- No exit code is lost when those who are handed something neither poll nor end the process. -/
theorem reports_of_listening (rounds : Nat) (s : Option Started) (cues : List Cue) (c : Scene rounds)
    (h : play Scene.isListening cues (Scene.start rounds s) = some c) :
    c.reports.map some <+: c.ends ∧
    (isUp c.moment.stack = true → c.moment.state.isRunning = false → c.reports.map some = c.ends) := by
  have hsound : c.IsSound :=
    play_induct (fun _ _ _ hc hlistening ht => hc.take (hc.clear hlistening) ht) h (Scene.start_sound rounds s)
  exact hsound.reports

/-- As long as nobody asks again for a process of whose end the client's end was told, the processes are reported one
after another, each as it has ended; and when the user has the word and no process is there, all are reported. -/
theorem reports_are_exit_codes (rounds : Nat) (s : Option Started) (cues : List Cue) (c : Scene rounds)
    (h : play Scene.isClear cues (Scene.start rounds s) = some c) :
    c.reports.map some <+: c.ends ∧
    (isUp c.moment.stack = true → c.moment.state.isRunning = false → c.reports.map some = c.ends) := by
  have hsound : c.IsSound := play_induct (fun _ _ _ hc hclear ht => hc.take hclear ht) h (Scene.start_sound rounds s)
  exact hsound.reports

/-- A poll takes in the last output and the end of a process, and whoever is handed the output writes. -/
def writeAmidLastOutput : List Cue :=
  [.enter (.poll 0), .answer (.awaitBytes [4, 5] 0) (), .answer (.receive 4) (.bytes (text "x")),
    .answer (.receive 4) .nothing, .answer (.receive 5) .nothing, .exit 9 (some 3), .answer (.reap 9) (.ended (some 3)),
    .answer (.receive 4) .ended, .answer (.close 4) (), .answer (.receive 5) .nothing,
    .enter (.write [0]), .answer (.send 3 [0]) (.refused .brokenPipe), .back, .answer (.close 3) (),
    .answer (.close 5) (), .back]

theorem reports_are_exit_codes_amid_last_output :
    ∃ c, play Scene.isClear writeAmidLastOutput (Scene.start 3 (some ⟨9, 3, 4, 5⟩)) = some c ∧
      c.ends = [some (some 3)] ∧ c.reports = [some 3] ∧ c.reports.map some <+: c.ends ∧
      (isUp c.moment.stack = true → c.moment.state.isRunning = false → c.reports.map some = c.ends) :=
  ⟨_, rfl, rfl, rfl, reports_are_exit_codes 3 (some ⟨9, 3, 4, 5⟩) writeAmidLastOutput _ rfl⟩

def terminateAmidLastOutput : List Cue :=
  [.enter (.poll 0), .answer (.awaitBytes [4, 5] 0) (), .answer (.receive 4) (.bytes (text "x")),
    .answer (.receive 4) .nothing, .answer (.receive 5) .nothing, .exit 9 (some 0), .answer (.reap 9) (.ended (some 0)),
    .answer (.receive 4) .nothing, .answer (.receive 5) .nothing,
    .enter (.terminate 1000), .answer (.close 3) (), .answer .time 0, .answer (.reap 9) .unknown, .answer (.close 4) (),
    .answer (.close 5) (), .back]

/-- The process has ended with the exit code 0, and what is reported is an end without one. -/
theorem an_exit_code_is_lost :
    ∃ c, play (fun _ _ => true) terminateAmidLastOutput (Scene.start 3 (some ⟨9, 3, 4, 5⟩)) = some c ∧
      c.ends = [some (some 0)] ∧ c.reports = [none] ∧ c.moment.stack = [] ∧ c.moment.state = {} :=
  ⟨_, rfl, rfl, rfl, rfl, rfl⟩

end LanguageClient.ServerProcess.Reaping
