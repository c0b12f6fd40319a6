import LanguageClient.Proofs.ServerProcess.Reading
/-
  LanguageClient.Proofs.ServerProcess.Order — in which order a child's bytes are handed over.

  What was read of a stream is, in this order, handed over, in the hands of a poll, and held
  (`Following`). A poll hands over what is held before it reads. Whoever is handed something may
  write meanwhile, and the write may hold more. When that comes to pass while the poll is
  handing over what was held, the poll goes on to read, and hands over what it reads before
  what is held; at the exit of the child what is held is lost.

  Proved:
  - as long as a poll that asks whether the child has ended holds nothing, everything is handed
    over as it was written, and the exit after all of it (`faithful_of_settled`);
  - otherwise bytes may be lost (`a_write_amid_held_bytes_loses_bytes`).
-/

namespace LanguageClient.ServerProcess

variable {x : Spawned} {rounds : Nat} {p p' : ServerProcess} {g g' : Around} {inHand : Stream → Bytes}

/-- The client follows a process that it has not seen the end of. What is in hand was read
before what is held. -/
structure Following (x : Spawned) (inHand : Stream → Bytes) (p : ServerProcess) (g : Around) : Prop where
  running : p.isRunning = true
  tied : Tied x p g.child
  order : ∀ s, bytesOf s g.handed ++ inHand s ++ p.held s = g.child.read s
  no_exit : ∀ code, Delivery.exit code ∉ g.handed

/-- The child has ended, and all that it had written is handed over or in hand. -/
def Ending (inHand : Stream → Bytes) (g : Around) : Prop :=
  ∃ l, g.child.last = some l ∧ ∀ s, l s <+: bytesOf s g.handed ++ inHand s

/-- Between two uses the client follows a process and has nothing in hand, or the exit of the
process was handed over. -/
inductive Idle (x : Spawned) (p : ServerProcess) (g : Around) : Prop
  | following (h : Following x (fun _ => []) p g)
  | finished (h : p = {}) (hf : Faithful g.child g.handed)

theorem bytesOf_append (s : Stream) (ds ds' : List Delivery) : bytesOf s (ds ++ ds') = bytesOf s ds ++ bytesOf s ds' :=
  List.flatMap_append

theorem Following.faithful (h : Following x inHand p g) : Faithful g.child g.handed := by
  constructor
  · intro s
    have hread : bytesOf s g.handed <+: g.child.read s := by
      rw [← h.order, List.append_assoc]
      exact List.prefix_append _ _
    exact hread.trans (List.prefix_append _ _)
  · intro before code after heq
    have hmem : Delivery.exit code ∈ g.handed := by simp [heq]
    exact absurd hmem (h.no_exit code)

theorem Following.safe (h : Following x inHand p g) : Safe x p g := ⟨h.tied, h.faithful⟩

/-- A write goes on with the order. -/
theorem Following.keeps (h : Following x inHand p g) (hk : Keeps x p g p' g') : Following x inHand p' g' := by
  obtain ⟨got, hprog, hheld⟩ := hk
  refine ⟨hprog.isRunning h.running, hprog.tied, fun s => ?_, ?_⟩
  · rw [hprog.handed, hheld, ← List.append_assoc, h.order, hprog.read]
  · rw [hprog.handed]
    exact h.no_exit

theorem Following.congr {inHand' : Stream → Bytes} (h : Following x inHand p g) (heq : ∀ s, inHand s = inHand' s) :
    Following x inHand' p g := by
  have : inHand = inHand' := funext heq
  rwa [← this]

theorem Ending.grow (h : Ending inHand g) (hhanded : g'.handed = g.handed)
    (hlast : ∀ l, g.child.last = some l → g'.child.last = some l) : Ending inHand g' := by
  obtain ⟨l, hl, hread⟩ := h
  refine ⟨l, hlast l hl, ?_⟩
  rwa [hhanded]

/-! ## Handing over -/

def without (s : Stream) (inHand : Stream → Bytes) : Stream → Bytes := fun t => if t = s then [] else inHand t

theorem bytesOf_hand (s t : Stream) (ds : List Delivery) (inHand : Stream → Bytes) :
    bytesOf t (ds ++ [.bytes s (inHand s)]) ++ without s inHand t = bytesOf t ds ++ inHand t := by
  rw [bytesOf_append, List.append_assoc]
  unfold without
  by_cases hts : t = s
  · subst hts
    simp [bytesOf]
  · have hst : s ≠ t := fun h => hts h.symm
    simp [bytesOf, hts, hst]

theorem Following.hand (h : Following x inHand p g) (s : Stream) :
    Following x (without s inHand) p (record (.deliver (.bytes s (inHand s))) g) where
  running := h.running
  tied := h.tied
  order t := by
    show bytesOf t (g.handed ++ [.bytes s (inHand s)]) ++ without s inHand t ++ p.held t = g.child.read t
    rw [bytesOf_hand, h.order]
  no_exit code := by
    show Delivery.exit code ∉ g.handed ++ [.bytes s (inHand s)]
    simp [h.no_exit code]

theorem Ending.hand (h : Ending inHand g) (s : Stream) :
    Ending (without s inHand) (record (.deliver (.bytes s (inHand s))) g) := by
  obtain ⟨l, hl, hread⟩ := h
  refine ⟨l, hl, fun t => ?_⟩
  show l t <+: bytesOf t (g.handed ++ [.bytes s (inHand s)]) ++ without s inHand t
  rw [bytesOf_hand]
  exact hread t

theorem handOver_holds {u : Use} {s : Stream} {post : Bool → ServerProcess → Around → Prop} (hf : Following x inHand p g)
    (h : ∀ p' g', Following x (without s inHand) p' g' → (Ending inHand g → Ending (without s inHand) g') →
      post true p' g') : (handOver s (inHand s)).Holds (contract x u) post p g := by
  unfold handOver
  split
  · rename_i hempty
    have heq : ∀ t, inHand t = without s inHand t := by
      intro t
      unfold without
      split
      · rename_i hts
        rw [hts, hempty]
      · rfl
    have hsame : inHand = without s inHand := funext heq
    exact h p g (hf.congr heq) fun he => hsame ▸ he
  · rw [Routine.holds_bind]
    refine ⟨(hf.hand s).safe, ?_⟩
    intro _ p' g' hlater
    have hf' := (hf.hand s).keeps hlater.keeps
    have he' : Ending inHand g → Ending (without s inHand) g' := by
      intro he
      obtain ⟨got, hprog, _⟩ := hlater.keeps
      exact (he.hand s).grow hprog.handed hprog.last
    have hthere := h p' g' hf' he'
    rw [← hf'.running] at hthere
    exact hthere

theorem release_holds {u : Use} {s : Stream} {post : Bool → ServerProcess → Around → Prop}
    (hf : Following x (fun _ => []) p g) (h : ∀ p' g', Following x (fun _ => []) p' g' → post true p' g') :
    (release s).Holds (contract x u) post p g := by
  have hout : Following x (only s (p.held s)) (p.setHeld [] s) g := by
    refine ⟨?_, hf.tied.setHeld [] s, fun t => ?_, hf.no_exit⟩
    · have hrun := hf.running
      unfold ServerProcess.isRunning at *
      rwa [pid_setHeld]
    · rw [← hf.order t, held_setHeld]
      unfold only
      split
      · rename_i hts
        rw [hts, List.append_nil, List.append_nil]
      · rfl
  have hs : only s (p.held s) s = p.held s := if_pos rfl
  unfold release
  simp only [Routine.holds_bind, Routine.holds_get, Routine.holds_set]
  rw [← hs]
  refine handOver_holds hout ?_
  intro p' g' hf' _
  refine h p' g' (hf'.congr fun t => ?_)
  unfold without only
  split <;> rfl

/-! ## Asking for the end -/

structure Asked (x : Spawned) (p : ServerProcess) (g : Around) (hasEnded : Bool) (g' : Around) : Prop where
  progress : Progress x (fun _ => []) p g p g'
  settled : ∀ s, p.held s = []
  ended : hasEnded = true → ∃ l, g'.child.last = some l

theorem reap_holds {wait : Int} {post : Option (Option Nat) → ServerProcess → Around → Prop} (hs : Safe x p g)
    (hrun : p.isRunning = true) (h : ∀ r g', Asked x p g r.isSome g' → post r p g') :
    reap.Holds (contract x (.poll wait)) post p g := by
  unfold reap
  simp only [Routine.holds_bind, Routine.holds_get]
  cases hpid : p.pid with
  | none =>
    unfold ServerProcess.isRunning at hrun
    rw [hpid] at hrun
    cases hrun
  | some pid =>
    simp only [Routine.holds_bind]
    refine Routine.holds_ask.2 ⟨hs, ?_⟩
    rintro fate p' g' ⟨rfl, hserved, hsettled⟩
    have hprog : Progress x (fun _ => []) p' g p' g' := hserved.progress (by simp) hs.tied
    have hheld : ∀ s, p'.held s = [] := hsettled wait pid rfl rfl
    have hended : g'.child.mayBe fate = true := by
      obtain ⟨k, _, hanswer⟩ := hserved.answer
      obtain ⟨hsame, hmay⟩ := Child.answer_reap hanswer
      rwa [hsame]
    cases fate with
    | running => exact h none g' ⟨hprog, hheld, by simp⟩
    | ended code => exact h (some code) g' ⟨hprog, hheld, fun _ => Option.isSome_iff_exists.1 hended⟩
    | unknown => exact h (some none) g' ⟨hprog, hheld, fun _ => Option.isSome_iff_exists.1 hended⟩

theorem Asked.after {hasEnded : Bool} {g₁ g₂ : Around} (h : Asked x p g₁ hasEnded g₂)
    (hprog : Progress x (fun _ => []) p g p g₁) : Asked x p g hasEnded g₂ :=
  { h with progress := hprog.trans h.progress }

theorem awaitEnd_holds {wait ms : Int} {post : Option (Option Nat) → ServerProcess → Around → Prop} (hs : Safe x p g)
    (hrun : p.isRunning = true) (h : ∀ r g', Asked x p g r.isSome g' → post r p g') :
    (awaitEnd rounds ms).Holds (contract x (.poll wait)) post p g := by
  unfold awaitEnd
  rw [Routine.holds_bind]
  refine holds_request hs ?_
  intro begin' g₁ hserved
  have h₁ : Progress x (fun _ => []) p g p g₁ := hserved.progress (by simp) hs.tied
  refine repeatedly_holds (fun _ p' g' => p' = p ∧ Progress x (fun _ => []) p g p g') ?_ ?_ ⟨rfl, h₁⟩
  · rintro _ p' g' ⟨rfl, hprog⟩
    exact hprog.safe hs
  · rintro _ p' g' ⟨rfl, hprog⟩
    unfold awaitStep
    rw [Routine.holds_bind]
    refine reap_holds (hprog.safe hs) hrun ?_
    intro r g₂ hasked
    have h₂ := hasked.after hprog
    cases r with
    | some code => exact h (some code) g₂ h₂
    | none =>
      rw [Routine.holds_bind]
      refine holds_request (h₂.progress.safe hs) ?_
      intro now g₃ hserved
      have h₃ : Progress x (fun _ => []) p' g p' g₃ := h₂.progress.trans (hserved.progress (by simp) h₂.progress.tied)
      split
      · exact h none g₃ ⟨h₃, h₂.settled, by simp⟩
      · rw [Routine.holds_bind]
        refine holds_request (h₃.safe hs) ?_
        intro _ g₄ hserved
        exact ⟨rfl, h₃.trans (hserved.progress (by simp) h₃.tied)⟩

/-! ## Looking -/

def both (output errors : Bytes) : Stream → Bytes
  | .output => output
  | .errors => errors

def Found.bytes (f : Found) : Stream → Bytes := both f.output f.errors

structure Gathered (x : Spawned) (got : Stream → Bytes) (p : ServerProcess) (g : Around) (p' : ServerProcess)
    (g' : Around) : Prop where
  progress : Progress x got p g p' g'
  held : ∀ s, p'.held s = p.held s

theorem Gathered.refl (h : Tied x p g.child) : Gathered x (both [] []) p g p g := by
  refine ⟨(Progress.refl h).congr fun s => ?_, fun _ => rfl⟩
  cases s <;> rfl

theorem Gathered.trans {a b a' b' : Bytes} {p'' : ServerProcess} {g'' : Around} (h : Gathered x (both a b) p g p' g')
    (h' : Gathered x (both a' b') p' g' p'' g'') : Gathered x (both (a ++ a') (b ++ b')) p g p'' g'' := by
  refine ⟨(h.progress.trans h'.progress).congr fun s => ?_, fun s => (h'.held s).trans (h.held s)⟩
  cases s <;> rfl

/-- Nothing was read meanwhile. -/
theorem Gathered.after {got : Stream → Bytes} {g₁ : Around} (h : Gathered x got p g p' g₁)
    (hprog : Progress x (fun _ => []) p' g₁ p' g') : Gathered x got p g p' g' :=
  ⟨(h.progress.trans hprog).congr fun _ => List.append_nil _, h.held⟩

/-- What was gathered while nothing was held comes right after what was handed over. -/
theorem Gathered.following {got : Stream → Bytes} (h : Gathered x got p g p' g') (hf : Following x (fun _ => []) p g)
    (hempty : ∀ s, p'.held s = []) : Following x got p' g' := by
  refine ⟨h.progress.isRunning hf.running, h.progress.tied, fun s => ?_, ?_⟩
  · have hheld : p.held s = [] := (h.held s).symm.trans (hempty s)
    have horder := hf.order s
    rw [hheld, List.append_nil, List.append_nil] at horder
    rw [h.progress.handed, hempty, List.append_nil, horder, h.progress.read]
  · rw [h.progress.handed]
    exact hf.no_exit

theorem Following.ending (h : Following x inHand p g) (hempty : ∀ s, p.held s = []) {l : Stream → Bytes}
    (hl : g.child.last = some l) (hread : ∀ s, l s <+: g.child.read s) : Ending inHand g := by
  refine ⟨l, hl, fun s => ?_⟩
  have horder := h.order s
  rw [hempty, List.append_nil] at horder
  rw [horder]
  exact hread s

theorem drainBoth_holds {u : Use} {post : Bytes × Bytes → ServerProcess → Around → Prop} (hs : Safe x p g)
    (hrun : p.isRunning = true) (h : ∀ output errors p' g', Gathered x (both output errors) p g p' g' →
      (∀ l, g.child.last = some l → ∀ s, l s <+: g'.child.read s) → post (output, errors) p' g') :
    (drainBoth rounds).Holds (contract x u) post p g := by
  unfold drainBoth
  rw [Routine.holds_bind]
  refine drain_holds hs ?_
  intro output p₁ g₁ h₁
  rw [Routine.holds_bind]
  refine drain_holds (h₁.progress.safe hs) ?_
  intro errors p₂ g₂ h₂
  refine h output errors p₂ g₂ ⟨(h₁.progress.trans h₂.progress).congr fun s => ?_, fun s => ?_⟩ fun l hl s => ?_
  · cases s <;> simp [only, both]
  · rw [h₂.held, h₁.held]
  · cases s with
    | output =>
      have hread : g₁.child.read .output <+: g₂.child.read .output := ⟨_, (h₂.progress.read .output).symm⟩
      exact (h₁.last_read hrun l hl).trans hread
    | errors => exact h₂.last_read (h₁.progress.isRunning hrun) l (h₁.progress.last l hl)

theorem descriptor_of_sources (h : p.sources = []) (s : Stream) : p.descriptor s = none := by
  obtain ⟨hout, herr⟩ := List.append_eq_nil_iff.1 h
  cases s with
  | output => exact Option.toList_eq_nil_iff.1 hout
  | errors => exact Option.toList_eq_nil_iff.1 herr

/-- What one look has found was read while nothing was held, and with the exit comes the rest of
what the child had written. -/
structure Looked (x : Spawned) (found : Found) (p : ServerProcess) (g : Around) : Prop where
  following : Following x found.bytes p g
  ending : ∀ code, found.exit = some code → Ending found.bytes g

theorem takeIn_holds {wait ms : Int} {post : Found → ServerProcess → Around → Prop} {p₀ : ServerProcess} {g₀ : Around}
    (hf : Following x (fun _ => []) p₀ g₀) (h₀ : Gathered x (both [] []) p₀ g₀ p g)
    (h : ∀ found p' g', Looked x found p' g' → post found p' g') :
    (takeIn rounds ms).Holds (contract x (.poll wait)) post p g := by
  unfold takeIn
  simp only [Routine.holds_bind, Routine.holds_get]
  refine drainBoth_holds (h₀.progress.safe hf.safe) (h₀.progress.isRunning hf.running) ?_
  intro output errors p₁ g₁ hd₁ _
  have h₁ : Gathered x (both output errors) p₀ g₀ p₁ g₁ := h₀.trans hd₁
  have hs₁ : Safe x p₁ g₁ := h₁.progress.safe hf.safe
  have hrun₁ : p₁.isRunning = true := h₁.progress.isRunning hf.running
  dsimp only
  split
  · -- both streams have ended, so all that was written was read
    rename_i hnone
    rw [Routine.holds_bind]
    refine awaitEnd_holds hs₁ hrun₁ ?_
    intro exit g₂ hasked
    have hf₂ : Following x (both output errors) p₁ g₂ := (h₁.after hasked.progress).following hf hasked.settled
    refine h ⟨output, errors, exit⟩ p₁ g₂ ⟨hf₂, fun code hcode => ?_⟩
    obtain ⟨l, hl⟩ := hasked.ended (Option.isSome_iff_exists.2 ⟨code, hcode⟩)
    refine hf₂.ending hasked.settled hl fun s => ?_
    exact g₂.child.last_read hl (hf₂.tied.dry hrun₁ s (descriptor_of_sources hnone s)).1
  · rw [Routine.holds_bind]
    refine reap_holds hs₁ hrun₁ ?_
    intro exit g₂ hasked
    have h₂ := h₁.after hasked.progress
    cases exit with
    | none => exact h ⟨output, errors, none⟩ p₁ g₂ ⟨h₂.following hf hasked.settled, by simp⟩
    | some code =>
      -- the child had ended before it was read up
      obtain ⟨l, hl⟩ := hasked.ended rfl
      simp only [Routine.holds_bind]
      refine drainBoth_holds (h₂.progress.safe hf.safe) hrun₁ ?_
      intro more moreErrors p₃ g₃ hd₃ hread
      have hempty : ∀ s, p₃.held s = [] := fun s => (hd₃.held s).trans (hasked.settled s)
      have hf₃ : Following x (both (output ++ more) (errors ++ moreErrors)) p₃ g₃ := (h₂.trans hd₃).following hf hempty
      exact h _ p₃ g₃ ⟨hf₃, fun _ _ => hf₃.ending hempty (hd₃.progress.last l hl) (hread l hl)⟩

theorem look_holds {wait ms : Int} {post : Found → ServerProcess → Around → Prop} (hf : Following x (fun _ => []) p g)
    (h : ∀ found p' g', Looked x found p' g' → post found p' g') :
    (look rounds ms).Holds (contract x (.poll wait)) post p g := by
  have hstart : Gathered x (both [] []) p g p g := .refl hf.tied
  unfold look
  simp only [Routine.holds_bind, Routine.holds_get]
  split
  · exact takeIn_holds hf hstart h
  · rw [Routine.holds_bind]
    refine holds_request hf.safe ?_
    intro _ g₁ hserved
    exact takeIn_holds hf (hstart.after (hserved.progress (by simp) hf.tied)) h

/-! ## The exit -/

theorem closing_holds {u : Use} {fds : List Nat} {post : Unit → ServerProcess → Around → Prop} (hs : Safe x p g)
    (h : ∀ g', Progress x (fun _ => []) p g p g' → post () p g') :
    (fds.forM fun fd => request (.close fd)).Holds (contract x u) post p g := by
  induction fds generalizing g with
  | nil => exact h g (.refl hs.tied)
  | cons fd fds ih =>
    rw [List.forM, Routine.holds_bind]
    refine holds_request hs ?_
    intro _ g₁ hserved
    have h₁ : Progress x (fun _ => []) p g p g₁ := hserved.progress (by simp) hs.tied
    exact ih (h₁.safe hs) fun g₂ h₂ => h g₂ (h₁.trans h₂)

/-- The exit comes after everything that the child had written. -/
theorem Ending.exit (he : Ending (fun _ => []) g) (hf : Faithful g.child g.handed)
    (hno : ∀ code, Delivery.exit code ∉ g.handed) (code : Option Nat) : Faithful g.child (g.handed ++ [.exit code]) := by
  constructor
  · intro s
    have hexit : bytesOf s [.exit code] = [] := rfl
    rw [bytesOf_append, hexit, List.append_nil]
    exact hf.in_order s
  · intro before code' after heq
    rcases List.eq_nil_or_concat after with rfl | ⟨rest, d, rfl⟩
    · obtain ⟨rfl, _⟩ := List.append_inj' heq rfl
      obtain ⟨l, hl, hread⟩ := he
      refine ⟨rfl, l, hl, fun s => ?_⟩
      have hreads := hread s
      rwa [List.append_nil] at hreads
    · -- no exit was handed over before
      have heq' : g.handed ++ [.exit code] = (before ++ .exit code' :: rest) ++ [d] := by simp [heq]
      obtain ⟨hhanded, _⟩ := List.append_inj' heq' rfl
      exact absurd (by simp [hhanded]) (hno code')

theorem handOverExit_holds {u : Use} {code : Option Nat} {post : Unit → ServerProcess → Around → Prop}
    (hf : Following x (fun _ => []) p g) (he : Ending (fun _ => []) g)
    (h : ∀ g', Faithful g'.child g'.handed → post () {} g') : (handOverExit code).Holds (contract x u) post p g := by
  have hgone : Safe x { p with pid := none } g := ⟨hf.tied.abandoned, hf.faithful⟩
  unfold handOverExit abandon closeAll note
  simp only [Routine.holds_bind, Routine.holds_get, Routine.holds_log, Routine.holds_modify, Routine.holds_set]
  refine closing_holds hgone ?_
  intro g₁ h₁
  have hs₁ := h₁.safe hgone
  have he₁ : Ending (fun _ => []) g₁ := he.grow h₁.handed h₁.last
  have hno₁ : ∀ code, Delivery.exit code ∉ g₁.handed := by
    rw [h₁.handed]
    exact hf.no_exit
  have hexit : Safe x {} (record (.deliver (.exit code)) g₁) := ⟨tied_blank _, he₁.exit hs₁.faithful hno₁ code⟩
  refine ⟨hexit, ?_⟩
  intro _ p' g' hlater
  rw [hlater.gone rfl]
  exact h g' (hlater.keeps.safe hexit).faithful

/-! ## Polls -/

theorem handOverAll_holds {u : Use} {found : Found} {post : Unit → ServerProcess → Around → Prop} (hl : Looked x found p g)
    (h : ∀ p' g', Idle x p' g' → post () p' g') : (handOverAll found).Holds (contract x u) post p g := by
  unfold handOverAll
  rw [Routine.holds_bind]
  refine handOver_holds (s := .output) hl.following ?_
  intro p₁ g₁ hf₁ he₁
  simp only [if_true, Routine.holds_bind]
  refine handOver_holds (s := .errors) hf₁ ?_
  intro p₂ g₂ hf₂ he₂
  have hnone : ∀ s, without .errors (without .output found.bytes) s = [] := by
    intro s
    cases s <;> rfl
  have hempty : without .errors (without .output found.bytes) = fun _ => [] := funext hnone
  rw [hempty] at hf₂ he₂
  simp only [if_true]
  cases hexit : found.exit with
  | none => exact h p₂ g₂ (.following hf₂)
  | some code =>
    refine handOverExit_holds hf₂ (he₂ (he₁ (hl.ending code hexit))) ?_
    intro g₃ hfaithful
    exact h {} g₃ (.finished rfl hfaithful)

theorem poll_holds {wait : Int} {post : Bool → ServerProcess → Around → Prop} (hi : Idle x p g)
    (h : ∀ a p' g', Idle x p' g' → post a p' g') : (poll rounds wait).Holds (contract x (.poll wait)) post p g := by
  unfold poll isThere
  simp only [Routine.holds_bind, Routine.holds_get, Routine.holds_pure]
  cases hi with
  | finished hp hf =>
    subst hp
    exact h false {} g (.finished rfl hf)
  | following hf =>
    rw [hf.running]
    simp only [if_true, Routine.holds_bind]
    refine release_holds hf ?_
    intro p₁ g₁ hf₁
    simp only [if_true, Routine.holds_bind]
    refine release_holds hf₁ ?_
    intro p₂ g₂ hf₂
    simp only [if_true, Routine.holds_bind]
    refine look_holds hf₂ ?_
    intro found p₃ g₃ hl
    refine handOverAll_holds hl ?_
    intro p₄ g₄ hi
    exact h true p₄ g₄ hi

/-! ## Whole runs -/

def Sound (x : Spawned) (stack : List (uses rounds).Suspended) (p : ServerProcess) (g : Around) : Prop :=
  Operations.Sound (contract x) (Idle x) stack p g

theorem Idle.safe (h : Idle x p g) : Safe x p g := by
  cases h with
  | following hf => exact hf.safe
  | finished hp hf =>
    subst hp
    exact ⟨tied_blank _, hf⟩

theorem Sound.safe {stack : List (uses rounds).Suspended} (h : Sound x stack p g) : Safe x p g := by
  cases stack with
  | nil => exact Idle.safe h
  | cons f stack => exact h.1

theorem Idle.later (h : Idle x p g) (hlater : Later x p g p' g') : Idle x p' g' := by
  cases h with
  | following hf => exact .following (hf.keeps hlater.keeps)
  | finished hp hf => exact .finished (hlater.gone hp) (hlater.keeps.safe ⟨(Idle.finished hp hf).safe.tied, hf⟩).faithful

theorem Later.of_drift {k : Child} (hs : Safe x p g) (hd : Child.Drift g.child k) : Later x p g p ⟨k, g.handed⟩ :=
  ⟨.of_progress (.of_drift hs.tied rfl hd), fun hp => hp⟩

/-- The child goes on while somebody waits. -/
theorem Sound.drift {stack : List (uses rounds).Suspended} {k : Child} (h : Sound x stack p g)
    (hd : Child.Drift g.child k) : Sound x stack p ⟨k, g.handed⟩ := by
  have hlater := Later.of_drift h.safe hd
  cases stack with
  | nil => exact Idle.later h hlater
  | cons f stack =>
    refine ⟨hlater.keeps.safe h.1, ?_⟩
    intro r p' g' hanswer
    refine h.2 r p' g' ?_
    obtain ⟨op, start, call, next⟩ := f
    cases call with
    | service q =>
      obtain ⟨hp, ⟨hhanded, k', hd', hk'⟩, hsettled⟩ := hanswer
      exact ⟨hp, ⟨hhanded, k', hd.trans hd', hk'⟩, hsettled⟩
    | deliver d => exact hlater.trans hanswer

/-- Whoever may write may do what a write does. -/
theorem Sound.later {stack : List (uses rounds).Suspended} (h : Sound x stack p g)
    (hmay : ∃ bytes, Use.mayEnter stack (.write bytes) = true) (hlater : Later x p g p' g') : Sound x stack p' g' := by
  cases stack with
  | nil => exact Idle.later h hlater
  | cons f stack =>
    obtain ⟨op, start, call, next⟩ := f
    obtain ⟨bytes, hmay⟩ := hmay
    cases call with
    | service q => cases hmay
    | deliver d => exact ⟨hlater.keeps.safe h.1, fun r p'' g'' hanswer => h.2 r p'' g'' (hlater.trans hanswer)⟩

theorem Sound.body {stack : List (uses rounds).Suspended} (h : Sound x stack p g) (u : Use)
    (hmay : u.mayEnter stack = true) : ((uses rounds).body u).Holds (contract x u) (fun _ => Sound x stack) p g := by
  cases u with
  | poll wait =>
    cases stack with
    | nil => exact poll_holds h fun _ _ _ hi => hi
    | cons f stack =>
      obtain ⟨op, start, call, next⟩ := f
      cases call <;> cases hmay
  | write bytes => exact write_later h.safe fun _ _ _ hlater => h.later ⟨bytes, hmay⟩ hlater

theorem Sound.proceed {m : (uses rounds).Moment} {k : Child} {u : Use} {start : ServerProcess}
    {r : Routine ServerProcess Calls Bool}
    (h : r.Holds (contract x u) (fun _ => Sound x m.stack) m.state ⟨k, deliveries m.trace⟩) :
    Sound x (m.proceed u start r).stack (m.proceed u start r).state ⟨k, deliveries (m.proceed u start r).trace⟩ := by
  refine Operations.Sound.proceed (O := uses rounds) (K := contract x) (fun trace => ⟨k, deliveries trace⟩) ?_ ?_ h
  · intro trace c
    cases c with
    | service q => simp [deliveries, deliveryOf, contract, record]
    | deliver d => simp [deliveries, deliveryOf, contract, record]
  · intro trace start a
    simp [deliveries, deliveryOf]

def Scene.IsSound (x : Spawned) (c : Scene rounds) : Prop :=
  Sound x c.moment.stack c.moment.state ⟨c.child, c.handed⟩

theorem Scene.start_sound (x : Spawned) (rounds : Nat) : (Scene.start rounds x).IsSound x := by
  refine Idle.following ⟨rfl, ⟨?_, ?_⟩, ?_, fun _ => List.not_mem_nil⟩
  · intro s fd hfd
    cases s <;> exact (Option.some.inj hfd).symm
  · intro _ s hnone
    cases s <;> cases hnone
  · intro s
    cases s <;> rfl

/-- Every move from a settled scene leaves all uses sound. -/
theorem Scene.IsSound.take {c c' : Scene rounds} (h : c.IsSound x) {cue : Cue} (hsettled : c.isSettled cue = true)
    (ht : ServerProcess.take x c cue = some c') : c'.IsSound x := by
  obtain ⟨m, k⟩ := c
  cases cue with
  | child move =>
    cases ht
    exact Sound.drift h (Child.drift_move k move)
  | enter u =>
    obtain ⟨hmay, rfl⟩ := take_enter ht
    exact Sound.proceed (Sound.body h u hmay)
  | answer q r =>
    obtain ⟨p, u, start, next, stack, trace, k', rfl, hk', rfl⟩ := take_answer ht
    refine Sound.proceed (h.2 r p ⟨k', deliveries trace⟩ ⟨rfl, ⟨rfl, k, .refl k, hk'⟩, ?_⟩)
    rintro wait pid rfl rfl s
    have hempty : (p.heldOutput.isEmpty && p.heldErrors.isEmpty) = true := hsettled
    rw [Bool.and_eq_true, List.isEmpty_iff, List.isEmpty_iff] at hempty
    cases s with
    | output => exact hempty.1
    | errors => exact hempty.2
  | back =>
    obtain ⟨p, u, start, d, next, stack, trace, rfl, rfl⟩ := take_back ht
    refine Sound.proceed (h.2 () p ⟨k, deliveries trace⟩ ?_)
    exact Later.of_drift h.safe (.refl k)

theorem Scene.IsSound.play {cues : List Cue} {c c' : Scene rounds} (h : c.IsSound x)
    (hp : ServerProcess.play x Scene.isSettled cues c = some c') : c'.IsSound x := by
  induction cues generalizing c with
  | nil =>
    cases hp
    exact h
  | cons cue cues ih =>
    obtain ⟨hsettled, c₁, ht, hp⟩ := play_cons hp
    exact ih (h.take hsettled ht) hp

theorem Scene.IsSound.faithful {c : Scene rounds} (h : c.IsSound x) : Faithful c.child c.handed :=
  (Sound.safe h).faithful

/-- As long as a poll that asks whether the child has ended holds nothing, all bytes are handed
over in the order in which they were written, and the exit comes after all of them. -/
theorem faithful_of_settled (x : Spawned) (rounds : Nat) (cues : List Cue) (c : Scene rounds)
    (h : play x Scene.isSettled cues (Scene.start rounds x) = some c) : Faithful c.child c.handed := by
  have hsound := (Scene.start_sound x rounds).play h
  exact hsound.faithful

/-! ## Two runs -/

def someSpawned : Spawned := { pid := 9, input := 3, output := 4, errors := 5, distinct := by decide }

def writeAndHold (b : Bytes) : List Cue :=
  [.enter (.write [0]), .answer (.send 3 [0]) .full, .answer (.awaitRoom 3 [4, 5]) true,
    .answer (.receive 4) (.bytes b), .answer (.receive 4) .nothing, .answer (.receive 5) .nothing,
    .answer (.send 3 [0]) (.bytes 1)]

def readAndAsk (b : Bytes) (fate : Fate) : List Cue :=
  [.answer (.awaitBytes [4, 5] 0) (), .answer (.receive 4) (.bytes b), .answer (.receive 4) .nothing,
    .answer (.receive 5) .nothing, .answer (.reap 9) fate]

/-- Whoever is handed what a poll has just read writes, and the write holds more. -/
def writeAmidNewBytes : List Cue :=
  [.child (.write .output (text "a")), .enter (.poll 0)] ++ readAndAsk (text "a") .running ++
    [.child (.write .output (text "b"))] ++ writeAndHold (text "b") ++ [.back, .enter (.poll 0)]

/-- What was held is the first that the next poll hands over. -/
theorem faithful_amid_new_bytes : ∃ c, play someSpawned Scene.isSettled writeAmidNewBytes (Scene.start 3 someSpawned) = some c ∧
    c.handed = [.bytes .output (text "a"), .bytes .output (text "b")] ∧ Faithful c.child c.handed :=
  ⟨_, rfl, rfl, faithful_of_settled someSpawned 3 writeAmidNewBytes _ rfl⟩

/-- Whoever is handed what was held writes, the write holds more, and then the child ends. -/
def writeAmidHeldBytes : List Cue :=
  [.child (.write .output (text "a"))] ++ writeAndHold (text "a") ++ [.enter (.poll 0),
    .child (.write .output (text "b"))] ++ writeAndHold (text "b") ++ [.child (.write .output (text "c")), .child .exit,
    .back] ++ readAndAsk (text "c") (.ended (some 0)) ++ [.answer (.receive 4) .nothing, .answer (.receive 5) .nothing,
    .back, .answer (.close 3) (), .answer (.close 4) (), .answer (.close 5) ()]

/-- The poll goes on with what it has read, and what is held never comes. -/
theorem a_write_amid_held_bytes_loses_bytes : ∃ c,
    play someSpawned (fun _ _ => true) writeAmidHeldBytes (Scene.start 3 someSpawned) = some c ∧
    c.child.written .output = text "abc" ∧
    c.handed = [.bytes .output (text "a"), .bytes .output (text "c"), .exit (some 0)] ∧ ¬ Faithful c.child c.handed := by
  refine ⟨_, rfl, rfl, rfl, fun h => ?_⟩
  have hprefix : text "ac" <+: text "abc" := h.in_order .output
  revert hprefix
  decide

end LanguageClient.ServerProcess
