import LanguageClient.Proofs.Reentry
/-
  LanguageClient.Proofs.Reentry.Restraint — what a routine leaves alone while it has the word.

  Nobody knows what becomes of the state while an operation waits. But of what the operation
  does itself, each time it has the word, much can be said: how far it moves the state, what
  it notes, and whom it calls. It is enough to look at its routine once.

  - `Routine.Heeds`: a routine heeds a restraint. It is computed along the routine.
  - `Heeds.run`: if those who are called move the state no further, nobody does.
  - `Operations.bound`: of an operation it may be known only from its first call on; then it
    is known of everybody who waits.
  - `Routine.logged`: a routine with what it notes as a part of the state.
-/

namespace LanguageClient

variable {σ τ α β : Type} {S T : Surface}

structure Restraint (σ : Type) (S : Surface) where
  /-- What is relied on when somebody else has had the word. -/
  trust : σ → Prop
  /-- How far the state is moved. -/
  moves : σ → σ → Prop
  /-- What may be noted. -/
  notes : Log.Entry → Prop
  /-- Who may be called. -/
  calls : S.Call → Prop
  stays : ∀ s, moves s s
  chain : ∀ {s t u}, moves s t → moves t u → moves s u
  trusted : ∀ {s t}, trust s → moves s t → trust t

def Restraint.calling (R : Restraint σ T) (calls : S.Call → Prop) : Restraint σ S := { R with calls := calls }

def Restraint.only (calls : S.Call → Prop) : Restraint σ S :=
  ⟨fun _ => True, fun _ _ => True, fun _ => True, calls, fun _ => trivial, fun _ _ => trivial, fun _ _ => trivial⟩

def Restraint.onPart {part : τ → σ} {place : σ → τ → τ} (hpart : Routine.IsPart part place) (calls : S.Call → Prop) :
    Restraint τ S where
  trust _ := True
  moves t t' := ∃ s, t' = place s t
  notes _ := True
  calls := calls
  stays t := ⟨part t, (hpart.place_part t).symm⟩
  chain := by
    rintro t _ _ ⟨s, rfl⟩ ⟨s', rfl⟩
    exact ⟨s', hpart.place_place _ _ _⟩
  trusted _ _ := trivial

namespace Routine

instance : LawfulMonad (Routine σ S) :=
  LawfulMonad.mk' (Routine σ S) (fun p => bind_done p) (fun _ _ => rfl) (fun p f g => bind_assoc p f g)

theorem ite_bind {p : Prop} [Decidable p] (x y : Routine σ S α) (f : α → Routine σ S β) :
    (if p then x else y) >>= f = if p then x >>= f else y >>= f := by
  split <;> rfl

/-- From a state on, a routine moves the state, notes and calls only as it may. -/
def Heeds (R : Restraint σ S) : Routine σ S α → σ → Prop
  | done _, _ => True
  | look next, s => (next s).Heeds R s
  | put t next, s => R.moves s t ∧ next.Heeds R t
  | note e next, s => R.notes e ∧ next.Heeds R s
  | call c next, _ => R.calls c ∧ ∀ r t, R.trust t → (next r).Heeds R t

variable {R : Restraint σ S} {s : σ}

/-! ## What a routine is made of -/

@[simp] theorem heeds_pure (a : α) : (pure a : Routine σ S α).Heeds R s := trivial

@[simp] theorem heeds_get_bind (f : σ → Routine σ S α) : (get >>= f).Heeds R s ↔ (f s).Heeds R s := Iff.rfl

@[simp] theorem heeds_set (t : σ) : (set t : Routine σ S PUnit).Heeds R s ↔ R.moves s t := and_iff_left trivial

@[simp] theorem heeds_set_bind (t : σ) (f : PUnit → Routine σ S α) :
    (set t >>= f).Heeds R s ↔ R.moves s t ∧ (f ⟨⟩).Heeds R t := Iff.rfl

@[simp] theorem heeds_modify (f : σ → σ) : (modify f : Routine σ S PUnit).Heeds R s ↔ R.moves s (f s) :=
  and_iff_left trivial

@[simp] theorem heeds_modify_bind (f : σ → σ) (g : PUnit → Routine σ S α) :
    (modify f >>= g).Heeds R s ↔ R.moves s (f s) ∧ (g ⟨⟩).Heeds R (f s) := Iff.rfl

@[simp] theorem heeds_log (e : Log.Entry) : (log e : Routine σ S Unit).Heeds R s ↔ R.notes e := and_iff_left trivial

@[simp] theorem heeds_log_bind (e : Log.Entry) (f : Unit → Routine σ S α) :
    (log e >>= f).Heeds R s ↔ R.notes e ∧ (f ()).Heeds R s := Iff.rfl

theorem heeds_ask {c : S.Call} (hc : R.calls c) : (ask c : Routine σ S (S.Reply c)).Heeds R s :=
  ⟨hc, fun _ _ _ => trivial⟩

/-! ## Rules -/

theorem Heeds.bind {p : Routine σ S α} {f : α → Routine σ S β} (h : p.Heeds R s) (hs : R.trust s)
    (hf : ∀ a t, R.trust t → (f a).Heeds R t) : (p >>= f).Heeds R s := by
  show (p.bind f).Heeds R s
  induction p generalizing s with
  | done a => exact hf a s hs
  | look next ih => exact ih s h hs
  | put t next ih => exact ⟨h.1, ih h.2 (R.trusted hs h.1)⟩
  | note e next ih => exact ⟨h.1, ih h.2 hs⟩
  | call c next ih => exact ⟨h.1, fun r t ht => ih r (h.2 r t ht) ht⟩

theorem Heeds.discard {p : Routine σ S α} (h : p.Heeds R s) (hs : R.trust s) : (discard p).Heeds R s :=
  h.bind hs fun _ _ _ => trivial

theorem heeds_forM {f : α → Routine σ S PUnit} {as : List α} (hf : ∀ a ∈ as, ∀ s, R.trust s → (f a).Heeds R s)
    (hs : R.trust s) : (as.forM f).Heeds R s := by
  induction as generalizing s with
  | nil => trivial
  | cons a as ih =>
    exact (hf a List.mem_cons_self s hs).bind hs fun _ _ ht => ih (fun b hb => hf b (List.mem_cons_of_mem a hb)) ht

/-- Noting entries does not move the state. -/
theorem heeds_log_all_bind {es : List Log.Entry} {f : PUnit → Routine σ S α} (hes : ∀ e ∈ es, R.notes e)
    (hf : (f ⟨⟩).Heeds R s) : (es.forM (m := Routine σ S) log >>= f).Heeds R s := by
  induction es with
  | nil => exact hf
  | cons e es ih => exact ⟨hes e List.mem_cons_self, ih fun e' he => hes e' (List.mem_cons_of_mem e he)⟩

theorem heeds_loop {step : β → Routine σ S (β ⊕ α)} (hstep : ∀ b s, R.trust s → (step b).Heeds R s) (hs : R.trust s)
    (rounds : Nat) (b : β) : (Routine.loop step rounds b).Heeds R s := by
  induction rounds generalizing b s with
  | zero => trivial
  | succ n ih =>
    refine (hstep b s hs).bind hs fun r t ht => ?_
    cases r with
    | inl b' => exact ih ht b'
    | inr a => trivial

/-- A routine on a part heeds what is asked of the part; the whole is moved in that part only. -/
theorem Heeds.within {part : τ → σ} {place : σ → τ → τ} {up : (c : S.Call) → Routine τ T (S.Reply c)}
    {Q : Restraint τ T} (hlens : IsPart part place) (hpart : ∀ t, Q.trust t → R.trust (part t))
    (hplace : ∀ s t, R.moves (part t) s → Q.moves t (place s t)) (hnotes : ∀ e, R.notes e → Q.notes e)
    (hup : ∀ c t, Q.trust t → R.calls c → (up c).Heeds Q t) {p : Routine σ S α} {t : τ} (ht : Q.trust t)
    (h : p.Heeds R (part t)) : (p.within part place up).Heeds Q t := by
  induction p generalizing t with
  | done a => trivial
  | look next ih => exact ih (part t) ht h
  | put s next ih =>
    have hmove := hplace s t h.1
    refine ⟨hmove, ih (Q.trusted ht hmove) ?_⟩
    rw [hlens.part_place]
    exact h.2
  | note e next ih => exact ⟨hnotes e h.1, ih ht h.2⟩
  | call c next ih =>
    exact (hup c t ht h.1).bind ht fun r t' ht' => ih r ht' (h.2 r (part t') (hpart t' ht'))

/-- A routine on a part changes nothing else. -/
theorem heeds_onPart {part : τ → σ} {place : σ → τ → τ} (hpart : IsPart part place) (calls : T.Call → Prop)
    {up : (c : S.Call) → Routine τ T (S.Reply c)} (hup : ∀ c t, (up c).Heeds (.onPart hpart calls) t)
    (p : Routine σ S α) {t : τ} : (p.within part place up).Heeds (.onPart hpart calls) t := by
  induction p generalizing t with
  | done a => trivial
  | look next ih => exact ih (part t)
  | put s next ih => exact ⟨⟨s, rfl⟩, ih⟩
  | note e next ih => exact ⟨trivial, ih⟩
  | call c next ih => exact (hup c t).bind trivial fun r _ _ => ih r

/-- A routine heeds a restraint if it does so but for its calls, and those who make them heed it. -/
theorem Heeds.relay {up : (c : S.Call) → Routine σ T (S.Reply c)} {calls : S.Call → Prop} {Q : Restraint σ T}
    (hup : ∀ c t, Q.trust t → calls c → (up c).Heeds Q t) {p : Routine σ S α} {t : σ} (ht : Q.trust t)
    (h : p.Heeds (Q.calling calls) t) : (p.relay up).Heeds Q t :=
  Heeds.within (R := Q.calling calls) (Q := Q) .whole (fun _ ht => ht) (fun _ _ h => h) (fun _ h => h) hup ht h

theorem Heeds.mono {Q : Restraint σ S} (htrust : ∀ t, Q.trust t → R.trust t) (hmoves : ∀ s t, R.moves s t → Q.moves s t)
    (hnotes : ∀ e, R.notes e → Q.notes e) (hcalls : ∀ c, R.calls c → Q.calls c) {p : Routine σ S α}
    (h : p.Heeds R s) : p.Heeds Q s := by
  induction p generalizing s with
  | done a => trivial
  | look next ih => exact ih s h
  | put t next ih => exact ⟨hmoves _ _ h.1, ih h.2⟩
  | note e next ih => exact ⟨hnotes e h.1, ih h.2⟩
  | call c next ih => exact ⟨hcalls c h.1, fun r t ht => ih r (h.2 r t (htrust t ht))⟩

/-! ## Carried out -/

theorem Heeds.advance {p : Routine σ S α} (h : p.Heeds R s) : match p.advance s with
    | (.ended _, t) => R.moves s t
    | (.waiting c next, t) => R.moves s t ∧ R.calls c ∧ ∀ r u, R.trust u → (next r).Heeds R u := by
  have key : ∀ t, R.moves s t → p.Heeds R t → match p.advance t with
      | (.ended _, u) => R.moves s u
      | (.waiting c next, u) => R.moves s u ∧ R.calls c ∧ ∀ r u, R.trust u → (next r).Heeds R u := by
    clear h
    induction p with
    | done a => exact fun t hst _ => hst
    | look next ih => exact fun t hst h => ih t t hst h
    | put t' next ih => exact fun t hst h => ih t' (R.chain hst h.1) h.2
    | note e next ih => exact fun t hst h => ih t hst h.2
    | call c next _ => exact fun t hst h => ⟨hst, h⟩
  exact key s (R.stays s) h

/-- If those who are called move the state no further than the routine itself may, the whole run
does not. -/
theorem Heeds.run {ω : Type} {seat : Seat σ ω} {answer : (c : S.Call) → StateM ω (S.Reply c)} (hseat : seat.Lawful)
    (hanswer : ∀ c w, R.calls c → R.trust (seat.look w) → R.moves (seat.look w) (seat.look (answer c w).2))
    {p : Routine σ S α} {w : ω} (hw : R.trust (seat.look w)) (h : p.Heeds R (seat.look w)) :
    R.moves (seat.look w) (seat.look (p.run seat answer w).2) := by
  induction p generalizing w with
  | done a => exact R.stays _
  | look next ih => exact ih (seat.look w) hw h
  | put t next ih =>
    have hlook := hseat.look_put t w
    have hrest := ih (w := seat.put t w) (by rw [hlook]; exact R.trusted hw h.1) (by rw [hlook]; exact h.2)
    rw [hlook] at hrest
    exact R.chain h.1 hrest
  | note e next ih =>
    have hlook := hseat.look_note e w
    have hrest := ih (w := seat.note e w) (by rwa [hlook]) (by rw [hlook]; exact h.2)
    rwa [hlook] at hrest
  | call c next ih =>
    have hmove := hanswer c w h.1 hw
    have htrust := R.trusted hw hmove
    exact R.chain hmove (ih _ htrust (h.2 _ _ htrust))

def HeedsLater (R : Restraint σ S) (p : Routine σ S α) (s : σ) : Prop :=
  ∀ c next t, p.advance s = (.waiting c next, t) → ∀ r u, R.trust u → (next r).Heeds R u

theorem HeedsLater.congr {p q : Routine σ S α} {t : σ} (h : p.advance s = q.advance t) (hq : q.HeedsLater R t) :
    p.HeedsLater R s := by
  unfold HeedsLater
  rw [h]
  exact hq

theorem Heeds.later {p : Routine σ S α} (h : p.Heeds R s) : p.HeedsLater R s := by
  intro c next t hadv
  have hadvance := h.advance
  rw [hadv] at hadvance
  exact hadvance.2.2

theorem HeedsLater.of_ended {p : Routine σ S α} {a : α} {t : σ} (h : p.advance s = (.ended a, t)) :
    p.HeedsLater R s := by
  intro c next u hadv
  rw [h] at hadv
  cases hadv

theorem heedsLater_ask (c : S.Call) : (ask c : Routine σ S (S.Reply c)).HeedsLater R s := by
  intro d next t hadv
  cases hadv
  exact fun _ _ _ => trivial

/-- What follows has to heed the restraint all along. -/
theorem HeedsLater.bind {p : Routine σ S α} {f : α → Routine σ S β} (h : p.HeedsLater R s)
    (hf : ∀ a t, (f a).Heeds R t) : (p >>= f).HeedsLater R s := by
  intro d rest t hadv
  rw [show (p >>= f).advance s = _ from advance_bind p f s] at hadv
  cases hp : p.advance s with
  | mk pause u =>
    rw [hp] at hadv
    cases pause with
    | ended a => exact (hf a u).later d rest t hadv
    | waiting c next =>
      cases hadv
      exact fun r u' hu => (h _ next _ hp r u' hu).bind hu fun a v _ => hf a v

theorem HeedsLater.discard {p : Routine σ S α} (h : p.HeedsLater R s) : (discard p).HeedsLater R s :=
  h.bind fun _ _ => trivial

/-- The same of a routine whose calls are made by `up`. -/
theorem HeedsLater.relay {up : (c : S.Call) → Routine σ T (S.Reply c)} {calls : S.Call → Prop} {Q : Restraint σ T}
    (htrust : ∀ t, Q.trust t) (hlater : ∀ c t, (up c).HeedsLater Q t) (hup : ∀ c t, calls c → (up c).Heeds Q t)
    {p : Routine σ S α} (h : p.HeedsLater (Q.calling calls) s) : (p.relay up).HeedsLater Q s := by
  intro d rest t hadv
  rw [advance_relay] at hadv
  cases hp : p.advance s with
  | mk pause u =>
    rw [hp] at hadv
    cases pause with
    | ended a => cases hadv
    | waiting c next =>
      refine HeedsLater.bind (hlater c u) (fun r v => ?_) d rest t hadv
      exact Heeds.relay (fun c t _ hc => hup c t hc) (htrust v) (h c next u hp r v (htrust v))

end Routine

namespace Operations

variable {O : Operations σ S} {R : Restraint σ S}

open Routine

/-- Those who wait, if they are of a kind, go on to heed a restraint. -/
def Bound (R : Restraint σ S) (kind : O.Op → Prop) (m : O.Moment) : Prop :=
  ∀ f ∈ m.stack, kind f.op → ∀ r s, R.trust s → (f.next r).Heeds R s

theorem Bound.proceed {kind : O.Op → Prop} {m : O.Moment} (h : Bound R kind m) {op : O.Op} {start : σ}
    {p : Routine σ S (O.Answer op)} (hp : kind op → p.HeedsLater R m.state) : Bound R kind (m.proceed op start p) := by
  cases hadv : p.advance m.state with
  | mk pause s =>
    cases pause with
    | ended a =>
      rw [Moment.proceed_of_ended hadv]
      exact h
    | waiting c next =>
      rw [Moment.proceed_of_waiting hadv]
      exact List.forall_mem_cons.2 ⟨fun hkind => hp hkind c next s hadv, h⟩

theorem Bound.tail {kind : O.Op → Prop} {s : σ} {f : O.Suspended} {stack : List O.Suspended} {trace : List O.Event}
    (h : Bound R kind ⟨s, f :: stack, trace⟩) : Bound R kind ⟨s, stack, trace⟩ :=
  fun g hg => h g (List.mem_cons_of_mem f hg)

/-- Where nothing is relied on, what is known of the operations from their first call on is known
of those who wait. -/
theorem bound {kind : O.Op → Prop} (htrust : ∀ s, R.trust s) (hbody : ∀ op s, kind op → (O.body op).HeedsLater R s)
    {s : σ} {m : O.Moment} (h : O.Reachable s m) : Bound R kind m := by
  refine h.induct (fun _ hf => absurd hf (List.not_mem_nil)) ?_
  intro m m' hm hstep
  cases hstep with
  | enter _ op => exact hm.proceed (hbody op m.state)
  | reply s f stack trace r =>
    exact hm.tail.proceed fun hkind => (hm f List.mem_cons_self hkind r s (htrust s)).later

/-- An operation that always ends at once never waits. -/
theorem not_waiting {op : O.Op} (hop : ∀ s, ∃ a t, (O.body op).advance s = (.ended a, t)) {s : σ} {m : O.Moment}
    (h : O.Reachable s m) : ∀ f ∈ m.stack, f.op ≠ op := by
  have hproceed : ∀ (m : O.Moment) (op' : O.Op) (start : σ) (p : Routine σ S (O.Answer op')),
      (∀ f ∈ m.stack, f.op ≠ op) → (op' = op → ∃ a t, p.advance m.state = (.ended a, t)) →
      ∀ f ∈ (m.proceed op' start p).stack, f.op ≠ op := by
    intro m op' start p hm hp
    cases hadv : p.advance m.state with
    | mk pause t =>
      cases pause with
      | ended a =>
        rw [Moment.proceed_of_ended hadv]
        exact hm
      | waiting c next =>
        rw [Moment.proceed_of_waiting hadv]
        refine List.forall_mem_cons.2 ⟨fun heq => ?_, hm⟩
        obtain ⟨a, t', hended⟩ := hp heq
        rw [hadv] at hended
        cases hended
  refine h.induct (P := fun m => ∀ f ∈ m.stack, f.op ≠ op) (fun _ hf => absurd hf List.not_mem_nil) ?_
  intro m m' hm hstep
  cases hstep with
  | enter _ op' =>
    exact hproceed m op' _ _ hm fun heq => heq.symm ▸ hop m.state
  | reply s f stack trace r =>
    refine hproceed ⟨s, stack, trace⟩ f.op _ _ (fun g hg => hm g (List.mem_cons_of_mem f hg)) fun heq => ?_
    exact absurd heq (hm f List.mem_cons_self)

theorem moves_proceed {m : O.Moment} (op : O.Op) (start : σ) {p : Routine σ S (O.Answer op)}
    (h : p.Heeds R m.state) : R.moves m.state (m.proceed op start p).state := by
  have hadvance := h.advance
  rw [Moment.proceed_state]
  cases hadv : p.advance m.state with
  | mk pause s =>
    rw [hadv] at hadvance
    cases pause with
    | ended a => exact hadvance
    | waiting c next => exact hadvance.1

/-- What is seen of a routine is that it ends or makes a call that it may make. -/
theorem proceed_event {m : O.Moment} (op : O.Op) (start : σ) {p : Routine σ S (O.Answer op)} (h : p.Heeds R m.state) :
    ∃ e, (m.proceed op start p).trace = m.trace ++ [e] ∧
      ((∃ a, e = .ended op start a) ∨ ∃ c, R.calls c ∧ e = .called c) := by
  have hadvance := h.advance
  cases hadv : p.advance m.state with
  | mk pause s =>
    rw [hadv] at hadvance
    cases pause with
    | ended a => exact ⟨_, by rw [Moment.proceed_of_ended hadv], Or.inl ⟨a, rfl⟩⟩
    | waiting c next => exact ⟨_, by rw [Moment.proceed_of_waiting hadv], Or.inr ⟨c, hadvance.2.1, rfl⟩⟩

/-- While only operations are entered that heed a restraint, and those who wait heed it too, the
state is moved no further than each of them may move it alone. -/
theorem moves_of_steps {may : O.Moment → O.Op → Prop}
    (hbody : ∀ m op, may m op → R.trust m.state → (O.body op).Heeds R m.state) {m m' : O.Moment}
    (htrust : R.trust m.state) (hbound : Bound R (fun _ => True) m) (h : Relation.ReflTransGen (StepIf may) m m') :
    R.moves m.state m'.state := by
  suffices hall : R.moves m.state m'.state ∧ Bound R (fun _ => True) m' from hall.1
  induction h with
  | refl => exact ⟨R.stays _, hbound⟩
  | tail _ hstep ih =>
    obtain ⟨hmoved, hbound⟩ := ih
    have htrust := R.trusted htrust hmoved
    cases hstep with
    | enter hmay =>
      have hheeds := hbody _ _ hmay htrust
      exact ⟨R.chain hmoved (moves_proceed _ _ hheeds), hbound.proceed fun _ => hheeds.later⟩
    | reply t f stack trace r =>
      have hheeds := hbound f List.mem_cons_self trivial r t htrust
      have hstep := moves_proceed (m := ⟨t, stack, trace⟩) f.op f.start hheeds
      exact ⟨R.chain hmoved hstep, hbound.tail.proceed fun _ => hheeds.later⟩

theorem Reachable.stepsIf {may : O.Moment → O.Op → Prop} {s : σ} {m m' : O.Moment} (h : O.Reachable s m)
    (hsteps : Relation.ReflTransGen (StepIf may) m m') : O.Reachable s m' := by
  induction hsteps with
  | refl => exact h
  | tail _ hstep ih => exact ih.step hstep.step

/-- Whoever waits waited before, or is the operation that goes on. -/
theorem mem_stack_proceed {m : O.Moment} {op : O.Op} {start : σ} {p : Routine σ S (O.Answer op)} {f : O.Suspended}
    (h : f ∈ (m.proceed op start p).stack) : f ∈ m.stack ∨ f.op = op := by
  cases hadv : p.advance m.state with
  | mk pause s =>
    cases pause with
    | ended a =>
      rw [Moment.proceed_of_ended hadv] at h
      exact Or.inl h
    | waiting c next =>
      rw [Moment.proceed_of_waiting hadv] at h
      rcases List.mem_cons.1 h with rfl | h
      · exact Or.inr rfl
      · exact Or.inl h

/-- Those who wait are of the kind that may be entered, if they were so before. -/
theorem kind_of_step {may : O.Moment → O.Op → Prop} {kind : O.Op → Prop} (hmay : ∀ m op, may m op → kind op)
    {m m' : O.Moment} (hm : ∀ f ∈ m.stack, kind f.op) (h : StepIf may m m') : ∀ f ∈ m'.stack, kind f.op := by
  intro f hf
  cases h with
  | @enter _ op hop =>
    rcases mem_stack_proceed hf with hold | hnew
    · exact hm f hold
    · rw [hnew]
      exact hmay m op hop
  | reply s g stack trace r =>
    rcases mem_stack_proceed hf with hold | hnew
    · exact hm f (List.mem_cons_of_mem g hold)
    · rw [hnew]
      exact hm g List.mem_cons_self

end Operations

/-! ## With its log -/

namespace Routine

def logged : Routine σ S α → Routine (σ × List Log.Entry) S α
  | done a => done a
  | look next => look fun x => (next x.1).logged
  | put s next => look fun x => put (s, x.2) next.logged
  | note e next => look fun x => put (x.1, x.2 ++ [e]) next.logged
  | call c next => call c fun r => (next r).logged

def noted : Routine σ S α → σ → List Log.Entry
  | done _, _ => []
  | look next, s => (next s).noted s
  | put s next, _ => next.noted s
  | note e next, s => e :: next.noted s
  | call _ _, _ => []

@[simp] theorem noted_get_bind (f : σ → Routine σ S α) (s : σ) : (get >>= f).noted s = (f s).noted s := rfl

@[simp] theorem noted_set_bind (t : σ) (f : PUnit → Routine σ S α) (s : σ) :
    (set t >>= f).noted s = (f ⟨⟩).noted t := rfl

theorem advance_forM_log (f : α → Log.Entry) (as : List α) (s : σ) :
    (as.forM (m := Routine σ S) fun a => log (f a)).advance s = (.ended ⟨⟩, s) := by
  induction as with
  | nil => rfl
  | cons a as ih => exact ih

theorem noted_forM_log (f : α → Log.Entry) (as : List α) (s : σ) :
    (as.forM (m := Routine σ S) fun a => log (f a)).noted s = as.map f := by
  induction as with
  | nil => rfl
  | cons a as ih => exact congrArg (f a :: ·) ih

/-- A routine that makes no call notes the same whoever would make its calls. -/
theorem noted_relay {up : (c : S.Call) → Routine σ T (S.Reply c)} {p : Routine σ S α} {a : α} {s t : σ}
    (h : p.advance s = (.ended a, t)) : (p.relay up).noted s = p.noted s := by
  induction p generalizing s with
  | done a => rfl
  | look next ih => exact ih s h
  | put t' next ih => exact ih h
  | note e next ih => exact congrArg (e :: ·) (ih h)
  | call c next _ => cases h

/-- A logged routine gets as far as the routine, and the log is longer by what it notes. -/
theorem advance_logged (p : Routine σ S α) (s : σ) (log : List Log.Entry) :
    p.logged.advance (s, log) = match p.advance s with
      | (.ended a, t) => (.ended a, (t, log ++ p.noted s))
      | (.waiting c next, t) => (.waiting c fun r => (next r).logged, (t, log ++ p.noted s)) := by
  induction p generalizing s log with
  | done a => simp [logged, advance, noted]
  | look next ih => exact ih s s log
  | put t next ih => exact ih t log
  | note e next ih =>
    have hrest := ih s (log ++ [e])
    rw [List.append_assoc] at hrest
    exact hrest
  | call c next _ => simp [logged, advance, noted]

end Routine

def Restraint.logged (R : Restraint σ S) : Restraint (σ × List Log.Entry) S where
  trust x := R.trust x.1
  moves x y := R.moves x.1 y.1 ∧ ∃ es, y.2 = x.2 ++ es ∧ ∀ e ∈ es, R.notes e
  notes := R.notes
  calls := R.calls
  stays x := ⟨R.stays x.1, [], (List.append_nil _).symm, by simp⟩
  chain := by
    rintro x y z ⟨hxy, es, hes, hnotes⟩ ⟨hyz, es', hes', hnotes'⟩
    refine ⟨R.chain hxy hyz, es ++ es', by rw [hes', hes, List.append_assoc], ?_⟩
    exact fun e he => (List.mem_append.1 he).elim (hnotes e) (hnotes' e)
  trusted h hmove := R.trusted h hmove.1

theorem Routine.Heeds.logged {R : Restraint σ S} {p : Routine σ S α} {s : σ} (h : p.Heeds R s) (log : List Log.Entry) :
    p.logged.Heeds R.logged (s, log) := by
  induction p generalizing s log with
  | done a => trivial
  | look next ih => exact ih s h log
  | put t next ih => exact ⟨⟨h.1, [], (List.append_nil _).symm, by simp⟩, ih h.2 log⟩
  | note e next ih => exact ⟨⟨R.stays s, [e], rfl, by simpa using h.1⟩, ih h.2 _⟩
  | call c next ih => exact ⟨h.1, fun r t ht => ih r (h.2 r t.1 ht) t.2⟩

theorem Routine.HeedsLater.logged {R : Restraint σ S} {p : Routine σ S α} {s : σ} (h : p.HeedsLater R s)
    (log : List Log.Entry) : p.logged.HeedsLater R.logged (s, log) := by
  intro c next t hadv
  rw [Routine.advance_logged] at hadv
  cases hp : p.advance s with
  | mk pause u =>
    rw [hp] at hadv
    cases pause with
    | ended a => cases hadv
    | waiting c' next' =>
      cases hadv
      exact fun r x hx => (h _ next' u hp r x.1 hx).logged x.2

abbrev Operations.logged (O : Operations σ S) : Operations (σ × List Log.Entry) S :=
  ⟨O.Op, O.Answer, fun op => (O.body op).logged⟩

end LanguageClient
