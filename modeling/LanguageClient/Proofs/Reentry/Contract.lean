import LanguageClient.Proofs.Reentry
/-
  LanguageClient.Proofs.Reentry.Contract — what operations may rely on while they wait.

  An operation that waits for a reply does not know who else uses the component meanwhile.
  A contract says what it may rely on: how its calls come back, and what the state and the
  surroundings are then. In return something holds whenever a call has been made.

  - `Routine.Holds`: carried out under a contract, a routine guarantees what is to be `safe`
    at each of its calls, and ends as it should. It is computed along the routine. `Holds.run`
    says the same of a run in a world whose answers keep the contract.
  - `Operations.Sound`: so does every operation that waits, the innermost first, when those
    above it have ended. In `SoundWith` it counts how they have ended.
-/

namespace LanguageClient

variable {σ γ α β : Type} {S : Surface}

/-- What is agreed between an operation on `σ` and its surroundings, whose state is `γ`. -/
structure Contract (σ : Type) (S : Surface) (γ : Type) where
  /-- What becomes of the surroundings as a call is made. -/
  record : S.Call → γ → γ
  /-- What holds when a call has been made. -/
  safe : S.Call → σ → γ → Prop
  /-- How a call may come back. -/
  answers : (c : S.Call) → σ → γ → S.Reply c → σ → γ → Prop

namespace Routine

/-- Begun in a state, with its surroundings in another, a routine makes safe calls only, and at
its end `post` holds. -/
def Holds (K : Contract σ S γ) (post : α → σ → γ → Prop) : Routine σ S α → σ → γ → Prop
  | done a, s, g => post a s g
  | look next, s, g => (next s).Holds K post s g
  | put s next, _, g => next.Holds K post s g
  | note _ next, s, g => next.Holds K post s g
  | call c next, s, g =>
    K.safe c s (K.record c g) ∧ ∀ r s' g', K.answers c s (K.record c g) r s' g' → (next r).Holds K post s' g'

variable {K : Contract σ S γ} {s : σ} {g : γ}

/-! ## What a routine is made of -/

@[simp] theorem holds_pure {post : α → σ → γ → Prop} (a : α) :
    (pure a : Routine σ S α).Holds K post s g ↔ post a s g := Iff.rfl

@[simp] theorem holds_bind {post : β → σ → γ → Prop} (p : Routine σ S α) (f : α → Routine σ S β) :
    (p >>= f).Holds K post s g ↔ p.Holds K (fun a s g => (f a).Holds K post s g) s g := by
  show (p.bind f).Holds K post s g ↔ _
  induction p generalizing s g with
  | done a => rfl
  | look next ih => exact ih s
  | put t next ih => exact ih
  | note e next ih => exact ih
  | call c next ih =>
    show (_ ∧ _) ↔ _ ∧ _
    simp only [ih]

@[simp] theorem holds_get {post : σ → σ → γ → Prop} : (get : Routine σ S σ).Holds K post s g ↔ post s s g := Iff.rfl

@[simp] theorem holds_set {post : PUnit → σ → γ → Prop} (t : σ) :
    (set t : Routine σ S PUnit).Holds K post s g ↔ post ⟨⟩ t g := Iff.rfl

@[simp] theorem holds_modify {post : PUnit → σ → γ → Prop} (f : σ → σ) :
    (modify f : Routine σ S PUnit).Holds K post s g ↔ post ⟨⟩ (f s) g := Iff.rfl

@[simp] theorem holds_log {post : Unit → σ → γ → Prop} (e : Log.Entry) :
    (log e : Routine σ S Unit).Holds K post s g ↔ post () s g := Iff.rfl

theorem holds_ask {c : S.Call} {post : S.Reply c → σ → γ → Prop} :
    (ask c : Routine σ S (S.Reply c)).Holds K post s g ↔
      K.safe c s (K.record c g) ∧ ∀ r s' g', K.answers c s (K.record c g) r s' g' → post r s' g' := Iff.rfl

/-! ## Rules -/

theorem Holds.mono {post post' : α → σ → γ → Prop} {p : Routine σ S α} (h : p.Holds K post s g)
    (himp : ∀ a s g, post a s g → post' a s g) : p.Holds K post' s g := by
  induction p generalizing s g with
  | done a => exact himp a s g h
  | look next ih => exact ih s h
  | put t next ih => exact ih h
  | note e next ih => exact ih h
  | call c next ih => exact ⟨h.1, fun r s' g' hr => ih r (h.2 r s' g' hr)⟩

/-- A contract that asks for nothing is kept. -/
theorem Holds.of_safe {post : α → σ → γ → Prop} (hsafe : ∀ c s g, K.safe c s g) (hpost : ∀ a s g, post a s g)
    (p : Routine σ S α) : p.Holds K post s g := by
  induction p generalizing s g with
  | done a => exact hpost a s g
  | look next ih => exact ih s
  | put t next ih => exact ih
  | note e next ih => exact ih
  | call c next ih => exact ⟨hsafe c s _, fun r _ _ _ => ih r⟩

/-- What holds at the beginning and is kept by every round holds at the end. -/
theorem Holds.loop {step : β → Routine σ S (β ⊕ α)} (inv : β ⊕ α → σ → γ → Prop)
    (hstep : ∀ b s g, inv (.inl b) s g → (step b).Holds K inv s g) {b : β} (h : inv (.inl b) s g) (rounds : Nat) :
    (Routine.loop step rounds b).Holds K inv s g := by
  induction rounds generalizing b s g with
  | zero => exact h
  | succ n ih =>
    refine (holds_bind (step b) _).2 ((hstep b s g h).mono fun r s g hr => ?_)
    cases r with
    | inl b' => exact ih hr
    | inr a => exact hr

/-- Whether a contract is kept depends on how a routine advances only. -/
theorem holds_iff_advance {post : α → σ → γ → Prop} {p : Routine σ S α} :
    p.Holds K post s g ↔ match p.advance s with
      | (.ended a, s') => post a s' g
      | (.waiting c next, s') => K.safe c s' (K.record c g) ∧
          ∀ r s'' g', K.answers c s' (K.record c g) r s'' g' → (next r).Holds K post s'' g' := by
  induction p generalizing s with
  | done a => rfl
  | look next ih => exact ih s
  | put t next ih => exact ih
  | note e next ih => exact ih
  | call c next _ => rfl

theorem Holds.congr {post : α → σ → γ → Prop} {p q : Routine σ S α} {t : σ} (h : p.advance s = q.advance t)
    (hq : q.Holds K post t g) : p.Holds K post s g := by
  rw [holds_iff_advance, h]
  exact holds_iff_advance.1 hq

/-- Carried out in a world whose answers keep the contract, a routine ends as it should. -/
theorem Holds.run {ω : Type} {seat : Seat σ ω} {answer : (c : S.Call) → StateM ω (S.Reply c)}
    (hseat : seat.Lawful) (view : ω → γ) (hput : ∀ s w, view (seat.put s w) = view w)
    (hnote : ∀ e w, view (seat.note e w) = view w)
    (hanswer : ∀ c w, K.answers c (seat.look w) (K.record c (view w)) (answer c w).1 (seat.look (answer c w).2)
      (view (answer c w).2)) {post : α → σ → γ → Prop} {p : Routine σ S α} {w : ω}
    (h : p.Holds K post (seat.look w) (view w)) :
    post (p.run seat answer w).1 (seat.look (p.run seat answer w).2) (view (p.run seat answer w).2) := by
  induction p generalizing w with
  | done a => exact h
  | look next ih => exact ih (seat.look w) h
  | put t next ih => exact ih (w := seat.put t w) (by rw [hseat.look_put, hput]; exact h)
  | note e next ih => exact ih (w := seat.note e w) (by rw [hseat.look_note, hnote]; exact h)
  | call c next ih => exact ih _ (h.2 _ _ _ (hanswer c w))

end Routine

namespace Operations

variable {O : Operations σ S} {K : O.Op → Contract σ S γ} {idle : σ → γ → Prop}

/-- Every operation that waits goes on to keep its contract, and when all have ended the
component is `idle`. -/
def Sound (K : O.Op → Contract σ S γ) (idle : σ → γ → Prop) : List O.Suspended → σ → γ → Prop
  | [], s, g => idle s g
  | f :: stack, s, g => (K f.op).safe f.call s g ∧ ∀ r s' g', (K f.op).answers f.call s g r s' g' →
      (f.next r).Holds (K f.op) (fun _ => Sound K idle stack) s' g'

def SoundWith (K : O.Op → Contract σ S γ) (finish : (op : O.Op) → σ → O.Answer op → γ → γ) (idle : σ → γ → Prop) :
    List O.Suspended → σ → γ → Prop
  | [], s, g => idle s g
  | f :: stack, s, g => (K f.op).safe f.call s g ∧ ∀ r s' g', (K f.op).answers f.call s g r s' g' →
      (f.next r).Holds (K f.op) (fun a s g => SoundWith K finish idle stack s (finish f.op f.start a g)) s' g'

theorem sound_eq_soundWith (stack : List O.Suspended) :
    Sound K idle stack = SoundWith K (fun _ _ _ g => g) idle stack := by
  induction stack with
  | nil => rfl
  | cons f stack ih =>
    funext s g
    simp only [Sound, SoundWith, ih]

/-- An operation that keeps its contract goes on until the next call, or to its end. What is
seen of the surroundings may depend on the calls that were made and on the ends. -/
theorem SoundWith.proceed {finish : (op : O.Op) → σ → O.Answer op → γ → γ} (view : List O.Event → γ) {op : O.Op}
    (hcalled : ∀ trace c, view (trace ++ [.called c]) = (K op).record c (view trace))
    (hended : ∀ trace start a, view (trace ++ [.ended op start a]) = finish op start a (view trace)) {m : O.Moment}
    {start : σ} {p : Routine σ S (O.Answer op)}
    (h : p.Holds (K op) (fun a s g => SoundWith K finish idle m.stack s (finish op start a g)) m.state (view m.trace)) :
    SoundWith K finish idle (m.proceed op start p).stack (m.proceed op start p).state
      (view (m.proceed op start p).trace) := by
  have hadvance := Routine.holds_iff_advance.1 h
  cases hadv : p.advance m.state with
  | mk pause s =>
    rw [hadv] at hadvance
    cases pause with
    | ended a =>
      rw [Moment.proceed_of_ended hadv, hended]
      exact hadvance
    | waiting c next =>
      rw [Moment.proceed_of_waiting hadv, hcalled]
      exact hadvance

/-- The same where the ends do not count. -/
theorem Sound.proceed (view : List O.Event → γ) {op : O.Op}
    (hcalled : ∀ trace c, view (trace ++ [.called c]) = (K op).record c (view trace))
    (hended : ∀ trace start a, view (trace ++ [.ended op start a]) = view trace) {m : O.Moment} {start : σ}
    {p : Routine σ S (O.Answer op)}
    (h : p.Holds (K op) (fun _ => Sound K idle m.stack) m.state (view m.trace)) :
    Sound K idle (m.proceed op start p).stack (m.proceed op start p).state (view (m.proceed op start p).trace) := by
  rw [sound_eq_soundWith] at h ⊢
  exact SoundWith.proceed view hcalled hended h

end Operations

end LanguageClient
