import LanguageClient.Proofs.Reentry.Contract
/-
  LanguageClient.Proofs.Reentry.Invariant — what every operation keeps.

  An invariant that holds whenever a call is made, and that everybody who is called keeps as
  well, holds at every moment, whoever enters what meanwhile. For each operation it is said
  too which calls it `may` make.

  - `Routine.Keeps`: carried out from a state, a routine keeps an invariant of the state.
  - `Keeps.within`: what a routine on a part of the state keeps of it is kept of the whole.
  - `Operations.kept`: an invariant that the operations keep holds at every moment.
-/

namespace LanguageClient

variable {σ τ α β : Type} {S T : Surface}

/-- An invariant holds when a call is made, which is one that `may` be made, and when it comes back. -/
def Contract.keeping (I : σ → Prop) (may : S.Call → Prop) : Contract σ S Unit where
  record _ g := g
  safe c s _ := I s ∧ may c
  answers _ _ _ _ s' _ := I s'

namespace Routine

def Keeps (I : σ → Prop) (may : S.Call → Prop) (p : Routine σ S α) (s : σ) : Prop :=
  p.Holds (.keeping I may) (fun _ s _ => I s) s ()

variable {I : σ → Prop} {may : S.Call → Prop} {s : σ}

@[simp] theorem keeps_get_bind (f : σ → Routine σ S α) : (get >>= f).Keeps I may s ↔ (f s).Keeps I may s := Iff.rfl

@[simp] theorem keeps_set_bind (t : σ) (f : PUnit → Routine σ S α) :
    (set t >>= f).Keeps I may s ↔ (f ⟨⟩).Keeps I may t := Iff.rfl

@[simp] theorem keeps_modify_bind (f : σ → σ) (g : PUnit → Routine σ S α) :
    (modify f >>= g).Keeps I may s ↔ (g ⟨⟩).Keeps I may (f s) := Iff.rfl

@[simp] theorem keeps_log_bind (e : Log.Entry) (f : Unit → Routine σ S α) :
    (log e >>= f).Keeps I may s ↔ (f ()).Keeps I may s := Iff.rfl

/-- What is kept depends on how a routine advances only. -/
theorem Keeps.congr {p q : Routine σ S α} {t : σ} (h : p.advance s = q.advance t) (hq : q.Keeps I may t) :
    p.Keeps I may s :=
  Holds.congr h hq

theorem Keeps.of_ended {p : Routine σ S α} {a : α} {t : σ} (h : p.advance s = (.ended a, t)) (ht : I t) :
    p.Keeps I may s :=
  Keeps.congr (q := done a) h ht

/-- When a call comes back the invariant holds, and nothing else is known. -/
theorem keeps_ask {c : S.Call} (hs : I s) (hc : may c) : (ask c : Routine σ S (S.Reply c)).Keeps I may s :=
  ⟨⟨hs, hc⟩, fun _ _ _ h => h⟩

theorem Keeps.bind {p : Routine σ S α} {f : α → Routine σ S β} (h : p.Keeps I may s)
    (hf : ∀ a s, I s → (f a).Keeps I may s) : (p >>= f).Keeps I may s :=
  (holds_bind p f).2 (Holds.mono h fun a s _ => hf a s)

theorem Keeps.discard {p : Routine σ S α} (h : p.Keeps I may s) : (discard p).Keeps I may s :=
  h.bind fun _ _ hs => hs

theorem keeps_forM {f : α → Routine σ S PUnit} (hf : ∀ a s, I s → (f a).Keeps I may s) (hs : I s) (as : List α) :
    (as.forM f).Keeps I may s := by
  induction as generalizing s with
  | nil => exact hs
  | cons a as ih => exact (hf a s hs).bind fun _ _ hs => ih hs

/-- With nothing to keep and every call allowed. -/
theorem keeps_of_trivial (hI : ∀ s, I s) (hmay : ∀ c, may c) (p : Routine σ S α) : p.Keeps I may s :=
  Holds.of_safe (K := .keeping I may) (fun c s _ => ⟨hI s, hmay c⟩) (fun _ s _ => hI s) p

/-- While it is at work a routine on a part may break the invariant of the part; the whole is
as it should be but for that part. -/
theorem Keeps.within {part : τ → σ} {place : σ → τ → τ} {up : (c : S.Call) → Routine τ T (S.Reply c)}
    {J : τ → Prop} {mayUp : T.Call → Prop} (hlens : IsPart part place) (hpart : ∀ t, J t → I (part t))
    (hplace : ∀ s t, J t → I s → J (place s t)) (hup : ∀ c t, J t → may c → (up c).Keeps J mayUp t)
    {p : Routine σ S α} {t : τ} (ht : J t) (h : p.Keeps I may (part t)) :
    (p.within part place up).Keeps J mayUp t := by
  have key : ∀ (s : σ) (t : τ), J t → p.Keeps I may s → (p.within part place up).Keeps J mayUp (place s t) := by
    clear h ht
    induction p with
    | done a => exact fun s t ht hs => hplace s t ht hs
    | look next ih =>
      intro s t ht h
      show ((next (part (place s t))).within part place up).Keeps J mayUp _
      rw [hlens.part_place]
      exact ih s s t ht h
    | put s' next ih =>
      intro s t ht h
      show (next.within part place up).Keeps J mayUp (place s' (place s t))
      rw [hlens.place_place]
      exact ih s' t ht h
    | note e next ih => exact ih
    | call c next ih =>
      rintro s t ht ⟨⟨hs, hc⟩, hnext⟩
      refine (hup c _ (hplace s t ht hs) hc).bind fun r t' ht' => ?_
      have hrest := ih r (part t') t' ht' (hnext r (part t') () (hpart t' ht'))
      rwa [hlens.place_part] at hrest
  have hwhole := key (part t) t ht h
  rwa [hlens.place_part] at hwhole

/-- A routine keeps the invariant if those who make its calls do. -/
theorem Keeps.relay {up : (c : S.Call) → Routine σ T (S.Reply c)} {mayUp : T.Call → Prop}
    (hup : ∀ c s, I s → may c → (up c).Keeps I mayUp s) {p : Routine σ S α} (hs : I s) (h : p.Keeps I may s) :
    (p.relay up).Keeps I mayUp s :=
  Keeps.within .whole (fun _ hs => hs) (fun _ _ _ hs => hs) hup hs h

end Routine

namespace Operations

variable {O : Operations σ S} {I : σ → Prop} {may : O.Op → S.Call → Prop}

/-- The invariant holds, and whoever waits has made a call that it may make and will keep the
invariant. -/
structure Kept (I : σ → Prop) (may : O.Op → S.Call → Prop) (m : O.Moment) : Prop where
  state : I m.state
  waiting : ∀ f ∈ m.stack, may f.op f.call ∧ ∀ r s, I s → (f.next r).Keeps I (may f.op) s
  called : ∀ c, .called c ∈ m.trace → ∃ op, may op c

theorem Kept.proceed {m : O.Moment} (h : Kept I may m) {op : O.Op} {start : σ} {p : Routine σ S (O.Answer op)}
    (hp : p.Keeps I (may op) m.state) : Kept I may (m.proceed op start p) := by
  have hadvance := Routine.holds_iff_advance.1 hp
  cases hadv : p.advance m.state with
  | mk pause s =>
    rw [hadv] at hadvance
    cases pause with
    | ended a =>
      rw [Moment.proceed_of_ended hadv]
      refine ⟨hadvance, h.waiting, fun c hc => ?_⟩
      exact (List.mem_append.1 hc).elim (h.called c) fun hnew => by simp at hnew
    | waiting c next =>
      obtain ⟨⟨hs, hmay⟩, hnext⟩ := hadvance
      rw [Moment.proceed_of_waiting hadv]
      refine ⟨hs, List.forall_mem_cons.2 ⟨⟨hmay, fun r s hs => hnext r s () hs⟩, h.waiting⟩, fun c' hc => ?_⟩
      refine (List.mem_append.1 hc).elim (h.called c') fun hnew => ⟨op, ?_⟩
      rwa [Event.called.inj (List.mem_singleton.1 hnew)]

/-- An invariant that every operation keeps, from the moments at which it may be entered, holds
at every moment. -/
theorem kept {allowed : O.Moment → O.Op → Prop}
    (hbody : ∀ m op, allowed m op → I m.state → (O.body op).Keeps I (may op) m.state) {s : σ} (hs : I s)
    {m : O.Moment} (h : O.ReachableIf allowed s m) : Kept I may m := by
  refine h.induct ⟨hs, by simp, by simp⟩ ?_
  intro m m' _ hm hstep
  cases hstep with
  | @enter _ op hmay => exact hm.proceed (hbody m op hmay hm.state)
  | reply s f stack trace r =>
    have hf := hm.waiting f List.mem_cons_self
    have hrest : Kept I may ⟨s, stack, trace⟩ :=
      ⟨hm.state, fun g hg => hm.waiting g (List.mem_cons_of_mem f hg), hm.called⟩
    exact hrest.proceed (hf.2 r s hm.state)

end Operations

end LanguageClient
