import Mathlib.Data.List.Nodup
import Mathlib.Data.List.Pairwise
import LanguageClient.Proofs.Reentry
import LanguageClient.Signal
/-
  LanguageClient.Proofs.Signal.Uses — what the operations on a signal do to it.

  Ids grow in the order of the subscriptions and are never used again. So whatever is done to
  a signal, of the subscriptions that were there only some are left (`Later`), and one that
  has gone does not come back.

  - `advance_turns`: an emission passes over those who are gone, up to the first who is there.
  - `advance_use`: how far each operation gets by itself.
-/

namespace LanguageClient.Signal

variable {η α : Type}

/-! ## Ids -/

/-- Ids grow in the order of the subscriptions, and the next one is yet to be used. -/
structure Ordered (s : Signal η) : Prop where
  increasing : s.ids.Pairwise (· < ·)
  below : ∀ sub ∈ s.subscriptions, sub.id < s.nextId

/-- `s'` may have come of `s`: ids are not used again, and nobody who has gone comes back. -/
structure Later (s s' : Signal η) : Prop where
  nextId_le : s.nextId ≤ s'.nextId
  kept : ∀ sub ∈ s'.subscriptions, sub.id < s.nextId → sub ∈ s.subscriptions

theorem Later.refl (s : Signal η) : Later s s := ⟨Nat.le_refl _, fun _ hsub _ => hsub⟩

theorem Later.trans {s₁ s₂ s₃ : Signal η} (h : Later s₁ s₂) (h' : Later s₂ s₃) : Later s₁ s₃ := by
  refine ⟨Nat.le_trans h.nextId_le h'.nextId_le, fun sub hsub hid => ?_⟩
  exact h.kept sub (h'.kept sub hsub (Nat.lt_of_lt_of_le hid h.nextId_le)) hid

theorem ordered_new : Ordered ({} : Signal η) := ⟨List.Pairwise.nil, fun _ h => by cases h⟩

/-- An id belongs to one subscription. -/
theorem Ordered.eq_of_id {s : Signal η} (h : Ordered s) {a b : Subscription η} (ha : a ∈ s.subscriptions)
    (hb : b ∈ s.subscriptions) (hid : a.id = b.id) : a = b := by
  have hnodup : s.ids.Nodup := h.increasing.imp Nat.ne_of_lt
  exact List.inj_on_of_nodup_map hnodup ha hb hid

theorem mem_of_find? {s : Signal η} {id : Nat} {sub : Subscription η} (h : s.find? id = some sub) :
    sub ∈ s.subscriptions ∧ sub.id = id :=
  ⟨List.mem_of_find?_eq_some h, by simpa using List.find?_some h⟩

theorem isSubscribed_eq_false {s : Signal η} {id : Nat} : s.isSubscribed id = false ↔ s.find? id = none := by
  simp [isSubscribed]

/-! ## Adding and removing -/

theorem subscribe_ordered {s : Signal η} (h : Ordered s) (handler : η) (once : Bool) :
    Ordered (s.subscribe handler once).2 := by
  constructor
  · have hids : (s.subscribe handler once).2.ids = s.ids ++ [s.nextId] := List.map_append
    rw [hids, List.pairwise_append]
    refine ⟨h.increasing, List.pairwise_singleton _ _, ?_⟩
    intro a ha b hb
    obtain ⟨sub, hsub, rfl⟩ := List.mem_map.1 ha
    have hb : b = s.nextId := by simpa using hb
    rw [hb]
    exact h.below sub hsub
  · intro sub hsub
    show sub.id < s.nextId + 1
    rcases List.mem_append.1 hsub with hsub | hsub
    · have := h.below sub hsub
      omega
    · rw [List.mem_singleton.1 hsub]
      exact Nat.lt_succ_self _

theorem subscribe_later (s : Signal η) (handler : η) (once : Bool) : Later s (s.subscribe handler once).2 := by
  refine ⟨Nat.le_succ _, fun sub hsub hid => ?_⟩
  rcases List.mem_append.1 hsub with hsub | hsub
  · exact hsub
  · rw [List.mem_singleton.1 hsub] at hid
    exact absurd hid (Nat.lt_irrefl _)

/-- Leaving some subscriptions out keeps the ids in order. -/
theorem ordered_of_sublist {s : Signal η} (h : Ordered s) {subs : List (Subscription η)}
    (hsub : subs.Sublist s.subscriptions) : Ordered { s with subscriptions := subs } :=
  ⟨h.increasing.sublist (hsub.map _), fun sub hin => h.below sub (hsub.subset hin)⟩

theorem later_of_sublist (s : Signal η) {subs : List (Subscription η)} (hsub : subs.Sublist s.subscriptions) :
    Later s { s with subscriptions := subs } :=
  ⟨Nat.le_refl _, fun _ hin _ => hsub.subset hin⟩

def after (s : Signal η) (sub : Subscription η) : Signal η := if sub.once then s.remove sub.id else s

theorem after_subscriptions (s : Signal η) (sub : Subscription η) :
    ∃ subs, subs.Sublist s.subscriptions ∧ s.after sub = { s with subscriptions := subs } := by
  unfold after
  split
  · exact ⟨_, List.filter_sublist, rfl⟩
  · exact ⟨_, List.Sublist.refl _, rfl⟩

/-! ## Turns -/

abbrev turnsThen {β : Type} (event : α) (ids : List Nat) (a : β) : Routine (Signal η) (Handling η α) β :=
  (turns event ids).bind fun _ => .done a

theorem advance_turns_nil (event : α) (s : Signal η) :
    (turns (η := η) event []).advance s = (.ended (), s) := rfl

theorem advance_turns_gone {s : Signal η} {id : Nat} (h : s.find? id = none) (event : α) (ids : List Nat) :
    (turns event (id :: ids)).advance s = (turns event ids).advance s := by
  have hturn : s.turn? id = none := by rw [turn?, h]; rfl
  simp only [turns, get, getThe, MonadStateOf.get, bind, Routine.bind, Routine.advance, hturn]

theorem advance_turns_there {s : Signal η} {sub : Subscription η} {id : Nat} (h : s.find? id = some sub) (event : α)
    (ids : List Nat) :
    (turns event (id :: ids)).advance s = (.waiting (sub.handler, event) fun _ => turns event ids, s.after sub) := by
  obtain ⟨_, rfl⟩ := mem_of_find? h
  have hturn : s.turn? sub.id = some (sub.handler, s.after sub) := by rw [turn?, h]; rfl
  simp only [turns, get, getThe, MonadStateOf.get, bind, Routine.bind, Routine.advance, hturn]
  rfl

/-- An emission passes over those who are gone: to its end, or to the first who is there. -/
theorem advance_turns (event : α) (ids : List Nat) (s : Signal η) :
    ((∀ id ∈ ids, s.isSubscribed id = false) ∧ (turns event ids).advance s = (.ended (), s)) ∨
    ∃ passed sub rest, ids = passed ++ sub.id :: rest ∧ (∀ id ∈ passed, s.isSubscribed id = false) ∧
      sub ∈ s.subscriptions ∧
      (turns event ids).advance s = (.waiting (sub.handler, event) fun _ => turns event rest, s.after sub) := by
  induction ids with
  | nil => exact Or.inl ⟨(fun id h => by cases h), advance_turns_nil event s⟩
  | cons id ids ih =>
    cases h : s.find? id with
    | some sub =>
      obtain ⟨hsub, rfl⟩ := mem_of_find? h
      exact Or.inr ⟨[], sub, ids, rfl, (fun id h => by cases h), hsub, advance_turns_there h event ids⟩
    | none =>
      have hgone : s.isSubscribed id = false := isSubscribed_eq_false.2 h
      rw [advance_turns_gone h]
      rcases ih with ⟨hall, hadv⟩ | ⟨passed, sub, rest, rfl, hpassed, hsub, hadv⟩
      · exact Or.inl ⟨List.forall_mem_cons.2 ⟨hgone, hall⟩, hadv⟩
      · exact Or.inr ⟨id :: passed, sub, rest, rfl, List.forall_mem_cons.2 ⟨hgone, hpassed⟩, hsub, hadv⟩

/-! ## Operations -/

inductive Use (η α : Type) where
  | on (handler : η)
  | once (handler : η)
  | off (id : Nat)
  | clear
  | emit (event : α)

abbrev Use.Answer : Use η α → Type
  | on _ => Nat
  | once _ => Nat
  | off _ => Bool
  | clear => Unit
  | emit _ => Unit

def Use.body : (u : Use η α) → Routine (Signal η) (Handling η α) u.Answer
  | .on handler => modifyGet fun s => s.on handler
  | .once handler => modifyGet fun s => s.once handler
  | .off id => modifyGet fun s => s.off id
  | .clear => modify Signal.clear
  | .emit event => Signal.emit event

abbrev uses (η α : Type) : Operations (Signal η) (Handling η α) := ⟨Use η α, Use.Answer, Use.body⟩

def Owes (event : α) (ids : List Nat) (f : (uses η α).Suspended) : Prop :=
  ∃ a : f.op.Answer, ∀ r, f.next r = turnsThen event ids a

/-- At every moment ids are in order, and all that waits is emissions. -/
structure Going (m : (uses η α).Moment) : Prop where
  ordered : Ordered m.state
  emitting : ∀ f ∈ m.stack, ∃ event ids, Owes event ids f

theorem going_new : Going (⟨{}, [], []⟩ : (uses η α).Moment) := ⟨ordered_new, fun _ h => by cases h⟩

/-- Giving turns changes a signal by taking one-shot subscriptions out. -/
theorem Going.turns {m : (uses η α).Moment} (h : Going m) (op : Use η α) (start : Signal η) (event : α)
    (ids : List Nat) (a : op.Answer) :
    Going (m.proceed op start (turnsThen event ids a)) ∧
      Later m.state (m.proceed op start (turnsThen event ids a)).state := by
  rcases advance_turns event ids m.state with ⟨_, hadv⟩ | ⟨passed, sub, rest, _, _, _, hadv⟩
  · have hthen : (turnsThen event ids a).advance m.state = (.ended a, m.state) := by
      rw [turnsThen, Routine.advance_bind, hadv]; rfl
    rw [Operations.Moment.proceed_of_ended hthen]
    exact ⟨⟨h.ordered, h.emitting⟩, Later.refl _⟩
  · have hthen : (turnsThen event ids a).advance m.state
        = (.waiting (sub.handler, event) fun _ => turnsThen event rest a, m.state.after sub) := by
      rw [turnsThen, Routine.advance_bind, hadv]
    obtain ⟨subs, hsubs, hafter⟩ := after_subscriptions m.state sub
    rw [Operations.Moment.proceed_of_waiting hthen, hafter]
    refine ⟨⟨ordered_of_sublist h.ordered hsubs, fun f hf => ?_⟩, later_of_sublist m.state hsubs⟩
    rcases List.mem_cons.1 hf with rfl | hf
    · exact ⟨event, rest, a, fun _ => rfl⟩
    · exact h.emitting f hf

theorem body_emit (event : α) (s : Signal η) :
    (Signal.emit event).advance s = (turnsThen event s.ids ()).advance s := by
  rw [turnsThen, Routine.bind_done]
  rfl

theorem Going.enter {m : (uses η α).Moment} (h : Going m) (u : Use η α) :
    Going (m.enter u) ∧ Later m.state (m.enter u).state := by
  cases u with
  | on handler => exact ⟨⟨subscribe_ordered h.ordered handler false, h.emitting⟩, subscribe_later _ handler false⟩
  | once handler => exact ⟨⟨subscribe_ordered h.ordered handler true, h.emitting⟩, subscribe_later _ handler true⟩
  | off id =>
    have hsub : (m.state.remove id).subscriptions.Sublist m.state.subscriptions := List.filter_sublist
    exact ⟨⟨ordered_of_sublist h.ordered hsub, h.emitting⟩, later_of_sublist m.state hsub⟩
  | clear =>
    have hsub : [].Sublist m.state.subscriptions := List.nil_sublist _
    exact ⟨⟨ordered_of_sublist h.ordered hsub, h.emitting⟩, later_of_sublist m.state hsub⟩
  | emit event =>
    have henter : m.enter (.emit event) = m.proceed (.emit event) m.state (turnsThen event m.state.ids ()) :=
      Operations.Moment.proceed_congr (body_emit event m.state)
    rw [henter]
    exact h.turns (.emit event) m.state event m.state.ids ()

theorem Going.reply {s : Signal η} {f : (uses η α).Suspended} {stack : List (uses η α).Suspended}
    {trace : List (uses η α).Event} (h : Going ⟨s, f :: stack, trace⟩) (r : Unit) :
    let m' := Operations.Moment.proceed ⟨s, stack, trace⟩ f.op f.start (f.next r)
    Going m' ∧ Later s m'.state := by
  obtain ⟨event, ids, a, hnext⟩ := h.emitting f List.mem_cons_self
  have hrest : Going (⟨s, stack, trace⟩ : (uses η α).Moment) :=
    ⟨h.ordered, fun g hg => h.emitting g (List.mem_cons_of_mem f hg)⟩
  rw [hnext r]
  exact hrest.turns f.op f.start event ids a

theorem Going.step {m m' : (uses η α).Moment} (h : Going m) (hs : Operations.Step m m') :
    Going m' ∧ Later m.state m'.state := by
  cases hs with
  | enter _ u => exact h.enter u
  | reply s f stack trace r => exact h.reply r

theorem going {m : (uses η α).Moment} (h : (uses η α).Reachable {} m) : Going m :=
  h.induct going_new fun _ _ hm hs => (hm.step hs).1

end LanguageClient.Signal
