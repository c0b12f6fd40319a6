import Mathlib.Algebra.GroupWithZero.Nat
import LanguageClient.Proofs.Signal.Uses
/-
  LanguageClient.Proofs.Signal.Lifetimes — how long a subscription lasts.

  What happened to a signal is told by its deeds: operations that came to their end, and
  handlers that were run, each with the subscription that it was run for. Read from the
  first to the last they say who is subscribed at any time (`standing`): an id is issued
  once, a subscription ends by a removal, by a clearing or, if it is a one-shot, by its turn,
  and nobody has a turn who is not subscribed then (`Sound`). All this holds however many
  emissions are under way, since none of them acts on what it found at its start but on who
  is still there.

  - `chronicle`: every run has such deeds.
  - `Chronicle.silent`: an id that was issued and is not subscribed is heard of no more.
  - `subscription_lifetimes`: what follows for one-shots, removals, clearings and the count.
-/

namespace LanguageClient.Signal

variable {η α : Type}

/-! ## Deeds -/

inductive Deed (η α : Type) where
  | did (u : Use η α) (start : Signal η) (a : u.Answer)
  /-- The handler of a subscription was run. -/
  | ran (sub : Subscription η) (event : α)

namespace Deed

def event : Deed η α → (uses η α).Event
  | did u start a => .ended u start a
  | ran sub event => .called (sub.handler, event)

def issued? : Deed η α → Option (Subscription η)
  | did (.on handler) _ id => some ⟨id, handler, false⟩
  | did (.once handler) _ id => some ⟨id, handler, true⟩
  | _ => none

def ends : Deed η α → Subscription η → Bool
  | did (.off id) _ true, sub => sub.id == id
  | did .clear _ _, _ => true
  | ran taken _, sub => taken.once && sub.id == taken.id
  | _, _ => false

/-- How many subscriptions end by it: one by a removal that says so and by the turn of a
one-shot, by a clearing as many as there are. -/
def ended : Deed η α → Nat
  | did (.off _) _ true => 1
  | did .clear start _ => start.count
  | ran taken _ => if taken.once then 1 else 0
  | _ => 0

def runs (id : Nat) : Deed η α → Bool
  | ran sub _ => sub.id == id
  | _ => false

def after (d : Deed η α) (subs : List (Subscription η)) : List (Subscription η) :=
  subs.filter (fun sub => !d.ends sub) ++ d.issued?.toList

/-- What may happen when `subs` are subscribed: whoever has a turn is one of them, and a
removal tells whether there was one to remove. -/
def Fair (subs : List (Subscription η)) : Deed η α → Prop
  | did (.emit _) _ _ => True
  | did (.off id) start b => start.subscriptions = subs ∧ b = start.isSubscribed id
  | did _ start _ => start.subscriptions = subs
  | ran sub _ => sub ∈ subs

end Deed

def issued (ds : List (Deed η α)) : List (Subscription η) := ds.filterMap Deed.issued?

def standingFrom (subs : List (Subscription η)) (ds : List (Deed η α)) : List (Subscription η) :=
  ds.foldl (fun subs d => d.after subs) subs

abbrev standing (ds : List (Deed η α)) : List (Subscription η) := standingFrom [] ds

def Sound : List (Subscription η) → List (Deed η α) → Prop
  | _, [] => True
  | subs, d :: ds => d.Fair subs ∧ Sound (d.after subs) ds

theorem issued_append (ds ds' : List (Deed η α)) : issued (ds ++ ds') = issued ds ++ issued ds' := List.filterMap_append

theorem standingFrom_append (subs : List (Subscription η)) (ds ds' : List (Deed η α)) :
    standingFrom subs (ds ++ ds') = standingFrom (standingFrom subs ds) ds' := List.foldl_append

theorem standing_concat (ds : List (Deed η α)) (d : Deed η α) : standing (ds ++ [d]) = d.after (standing ds) :=
  standingFrom_append [] ds [d]

theorem sound_append {subs : List (Subscription η)} {ds ds' : List (Deed η α)} :
    Sound subs (ds ++ ds') ↔ Sound subs ds ∧ Sound (standingFrom subs ds) ds' := by
  induction ds generalizing subs with
  | nil => simp [Sound, standingFrom]
  | cons d ds ih =>
    show d.Fair subs ∧ Sound (d.after subs) (ds ++ ds') ↔ (d.Fair subs ∧ Sound (d.after subs) ds) ∧ _
    rw [ih, and_assoc]
    rfl

/-- Who is subscribed was so at first or has begun meanwhile. -/
theorem mem_standingFrom {subs : List (Subscription η)} {ds : List (Deed η α)} {sub : Subscription η}
    (h : sub ∈ standingFrom subs ds) : sub ∈ subs ∨ sub ∈ issued ds := by
  induction ds generalizing subs with
  | nil => exact Or.inl h
  | cons d ds ih =>
    have hissued : issued (d :: ds) = d.issued?.toList ++ issued ds := by
      cases hd : d.issued? <;> simp [issued, hd]
    rw [hissued, List.mem_append]
    rcases ih h with hafter | hlater
    · rcases List.mem_append.1 hafter with hkept | hnew
      · exact Or.inl (List.mem_filter.1 hkept).1
      · exact Or.inr (Or.inl hnew)
    · exact Or.inr (Or.inr hlater)

/-! ## The deeds of a run -/

structure Chronicle (m : (uses η α).Moment) (ds : List (Deed η α)) : Prop where
  events : ds.map Deed.event = m.trace
  subscribed : m.state.subscriptions = standing ds
  sound : Sound [] ds
  issued_ids : (issued ds).map (·.id) = List.range' 1 (m.state.nextId - 1)
  nextId_pos : 0 < m.state.nextId
  count : m.state.count + (ds.map Deed.ended).sum = (issued ds).length
  emitting : ∀ f ∈ m.stack, ∃ event, f.op = .emit event

theorem chronicle_new : Chronicle (⟨{}, [], []⟩ : (uses η α).Moment) [] :=
  ⟨rfl, rfl, trivial, rfl, Nat.one_pos, rfl, by simp⟩

/-- One more deed, which may issue the next id. -/
theorem Chronicle.extend {m m' : (uses η α).Moment} {ds : List (Deed η α)} (h : Chronicle m ds) {d : Deed η α}
    (htrace : m'.trace = m.trace ++ [d.event]) (hfair : d.Fair m.state.subscriptions)
    (hsubs : m'.state.subscriptions = d.after m.state.subscriptions)
    (hids : d.issued?.toList.map (·.id) = List.range' m.state.nextId d.issued?.toList.length)
    (hnext : m'.state.nextId = m.state.nextId + d.issued?.toList.length)
    (hcount : m'.state.count + d.ended = m.state.count + d.issued?.toList.length)
    (hstack : ∀ f ∈ m'.stack, ∃ event, f.op = .emit event) : Chronicle m' (ds ++ [d]) := by
  have hone : issued [d] = d.issued?.toList := by
    cases hd : d.issued? <;> simp [issued, hd]
  have hpos := h.nextId_pos
  refine ⟨?_, ?_, ?_, ?_, ?_, ?_, hstack⟩
  · rw [List.map_append, h.events, htrace]
    rfl
  · rw [standing_concat, hsubs, h.subscribed]
  · rw [h.subscribed] at hfair
    rw [sound_append]
    exact ⟨h.sound, hfair, trivial⟩
  · have hlen : m'.state.nextId - 1 = m.state.nextId - 1 + d.issued?.toList.length := by omega
    have hstart : m.state.nextId = 1 + (m.state.nextId - 1) := by omega
    rw [issued_append, List.map_append, h.issued_ids, hone, hids, hlen, ← List.range'_append_1, ← hstart]
  · omega
  · have hold := h.count
    rw [issued_append, hone, List.map_append, List.sum_append, List.map_singleton, List.sum_singleton,
      List.length_append]
    omega

/-! ## One step -/

theorem not_ends_filter (d : Deed η α) {subs : List (Subscription η)} (h : ∀ sub ∈ subs, d.ends sub = false)
    (hissued : d.issued? = none) : d.after subs = subs := by
  rw [Deed.after, hissued, Option.toList_none, List.append_nil, List.filter_eq_self]
  intro sub hsub
  simp [h sub hsub]

theorem Chronicle.subscribe {m : (uses η α).Moment} {ds : List (Deed η α)} (h : Chronicle m ds) {u : Use η α}
    {a : u.Answer} {handler : η} {once : Bool}
    (henter : m.enter u = { m with state := (m.state.subscribe handler once).2, trace := m.trace ++ [.ended u m.state a] })
    (hends : ∀ sub, (Deed.did u m.state a).ends sub = false) (hended : (Deed.did u m.state a).ended = 0)
    (hfair : (Deed.did u m.state a).Fair m.state.subscriptions)
    (hissued : (Deed.did u m.state a).issued? = some ⟨m.state.nextId, handler, once⟩) :
    Chronicle (m.enter u) (ds ++ [.did u m.state a]) := by
  rw [henter]
  refine h.extend rfl hfair ?_ ?_ ?_ ?_ h.emitting
  · have hkeep : m.state.subscriptions.filter (fun sub => !(Deed.did u m.state a).ends sub) = m.state.subscriptions := by
      rw [List.filter_eq_self]
      intro sub _
      simp [hends sub]
    rw [Deed.after, hissued, hkeep]
    rfl
  · rw [hissued]
    rfl
  · rw [hissued]
    rfl
  · rw [hissued, hended]
    exact List.length_append

/-- With ids of their own, removing an id that is there removes one. -/
theorem count_remove {s : Signal η} (h : Ordered s) {sub : Subscription η} (hsub : sub ∈ s.subscriptions) :
    (s.remove sub.id).count + 1 = s.count := by
  obtain ⟨before, after, hsplit⟩ := List.append_of_mem hsub
  have hother : ∀ other ∈ before ++ after, other.id ≠ sub.id := by
    have hids : (s.subscriptions.map (·.id)).Nodup := h.increasing.imp Nat.ne_of_lt
    rw [hsplit, List.map_append, List.map_cons, List.nodup_middle, List.nodup_cons, ← List.map_append] at hids
    intro other hin heq
    exact hids.1 (heq ▸ List.mem_map_of_mem hin)
  have hremove : (s.remove sub.id).subscriptions = before ++ after := by
    show s.subscriptions.filter (·.id != sub.id) = _
    rw [hsplit, List.filter_append, List.filter_cons_of_neg (by simp), ← List.filter_append, List.filter_eq_self]
    intro other hin
    simpa using hother other hin
  rw [count, count, hremove, hsplit, List.length_append, List.length_append, List.length_cons]
  omega

theorem remove_of_absent {s : Signal η} {id : Nat} (h : s.isSubscribed id = false) : s.remove id = s := by
  have hnone : s.find? id = none := isSubscribed_eq_false.1 h
  have hkeep : s.subscriptions.filter (·.id != id) = s.subscriptions := by
    rw [List.filter_eq_self]
    intro sub hsub
    have hne := List.find?_eq_none.1 hnone sub hsub
    simpa using hne
  rw [remove, hkeep]

theorem Chronicle.off {m : (uses η α).Moment} {ds : List (Deed η α)} (hm : Going m) (h : Chronicle m ds) (id : Nat) :
    Chronicle (m.enter (.off id)) (ds ++ [.did (.off id) m.state (m.state.isSubscribed id)]) := by
  have henter : m.enter (.off id) =
      { m with state := m.state.remove id, trace := m.trace ++ [.ended (.off id) m.state (m.state.isSubscribed id)] } := rfl
  rw [henter]
  cases hb : m.state.isSubscribed id with
  | true =>
    obtain ⟨sub, hsub, rfl⟩ : ∃ sub ∈ m.state.subscriptions, sub.id = id := by
      obtain ⟨sub, hfound⟩ := Option.isSome_iff_exists.1 hb
      exact ⟨sub, mem_of_find? hfound⟩
    refine h.extend rfl ⟨rfl, hb.symm⟩ ?_ rfl rfl ?_ h.emitting
    · simp [Deed.after, Deed.issued?, Deed.ends, remove, bne]
    · exact count_remove hm.ordered hsub
  | false =>
    rw [remove_of_absent hb]
    refine h.extend rfl ⟨rfl, hb.symm⟩ ?_ rfl rfl rfl h.emitting
    exact (not_ends_filter _ (fun _ _ => rfl) rfl).symm

theorem Chronicle.clear {m : (uses η α).Moment} {ds : List (Deed η α)} (h : Chronicle m ds) :
    Chronicle (m.enter .clear) (ds ++ [.did .clear m.state ()]) := by
  have henter : m.enter .clear = { m with state := m.state.clear, trace := m.trace ++ [.ended .clear m.state ()] } := rfl
  rw [henter]
  refine h.extend rfl rfl ?_ rfl rfl ?_ h.emitting
  · have hgone : m.state.subscriptions.filter (fun _ => false) = [] := List.filter_eq_nil_iff.2 fun _ _ => Bool.false_ne_true
    exact hgone.symm.trans (List.append_nil _).symm
  · show 0 + m.state.count = m.state.count + 0
    omega

/-- An emission that goes on runs the handler of somebody who is subscribed, or ends. -/
theorem Chronicle.turns {m : (uses η α).Moment} {ds : List (Deed η α)} (hm : Going m) (h : Chronicle m ds)
    (entered event : α) (start : Signal η) (ids : List Nat) :
    ∃ d, Chronicle (m.proceed (.emit entered) start (turnsThen event ids ())) (ds ++ [d]) := by
  rcases advance_turns event ids m.state with ⟨_, hadv⟩ | ⟨passed, sub, rest, _, _, hsub, hadv⟩
  · have hthen : (turnsThen event ids ()).advance m.state = (.ended (), m.state) := by
      rw [turnsThen, Routine.advance_bind, hadv]
      rfl
    have hgo : m.proceed (.emit entered) start (turnsThen event ids ())
        = { m with trace := m.trace ++ [.ended (.emit entered) start ()] } := Operations.Moment.proceed_of_ended hthen
    rw [hgo]
    refine ⟨.did (.emit entered) start (), h.extend rfl trivial ?_ rfl rfl rfl h.emitting⟩
    exact (not_ends_filter _ (fun _ _ => rfl) rfl).symm
  · have hthen : (turnsThen event ids ()).advance m.state
        = (.waiting (sub.handler, event) fun _ => turnsThen event rest (), m.state.after sub) := by
      rw [turnsThen, Routine.advance_bind, hadv]
    have hgo : m.proceed (.emit entered) start (turnsThen event ids ()) = ⟨m.state.after sub,
        ⟨.emit entered, start, (sub.handler, event), fun _ => turnsThen event rest ()⟩ :: m.stack,
        m.trace ++ [.called (sub.handler, event)]⟩ := Operations.Moment.proceed_of_waiting hthen
    rw [hgo]
    refine ⟨.ran sub event, h.extend rfl hsub ?_ ?_ ?_ ?_ (List.forall_mem_cons.2 ⟨⟨entered, rfl⟩, h.emitting⟩)⟩
    · cases honce : sub.once with
      | true => simp [Deed.after, Deed.issued?, Deed.ends, Signal.after, honce, remove, bne]
      | false => simp [Deed.after, Deed.issued?, Deed.ends, Signal.after, honce]
    · rfl
    · show (m.state.after sub).nextId = m.state.nextId + 0
      unfold Signal.after
      split <;> rfl
    · show (m.state.after sub).count + (if sub.once then 1 else 0) = m.state.count + 0
      unfold Signal.after
      split
      · exact count_remove hm.ordered hsub
      · rfl

theorem Chronicle.step {m m' : (uses η α).Moment} {ds : List (Deed η α)} (hm : Going m) (h : Chronicle m ds)
    (hs : Operations.Step m m') : ∃ d, Chronicle m' (ds ++ [d]) := by
  cases hs with
  | enter _ u =>
    cases u with
    | on handler => exact ⟨_, h.subscribe (u := .on handler) (a := m.state.nextId) rfl (fun _ => rfl) rfl rfl rfl⟩
    | once handler => exact ⟨_, h.subscribe (u := .once handler) (a := m.state.nextId) rfl (fun _ => rfl) rfl rfl rfl⟩
    | off id => exact ⟨_, h.off hm id⟩
    | clear => exact ⟨_, h.clear⟩
    | emit event =>
      have henter : m.enter (.emit event) = m.proceed (.emit event) m.state (turnsThen event m.state.ids ()) :=
        Operations.Moment.proceed_congr (body_emit event m.state)
      rw [henter]
      exact h.turns hm event event m.state m.state.ids
  | reply s f stack trace r =>
    obtain ⟨event, ids, a, hnext⟩ := hm.emitting f List.mem_cons_self
    obtain ⟨entered, hop⟩ := h.emitting f List.mem_cons_self
    have hrest : Going (⟨s, stack, trace⟩ : (uses η α).Moment) :=
      ⟨hm.ordered, fun g hg => hm.emitting g (List.mem_cons_of_mem f hg)⟩
    have hbelow : Chronicle (⟨s, stack, trace⟩ : (uses η α).Moment) ds :=
      { h with emitting := fun g hg => h.emitting g (List.mem_cons_of_mem f hg) }
    rw [hnext r]
    obtain ⟨_, start, _, _⟩ := f
    cases hop
    exact hbelow.turns hrest entered event start ids

/-- Every run has its deeds. -/
theorem chronicle {m : (uses η α).Moment} (h : (uses η α).Reachable {} m) : ∃ ds, Chronicle m ds := by
  have hboth : Going m ∧ ∃ ds, Chronicle m ds := by
    refine h.induct (P := fun m => Going m ∧ ∃ ds, Chronicle m ds) ⟨going_new, [], chronicle_new⟩ ?_
    rintro m m' ⟨hm, ds, hds⟩ hs
    obtain ⟨d, hd⟩ := hds.step hm hs
    exact ⟨(hm.step hs).1, _, hd⟩
  exact hboth.2

/-! ## What the deeds tell -/

/-- Whose id was issued and who is not subscribed will not be again. -/
theorem gone_for_good {before more : List (Deed η α)} {id : Nat}
    (hnodup : ((issued (before ++ more)).map (·.id)).Nodup) (hissued : id ∈ (issued before).map (·.id))
    (hgone : id ∉ (standing before).map (·.id)) : id ∉ (standing (before ++ more)).map (·.id) := by
  intro hmem
  obtain ⟨sub, hsub, rfl⟩ := List.mem_map.1 hmem
  have hsub' : sub ∈ standingFrom (standing before) more := by rwa [standing, standingFrom_append] at hsub
  rcases mem_standingFrom hsub' with hold | hnew
  · exact hgone (List.mem_map_of_mem hold)
  · rw [issued_append, List.map_append, List.nodup_append] at hnodup
    exact hnodup.2.2 _ hissued _ (List.mem_map_of_mem hnew) rfl

namespace Chronicle

variable {m : (uses η α).Moment} {ds : List (Deed η α)}

theorem nodup (h : Chronicle m ds) : ((issued ds).map (·.id)).Nodup := h.issued_ids ▸ List.nodup_range'

/-- What had happened before a deed allows it. -/
theorem fair (h : Chronicle m ds) {before after : List (Deed η α)} {d : Deed η α} (hds : ds = before ++ d :: after) :
    d.Fair (standing before) := by
  have hsound := h.sound
  rw [hds] at hsound
  exact (sound_append.1 hsound).2.1

theorem mem_issued_of_standing {before : List (Deed η α)} {sub : Subscription η} (h : sub ∈ standing before) :
    sub ∈ issued before := by
  rcases mem_standingFrom h with hnone | hissued
  · cases hnone
  · exact hissued

/-- No handler is run any more for an id that was issued and is not subscribed. -/
theorem silent (h : Chronicle m ds) {before after : List (Deed η α)} (hds : ds = before ++ after) {id : Nat}
    (hissued : id ∈ (issued before).map (·.id)) (hgone : id ∉ (standing before).map (·.id)) :
    after.countP (Deed.runs id) = 0 := by
  rw [List.countP_eq_zero]
  intro d hd hruns
  obtain ⟨more, rest, rfl⟩ := List.append_of_mem hd
  cases d with
  | did u start a => exact Bool.false_ne_true hruns
  | ran sub event =>
    have hid : sub.id = id := by simpa [Deed.runs] using hruns
    have hsplit : ds = before ++ more ++ .ran sub event :: rest := by rw [hds, List.append_assoc]
    have hthere : sub ∈ standing (before ++ more) := h.fair hsplit
    have hnodup : ((issued (before ++ more)).map (·.id)).Nodup := by
      have hall := h.nodup
      rw [hsplit, issued_append (before ++ more), List.map_append] at hall
      exact hall.of_append_left
    exact gone_for_good hnodup hissued hgone (hid ▸ List.mem_map_of_mem hthere)

/-- An id that a deed leaves without its subscription is heard of no more. -/
theorem silent_after (h : Chronicle m ds) {before after : List (Deed η α)} {d : Deed η α}
    (hds : ds = before ++ d :: after) {id : Nat} (hissued : id ∈ (issued before).map (·.id))
    (hnone : d.issued? = none) (hends : ∀ sub ∈ standing before, sub.id = id → d.ends sub = true) :
    after.countP (Deed.runs id) = 0 := by
  have hsplit : ds = (before ++ [d]) ++ after := by rw [hds, List.append_assoc, List.singleton_append]
  refine h.silent hsplit ?_ ?_
  · rw [issued_append, List.map_append]
    exact List.mem_append_left _ hissued
  · rw [standing_concat, Deed.after, hnone, Option.toList_none, List.append_nil]
    intro hmem
    obtain ⟨sub, hsub, hid⟩ := List.mem_map.1 hmem
    obtain ⟨hold, hkept⟩ := List.mem_filter.1 hsub
    rw [hends sub hold hid] at hkept
    cases hkept

theorem once_fires_once (h : Chronicle m ds) {sub : Subscription η} (hsub : sub ∈ issued ds) (honce : sub.once = true) :
    ds.countP (Deed.runs sub.id) ≤ 1 := by
  cases hfirst : ds.find? (Deed.runs sub.id) with
  | none =>
    have hzero : ds.countP (Deed.runs sub.id) = 0 := by
      rw [List.countP_eq_zero]
      exact List.find?_eq_none.1 hfirst
    omega
  | some d =>
    obtain ⟨hruns, before, after, hds, hbefore⟩ := List.find?_eq_some_iff_append.1 hfirst
    cases d with
    | did u start a => cases hruns
    | ran taken event =>
      have hid : taken.id = sub.id := by simpa [Deed.runs] using hruns
      have hthere : taken ∈ standing before := h.fair hds
      have htaken : taken = sub := by
        refine List.inj_on_of_nodup_map h.nodup ?_ hsub hid
        rw [hds, issued_append]
        exact List.mem_append_left _ (mem_issued_of_standing hthere)
      have hafter : after.countP (Deed.runs sub.id) = 0 := by
        refine h.silent_after hds ?_ rfl fun other _ hother => ?_
        · exact hid ▸ List.mem_map_of_mem (mem_issued_of_standing hthere)
        · simp [Deed.ends, htaken, honce, hother]
      have hzero : before.countP (Deed.runs sub.id) = 0 := by
        rw [List.countP_eq_zero]
        intro e he
        simpa using hbefore e he
      rw [hds, List.countP_append, List.countP_cons, hzero, hafter, hruns]
      simp

theorem off_ends (h : Chronicle m ds) {before after : List (Deed η α)} {id : Nat} {start : Signal η}
    (hds : ds = before ++ .did (.off id) start true :: after) : after.countP (Deed.runs id) = 0 := by
  obtain ⟨hstart, hthere⟩ : start.subscriptions = standing before ∧ true = start.isSubscribed id :=
    h.fair hds
  obtain ⟨sub, hfound⟩ := Option.isSome_iff_exists.1 hthere.symm
  obtain ⟨hsub, rfl⟩ := mem_of_find? hfound
  rw [hstart] at hsub
  refine h.silent_after hds (List.mem_map_of_mem (mem_issued_of_standing hsub)) rfl fun other _ hother => ?_
  simpa [Deed.ends] using hother

theorem clear_ends (h : Chronicle m ds) {before after : List (Deed η α)} {start : Signal η}
    (hds : ds = before ++ .did .clear start () :: after) {sub : Subscription η} (hsub : sub ∈ issued before) :
    after.countP (Deed.runs sub.id) = 0 :=
  h.silent_after hds (List.mem_map_of_mem hsub) rfl fun _ _ _ => rfl

theorem off_answer (h : Chronicle m ds) {before after : List (Deed η α)} {id : Nat} {start : Signal η} {b : Bool}
    (hds : ds = before ++ .did (.off id) start b :: after) : b = true ↔ ∃ sub ∈ standing before, sub.id = id := by
  obtain ⟨hstart, hb⟩ : start.subscriptions = standing before ∧ b = start.isSubscribed id := h.fair hds
  rw [hb, ← hstart, isSubscribed, find?, List.find?_isSome]
  simp

end Chronicle

/-! ## Whole runs -/

structure Lifetimes (m : (uses η α).Moment) (ds : List (Deed η α)) : Prop where
  /-- The deeds are what was seen. -/
  events : ds.map Deed.event = m.trace
  issued_ids : (issued ds).map (·.id) = List.range' 1 (m.state.nextId - 1)
  /-- A handler is run for a subscription that was made with it and has not ended. -/
  ran_standing : ∀ before sub event after, ds = before ++ .ran sub event :: after →
    sub ∈ issued before ∧ sub ∈ standing before
  once_fires_once : ∀ sub ∈ issued ds, sub.once = true → ds.countP (Deed.runs sub.id) ≤ 1
  off_ends : ∀ before id start after, ds = before ++ .did (.off id) start true :: after →
    after.countP (Deed.runs id) = 0
  clear_ends : ∀ before start after, ds = before ++ .did .clear start () :: after →
    ∀ sub ∈ issued before, after.countP (Deed.runs sub.id) = 0
  off_answer : ∀ before id start b after, ds = before ++ .did (.off id) start b :: after →
    (b = true ↔ ∃ sub ∈ standing before, sub.id = id)
  off_returns : ∀ id, m.enter (.off id) =
    { m with state := m.state.remove id, trace := m.trace ++ [.ended (.off id) m.state (m.state.isSubscribed id)] }
  subscribed : m.state.subscriptions = standing ds
  count : m.state.count + (ds.map Deed.ended).sum = (issued ds).length

/-- In whatever order a signal is used, also by the handlers that it runs: a one-shot has one turn at
most, nobody has a turn after a removal or a clearing, and those who are subscribed are those who
subscribed without those whose subscription has ended. -/
theorem subscription_lifetimes {m : (uses η α).Moment} (h : (uses η α).Reachable {} m) : ∃ ds, Lifetimes m ds := by
  obtain ⟨ds, hds⟩ := chronicle h
  refine ⟨ds, hds.events, hds.issued_ids, ?_, fun sub => hds.once_fires_once, fun _ _ _ _ => hds.off_ends,
    fun _ _ _ heq _ => hds.clear_ends heq, fun _ _ _ _ _ => hds.off_answer, fun _ => rfl, hds.subscribed, hds.count⟩
  intro before sub event after heq
  have hthere : sub ∈ standing before := hds.fair heq
  exact ⟨Chronicle.mem_issued_of_standing hthere, hthere⟩

def calledBy : (uses η α).Event → Option (η × α)
  | .called c => some c
  | .ended .. => none

/-- Two subscriptions, the second a one-shot. On the event 7 the first handler removes its own and
emits 8; the handler of the one-shot, which runs on it, emits 9. -/
theorem subscription_lifetimes_amid_emissions : ∃ m : (uses Nat Nat).Moment, (uses Nat Nat).Reachable {} m ∧
    m.stack = [] ∧ m.trace.filterMap calledBy = [(10, 7), (20, 8)] ∧ m.state.count = 0 ∧ ∃ ds, Lifetimes m ds := by
  have hnew : (uses Nat Nat).Reachable {} (((⟨{}, [], []⟩ : (uses Nat Nat).Moment).enter (.on 10)).enter (.once 20)) :=
    (Operations.Reachable.init.enter _).enter _
  have hninth := ((((hnew.enter (.emit 7)).enter (.off 1)).enter (.emit 8)).enter (.emit 9))
  have heighth := hninth.step (.reply _ _ _ _ ())
  have hseventh := heighth.step (.reply _ _ _ _ ())
  exact ⟨_, hseventh, rfl, rfl, rfl, subscription_lifetimes hseventh⟩

end LanguageClient.Signal
