import LanguageClient.Proofs.Reentry.Course
import LanguageClient.Proofs.Signal.Uses
/-
  LanguageClient.Proofs.Signal.Emission — whose handlers an emission runs.

  An emission goes through the subscriptions of its start, in their order. Each time it gets
  the word it passes over those who are gone by then and runs the handler of the first who is
  still there (`Turn`); when nobody is left it ends. Since nobody who has gone comes back,
  whoever is missing at some moment gets no turn after it (`emission`).
-/

namespace LanguageClient.Signal

variable {η α : Type}

structure Turn (η : Type) where
  /-- The signal as it was when the emission got the word. -/
  found : Signal η
  /-- Those who were gone. -/
  passed : List (Subscription η)
  /-- Whose handler was run. -/
  taken : Subscription η

namespace Turn

def covered (ts : List (Turn η)) : List (Subscription η) := ts.flatMap fun t => t.passed ++ [t.taken]

/-- Those who were passed over were gone, and the one whose handler was run was there. -/
structure Fair (t : Turn η) : Prop where
  passed : ∀ sub ∈ t.passed, t.found.isSubscribed sub.id = false
  taken : t.taken ∈ t.found.subscriptions

end Turn

/-- An emission to `subs` has made the calls of the log in the turns `ts` and has yet to come to `rest`. -/
structure Emission (event : α) (subs : List (Subscription η)) (log : List (Signal η × (η × α))) (ts : List (Turn η))
    (rest : List (Subscription η)) : Prop where
  log : log = ts.map fun t => (t.found, t.taken.handler, event)
  order : subs = Turn.covered ts ++ rest
  fair : ∀ t ∈ ts, t.Fair

namespace Emission

variable {event : α} {subs rest rest' : List (Subscription η)} {log log' : List (Signal η × (η × α))}
  {ts ts' : List (Turn η)}

theorem nil (event : α) (subs : List (Subscription η)) : Emission event subs [] [] subs :=
  ⟨rfl, rfl, fun _ h => by cases h⟩

theorem append (h : Emission event subs log ts rest) (h' : Emission event rest log' ts' rest') :
    Emission event subs (log ++ log') (ts ++ ts') rest' := by
  refine ⟨?_, ?_, fun t ht => ?_⟩
  · rw [h.log, h'.log, List.map_append]
  · rw [h.order, h'.order, Turn.covered, Turn.covered, Turn.covered, List.flatMap_append, List.append_assoc]
  · rcases List.mem_append.1 ht with ht | ht
    · exact h.fair t ht
    · exact h'.fair t ht

theorem taken_mem (h : Emission event subs log ts rest) {t : Turn η} (ht : t ∈ ts) : t.taken ∈ subs := by
  rw [h.order]
  exact List.mem_append_left _ (List.mem_flatMap.2 ⟨t, ht, by simp⟩)

theorem rest_subset (h : Emission event subs log ts rest) {sub : Subscription η} (hsub : sub ∈ rest) : sub ∈ subs := by
  rw [h.order]
  exact List.mem_append_right _ hsub

/-- Handlers are run in the order of their subscriptions. -/
theorem taken_sublist (h : Emission event subs log ts rest) : (ts.map (·.taken)).Sublist subs := by
  have hcovered : ∀ ts : List (Turn η), (ts.map (·.taken)).Sublist (Turn.covered ts) := by
    intro ts
    induction ts with
    | nil => exact List.Sublist.refl _
    | cons t ts ih =>
      rw [List.map_cons, Turn.covered, List.flatMap_cons, List.append_assoc]
      exact (ih.cons_cons t.taken).trans (List.sublist_append_right t.passed _)
  rw [h.order]
  exact (hcovered ts).trans (List.sublist_append_left _ rest)

end Emission

/-! ## The next turn -/

/-- Whoever is found under the id of a subscription of the start is that subscription. -/
theorem eq_of_later {start s : Signal η} (hstart : Ordered start) (h : Later start s) {a b : Subscription η}
    (ha : a ∈ start.subscriptions) (hb : b ∈ s.subscriptions) (hid : a.id = b.id) : a = b := by
  have hb' : b ∈ start.subscriptions := h.kept b hb (hid ▸ hstart.below a ha)
  exact hstart.eq_of_id ha hb' hid

/-- Given the word, an emission comes to its end, having found nobody who is left, or to the next
who is still there. -/
theorem advance_rest {start s : Signal η} (hstart : Ordered start) (h : Later start s) {rest : List (Subscription η)}
    (hrest : ∀ sub ∈ rest, sub ∈ start.subscriptions) (event : α) {β : Type} (a : β) :
    ((∀ sub ∈ rest, s.isSubscribed sub.id = false) ∧
      (turnsThen event (rest.map (·.id)) a).advance s = (.ended a, s)) ∨
    ∃ t rest', Emission event rest [(s, t.taken.handler, event)] [t] rest' ∧ t.found = s ∧
      (turnsThen event (rest.map (·.id)) a).advance s = (.waiting (t.taken.handler, event) fun _ =>
        turnsThen event (rest'.map (·.id)) a, s.after t.taken) := by
  rw [turnsThen, Routine.advance_bind]
  rcases advance_turns event (rest.map (·.id)) s with ⟨hgone, hadv⟩ | ⟨passed, sub, left, hids, hpassed, hsub, hadv⟩
  · refine Or.inl ⟨fun sub hsub => hgone _ (List.mem_map_of_mem hsub), ?_⟩
    rw [hadv]
    rfl
  · obtain ⟨passed', tail, rfl, rfl, htail⟩ := List.map_eq_append_iff.1 hids
    obtain ⟨sub', rest', rfl, hid, rfl⟩ := List.map_eq_cons_iff.1 htail
    have hsame : sub' = sub := eq_of_later hstart h (hrest sub' (by simp)) hsub hid
    subst hsame
    refine Or.inr ⟨⟨s, passed', sub'⟩, rest', ⟨rfl, ?_, ?_⟩, rfl, ?_⟩
    · simp [Turn.covered]
    · intro t ht
      rw [List.mem_singleton.1 ht]
      exact ⟨fun sub hsub => hpassed _ (List.mem_map_of_mem hsub), hsub⟩
    · rw [hadv]

/-! ## While an emission goes on -/

structure Waits (event : α) (start : Signal η) (base : List (uses η α).Suspended) (rest : List (Subscription η))
    (m : (uses η α).Moment) : Prop where
  going : Going m
  later : Later start m.state
  subset : ∀ sub ∈ rest, sub ∈ start.subscriptions
  frame : ∃ above f, m.stack = above ++ f :: base ∧ Owes event (rest.map (·.id)) f

/-- Whatever is done above it, an emission waits on. -/
theorem Waits.mono {event : α} {start : Signal η} {base : List (uses η α).Suspended} {rest : List (Subscription η)}
    {m m' : (uses η α).Moment} (h : Waits event start base rest m) (hgoing : Going m') (hlater : Later m.state m'.state)
    {above : List (uses η α).Suspended} {f : (uses η α).Suspended} (hstack : m'.stack = above ++ f :: base)
    (howes : Owes event (rest.map (·.id)) f) : Waits event start base rest m' :=
  ⟨hgoing, h.later.trans hlater, h.subset, above, f, hstack, howes⟩

/-- When nothing is above it, the emission is the operation on top. -/
theorem Waits.owes {event : α} {start s : Signal η} {base : List (uses η α).Suspended} {rest : List (Subscription η)}
    {f : (uses η α).Suspended} {trace : List (uses η α).Event}
    (h : Waits event start base rest ⟨s, f :: base, trace⟩) : Owes event (rest.map (·.id)) f := by
  obtain ⟨above, g, hstack, howes⟩ := h.frame
  cases above with
  | nil =>
    obtain ⟨rfl, _⟩ := List.cons.inj hstack
    exact howes
  | cons f' above =>
    have hlen := congrArg List.length hstack
    simp only [List.length_append, List.length_cons] at hlen
    omega

/-- What an emission does while it waits above `base`: it gives the next their turn. -/
theorem Waits.meanwhile {event : α} {start : Signal η} (hstart : Ordered start) {base : List (uses η α).Suspended}
    {rest : List (Subscription η)} {m m' : (uses η α).Moment} (h : Waits event start base rest m)
    {more : List (Signal η × (Handling η α).Call)} (hm : Operations.Meanwhile base m more m') :
    ∃ ts rest', Emission event rest more ts rest' ∧ (∀ t ∈ ts, Later m.state t.found) ∧ Later m.state m'.state ∧
      Waits event start base rest' m' := by
  induction hm with
  | start => exact ⟨[], rest, .nil event rest, (fun _ ht => by cases ht), Later.refl _, h⟩
  | @enter more m' _ u ih =>
    obtain ⟨ts, rest', hem, hfound, hlater, hw⟩ := ih
    obtain ⟨above, f, hstack, howes⟩ := hw.frame
    obtain ⟨new, hnew⟩ := m'.proceed_stack u m'.state u.body
    obtain ⟨hgoing, hstep⟩ := hw.going.enter u
    have hstack' : (m'.enter u).stack = (new ++ above) ++ f :: base := by
      rw [List.append_assoc, ← hstack]
      exact hnew
    exact ⟨ts, rest', hem, hfound, hlater.trans hstep, hw.mono hgoing hstep hstack' howes⟩
  | @above more s g stack trace _ hlong r ih =>
    obtain ⟨ts, rest', hem, hfound, hlater, hw⟩ := ih
    obtain ⟨above, f, hstack, howes⟩ := hw.frame
    cases above with
    | nil =>
      obtain ⟨rfl, rfl⟩ := List.cons.inj hstack
      exact absurd hlong (Nat.lt_irrefl _)
    | cons g' above =>
      obtain ⟨rfl, rfl⟩ := List.cons.inj hstack
      obtain ⟨new, hnew⟩ := Operations.Moment.proceed_stack ⟨s, above ++ f :: base, trace⟩ g.op g.start (g.next r)
      obtain ⟨hgoing, hstep⟩ := hw.going.reply r
      rw [← List.append_assoc] at hnew
      exact ⟨ts, rest', hem, hfound, hlater.trans hstep, hw.mono hgoing hstep hnew howes⟩
  | @reply more s s' g trace r c next _ hadv ih =>
    obtain ⟨ts, rest', hem, hfound, hlater, hw⟩ := ih
    obtain ⟨a, hnext⟩ := hw.owes
    obtain ⟨hgoing, hstep⟩ := hw.going.reply r
    rw [hnext r] at hadv
    rcases advance_rest hstart hw.later hw.subset event a with ⟨_, hended⟩ | ⟨t, rest'', hturn, hword, hwaiting⟩
    · rw [hended] at hadv
      cases hadv
    · rw [hwaiting] at hadv
      cases hadv
      let f : (uses η α).Suspended :=
        ⟨g.op, g.start, (t.taken.handler, event), fun _ => turnsThen event (rest''.map (·.id)) a⟩
      have hstack : (Operations.Moment.proceed ⟨s, base, trace⟩ g.op g.start (g.next r)).stack = f :: base := by
        rw [hnext r, Operations.Moment.proceed_of_waiting hwaiting]
      refine ⟨ts ++ [t], rest'', hem.append hturn, fun u hu => ?_, hlater.trans hstep, hgoing, hw.later.trans hstep,
        fun sub hsub => hw.subset sub (hturn.rest_subset hsub), [], f, hstack, a, fun _ => rfl⟩
      rcases List.mem_append.1 hu with hu | hu
      · exact hfound u hu
      · rw [List.mem_singleton.1 hu, hword]
        exact hlater

/-- The first turn of an emission. -/
theorem waits_enter {m : (uses η α).Moment} (h : Going m) {event : α} {c : η × α} {s : Signal η}
    {next : Unit → Routine (Signal η) (Handling η α) Unit}
    (hadv : (Signal.emit event).advance m.state = (.waiting c next, s)) :
    ∃ t rest, Emission event m.state.subscriptions [(m.state, c)] [t] rest ∧
      Waits event m.state m.stack rest (m.enter (.emit event)) := by
  obtain ⟨hgoing, hlater⟩ := h.enter (.emit event)
  rw [body_emit, ids] at hadv
  rcases advance_rest h.ordered (Later.refl _) (fun _ hsub => hsub) event () with ⟨_, hended⟩ | ⟨t, rest, hturn, _, hwaiting⟩
  · rw [hended] at hadv
    cases hadv
  · rw [hwaiting] at hadv
    cases hadv
    let f : (uses η α).Suspended :=
      ⟨.emit event, m.state, (t.taken.handler, event), fun _ => turnsThen event (rest.map (·.id)) ()⟩
    have hstack : (m.enter (.emit event)).stack = f :: m.stack := by
      rw [Operations.Moment.enter, Operations.Moment.proceed_of_waiting ((body_emit event m.state).trans hwaiting)]
    exact ⟨t, rest, hturn, hgoing, hlater, fun sub hsub => hturn.rest_subset hsub, [], f, hstack, (), fun _ => rfl⟩

/-- At every moment of an emission the turns that it has given tell its calls. -/
theorem emission_of_course {m m' : (uses η α).Moment} (h : Going m) {event : α}
    {log : List (Signal η × (Handling η α).Call)} (hc : Operations.Course m (.emit event) log m') :
    ∃ ts rest, Emission event m.state.subscriptions log ts rest ∧ Waits event m.state m.stack rest m' := by
  obtain ⟨hadv, hmean⟩ := hc
  obtain ⟨t, rest, hfirst, hw⟩ := waits_enter h hadv
  obtain ⟨ts, rest', hmore, _, _, hw'⟩ := hw.meanwhile h.ordered hmean
  exact ⟨t :: ts, rest', hfirst.append hmore, hw'⟩

/-- When an emission has ended, nobody is left who would have had a turn yet. -/
theorem emission_of_ended {m m' : (uses η α).Moment} (h : Going m) {event : α}
    {log : List (Signal η × (Handling η α).Call)} {found : Signal η}
    (he : Operations.Ended m (.emit event) log found m') :
    ∃ ts rest, Emission event m.state.subscriptions log ts rest ∧ ∀ sub ∈ rest, found.isSubscribed sub.id = false := by
  cases he with
  | enter hadv =>
    have hbody := (body_emit event m.state).symm.trans hadv
    rcases advance_rest h.ordered (Later.refl _) (fun _ hsub => hsub) event () with ⟨hgone, _⟩ | ⟨_, _, _, _, hwaiting⟩
    · exact ⟨[], m.state.subscriptions, .nil event _, hgone⟩
    · rw [ids, hwaiting] at hbody
      cases hbody
  | reply hc hadv =>
    obtain ⟨ts, rest, hem, hw⟩ := emission_of_course h hc
    obtain ⟨a, hnext⟩ := hw.owes
    rw [hnext] at hadv
    rcases advance_rest h.ordered hw.later hw.subset event a with ⟨hgone, _⟩ | ⟨_, _, _, _, hwaiting⟩
    · exact ⟨ts, rest, hem, hgone⟩
    · rw [hwaiting] at hadv
      cases hadv

/-- An emission runs the handlers of those who were subscribed when it began and still are when
their turn comes: in the order of their subscriptions, each once, and nobody else's. Whoever is
missing at some moment of the emission gets no turn after it. -/
theorem emission_turns {m : (uses η α).Moment} (h : (uses η α).Reachable {} m) (event : α) :
    m.state.ids.Pairwise (· < ·) ∧
    (∀ log m', Operations.Course m (.emit event) log m' →
      ∃ ts rest, Emission event m.state.subscriptions log ts rest ∧
        (ts.map (·.taken)).Sublist m.state.subscriptions) ∧
    (∀ log found m', Operations.Ended m (.emit event) log found m' →
      ∃ ts rest, Emission event m.state.subscriptions log ts rest ∧
        (ts.map (·.taken)).Sublist m.state.subscriptions ∧ ∀ sub ∈ rest, found.isSubscribed sub.id = false) ∧
    ∀ log m₁ more m₂ ts rest, Operations.Course m (.emit event) log m₁ → Operations.Meanwhile m.stack m₁ more m₂ →
      Emission event m.state.subscriptions (log ++ more) ts rest →
      ∀ t ∈ ts.drop log.length, t.taken ∈ m₁.state.subscriptions := by
  have hgoing := going h
  refine ⟨hgoing.ordered.increasing, ?_, ?_, ?_⟩
  · intro log m' hc
    obtain ⟨ts, rest, hem, _⟩ := emission_of_course hgoing hc
    exact ⟨ts, rest, hem, hem.taken_sublist⟩
  · intro log found m' he
    obtain ⟨ts, rest, hem, hgone⟩ := emission_of_ended hgoing he
    exact ⟨ts, rest, hem, hem.taken_sublist, hgone⟩
  · intro log m₁ more m₂ ts rest hc hmean hem t ht
    obtain ⟨_, _, _, hw⟩ := emission_of_course hgoing hc
    obtain ⟨ts', _, hmore, hfound, _, _⟩ := hw.meanwhile hgoing.ordered hmean
    -- the turn was found in a state that came after `m₁`
    have hdrop : (ts.drop log.length).map (fun t => (t.found, t.taken.handler, event)) = more := by
      rw [List.map_drop, ← hem.log, List.drop_left]
    obtain ⟨t', ht', heq⟩ := List.mem_map.1 (hmore.log ▸ hdrop ▸ List.mem_map_of_mem ht)
    have hlater : Later m₁.state t.found := (Prod.mk.inj heq).1 ▸ hfound t' ht'
    have hmem : t ∈ ts := List.mem_of_mem_drop ht
    have hid : t.taken.id < m₁.state.nextId :=
      Nat.lt_of_lt_of_le (hgoing.ordered.below _ (hem.taken_mem hmem)) hw.later.nextId_le
    exact hlater.kept t.taken (hem.fair t hmem).taken hid

def twoSubscribed : (uses Nat Nat).Moment :=
  ((⟨{}, [], []⟩ : (uses Nat Nat).Moment).enter (.on 10)).enter (.once 20)

/-- The first handler emits again, and the emission inside runs both handlers. When the one
outside gets the word again, the second subscription is gone. -/
theorem emission_turns_amid_another : (uses Nat Nat).Reachable {} twoSubscribed ∧
    (∃ found m', Operations.Ended twoSubscribed (.emit 7) [(twoSubscribed.state, (10, 7))] found m' ∧
      m'.state.ids = [1] ∧ m'.trace.length = 7) ∧
    ∀ log found m', Operations.Ended twoSubscribed (.emit 7) log found m' →
      ∃ ts rest, Emission 7 twoSubscribed.state.subscriptions log ts rest ∧
        (ts.map (·.taken)).Sublist twoSubscribed.state.subscriptions ∧
        ∀ sub ∈ rest, found.isSubscribed sub.id = false := by
  have h : (uses Nat Nat).Reachable {} twoSubscribed := (Operations.Reachable.init.enter _).enter _
  -- the first handler has the word, and the emission inside begins and ends above it
  have hfirst : Operations.Meanwhile [] (twoSubscribed.enter (.emit 7)) [] ((twoSubscribed.enter (.emit 7)).enter (.emit 8)) :=
    .enter .start _
  have hinside := (hfirst.above (by decide) ()).above (by decide) ()
  exact ⟨h, ⟨_, _, .reply (r := ()) (.intro rfl hinside) rfl, rfl, rfl⟩, (emission_turns h 7).2.2.1⟩

end LanguageClient.Signal
