import LanguageClient.Proofs.Reentry
/-
  LanguageClient.Proofs.Reentry.Course — what one operation does, from its entry to its end.

  While an operation waits, others are entered and come to their end above it. What it does
  itself is told by its log: each state in which it got the word, with the call that it made
  then.

  - `Meanwhile base`: steps during which the operation right above `base` does not end.
  - `Course`: an operation was entered and still waits; `Ended`: it was entered and has ended.
  - `Suspended.Goes`: what an operation does itself is what its routine does, given replies.
  - `Meanwhile.calls`, `Ended.calls`: the calls that are seen while an operation is under way.
-/

namespace LanguageClient.Operations

variable {σ : Type} {S : Surface} {O : Operations σ S}

/-- Going on adds to the operations that wait. -/
theorem Moment.proceed_stack (m : O.Moment) (op : O.Op) (start : σ) (p : Routine σ S (O.Answer op)) :
    ∃ new, (m.proceed op start p).stack = new ++ m.stack := by
  cases h : p.advance m.state with
  | mk pause s =>
    cases pause with
    | ended a => exact ⟨[], by rw [proceed_of_ended h]; rfl⟩
    | waiting c next => exact ⟨[_], by rw [proceed_of_waiting h]; rfl⟩

inductive Meanwhile (base : List O.Suspended) (m : O.Moment) : List (σ × S.Call) → O.Moment → Prop
  | start : Meanwhile base m [] m
  | enter {log : List (σ × S.Call)} {m' : O.Moment} : Meanwhile base m log m' → (op : O.Op) →
      Meanwhile base m log (m'.enter op)
  | above {log : List (σ × S.Call)} {s : σ} {f : O.Suspended} {stack : List O.Suspended} {trace : List O.Event} :
      Meanwhile base m log ⟨s, f :: stack, trace⟩ → base.length < stack.length → (r : S.Reply f.call) →
      Meanwhile base m log (Moment.proceed ⟨s, stack, trace⟩ f.op f.start (f.next r))
  | reply {log : List (σ × S.Call)} {s s' : σ} {f : O.Suspended} {trace : List O.Event} {r : S.Reply f.call}
      {c : S.Call} {next : S.Reply c → Routine σ S (O.Answer f.op)} :
      Meanwhile base m log ⟨s, f :: base, trace⟩ → (f.next r).advance s = (.waiting c next, s') →
      Meanwhile base m (log ++ [(s, c)]) (Moment.proceed ⟨s, base, trace⟩ f.op f.start (f.next r))

/-- `op` was entered at the moment `m`, has made the calls of the log, and waits. -/
inductive Course (m : O.Moment) (op : O.Op) : List (σ × S.Call) → O.Moment → Prop
  | intro {log : List (σ × S.Call)} {m' : O.Moment} {s : σ} {c : S.Call} {next : S.Reply c → Routine σ S (O.Answer op)} :
      (O.body op).advance m.state = (.waiting c next, s) → Meanwhile m.stack (m.enter op) log m' →
      Course m op ((m.state, c) :: log) m'

/-- `op` was entered at the moment `m`, has made the calls of the log, and has ended; `found` is
the state in which it got the word for the last time. -/
inductive Ended (m : O.Moment) (op : O.Op) : List (σ × S.Call) → σ → O.Moment → Prop
  | enter {s : σ} {a : O.Answer op} : (O.body op).advance m.state = (.ended a, s) → Ended m op [] m.state (m.enter op)
  | reply {log : List (σ × S.Call)} {s s' : σ} {f : O.Suspended} {trace : List O.Event} {r : S.Reply f.call}
      {a : O.Answer f.op} : Course m op log ⟨s, f :: m.stack, trace⟩ → (f.next r).advance s = (.ended a, s') →
      Ended m op log s (Moment.proceed ⟨s, m.stack, trace⟩ f.op f.start (f.next r))

theorem Meanwhile.steps {base : List O.Suspended} {m m' : O.Moment} {log : List (σ × S.Call)}
    (h : Meanwhile base m log m') : Relation.ReflTransGen Step m m' := by
  induction h with
  | start => exact .refl
  | enter _ op ih => exact ih.tail (.enter _ op)
  | above _ _ r ih => exact ih.tail (.reply _ _ _ _ r)
  | reply _ _ ih => exact ih.tail (.reply _ _ _ _ _)

theorem Course.steps {m m' : O.Moment} {op : O.Op} {log : List (σ × S.Call)} (h : Course m op log m') :
    Relation.ReflTransGen Step m m' := by
  cases h with
  | intro _ hmean => exact .head (.enter m op) hmean.steps

theorem Ended.steps {m m' : O.Moment} {op : O.Op} {log : List (σ × S.Call)} {found : σ} (h : Ended m op log found m') :
    Relation.ReflTransGen Step m m' := by
  cases h with
  | enter _ => exact .single (.enter m op)
  | reply hcourse _ => exact hcourse.steps.tail (.reply _ _ _ _ _)

theorem Meanwhile.trans {base : List O.Suspended} {m₀ m₁ m₂ : O.Moment} {log more : List (σ × S.Call)}
    (h : Meanwhile base m₀ log m₁) (h' : Meanwhile base m₁ more m₂) : Meanwhile base m₀ (log ++ more) m₂ := by
  induction h' with
  | start => rw [List.append_nil]; exact h
  | enter _ op ih => exact ih.enter op
  | above _ hlt r ih => exact ih.above hlt r
  | reply _ hadv ih => rw [← List.append_assoc]; exact ih.reply hadv

theorem Course.trans {m m₁ m₂ : O.Moment} {op : O.Op} {log more : List (σ × S.Call)} (h : Course m op log m₁)
    (h' : Meanwhile m.stack m₁ more m₂) : Course m op (log ++ more) m₂ := by
  cases h with
  | intro hadv hrest => exact .intro hadv (hrest.trans h')

/-! ## By itself -/

/-- Given replies, an operation goes on from one call to another, whatever state it finds. -/
inductive Suspended.Goes (f : O.Suspended) : List (σ × S.Call) → O.Suspended → Prop
  | start : Goes f [] f
  | reply {g : O.Suspended} {log : List (σ × S.Call)} {s s' : σ} {r : S.Reply g.call} {c : S.Call}
      {next : S.Reply c → Routine σ S (O.Answer g.op)} :
      Goes f log g → (g.next r).advance s = (.waiting c next, s') → Goes f (log ++ [(s, c)]) ⟨g.op, g.start, c, next⟩

/-- The operation right above `base` is the innermost one when nothing waits above it. -/
theorem innermost {f g : O.Suspended} {above base : List O.Suspended} (h : f :: base = above ++ g :: base) :
    above = [] ∧ f = g := by
  have hshort : above = [] := by
    have hlen := congrArg List.length h
    simp only [List.length_append, List.length_cons] at hlen
    exact List.eq_nil_of_length_eq_zero (by omega)
  rw [hshort] at h
  exact ⟨hshort, (List.cons.inj h).1⟩

/-- Whatever is done above it, an operation waits until it gets the word. -/
theorem Meanwhile.goes {base : List O.Suspended} {m m' : O.Moment} {log : List (σ × S.Call)}
    (h : Meanwhile base m log m') {f : O.Suspended} (hm : m.stack = f :: base) :
    ∃ above g, m'.stack = above ++ g :: base ∧ f.Goes log g := by
  induction h with
  | start => exact ⟨[], f, hm, .start⟩
  | @enter log m' _ op ih =>
    obtain ⟨above, g, hstack, hgoes⟩ := ih
    obtain ⟨new, hnew⟩ := m'.proceed_stack op m'.state (O.body op)
    rw [hstack, ← List.append_assoc] at hnew
    exact ⟨new ++ above, g, hnew, hgoes⟩
  | @above log s k stack trace _ hlong r ih =>
    obtain ⟨above, g, hstack, hgoes⟩ := ih
    cases above with
    | nil =>
      obtain ⟨rfl, rfl⟩ := List.cons.inj hstack
      exact absurd hlong (Nat.lt_irrefl _)
    | cons k' above =>
      obtain ⟨rfl, rfl⟩ := List.cons.inj hstack
      obtain ⟨new, hnew⟩ := Moment.proceed_stack ⟨s, above ++ g :: base, trace⟩ k.op k.start (k.next r)
      rw [← List.append_assoc] at hnew
      exact ⟨new ++ above, g, hnew, hgoes⟩
  | @reply log s s' k trace r c next _ hadv ih =>
    obtain ⟨above, g, hstack, hgoes⟩ := ih
    obtain ⟨rfl, rfl⟩ := innermost hstack
    refine ⟨[], ⟨k.op, k.start, c, next⟩, ?_, hgoes.reply hadv⟩
    rw [Moment.proceed_of_waiting hadv]
    rfl

/-- An operation that still waits goes on from its first call. -/
theorem Course.goes {m m' : O.Moment} {op : O.Op} {log : List (σ × S.Call)} (h : Course m op log m') :
    ∃ c next s more above g, (O.body op).advance m.state = (.waiting c next, s) ∧ log = (m.state, c) :: more ∧
      m'.stack = above ++ g :: m.stack ∧ Suspended.Goes ⟨op, m.state, c, next⟩ more g := by
  obtain ⟨hadv, hmean⟩ := h
  have hstack : (m.enter op).stack = ⟨op, m.state, _, _⟩ :: m.stack :=
    congrArg Moment.stack (Moment.proceed_of_waiting hadv)
  obtain ⟨above, g, hg, hgoes⟩ := hmean.goes hstack
  exact ⟨_, _, _, _, above, g, hadv, rfl, hg, hgoes⟩

/-- An operation has ended at once, or on the reply to the last call that it went on to. -/
theorem Ended.goes {m m' : O.Moment} {op : O.Op} {log : List (σ × S.Call)} {found : σ} (h : Ended m op log found m') :
    (∃ a s, (O.body op).advance m.state = (.ended a, s) ∧ log = [] ∧ m' = m.enter op) ∨
    ∃ c next s more, (O.body op).advance m.state = (.waiting c next, s) ∧ log = (m.state, c) :: more ∧
      ∃ g r a s' trace, Suspended.Goes ⟨op, m.state, c, next⟩ more g ∧ (g.next r).advance found = (.ended a, s') ∧
        m' = Moment.proceed ⟨found, m.stack, trace⟩ g.op g.start (g.next r) := by
  cases h with
  | enter hadv => exact Or.inl ⟨_, _, hadv, rfl, rfl⟩
  | @reply _ s s' f trace r a hc hadv =>
    obtain ⟨c, next, s₁, more, above, g, hfirst, hlog, hstack, hgoes⟩ := hc.goes
    obtain ⟨rfl, rfl⟩ := innermost hstack
    exact Or.inr ⟨c, next, s₁, more, hfirst, hlog, f, r, a, s', trace, hgoes, hadv, rfl⟩

/-! ## What is seen of it -/

def Event.call? : O.Event → Option S.Call
  | called c => some c
  | ended .. => none

/-- Going on adds one event: the call that is made, if there is one. -/
theorem Moment.proceed_trace (m : O.Moment) (op : O.Op) (start : σ) (p : Routine σ S (O.Answer op)) :
    ∃ e, (m.proceed op start p).trace = m.trace ++ [e] ∧
      ∀ c next s, p.advance m.state = (.waiting c next, s) → Event.call? e = some c := by
  cases h : p.advance m.state with
  | mk pause s =>
    cases pause with
    | ended a => exact ⟨_, by rw [proceed_of_ended h], fun c next s hw => by cases hw⟩
    | waiting c next =>
      refine ⟨.called c, by rw [proceed_of_waiting h], fun c' next' s' hw => ?_⟩
      cases hw
      rfl

/-- The calls that are made meanwhile are those of the operation and others. -/
theorem Meanwhile.calls {base : List O.Suspended} {m m' : O.Moment} {log : List (σ × S.Call)}
    (h : Meanwhile base m log m') : ∃ during others, m'.trace = m.trace ++ during ∧
      (during.filterMap Event.call?).Perm (log.map (·.2) ++ others) := by
  have hother : ∀ {log : List (σ × S.Call)} {during : List O.Event} {others : List S.Call} (e : O.Event),
      (during.filterMap Event.call?).Perm (log.map (·.2) ++ others) →
      ((during ++ [e]).filterMap Event.call?).Perm (log.map (·.2) ++ (others ++ (Event.call? e).toList)) := by
    intro log during others e hperm
    rw [List.filterMap_append, ← List.append_assoc]
    refine hperm.append ?_
    cases hc : Event.call? e with
    | none => rw [List.filterMap_cons_none hc]; exact .refl _
    | some c => rw [List.filterMap_cons_some hc]; exact .refl _
  induction h with
  | start => exact ⟨[], [], (List.append_nil _).symm, .nil⟩
  | @enter log m' _ op ih =>
    obtain ⟨during, others, htrace, hperm⟩ := ih
    obtain ⟨e, he, _⟩ := m'.proceed_trace op m'.state (O.body op)
    exact ⟨during ++ [e], _, by rw [Moment.enter, he, htrace, List.append_assoc], hother e hperm⟩
  | @above log s f stack trace _ _ r ih =>
    obtain ⟨during, others, htrace, hperm⟩ := ih
    obtain ⟨e, he, _⟩ := Moment.proceed_trace ⟨s, stack, trace⟩ f.op f.start (f.next r)
    refine ⟨during ++ [e], _, ?_, hother e hperm⟩
    rw [he, ← List.append_assoc, ← htrace]
  | @reply log s s' f trace r c next _ hadv ih =>
    obtain ⟨during, others, htrace, hperm⟩ := ih
    refine ⟨during ++ [.called c], others, ?_, ?_⟩
    · rw [Moment.proceed_of_waiting hadv, ← List.append_assoc, ← htrace]
    · -- the call comes after the others and before them as well
      have hmove : (log.map (·.2) ++ others ++ [c]).Perm ((log ++ [(s, c)]).map (·.2) ++ others) := by
        rw [List.map_append, List.append_assoc, List.append_assoc]
        exact List.perm_append_comm.append_left _
      rw [List.filterMap_append]
      exact (hperm.append_right [c]).trans hmove

theorem Course.calls {m m' : O.Moment} {op : O.Op} {log : List (σ × S.Call)} (h : Course m op log m') :
    ∃ during others, m'.trace = m.trace ++ during ∧ (during.filterMap Event.call?).Perm (log.map (·.2) ++ others) := by
  cases h with
  | @intro log _ s c next hadv hmean =>
    obtain ⟨during, others, htrace, hperm⟩ := hmean.calls
    refine ⟨.called c :: during, others, ?_, hperm.cons c⟩
    rw [htrace, Moment.enter, Moment.proceed_of_waiting hadv, List.append_assoc]
    rfl

/-- Whatever an operation goes on to, it is the same operation. -/
theorem Suspended.Goes.same {f g : O.Suspended} {log : List (σ × S.Call)} (h : f.Goes log g) :
    ∃ c next, g = ⟨f.op, f.start, c, next⟩ := by
  induction h with
  | start => exact ⟨f.call, f.next, rfl⟩
  | reply _ _ ih =>
    obtain ⟨_, _, rfl⟩ := ih
    exact ⟨_, _, rfl⟩

/-- When an operation has ended, its end is the last thing that happened, and those who waited before wait. -/
theorem Ended.calls {m m' : O.Moment} {op : O.Op} {log : List (σ × S.Call)} {found : σ} (h : Ended m op log found m') :
    ∃ during a others, m'.stack = m.stack ∧ m'.trace = m.trace ++ during ++ [.ended op m.state a] ∧
      (during.filterMap Event.call?).Perm (log.map (·.2) ++ others) := by
  cases h with
  | @enter s a hadv =>
    refine ⟨[], a, [], ?_, ?_, .nil⟩ <;> rw [Moment.enter, Moment.proceed_of_ended hadv]
    rw [List.append_nil]
  | @reply log s s' f trace r a hcourse hadv =>
    obtain ⟨during, others, htrace, hperm⟩ := hcourse.calls
    obtain ⟨_, _, _, _, above, g, _, _, hstack, hgoes⟩ := hcourse.goes
    obtain ⟨rfl, rfl⟩ := innermost hstack
    obtain ⟨_, _, rfl⟩ := hgoes.same
    rw [Moment.proceed_of_ended hadv]
    refine ⟨during, a, others, rfl, ?_, hperm⟩
    rw [← htrace]

end LanguageClient.Operations
