import Mathlib.Data.List.Pairwise
import LanguageClient.Proofs.Reentry.Course
import LanguageClient.Proofs.Pending.Settlement
/-
  LanguageClient.Proofs.Pending.Deadlines — requests time out when their time has come.

  The clock is steady when no operation is passed a time before one that was passed already.
  The deadlines of the requests that wait then grow with their ids (`OnTime`), and once a time
  was expired nobody waits for it or for an earlier one any more (`Beyond`).

  - `ended_told`: an operation that tells askers tells all of them and gives its answer.
  - `run_expires`: askers that leave the table alone are told the same however often it is expired.
  - `steady_timeouts`: what holds of the deadlines whenever the clock is steady.
-/

namespace LanguageClient.Pending

open Operations (Ended StepIf Suspended)

variable {η : Type}

/-! ## Times -/

def Use.time? : Use η → Option Int
  | .issue _ _ _ now => some now
  | .expire now => some now
  | _ => none

def timeOf : (uses η).Event → Option Int
  | .called _ => none
  | .ended u _ _ => u.time?

/-- The times that were passed so far, to the operations that wait and to those that have ended. -/
def times (m : (uses η).Moment) : List Int := m.stack.filterMap (·.op.time?) ++ m.trace.filterMap timeOf

def InTime (m : (uses η).Moment) (u : Use η) : Prop := ∀ now, u.time? = some now → ∀ t ∈ times m, t ≤ now

theorem mem_times_proceed {m : (uses η).Moment} {u : Use η} {start : Pending η}
    {p : Routine (Pending η) (Telling η) u.Answer} {t : Int} :
    t ∈ times (m.proceed u start p) ↔ u.time? = some t ∨ t ∈ times m := by
  unfold Operations.Moment.proceed
  split
  · simp [times, timeOf, or_assoc, or_comm]
  · simp [times, timeOf, or_assoc]

theorem mem_times_enter {m : (uses η).Moment} {u : Use η} {t : Int} :
    t ∈ times (m.enter u) ↔ u.time? = some t ∨ t ∈ times m := mem_times_proceed

theorem mem_times_reply {s : Pending η} {f : (uses η).Suspended} {stack : List (uses η).Suspended}
    {trace : List (uses η).Event} {r : Unit} {t : Int} :
    t ∈ times (Operations.Moment.proceed ⟨s, stack, trace⟩ f.op f.start (f.next r)) ↔ t ∈ times ⟨s, f :: stack, trace⟩ := by
  rw [mem_times_proceed]
  cases h : f.op.time? with
  | none => simp [times, h]
  | some now => simp [times, h, eq_comm]

/-! ## What becomes of the table -/

theorem advance_tellThen_state {α : Type} (verdict : Waiting η → Verdict) (entry : Waiting η → List Log.Entry)
    (ws : List (Waiting η)) (a : α) (p : Pending η) : ((tellThen verdict entry ws a).advance p).2 = p := by
  cases ws with
  | nil => rfl
  | cons w ws => rw [advance_tellThen_cons]

theorem state_settle (id : Int) (v : Verdict) (p : Pending η) :
    ∃ rest, rest.Sublist p.waiting ∧ ((settle id v).advance p).2 = { p with waiting := rest } := by
  cases h : p.find? id with
  | none => exact ⟨p.waiting, List.Sublist.refl _, by rw [advance_settle_absent h]⟩
  | some w =>
    refine ⟨(p.remove id).waiting, List.filter_sublist, ?_⟩
    rw [advance_settle h, advance_tellThen_state]
    rfl

/-- Every use but an issue leaves some of those who wait. -/
theorem state_enter {m : (uses η).Moment} {u : Use η} (hu : u.isIssue = false) :
    ∃ rest, rest.Sublist m.state.waiting ∧ (m.enter u).state = { m.state with waiting := rest } := by
  rw [Operations.Moment.enter, Operations.Moment.proceed_state]
  cases u with
  | issue method params asker now => cases hu
  | complete r =>
    show ∃ rest, _ ∧ ((complete r).advance m.state).2 = _
    cases h : r.id.integer? with
    | none => exact ⟨m.state.waiting, List.Sublist.refl _, by rw [advance_complete_of_no_integer h]⟩
    | some id =>
      rw [advance_complete h]
      exact state_settle id _ _
  | expire now => exact ⟨_, List.filter_sublist, (congrArg Prod.snd (advance_expire now _)).trans (advance_tellThen_state ..)⟩
  | reject id e => exact state_settle id _ _
  | rejectAll e => exact ⟨[], List.nil_sublist _, (congrArg Prod.snd (advance_rejectAll e _)).trans (advance_tellThen_state ..)⟩

theorem state_expire (m : (uses η).Moment) (now : Int) :
    (m.enter (.expire now)).state = { m.state with waiting := m.state.waiting.filter fun w => !isDue now w } := by
  rw [Operations.Moment.enter, Operations.Moment.proceed_state]
  exact (congrArg Prod.snd (advance_expire now _)).trans (advance_tellThen_state ..)

/-- An operation that goes on tells askers, which leaves the table alone. -/
theorem state_reply {timeout : Int} {s : Pending η} {f : (uses η).Suspended} {stack : List (uses η).Suspended}
    {trace : List (uses η).Event} (h : (uses η).Reachable { timeout := timeout } ⟨s, f :: stack, trace⟩) (r : Unit) :
    (Operations.Moment.proceed ⟨s, stack, trace⟩ f.op f.start (f.next r)).state = s := by
  obtain ⟨owed, hstack, _⟩ := (accounted h).places
  cases hstack with
  | cons howes _ =>
    obtain ⟨_, verdict, entry, a, _, hnext⟩ := howes
    rw [Operations.Moment.proceed_state, hnext r]
    exact advance_tellThen_state ..

/-! ## Deadlines in order -/

/-- Deadlines grow with the ids, and none is later than that of a request issued now would be. -/
structure OnTime (timeout : Int) (m : (uses η).Moment) : Prop where
  timeout_eq : m.state.timeout = timeout
  in_order : m.state.waiting.Pairwise fun a b => a.id < b.id ∧ a.deadline ≤ b.deadline
  below : ∀ w ∈ m.state.waiting, w.id < m.state.nextId
  issued_at : ∀ w ∈ m.state.waiting, ∃ t ∈ times m, w.deadline = t + timeout

theorem onTime_new (timeout : Int) : OnTime timeout (⟨{ timeout := timeout }, [], []⟩ : (uses η).Moment) :=
  ⟨rfl, List.Pairwise.nil, by simp, by simp⟩

/-- Some of those who waited are left. -/
theorem OnTime.leave {timeout : Int} {m m' : (uses η).Moment} (h : OnTime timeout m) {rest : List (Waiting η)}
    (hrest : rest.Sublist m.state.waiting) (hstate : m'.state = { m.state with waiting := rest })
    (htimes : ∀ t ∈ times m, t ∈ times m') : OnTime timeout m' := by
  refine ⟨?_, ?_, ?_, ?_⟩
  · rw [hstate]
    exact h.timeout_eq
  · rw [hstate]
    exact h.in_order.sublist hrest
  · rw [hstate]
    exact fun w hw => h.below w (hrest.subset hw)
  · rw [hstate]
    intro w hw
    obtain ⟨t, ht, heq⟩ := h.issued_at w (hrest.subset hw)
    exact ⟨t, htimes t ht, heq⟩

theorem OnTime.issue {timeout : Int} {m : (uses η).Moment} (h : OnTime timeout m) {method : Bytes} {params : Json}
    {asker : η} {now : Int} (hnow : InTime m (.issue method params asker now)) :
    OnTime timeout (m.enter (.issue method params asker now)) := by
  let new : Waiting η := ⟨m.state.nextId, method, asker, now + m.state.timeout⟩
  refine ⟨h.timeout_eq, ?_, ?_, ?_⟩
  · show (m.state.waiting ++ [new]).Pairwise _
    rw [List.pairwise_append]
    refine ⟨h.in_order, List.pairwise_singleton _ _, ?_⟩
    intro w hw v hv
    obtain rfl := List.mem_singleton.1 hv
    obtain ⟨t, ht, heq⟩ := h.issued_at w hw
    have hle : t ≤ now := hnow now rfl t ht
    have htimeout : m.state.timeout = timeout := h.timeout_eq
    refine ⟨h.below w hw, ?_⟩
    show w.deadline ≤ now + m.state.timeout
    omega
  · intro w hw
    show w.id < m.state.nextId + 1
    rcases List.mem_append.1 hw with hw | hw
    · exact Nat.lt_succ_of_lt (h.below w hw)
    · rw [List.mem_singleton.1 hw]
      exact Nat.lt_succ_self _
  · intro w hw
    rcases List.mem_append.1 hw with hw | hw
    · obtain ⟨t, ht, heq⟩ := h.issued_at w hw
      exact ⟨t, mem_times_enter.2 (Or.inr ht), heq⟩
    · rw [List.mem_singleton.1 hw, ← h.timeout_eq]
      exact ⟨now, mem_times_enter.2 (Or.inl rfl), rfl⟩

theorem OnTime.step {timeout : Int} {m m' : (uses η).Moment} (hm : (uses η).Reachable { timeout := timeout } m)
    (h : OnTime timeout m) (hs : StepIf InTime m m') : OnTime timeout m' := by
  cases hs with
  | @enter _ u hmay =>
    cases hu : u.isIssue with
    | true =>
      cases u with
      | issue method params asker now => exact h.issue hmay
      | _ => cases hu
    | false =>
      obtain ⟨rest, hrest, hstate⟩ := state_enter (m := m) hu
      exact h.leave hrest hstate fun t ht => mem_times_enter.2 (Or.inr ht)
  | reply s f stack trace r =>
    exact h.leave (List.Sublist.refl _) (state_reply hm r) fun t ht => mem_times_reply.2 ht

/-- Whenever the clock is steady, deadlines are in order. -/
theorem onTime {timeout : Int} {m : (uses η).Moment} (h : (uses η).ReachableIf InTime { timeout := timeout } m) :
    OnTime timeout m :=
  h.induct (onTime_new timeout) fun _ _ hm ih hs => ih.step hm.reachable hs

/-! ## The next deadline -/

theorem nextDeadline_le_iff {p : Pending η} {t : Int} :
    (∃ d, p.nextDeadline = some d ∧ d ≤ t) ↔ p.waiting.filter (isDue t) ≠ [] := by
  rw [Ne, List.filter_eq_nil_iff]
  constructor
  · rintro ⟨d, hd, hle⟩ hnone
    obtain ⟨hmem, _⟩ := List.min?_eq_some_iff.1 hd
    obtain ⟨w, hw, rfl⟩ := List.mem_map.1 hmem
    exact hnone w hw (by simpa [isDue] using hle)
  · intro hsome
    cases hd : p.nextDeadline with
    | none =>
      have hempty : p.waiting = [] := by simpa [nextDeadline] using hd
      exact absurd (by simp [hempty]) hsome
    | some d =>
      refine ⟨d, rfl, ?_⟩
      by_contra hlt
      refine hsome fun w hw => ?_
      have hle : d ≤ w.deadline := (List.min?_eq_some_iff.1 hd).2 _ (List.mem_map_of_mem hw)
      simp only [isDue, decide_eq_true_eq]
      omega

/-- The time `t` was passed, and the deadlines of all who wait are later. -/
structure Beyond (t : Int) (m : (uses η).Moment) : Prop where
  passed : t ∈ times m
  later : ∀ w ∈ m.state.waiting, t < w.deadline

theorem beyond_expire (m : (uses η).Moment) (t : Int) : Beyond t (m.enter (.expire t)) := by
  refine ⟨mem_times_enter.2 (Or.inl rfl), fun w hw => ?_⟩
  rw [state_expire] at hw
  have hnot := (List.mem_filter.1 hw).2
  simp only [isDue, Bool.not_eq_true', decide_eq_false_iff_not] at hnot
  omega

theorem Beyond.leave {t : Int} {m m' : (uses η).Moment} (h : Beyond t m) {rest : List (Waiting η)}
    (hrest : rest.Sublist m.state.waiting) (hstate : m'.state = { m.state with waiting := rest }) (ht : t ∈ times m') :
    Beyond t m' := by
  refine ⟨ht, ?_⟩
  rw [hstate]
  exact fun w hw => h.later w (hrest.subset hw)

/-- What is issued after `t` has a later deadline. -/
theorem Beyond.step {timeout t : Int} (hpos : 0 < timeout) {m m' : (uses η).Moment}
    (hm : (uses η).ReachableIf InTime { timeout := timeout } m) (h : Beyond t m) (hs : StepIf InTime m m') :
    Beyond t m' := by
  cases hs with
  | @enter _ u hmay =>
    have ht : t ∈ times (m.enter u) := mem_times_enter.2 (Or.inr h.passed)
    cases hu : u.isIssue with
    | true =>
      cases u with
      | issue method params asker now =>
        refine ⟨ht, fun w hw => ?_⟩
        rcases List.mem_append.1 hw with hw | hw
        · exact h.later w hw
        · have hle : t ≤ now := hmay now rfl t h.passed
          have htimeout := (onTime hm).timeout_eq
          rw [List.mem_singleton.1 hw]
          show t < now + m.state.timeout
          omega
      | _ => cases hu
    | false =>
      obtain ⟨rest, hrest, hstate⟩ := state_enter (m := m) hu
      exact h.leave hrest hstate ht
  | reply s f stack trace r =>
    exact h.leave (List.Sublist.refl _) (state_reply hm.reachable r) (mem_times_reply.2 h.passed)

theorem Beyond.steps {timeout t : Int} (hpos : 0 < timeout) {m m' : (uses η).Moment}
    (hm : (uses η).ReachableIf InTime { timeout := timeout } m) (h : Beyond t m)
    (hs : Relation.ReflTransGen (StepIf InTime) m m') : Beyond t m' := by
  have hall : (uses η).ReachableIf InTime { timeout := timeout } m' ∧ Beyond t m' := by
    induction hs with
    | refl => exact ⟨hm, h⟩
    | tail _ hlast ih => exact ⟨ih.1.tail hlast, ih.2.step hpos ih.1 hlast⟩
  exact hall.2

/-! ## Whom an operation tells -/

/-- An operation that tells askers goes on to tell the next ones. -/
theorem goes_tellThen {u : Use η} {start : Pending η} {c : Waiting η × Verdict} {verdict : Waiting η → Verdict}
    {entry : Waiting η → List Log.Entry} {ws : List (Waiting η)} {a : u.Answer} {log : List (Pending η × (Telling η).Call)}
    {g : (uses η).Suspended}
    (h : Suspended.Goes (O := uses η) ⟨u, start, c, fun _ => tellThen verdict entry ws a⟩ log g) :
    ∃ done rest c', ws = done ++ rest ∧ log.map (·.2) = done.map (fun w => (w, verdict w)) ∧
      g = ⟨u, start, c', fun _ => tellThen verdict entry rest a⟩ := by
  induction h with
  | start => exact ⟨[], ws, c, rfl, rfl, rfl⟩
  | @reply g log s s' r c₁ next _ hadv ih =>
    obtain ⟨done, rest, c', rfl, hlog, rfl⟩ := ih
    cases rest with
    | nil => cases hadv
    | cons w rest =>
      obtain ⟨hc, rfl⟩ := Prod.mk.inj ((advance_tellThen_cons verdict entry w rest a s).symm.trans hadv)
      cases hc
      refine ⟨done ++ [w], rest, (w, verdict w), by simp, ?_, rfl⟩
      rw [List.map_append, List.map_append, hlog]
      rfl

/-- An operation that tells askers has, at its end, told each of them, and gives its answer. -/
theorem ended_told {m m' : (uses η).Moment} {u : Use η} {verdict : Waiting η → Verdict}
    {entry : Waiting η → List Log.Entry} {ws : List (Waiting η)} {a : u.Answer} {p : Pending η}
    (hbody : u.body.advance m.state = (tellThen verdict entry ws a).advance p)
    {log : List (Pending η × (Telling η).Call)} {found : Pending η} (h : Ended m u log found m') :
    log.map (·.2) = ws.map (fun w => (w, verdict w)) ∧ ∃ before, m'.trace = before ++ [.ended u m.state a] := by
  rcases h.goes with ⟨b, s, hadv, rfl, rfl⟩ | ⟨c, next, s, more, hadv, rfl, g, r, b, s', trace, hgoes, hlast, rfl⟩
  · have hend := hbody.symm.trans hadv
    cases ws with
    | nil =>
      cases hend
      refine ⟨rfl, m.trace, ?_⟩
      rw [Operations.Moment.enter, Operations.Moment.proceed_of_ended hadv]
    | cons w ws => rw [advance_tellThen_cons] at hend; cases hend
  · have hfirst := hbody.symm.trans hadv
    cases ws with
    | nil => cases hfirst
    | cons w ws =>
      rw [advance_tellThen_cons] at hfirst
      cases hfirst
      obtain ⟨done, rest, c', rfl, hlog, rfl⟩ := goes_tellThen hgoes
      cases rest with
      | nil =>
        refine ⟨?_, trace, ?_⟩
        · rw [List.append_nil, List.map_cons, List.map_cons, hlog]
        · rw [Operations.Moment.proceed_of_ended hlast]
          cases hlast
          rfl
      | cons v rest =>
        have hmore := (advance_tellThen_cons verdict entry v rest a found).symm.trans hlast
        cases hmore

/-! ## Askers that leave the table alone -/

abbrev Hearing (η : Type) := Pending η × List (Waiting η × Verdict)

def hearing : Seat (Pending η) (Hearing η) := ⟨Prod.fst, fun p w => (p, w.2), fun _ w => w⟩

def hear (c : (Telling η).Call) : StateM (Hearing η) ((Telling η).Reply c) := modify fun w => (w.1, w.2 ++ [c])

def expireAt (ts : List Int) : StateM (Hearing η) Unit := ts.forM fun t => discard ((expire t).run hearing hear)

def timedOut (w : Waiting η) : Waiting η × Verdict := (w, .rejected (.timedOut w.method))

theorem run_log (es : List Log.Entry) (w : Hearing η) :
    ((es.forM (m := Routine (Pending η) (Telling η)) Routine.log).run hearing hear w) = ((), w) := by
  induction es with
  | nil => rfl
  | cons e es ih => exact ih

theorem run_tellAll (verdict : Waiting η → Verdict) (entry : Waiting η → List Log.Entry) (ws : List (Waiting η))
    (p : Pending η) (heard : List (Waiting η × Verdict)) :
    (tellAll verdict entry ws).run hearing hear (p, heard) = ((), p, heard ++ ws.map fun w => (w, verdict w)) := by
  induction ws generalizing heard with
  | nil => rw [List.map_nil, List.append_nil]; rfl
  | cons w ws ih =>
    have hhead : (tellAll verdict entry (w :: ws)).run hearing hear (p, heard)
        = (tellAll verdict entry ws).run hearing hear (p, heard ++ [(w, verdict w)]) := by
      refine (Routine.run_bind hearing hear _ _ _).trans ?_
      rw [run_log]
      rfl
    rw [hhead, ih, List.append_assoc]
    rfl

theorem run_expire (t : Int) (p : Pending η) (heard : List (Waiting η × Verdict)) :
    (expire t).run hearing hear (p, heard) = ((p.waiting.filter (isDue t)).length,
      { p with waiting := p.waiting.filter fun w => !isDue t w }, heard ++ (p.waiting.filter (isDue t)).map timedOut) := by
  have hbody : (expire t).run hearing hear (p, heard)
      = (tellThen (fun w => .rejected (.timedOut w.method)) (fun w => [expiry w]) (p.waiting.filter (isDue t))
        (p.waiting.filter (isDue t)).length).run hearing hear
          ({ p with waiting := p.waiting.filter fun w => !isDue t w }, heard) := rfl
  rw [hbody, tellThen, Routine.run_bind, run_tellAll]
  rfl

/-- Where nobody is due, everybody stays. -/
theorem filter_not_isDue_of_none {ws : List (Waiting η)} {t : Int} (h : ws.filter (isDue t) = []) :
    ws.filter (fun w => !isDue t w) = ws := by
  rw [List.filter_eq_self]
  intro w hw
  have hnot := List.filter_eq_nil_iff.1 h w hw
  simpa using hnot

/-- In the order of their deadlines, those who are due at a time are those who were due before and then those
who have become so. -/
theorem filter_isDue {ws : List (Waiting η)} (hws : ws.Pairwise fun a b => a.deadline ≤ b.deadline) {t t' : Int}
    (hle : t ≤ t') : ws.filter (isDue t) ++ (ws.filter fun w => !isDue t w).filter (isDue t') = ws.filter (isDue t') := by
  induction ws with
  | nil => rfl
  | cons w ws ih =>
    obtain ⟨hfirst, hrest⟩ := List.pairwise_cons.1 hws
    by_cases hdue : w.deadline ≤ t
    · have hdue' : w.deadline ≤ t' := by omega
      have hrec := ih hrest
      simp [isDue, hdue, hdue'] at hrec ⊢
      exact hrec
    · -- nobody is due at `t`
      have hnone : (w :: ws).filter (isDue t) = [] := by
        rw [List.filter_eq_nil_iff]
        intro v hv
        have hlater : w.deadline ≤ v.deadline := by
          rcases List.mem_cons.1 hv with rfl | hv
          · exact Int.le_refl _
          · exact hfirst v hv
        simp only [isDue, decide_eq_true_eq]
        omega
      rw [hnone, filter_not_isDue_of_none hnone, List.nil_append]

/-- Those who are due at neither time are those who are not due at the later one. -/
theorem filter_not_isDue (ws : List (Waiting η)) {t t' : Int} (hle : t ≤ t') :
    (ws.filter fun w => !isDue t w).filter (fun w => !isDue t' w) = ws.filter fun w => !isDue t' w := by
  rw [List.filter_filter]
  refine List.filter_congr fun w _ => ?_
  by_cases hdue : w.deadline ≤ t'
  · simp [isDue, hdue]
  · have hnot : ¬ w.deadline ≤ t := by omega
    simp [isDue, hdue, hnot]

/-- Expiring at several times is expiring at the last of them. -/
theorem run_expires {p : Pending η} (hp : p.waiting.Pairwise fun a b => a.deadline ≤ b.deadline) {ts : List Int} {t : Int}
    (hts : (ts ++ [t]).Pairwise (· ≤ ·)) (heard : List (Waiting η × Verdict)) :
    expireAt (ts ++ [t]) (p, heard) = expireAt [t] (p, heard) := by
  induction ts generalizing p heard with
  | nil => rfl
  | cons t₁ ts ih =>
    obtain ⟨hfirst, hrest⟩ := List.pairwise_cons.1 hts
    have hle : t₁ ≤ t := hfirst t (by simp)
    let p₁ : Pending η := { p with waiting := p.waiting.filter fun w => !isDue t₁ w }
    have hp₁ : p₁.waiting.Pairwise fun a b => a.deadline ≤ b.deadline := hp.sublist List.filter_sublist
    have hstep : expireAt (t₁ :: ts ++ [t]) (p, heard)
        = expireAt (ts ++ [t]) (p₁, heard ++ (p.waiting.filter (isDue t₁)).map timedOut) := by
      show (expireAt (ts ++ [t])) ((expire t₁).run hearing hear (p, heard)).2 = _
      rw [run_expire]
    have hlast : ∀ (q : Pending η) heard', expireAt [t] (q, heard') = ((), ((expire t).run hearing hear (q, heard')).2) :=
      fun _ _ => rfl
    rw [hstep, ih hp₁ hrest, hlast, hlast, run_expire, run_expire, List.append_assoc, ← List.map_append,
      filter_isDue hp hle, filter_not_isDue p.waiting hle]

/-! ## A steady clock -/

structure TimesOut (m : (uses η).Moment) : Prop where
  /-- Deadlines grow with the ids. -/
  in_order : m.state.waiting.Pairwise fun a b => a.id < b.id ∧ a.deadline ≤ b.deadline
  /-- Those whose deadline has come are told so and counted; there are some just if the next deadline has come. -/
  settles : ∀ t log found m', Ended m (.expire t) log found m' →
    log.map (·.2) = (m.state.waiting.filter (isDue t)).map timedOut ∧
    (∃ before, m'.trace = before ++ [.ended (.expire t) m.state log.length]) ∧
    (0 < log.length ↔ ∃ d, m.state.nextDeadline = some d ∧ d ≤ t)
  /-- From the moment at which a time is expired on, the next deadline is later, whatever the askers do. -/
  later : ∀ t m', InTime m (.expire t) → Relation.ReflTransGen (StepIf InTime) (m.enter (.expire t)) m' →
    ∀ d, m'.state.nextDeadline = some d → t < d
  /-- How often the table is expired makes no difference to askers that leave it alone. -/
  unhurried : ∀ ts t heard, (ts ++ [t]).Pairwise (· ≤ ·) →
    expireAt (ts ++ [t]) (m.state, heard) = expireAt [t] (m.state, heard)

/-- On a steady clock every request has its time. -/
theorem steady_timeouts {timeout : Int} (hpos : 0 < timeout) {m : (uses η).Moment}
    (h : (uses η).ReachableIf InTime { timeout := timeout } m) : TimesOut m := by
  have horder := (onTime h).in_order
  refine ⟨horder, ?_, ?_, ?_⟩
  · intro t log found m' he
    obtain ⟨hlog, before, htrace⟩ := ended_told (u := .expire t) (advance_expire t m.state) he
    have hlength : log.length = (m.state.waiting.filter (isDue t)).length := by
      have hcount := congrArg List.length hlog
      rwa [List.length_map, List.length_map] at hcount
    refine ⟨hlog, ⟨before, ?_⟩, ?_⟩
    · rw [htrace, hlength]
    · rw [nextDeadline_le_iff, hlength, List.length_pos_iff]
  · intro t m' hmay hs d hd
    have hentered : (uses η).ReachableIf InTime { timeout := timeout } (m.enter (.expire t)) := h.tail (.enter hmay)
    have hbeyond := (beyond_expire m t).steps hpos hentered hs
    obtain ⟨hmem, _⟩ := List.min?_eq_some_iff.1 hd
    obtain ⟨w, hw, rfl⟩ := List.mem_map.1 hmem
    exact hbeyond.later w hw
  · intro ts t heard hts
    exact run_expires (horder.imp And.right) hts heard

def twoWaiting : (uses Nat).Moment :=
  ((⟨{ timeout := 10 }, [], []⟩ : (uses Nat).Moment).enter (.issue (text "a") .null 1 0)).enter (.issue (text "b") .null 2 5)

/-- At the deadline of the first it is told so, and its asker issues a third. -/
theorem steady_timeouts_of_two : (0 : Int) < 10 ∧ (uses Nat).ReachableIf InTime { timeout := 10 } twoWaiting ∧
    InTime twoWaiting (.expire 10) ∧
    (∃ found m', Ended twoWaiting (.expire 10) [(twoWaiting.state, timedOut ⟨1, text "a", 1, 10⟩)] found m' ∧
      m'.state.nextDeadline = some 15 ∧ m'.state.waiting.map (·.deadline) = [15, 20]) ∧ TimesOut twoWaiting := by
  have hfirst : (uses Nat).ReachableIf InTime { timeout := 10 }
      ((⟨{ timeout := 10 }, [], []⟩ : (uses Nat).Moment).enter (.issue (text "a") .null 1 0)) :=
    .tail .refl (.enter fun _ _ _ ht => by cases ht)
  have hsecond : (uses Nat).ReachableIf InTime { timeout := 10 } twoWaiting :=
    hfirst.tail (.enter fun _ hnow => by cases hnow; decide)
  have hissue : Operations.Meanwhile [] (twoWaiting.enter (.expire 10)) []
      ((twoWaiting.enter (.expire 10)).enter (.issue (text "c") .null 3 10)) := .enter .start _
  exact ⟨by decide, hsecond, fun _ hnow => by cases hnow; decide, ⟨_, _, .reply (r := ()) (.intro rfl hissue) rfl, rfl, rfl⟩,
    steady_timeouts (by decide) hsecond⟩

end LanguageClient.Pending
