import LanguageClient.Proofs.Pending.Deadlines
/-
  LanguageClient.Proofs.Pending.AnyOrder — responses in whatever order they come.

  A response settles the request with its id and touches no other, so responses with ids of
  their own can come in any order. Expiring the table in between makes no difference as long
  as nobody's time has come. The askers may do what they like as long as they leave the table
  alone (`Quiet`); whom they are told about is then what `hear` hears.

  - `run_complete`: what one response does.
  - `receive_early`: what a sequence of responses and early expiries does, each response being
    judged by the table at the beginning.
  - `receive_quiet`: in any world of quiet askers the table goes the same way.
  - `any_order`: two sequences with the same responses do the same.
-/

namespace LanguageClient.Pending

variable {η ω : Type}

/-! ## One response -/

def outcome (p : Pending η) (r : Response) : Option (Waiting η × Verdict) :=
  (r.id.integer?.bind p.find?).map fun w => (w, verdictOf r)

theorem outcome_eq_some {p : Pending η} {r : Response} {w : Waiting η} {v : Verdict} :
    p.outcome r = some (w, v) ↔ ∃ id, r.id = .int id ∧ p.find? id = some w ∧ v = verdictOf r := by
  simp only [outcome, Option.map_eq_some_iff, Option.bind_eq_some_iff, Json.integer?_eq_some, Prod.mk.injEq]
  constructor
  · rintro ⟨_, ⟨id, hid, hw⟩, rfl, rfl⟩
    exact ⟨id, hid, hw, rfl⟩
  · rintro ⟨id, hid, hw, rfl⟩
    exact ⟨w, ⟨id, hid, hw⟩, rfl, rfl⟩

theorem run_settle (id : Int) (v : Verdict) (p : Pending η) (heard : List (Waiting η × Verdict)) :
    (settle id v).run hearing hear (p, heard) = match p.find? id with
      | none => (false, p, heard)
      | some w => (true, p.remove id, heard ++ [(w, v)]) := by
  show Routine.run hearing hear (match p.find? id with | none => _ | some w => _) (p, heard) = _
  cases p.find? id <;> rfl

theorem remove_of_absent {p : Pending η} {id : Int} (h : p.find? id = none) : p.remove id = p := by
  have hkeep : p.waiting.filter (fun w => (w.id : Int) != id) = p.waiting := by
    rw [List.filter_eq_self]
    intro w hw
    have hne := List.find?_eq_none.1 h w hw
    simpa using hne
  rw [remove, hkeep]

/-- A response settles the request with its id, if there is one. -/
theorem run_complete {r : Response} {id : Int} (hr : r.id = .int id) (p : Pending η)
    (heard : List (Waiting η × Verdict)) : (complete r).run hearing hear (p, heard)
      = (p.isAnswered r, p.remove id, heard ++ (p.outcome r).toList) := by
  have hid : r.id.integer? = some id := Json.integer?_eq_some.2 hr
  have hbody : complete r = (do
      if (← get).isPending id then settle id (verdictOf r)
      else
        Routine.log (Log.debug "correlator" (text "No pending request for response id " ++ Bytes.ofInt id))
        return false : Routine (Pending η) (Telling η) Bool) := by rw [complete, hid]
  rw [hbody]
  show Routine.run hearing hear (if p.isPending id then _ else _) (p, heard) = _
  cases hf : p.find? id with
  | none => simp [isPending, isAnswered, outcome, hid, hf, remove_of_absent hf]; rfl
  | some w => simp [isPending, isAnswered, outcome, hid, hf, run_settle]

theorem find?_remove_of_ne (p : Pending η) {id id' : Int} (h : id' ≠ id) : (p.remove id).find? id' = p.find? id' := by
  have hsame : ∀ w : Waiting η, decide (((w.id : Int) != id) = true ∧ ((w.id : Int) == id') = true)
      = ((w.id : Int) == id') := by
    intro w
    by_cases hw : (w.id : Int) = id'
    · simp [hw, h]
    · simp [hw]
  simp only [find?, remove, List.find?_filter, hsame]

/-- A response with another id finds the same request after a removal. -/
theorem outcome_remove {p : Pending η} {r : Response} {id id' : Int} (hr : r.id = .int id') (h : id' ≠ id) :
    (p.remove id).outcome r = p.outcome r := by
  simp only [outcome, hr, Json.integer?, Option.bind_some, find?_remove_of_ne p h]

theorem isAnswered_remove {p : Pending η} {r : Response} {id id' : Int} (hr : r.id = .int id') (h : id' ≠ id) :
    (p.remove id).isAnswered r = p.isAnswered r := by
  simp only [isAnswered, hr, Json.integer?, Option.any_some, isPending, find?_remove_of_ne p h]

/-! ## A sequence -/

inductive Arrival where
  | response (r : Response)
  | expiry (t : Int)
  deriving DecidableEq, Repr

def Arrival.response? : Arrival → Option Response
  | response r => some r
  | expiry _ => none

def Arrival.time? : Arrival → Option Int
  | response _ => none
  | expiry t => some t

def responses (as : List Arrival) : List Response := as.filterMap Arrival.response?

structure Answers where
  completed : List (Response × Bool) := []
  expired : List Nat := []
  deriving DecidableEq, Repr

abbrev Askers (η ω : Type) := (c : (Telling η).Call) → StateM ω ((Telling η).Reply c)

def receive (seat : Seat (Pending η) ω) (askers : Askers η ω) : List Arrival → StateM ω Answers
  | [] => pure {}
  | .response r :: as => do
    let b ← (complete r).run seat askers
    let rest ← receive seat askers as
    return { rest with completed := (r, b) :: rest.completed }
  | .expiry t :: as => do
    let n ← (expire t).run seat askers
    let rest ← receive seat askers as
    return { rest with expired := n :: rest.expired }

variable {seat : Seat (Pending η) ω} {askers : Askers η ω}

theorem receive_response (r : Response) (as : List Arrival) (w : ω) :
    receive seat askers (.response r :: as) w = (let b := (complete r).run seat askers w
      let rest := receive seat askers as b.2
      ({ rest.1 with completed := (r, b.1) :: rest.1.completed }, rest.2)) := rfl

theorem receive_expiry (t : Int) (as : List Arrival) (w : ω) :
    receive seat askers (.expiry t :: as) w = (let n := (expire t).run seat askers w
      let rest := receive seat askers as n.2
      ({ rest.1 with expired := n.1 :: rest.1.expired }, rest.2)) := rfl

/-- Every expiry comes before all deadlines that are pending at that point. -/
def Early (p : Pending η) : List Arrival → Prop
  | [] => True
  | a :: as => (∀ t ∈ a.time?, ∀ w ∈ p.waiting, t < w.deadline) ∧ Early (receive hearing hear [a] (p, [])).2.1 as

instance decidableEarly (p : Pending η) : (as : List Arrival) → Decidable (Early p as)
  | [] => .isTrue trivial
  | a :: as => @instDecidableAnd _ _ inferInstance (decidableEarly (receive hearing hear [a] (p, [])).2.1 as)

def without (p : Pending η) (rs : List Response) : Pending η :=
  { p with waiting := p.waiting.filter fun w => .int w.id ∉ rs.map (·.id) }

theorem without_cons {p : Pending η} {r : Response} {id : Int} (hr : r.id = .int id) (rs : List Response) :
    (p.remove id).without rs = p.without (r :: rs) := by
  simp only [without, remove, List.filter_filter, Pending.mk.injEq, true_and]
  refine List.filter_congr fun w _ => ?_
  by_cases hw : (w.id : Int) = id
  · simp [hr, hw]
  · simp [hr, hw]

theorem run_expire_early {t : Int} {p : Pending η} (h : ∀ w ∈ p.waiting, t < w.deadline)
    (heard : List (Waiting η × Verdict)) : (expire t).run hearing hear (p, heard) = (0, p, heard) := by
  have hnone : p.waiting.filter (isDue t) = [] := by
    rw [List.filter_eq_nil_iff]
    intro w hw
    have hlater := h w hw
    simp only [isDue, decide_eq_true_eq]
    omega
  rw [run_expire, hnone, filter_not_isDue_of_none hnone, List.map_nil, List.append_nil]
  rfl

structure OwnIds (rs : List Response) : Prop where
  integer : ∀ r ∈ rs, ∃ id, r.id = .int id
  distinct : (rs.map (·.id)).Nodup

theorem OwnIds.perm {rs rs' : List Response} (h : OwnIds rs) (hperm : rs.Perm rs') : OwnIds rs' :=
  ⟨fun r hr => h.integer r (hperm.mem_iff.2 hr), (hperm.map _).nodup_iff.1 h.distinct⟩

theorem OwnIds.tail {r : Response} {rs : List Response} (h : OwnIds (r :: rs)) : OwnIds rs :=
  ⟨fun r' hr' => h.integer r' (List.mem_cons_of_mem r hr'), (List.nodup_cons.1 h.distinct).2⟩

theorem OwnIds.other {r : Response} {rs : List Response} (h : OwnIds (r :: rs)) {id : Int} (hr : r.id = .int id) :
    ∀ r' ∈ rs, ∃ id', r'.id = .int id' ∧ id' ≠ id := by
  intro r' hr'
  obtain ⟨id', hid'⟩ := h.integer r' (List.mem_cons_of_mem r hr')
  refine ⟨id', hid', ?_⟩
  rintro rfl
  refine (List.nodup_cons.1 h.distinct).1 ?_
  show r.id ∈ rs.map (·.id)
  rw [hr, ← hid']
  exact List.mem_map_of_mem hr'

theorem Early.response {p : Pending η} {r : Response} {id : Int} (hr : r.id = .int id) {as : List Arrival}
    (h : Early p (.response r :: as)) : Early (p.remove id) as := by
  have hrest := h.2
  rw [receive_response, run_complete hr] at hrest
  exact hrest

theorem Early.expiry {p : Pending η} {t : Int} {as : List Arrival} (h : Early p (.expiry t :: as)) :
    (∀ w ∈ p.waiting, t < w.deadline) ∧ Early p as := by
  have hnow := h.1 t rfl
  have hrest := h.2
  rw [receive_expiry, run_expire_early hnow] at hrest
  exact ⟨hnow, hrest⟩

/-- Each response is judged by the table at the beginning, and early expiries do nothing. -/
theorem receive_early {p : Pending η} {as : List Arrival} (hids : OwnIds (responses as)) (hearly : Early p as)
    (heard : List (Waiting η × Verdict)) : receive hearing hear as (p, heard)
      = (⟨(responses as).map fun r => (r, p.isAnswered r), (as.filterMap Arrival.time?).map fun _ => 0⟩,
        p.without (responses as), heard ++ (responses as).filterMap p.outcome) := by
  induction as generalizing p heard with
  | nil =>
    have hall : p.without [] = p := by simp [without]
    show (_, p, heard) = (_, p.without [], heard ++ [])
    rw [hall, List.append_nil]
    rfl
  | cons a as ih =>
    cases a with
    | response r =>
      have hcons : responses (.response r :: as) = r :: responses as := rfl
      rw [hcons] at hids ⊢
      obtain ⟨id, hid⟩ := hids.integer r List.mem_cons_self
      have hother := hids.other hid
      -- the others find the table as if the request had never waited
      have hanswered : (responses as).map (fun r => (r, (p.remove id).isAnswered r))
          = (responses as).map fun r => (r, p.isAnswered r) := by
        refine List.map_congr_left fun r' hr' => ?_
        obtain ⟨id', hid', hne⟩ := hother r' hr'
        rw [isAnswered_remove hid' hne]
      have htold : (responses as).filterMap (p.remove id).outcome = (responses as).filterMap p.outcome := by
        refine List.filterMap_congr fun r' hr' => ?_
        obtain ⟨id', hid', hne⟩ := hother r' hr'
        exact outcome_remove hid' hne
      have hfirst : (p.outcome r).toList ++ (responses as).filterMap p.outcome
          = (r :: responses as).filterMap p.outcome := by
        cases h : p.outcome r <;> simp [h]
      rw [receive_response, run_complete hid]
      dsimp only
      rw [ih hids.tail (hearly.response hid), hanswered, htold, without_cons hid, List.append_assoc, hfirst]
      rfl
    | expiry t =>
      obtain ⟨hnow, hrest⟩ := hearly.expiry
      rw [receive_expiry, run_expire_early hnow]
      dsimp only
      rw [ih hids hrest]
      rfl

/-! ## Askers that leave the table alone -/

/-- Whoever is called does what it likes, but leaves the table alone. -/
structure Quiet (seat : Seat (Pending η) ω) (askers : Askers η ω) : Prop where
  lawful : seat.Lawful
  alone : ∀ c w, seat.look (askers c w).2 = seat.look w

theorem quiet_hear : Quiet (η := η) hearing hear := ⟨⟨fun _ _ => rfl, fun _ _ => rfl⟩, fun _ _ => rfl⟩

def recording (seat : Seat (Pending η) ω) : Seat (Pending η) (ω × List (Waiting η × Verdict)) :=
  ⟨fun x => seat.look x.1, fun p x => (seat.put p x.1, x.2), fun e x => (seat.note e x.1, x.2)⟩

def record (askers : Askers η ω) : Askers η (ω × List (Waiting η × Verdict)) :=
  fun c x => ((), (askers c x.1).2, x.2 ++ [c])

def heardOf (seat : Seat (Pending η) ω) (x : ω × List (Waiting η × Verdict)) : Hearing η := (seat.look x.1, x.2)

theorem run_quiet (h : Quiet seat askers) {α : Type} (q : Routine (Pending η) (Telling η) α)
    (x : ω × List (Waiting η × Verdict)) : q.run hearing hear (heardOf seat x)
      = ((q.run (recording seat) (record askers) x).1, heardOf seat (q.run (recording seat) (record askers) x).2) := by
  induction q generalizing x with
  | done a => rfl
  | look next ih => exact ih _ x
  | put p next ih =>
    have hput : heardOf seat ((recording seat).put p x) = hearing.put p (heardOf seat x) :=
      congrArg (·, x.2) (h.lawful.look_put p x.1)
    have hnext := ih ((recording seat).put p x)
    rw [hput] at hnext
    exact hnext
  | note e next ih =>
    have hnote : heardOf seat ((recording seat).note e x) = hearing.note e (heardOf seat x) :=
      congrArg (·, x.2) (h.lawful.look_note e x.1)
    have hnext := ih ((recording seat).note e x)
    rw [hnote] at hnext
    exact hnext
  | call c next ih =>
    have hcall : heardOf seat (record askers c x).2 = (hear c (heardOf seat x)).2 :=
      congrArg (·, x.2 ++ [c]) (h.alone c x.1)
    have hnext := ih () (record askers c x).2
    rw [hcall] at hnext
    exact hnext

/-- Quiet askers make no difference to the table, nor to what is answered. -/
theorem receive_quiet (h : Quiet seat askers) (as : List Arrival) (x : ω × List (Waiting η × Verdict)) :
    receive hearing hear as (heardOf seat x) = ((receive (recording seat) (record askers) as x).1,
      heardOf seat (receive (recording seat) (record askers) as x).2) := by
  induction as generalizing x with
  | nil => rfl
  | cons a as ih =>
    cases a with
    | response r =>
      rw [receive_response, run_quiet h]
      dsimp only
      rw [ih]
      rfl
    | expiry t =>
      rw [receive_expiry, run_quiet h]
      dsimp only
      rw [ih]
      rfl

/-! ## Any order -/

theorem without_perm (p : Pending η) {rs rs' : List Response} (h : rs.Perm rs') : p.without rs = p.without rs' := by
  simp only [without, (h.map (·.id)).mem_iff]

def receiving (seat : Seat (Pending η) ω) (askers : Askers η ω) (w : ω) (as : List Arrival) :
    Answers × ω × List (Waiting η × Verdict) := receive (recording seat) (record askers) as (w, [])

/-- What quiet askers are told, and what is answered, is decided by the table at the beginning. -/
theorem receiving_early (h : Quiet seat askers) {w : ω} {as : List Arrival} (hids : OwnIds (responses as))
    (hearly : Early (seat.look w) as) :
    (receiving seat askers w as).1.completed = (responses as).map (fun r => (r, (seat.look w).isAnswered r)) ∧
    (∀ n ∈ (receiving seat askers w as).1.expired, n = 0) ∧
    seat.look (receiving seat askers w as).2.1 = (seat.look w).without (responses as) ∧
    (receiving seat askers w as).2.2 = (responses as).filterMap (seat.look w).outcome := by
  have heq := (receive_quiet h as (w, [])).symm.trans (receive_early hids hearly [])
  obtain ⟨hanswers, hheard⟩ := Prod.mk.inj heq
  obtain ⟨htable, htold⟩ := Prod.mk.inj hheard
  refine ⟨congrArg Answers.completed hanswers, ?_, htable, htold⟩
  intro n hn
  have hzeros : (receiving seat askers w as).1.expired = (as.filterMap Arrival.time?).map fun _ => 0 :=
    congrArg Answers.expired hanswers
  rw [hzeros] at hn
  obtain ⟨_, _, rfl⟩ := List.mem_map.1 hn
  rfl

/-- What two sequences have in common whose responses are the same up to their order. -/
structure SameOutcome (seat : Seat (Pending η) ω) (askers : Askers η ω) (w : ω) (as as' : List Arrival) : Prop where
  /-- The same requests are left, with the same deadlines. -/
  table : seat.look (receiving seat askers w as).2.1 = seat.look (receiving seat askers w as').2.1
  /-- The same askers are told the same. -/
  told : (receiving seat askers w as).2.2.Perm (receiving seat askers w as').2.2
  /-- The same responses find a request. -/
  completed : (receiving seat askers w as).1.completed.Perm (receiving seat askers w as').1.completed
  /-- An asker is told what the response with the id of its request says, and nothing else. -/
  verdicts : ∀ q v, (q, v) ∈ (receiving seat askers w as).2.2 ↔
    ∃ r ∈ responses as, ∃ id, r.id = .int id ∧ (seat.look w).find? id = some q ∧ v = verdictOf r
  /-- No expiry finds anyone whose time has come. -/
  expired : ∀ n ∈ (receiving seat askers w as).1.expired, n = 0
  /-- Where the responses come in the same order, the expiries make no difference at all. -/
  unhurried : responses as = responses as' →
    (receiving seat askers w as).1.completed = (receiving seat askers w as').1.completed ∧
    (receiving seat askers w as).2.2 = (receiving seat askers w as').2.2

/-- Responses with ids of their own can come in any order, with early expiries between them at any points. -/
theorem any_order (h : Quiet seat askers) {w : ω} {as as' : List Arrival} (hids : OwnIds (responses as))
    (hperm : (responses as).Perm (responses as')) (hearly : Early (seat.look w) as)
    (hearly' : Early (seat.look w) as') : SameOutcome seat askers w as as' := by
  obtain ⟨hcompleted, hexpired, htable, htold⟩ := receiving_early h hids hearly
  obtain ⟨hcompleted', _, htable', htold'⟩ := receiving_early h (hids.perm hperm) hearly'
  refine ⟨?_, ?_, ?_, ?_, hexpired, ?_⟩
  · rw [htable, htable']
    exact without_perm _ hperm
  · rw [htold, htold']
    exact hperm.filterMap _
  · rw [hcompleted, hcompleted']
    exact hperm.map _
  · intro q v
    rw [htold]
    simp only [List.mem_filterMap, outcome_eq_some]
  · intro hsame
    rw [hcompleted, hcompleted', htold, htold', hsame]
    exact ⟨rfl, rfl⟩

/-- Two of three requests are answered, one of them with an error, and nobody waits for the third response. -/
theorem any_order_of_two :
    let w : Hearing Nat := (⟨10, 4, [⟨1, text "a", 1, 10⟩, ⟨2, text "b", 2, 15⟩, ⟨3, text "c", 3, 20⟩]⟩, [])
    let yes := Response.success (.int 2) (.bool true)
    let no := Response.failure (.int 1) 5 (text "no")
    let stray := Response.success (.int 77) .null
    let as := [.response yes, .expiry 9, .response no, .expiry 19, .response stray]
    let as' := [.response stray, .response no, .expiry 14, .response yes]
    Quiet (η := Nat) hearing hear ∧ OwnIds (responses as) ∧ (responses as).Perm (responses as') ∧
      Early (hearing.look w) as ∧ Early (hearing.look w) as' ∧
      (receiving hearing hear w as).1 = ⟨[(yes, true), (no, true), (stray, false)], [0, 0]⟩ ∧
      SameOutcome hearing hear w as as' := by
  intro w yes no stray as as'
  have hids : OwnIds (responses as) := by
    refine ⟨fun r hr => ?_, by decide⟩
    have hone : r ∈ [yes, no, stray] := hr
    simp only [List.mem_cons, List.not_mem_nil, or_false] at hone
    rcases hone with rfl | rfl | rfl
    · exact ⟨2, rfl⟩
    · exact ⟨1, rfl⟩
    · exact ⟨77, rfl⟩
  have hperm : (responses as).Perm (responses as') := by decide
  have hearly : Early (hearing.look w) as := by decide
  have hearly' : Early (hearing.look w) as' := by decide
  exact ⟨quiet_hear, hids, hperm, hearly, hearly', rfl, any_order quiet_hear hids hperm hearly hearly'⟩

end LanguageClient.Pending
