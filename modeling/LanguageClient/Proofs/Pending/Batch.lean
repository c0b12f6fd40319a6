import Mathlib.Data.List.Sort
import LanguageClient.Proofs.Pending.Deadlines
/-
  LanguageClient.Proofs.Pending.Batch — requests that one operation settles together.

  `expire` and `rejectAll` take a batch of requests off the table and then tell the askers,
  one after another. Each asker may use the table before the next one is told: it may issue
  requests, whose time may have come already, and settle others. The batch was chosen when
  the operation was entered and is not touched by that, and what the askers leave on the
  table is not touched by the operation.

  - `settlesBatch`: an operation that has its batch in hand goes through it to the end.
  - `balance`: between two moments with the same operations under way, who was issued and who
    was told make the difference between the tables.
  - `mass_settlement`: what `expire` and `rejectAll` do, whatever the askers do. An asker whose
    time is over is told the name of its method up to a NUL (`a_nul_cuts_the_timeout`).
-/

namespace LanguageClient.Pending

open Operations (Course Ended Suspended)

variable {η : Type}

/-! ## The balance of two moments -/

/-- Askers that leave the table alone learn who is told. -/
theorem run_tellThen {α : Type} (verdict : Waiting η → Verdict) (entry : Waiting η → List Log.Entry)
    (ws : List (Waiting η)) (a : α) :
    ((tellThen verdict entry ws a).run hearing hear ({}, [])).2.2.map (·.1) = ws := by
  rw [tellThen, Routine.run_bind, run_tellAll, List.nil_append]
  exact (List.map_map ..).trans (List.map_id' ws)

theorem owes_unique : Relator.RightUnique (Owes (η := η)) := by
  intro f ws ws' h h'
  obtain ⟨_, verdict, entry, a, _, hnext⟩ := h
  obtain ⟨_, verdict', entry', a', _, hnext'⟩ := h'
  rw [← run_tellThen verdict entry ws a, ← run_tellThen verdict' entry' ws' a', ← hnext (), ← hnext' ()]

/-- With the same operations under way, what is on the table and what was told since make up what was
on the table before and what was issued since. -/
theorem balance {m m' : (uses η).Moment} (hm : Accounted [] m) (hm' : Accounted [] m') (hstack : m'.stack = m.stack)
    {during : List (uses η).Event} (htrace : m'.trace = m.trace ++ during) :
    (m'.state.waiting ++ (told during).map (·.1)).Perm (m.state.waiting ++ issued during) := by
  classical
  obtain ⟨owed, howes, hperm⟩ := hm.places
  obtain ⟨owed', howes', hperm'⟩ := hm'.places
  rw [hstack] at howes'
  obtain rfl : owed = owed' := List.right_unique_forall₂' owes_unique howes howes'
  have htold : told m'.trace = told m.trace ++ told during := by rw [htrace]; exact List.filterMap_append
  have hissued : issued m'.trace = issued m.trace ++ issued during := by rw [htrace]; exact List.filterMap_append
  rw [htold, hissued, List.map_append] at hperm'
  refine List.perm_iff_count.2 fun w => ?_
  have hcount := hperm.count_eq w
  have hcount' := hperm'.count_eq w
  simp only [List.count_append, List.count_nil] at hcount hcount' ⊢
  omega

/-! ## In the order of issue -/

theorem issued_proceed {m : (uses η).Moment} {u : Use η} (hu : u.isIssue = false) (start : Pending η)
    (p : Routine (Pending η) (Telling η) u.Answer) : issued (m.proceed u start p).trace = issued m.trace := by
  unfold Operations.Moment.proceed
  split
  · exact issued_ended hu start _ m.trace
  · exact issued_called _ m.trace

/-- Those who wait are some of those who were issued, in the same order. -/
theorem waiting_sublist {timeout : Int} {m : (uses η).Moment} (h : (uses η).Reachable { timeout := timeout } m) :
    m.state.waiting.Sublist (issued m.trace) := by
  induction h with
  | init => exact List.nil_sublist _
  | @step m _ hm hs ih =>
    cases hs with
    | enter _ u =>
      cases hu : u.isIssue with
      | true =>
        cases u with
        | issue method params asker now =>
          have hissued : issued (m.enter (.issue method params asker now)).trace
              = issued m.trace ++ [⟨m.state.nextId, method, asker, now + m.state.timeout⟩] := List.filterMap_append
          rw [hissued]
          exact ih.append (List.Sublist.refl _)
        | _ => cases hu
      | false =>
        obtain ⟨rest, hrest, hstate⟩ := state_enter (m := m) hu
        rw [hstate, Operations.Moment.enter, issued_proceed hu]
        exact hrest.trans ih
    | reply s f stack trace r =>
      obtain ⟨owed, hstack, _⟩ := (accounted hm).places
      cases hstack with
      | cons howes _ =>
        rw [state_reply hm r, issued_proceed howes.1]
        exact ih

theorem issued_in_order {hand : List (Waiting η)} {m : (uses η).Moment} (h : Accounted hand m) :
    (issued m.trace).Pairwise fun a b => a.id < b.id := by
  have hids : ((issued m.trace).map (·.id)).Pairwise (· < ·) := h.issued_ids ▸ List.pairwise_lt_range'
  exact List.pairwise_map.1 hids

/-- In the order of their ids, those who are left are all but those who are gone. -/
theorem left_eq_filter {all left gone : List (Waiting η)} (hall : all.Pairwise fun a b => a.id < b.id)
    (hleft : left.Pairwise fun a b => a.id < b.id) (h : (left ++ gone).Perm all) :
    left = all.filter fun w => w.id ∉ gone.map (·.id) := by
  have hnodup : ((left ++ gone).map (·.id)).Nodup := by
    rw [(h.map (·.id)).nodup_iff]
    exact List.pairwise_map.2 (hall.imp Nat.ne_of_lt)
  rw [List.map_append, List.nodup_append] at hnodup
  have hkept : left.filter (fun w => w.id ∉ gone.map (·.id)) = left := by
    rw [List.filter_eq_self]
    intro w hw
    have hnot : w.id ∉ gone.map (·.id) := fun hin => hnodup.2.2 _ (List.mem_map_of_mem hw) _ hin rfl
    simpa using hnot
  have hdropped : gone.filter (fun w => w.id ∉ gone.map (·.id)) = [] := by
    rw [List.filter_eq_nil_iff]
    intro w hw
    simpa using ⟨w, hw, rfl⟩
  have hperm := h.filter fun w => w.id ∉ gone.map (·.id)
  rw [List.filter_append, hkept, hdropped, List.append_nil] at hperm
  refine hperm.eq_of_pairwise ?_ hleft (hall.filter _)
  intro a b _ _ hab hba
  omega

/-! ## A batch -/

/-- What has become of everybody at the end of an operation with the batch `batch` that left `kept` on the table.
In between, `during` happened, and `others` were told by other operations. -/
structure BatchEnd (m : (uses η).Moment) (u : Use η) (batch kept : List (Waiting η)) (verdict : Waiting η → Verdict)
    (answer : u.Answer) (log : List (Pending η × (Telling η).Call)) (m' : (uses η).Moment)
    (during : List (uses η).Event) (others : List (Waiting η × Verdict)) : Prop where
  batch_told : log.map (·.2) = batch.map fun w => (w, verdict w)
  answered : m'.trace = m.trace ++ during ++ [.ended u m.state answer]
  stack : m'.stack = m.stack
  all_told : (told during).Perm (batch.map (fun w => (w, verdict w)) ++ others)
  told_once : ((batch ++ others.map (·.1)).map (·.id)).Nodup
  /-- Who was issued meanwhile is not in the batch. -/
  issued_later : ∀ w ∈ issued during, ∀ v ∈ batch, v.id < w.id
  /-- Who was kept or was issued meanwhile waits, unless another operation has settled the request. -/
  left : m'.state.waiting = (kept ++ issued during).filter fun w => w.id ∉ others.map (·.1.id)

/-- What an operation does that takes `batch` off the table when it is entered, leaves `kept` there, and tells
the askers of the batch one after another. -/
structure SettlesBatch (m : (uses η).Moment) (u : Use η) (batch kept : List (Waiting η)) (verdict : Waiting η → Verdict)
    (answer : u.Answer) : Prop where
  in_order : batch.Pairwise fun a b => a.id < b.id
  begins : (batch = [] ∧ Ended m u [] m.state (m.enter u)) ∨
    ∃ w rest, batch = w :: rest ∧ Course m u [(m.state, (w, verdict w))] (m.enter u)
  /-- Whenever an asker has returned, the next one is told, whatever became of the table; after the last it ends. -/
  goes_on : ∀ log s f trace r, Course m u log ⟨s, f :: m.stack, trace⟩ →
    let m' := Operations.Moment.proceed ⟨s, m.stack, trace⟩ f.op f.start (f.next r)
    (∃ done w rest, batch = done ++ w :: rest ∧ log.map (·.2) = done.map (fun w => (w, verdict w)) ∧
      Course m u (log ++ [(s, (w, verdict w))]) m') ∨
    (log.map (·.2) = batch.map (fun w => (w, verdict w)) ∧ Ended m u log s m')
  ends : ∀ log found m', Ended m u log found m' →
    ∃ during others, BatchEnd m u batch kept verdict answer log m' during others

section Batch

variable {m : (uses η).Moment} {u : Use η} {batch : List (Waiting η)} {verdict : Waiting η → Verdict}
  {entry : Waiting η → List Log.Entry} {answer : u.Answer} {p : Pending η}

/-- An operation that tells a batch has told a part of it and has the rest in hand. -/
theorem course_told (hbody : u.body.advance m.state = (tellThen verdict entry batch answer).advance p)
    {log : List (Pending η × (Telling η).Call)} {s : Pending η} {f : (uses η).Suspended} {trace : List (uses η).Event}
    (h : Course m u log ⟨s, f :: m.stack, trace⟩) : ∃ done rest c, batch = done ++ rest ∧
      log.map (·.2) = done.map (fun w => (w, verdict w)) ∧
      f = ⟨u, m.state, c, fun _ => tellThen verdict entry rest answer⟩ := by
  obtain ⟨c, next, s', more, above, g, hadv, rfl, hstack, hgoes⟩ := h.goes
  obtain ⟨rfl, rfl⟩ := Operations.innermost hstack
  have hfirst := hbody.symm.trans hadv
  cases batch with
  | nil => cases hfirst
  | cons w ws =>
    rw [advance_tellThen_cons] at hfirst
    cases hfirst
    obtain ⟨done, rest, c', rfl, hlog, rfl⟩ := goes_tellThen hgoes
    refine ⟨w :: done, rest, c', rfl, ?_, rfl⟩
    rw [List.map_cons, List.map_cons, hlog]

theorem begins_batch (hbody : u.body.advance m.state = (tellThen verdict entry batch answer).advance p) :
    (batch = [] ∧ Ended m u [] m.state (m.enter u)) ∨
    ∃ w rest, batch = w :: rest ∧ Course m u [(m.state, (w, verdict w))] (m.enter u) := by
  cases batch with
  | nil => exact Or.inl ⟨rfl, .enter hbody⟩
  | cons w rest => exact Or.inr ⟨w, rest, rfl, .intro (hbody.trans (advance_tellThen_cons ..)) .start⟩

theorem goes_on_batch (hbody : u.body.advance m.state = (tellThen verdict entry batch answer).advance p)
    {log : List (Pending η × (Telling η).Call)} {s : Pending η} {f : (uses η).Suspended} {trace : List (uses η).Event}
    (r : Unit) (h : Course m u log ⟨s, f :: m.stack, trace⟩) :
    let m' := Operations.Moment.proceed ⟨s, m.stack, trace⟩ f.op f.start (f.next r)
    (∃ done w rest, batch = done ++ w :: rest ∧ log.map (·.2) = done.map (fun w => (w, verdict w)) ∧
      Course m u (log ++ [(s, (w, verdict w))]) m') ∨
    (log.map (·.2) = batch.map (fun w => (w, verdict w)) ∧ Ended m u log s m') := by
  obtain ⟨done, rest, c, rfl, hlog, rfl⟩ := course_told hbody h
  cases rest with
  | nil =>
    rw [List.append_nil]
    exact Or.inr ⟨hlog, .reply h (advance_tellThen_nil verdict entry answer s)⟩
  | cons w rest => exact Or.inl ⟨done, w, rest, rfl, hlog, h.trans (.reply .start (advance_tellThen_cons ..))⟩

/-- At its end, whom it did not tell itself was told by others. -/
theorem told_meanwhile {m' : (uses η).Moment}
    (hbody : u.body.advance m.state = (tellThen verdict entry batch answer).advance p)
    {log : List (Pending η × (Telling η).Call)} {found : Pending η} (h : Ended m u log found m') :
    m'.stack = m.stack ∧ ∃ during others, m'.trace = m.trace ++ during ++ [.ended u m.state answer] ∧
      (told during).Perm (batch.map (fun w => (w, verdict w)) ++ others) := by
  obtain ⟨hlog, before, hend⟩ := ended_told hbody h
  obtain ⟨during, a, others, hstack, htrace, hcalls⟩ := h.calls
  have hlast : (.ended u m.state a : (uses η).Event) = .ended u m.state answer :=
    (List.append_singleton_inj.1 (htrace.symm.trans hend)).2
  obtain rfl : a = answer := by cases hlast; rfl
  have hcall : (toldBy : (uses η).Event → _) = Operations.Event.call? := by
    funext e
    cases e <;> rfl
  refine ⟨hstack, during, others, htrace, ?_⟩
  rw [← hlog, told, hcall]
  exact hcalls

variable {timeout : Int} {kept : List (Waiting η)}

theorem ends_batch (hm : (uses η).Reachable { timeout := timeout } m) (hu : u.isIssue = false)
    (hbody : u.body.advance m.state = (tellThen verdict entry batch answer).advance p)
    (hsplit : (batch ++ kept).Perm m.state.waiting) (hkept : kept.Sublist m.state.waiting) {m' : (uses η).Moment}
    {log : List (Pending η × (Telling η).Call)} {found : Pending η} (h : Ended m u log found m') :
    ∃ during others, BatchEnd m u batch kept verdict answer log m' during others := by
  classical
  obtain ⟨hlog, _⟩ := ended_told hbody h
  obtain ⟨hstack, during, others, htrace, htold⟩ := told_meanwhile hbody h
  have hm' := hm.steps h.steps
  have hbefore := waiting_sublist hm
  have hissued : issued m'.trace = issued m.trace ++ issued during := by
    rw [htrace, issued_ended hu]
    exact List.filterMap_append
  have horder : (issued m.trace ++ issued during).Pairwise fun a b => a.id < b.id :=
    hissued ▸ issued_in_order (accounted hm')
  have hwho : ((told during).map (·.1)).Perm (batch ++ others.map (·.1)) := by
    have hmap := htold.map (·.1)
    rw [List.map_append, List.map_map] at hmap
    exact hmap.trans (.of_eq (congrArg (· ++ others.map (·.1)) (List.map_id' batch)))
  have hleft : (m'.state.waiting ++ others.map (·.1)).Perm (kept ++ issued during) := by
    have hbalance := balance (accounted hm) (accounted hm') hstack (htrace.trans (List.append_assoc ..))
    rw [issued_ended hu, told_ended] at hbalance
    refine List.perm_iff_count.2 fun w => ?_
    have hcount := hbalance.count_eq w
    have hcount' := hwho.count_eq w
    have hcount'' := hsplit.count_eq w
    simp only [List.count_append] at hcount hcount' hcount'' ⊢
    omega
  refine ⟨during, others, hlog, htrace, hstack, htold, ?_, ?_, ?_⟩
  · rw [← (hwho.map (·.id)).nodup_iff]
    have hlate : (told during).Sublist (told m'.trace) := by
      rw [htrace, told_ended]
      exact (List.sublist_append_right m.trace during).filterMap toldBy
    exact (accounted hm').apart.sublist (((hlate.map _).trans (List.sublist_append_right _ _)).map _)
  · intro w hw v hv
    have hv : v ∈ issued m.trace := hbefore.subset (hsplit.subset (List.mem_append_left _ hv))
    exact (List.pairwise_append.1 horder).2.2 v hv w hw
  · have hall := horder.sublist ((hkept.trans hbefore).append (List.Sublist.refl (issued during)))
    have hafter := (hissued ▸ horder : (issued m'.trace).Pairwise _).sublist (waiting_sublist hm')
    have heq := left_eq_filter hall hafter hleft
    rw [List.map_map] at heq
    exact heq

theorem settlesBatch (hm : (uses η).Reachable { timeout := timeout } m) (hu : u.isIssue = false)
    (hbody : u.body.advance m.state = (tellThen verdict entry batch answer).advance p)
    (hsplit : (batch ++ kept).Perm m.state.waiting) (hbatch : batch.Sublist m.state.waiting)
    (hkept : kept.Sublist m.state.waiting) : SettlesBatch m u batch kept verdict answer where
  in_order := (issued_in_order (accounted hm)).sublist (hbatch.trans (waiting_sublist hm))
  begins := begins_batch hbody
  goes_on _ _ _ _ r h := goes_on_batch hbody r h
  ends _ _ _ h := ends_batch hm hu hbody hsplit hkept h

end Batch

/-! ## The two operations -/

/-- Whatever the askers do, `expire` settles those who were due when it was entered, and `rejectAll` those who
waited then. -/
theorem mass_settlement {timeout : Int} {m : (uses η).Moment} (h : (uses η).Reachable { timeout := timeout } m) :
    (∀ now, SettlesBatch m (.expire now) (m.state.waiting.filter (isDue now))
      (m.state.waiting.filter fun w => !isDue now w)
      (fun w => .rejected ⟨.timeout, (text "LSP request timeout: " ++ w.method).beforeNul, none⟩)
      (m.state.waiting.filter (isDue now)).length) ∧
    ∀ e, SettlesBatch m (.rejectAll e) m.state.waiting [] (fun _ => .rejected e) m.state.waiting.length := by
  constructor
  · intro now
    exact settlesBatch h rfl (advance_expire now m.state) (List.filter_append_perm (isDue now) _) List.filter_sublist
      List.filter_sublist
  · intro e
    exact settlesBatch h rfl (advance_rejectAll e m.state) (by rw [List.append_nil]) (List.Sublist.refl _)
      (List.nil_sublist _)

/-- The first of two requests times out; its asker issues a third that is due already, and completes the second. -/
theorem mass_settlement_amid_uses : (uses Nat).Reachable { timeout := 10 } twoWaiting ∧
    (∃ found m', Ended twoWaiting (.expire 10) [(twoWaiting.state, timedOut ⟨1, text "a", 1, 10⟩)] found m' ∧
      (told m'.trace).map (·.1.id) = [1, 2] ∧ m'.state.waiting.map (fun w => (w.id, w.deadline)) = [(3, 10)]) ∧
    SettlesBatch twoWaiting (.expire 10) (twoWaiting.state.waiting.filter (isDue 10))
      (twoWaiting.state.waiting.filter fun w => !isDue 10 w)
      (fun w => .rejected ⟨.timeout, (text "LSP request timeout: " ++ w.method).beforeNul, none⟩)
      (twoWaiting.state.waiting.filter (isDue 10)).length := by
  have h : (uses Nat).Reachable { timeout := 10 } twoWaiting := (Operations.Reachable.init.enter _).enter _
  have huses : Operations.Meanwhile [] (twoWaiting.enter (.expire 10)) []
      (((twoWaiting.enter (.expire 10)).enter (.issue (text "c") .null 3 0)).enter
        (.complete (Response.success (.int 2) .null))) := .enter (.enter .start _) _
  have hreturn := huses.above (by decide) ()
  exact ⟨h, ⟨_, _, .reply (r := ()) (.intro rfl hreturn) rfl, rfl, rfl⟩, (mass_settlement h).1 10⟩

/-- The asker of a method with a NUL in it is not told what stands behind the NUL. -/
theorem a_nul_cuts_the_timeout : ∃ m, (uses Nat).Reachable { timeout := 10 } m ∧
    ¬ SettlesBatch m (.expire 10) (m.state.waiting.filter (isDue 10)) (m.state.waiting.filter fun w => !isDue 10 w)
      (fun w => .rejected ⟨.timeout, text "LSP request timeout: " ++ w.method, none⟩)
      (m.state.waiting.filter (isDue 10)).length := by
  let method := text "a" ++ 0 :: text "b"
  let m := (⟨{ timeout := 10 }, [], []⟩ : (uses Nat).Moment).enter (.issue method .null 1 0)
  refine ⟨m, Operations.Reachable.init.enter _, fun h => ?_⟩
  have hend : Ended m (.expire 10) [(m.state, timedOut ⟨1, method, 1, 10⟩)] _ _ := .reply (r := ()) (.intro rfl .start) rfl
  obtain ⟨_, _, hbatch⟩ := h.ends _ _ _ hend
  have htold := congrArg (List.map (·.2)) hbatch.batch_told
  have hcut : (timedOut ⟨1, method, 1, 10⟩ : Waiting Nat × Verdict).2
      ≠ .rejected ⟨.timeout, text "LSP request timeout: " ++ method, none⟩ := by decide
  exact hcut (List.cons.inj htold).1

end LanguageClient.Pending
