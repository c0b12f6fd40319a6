import Mathlib.Data.List.Forall2
import LanguageClient.Proofs.Pending.Uses
/-
  LanguageClient.Proofs.Pending.Settlement — every request is settled once.

  At every moment a request that was issued is in one of three places: it waits in the
  table, an operation that is telling askers one after another has it in hand, or its asker
  has been told (`Accounted`). Requests go from the first place to the second when an
  operation is entered, and from the second to the third one by one; whoever is called in
  between may do to the table what it likes. With no operation under way the second place
  is empty (`settled_once`).
-/

namespace LanguageClient.Pending

variable {η : Type}

/-! ## What a trace tells -/

def issuedBy : (uses η).Event → Option (Waiting η)
  | .ended (.issue method _ asker now) start _ => some ⟨start.nextId, method, asker, now + start.timeout⟩
  | _ => none

def handedOutBy : (uses η).Event → Option Request
  | .ended (.issue ..) _ r => some r
  | _ => none

def toldBy : (uses η).Event → Option (Waiting η × Verdict)
  | .called c => some c
  | .ended .. => none

def issued (trace : List (uses η).Event) : List (Waiting η) := trace.filterMap issuedBy

def handedOut (trace : List (uses η).Event) : List Request := trace.filterMap handedOutBy

def told (trace : List (uses η).Event) : List (Waiting η × Verdict) := trace.filterMap toldBy

theorem issuedBy_ended {u : Use η} (hu : u.isIssue = false) (start : Pending η) (a : u.Answer) :
    issuedBy (.ended u start a) = none := by
  cases u <;> first | rfl | cases hu

theorem issued_ended {u : Use η} (hu : u.isIssue = false) (start : Pending η) (a : u.Answer)
    (trace : List (uses η).Event) : issued (trace ++ [.ended u start a]) = issued trace := by
  rw [issued, List.filterMap_append, List.filterMap_cons_none (issuedBy_ended hu start a), List.filterMap_nil,
    List.append_nil]
  rfl

theorem issued_called (c : Waiting η × Verdict) (trace : List (uses η).Event) :
    issued (trace ++ [.called c]) = issued trace := by
  simp [issued, issuedBy]

theorem told_ended (u : Use η) (start : Pending η) (a : u.Answer) (trace : List (uses η).Event) :
    told (trace ++ [.ended u start a]) = told trace := by
  simp [told, toldBy]

theorem told_called (c : Waiting η × Verdict) (trace : List (uses η).Event) :
    told (trace ++ [.called c]) = told trace ++ [c] := by
  simp [told, toldBy]

/-! ## Where the requests are -/

/-- An operation that waits has `ws` to tell yet and will give the right answer. -/
def Owes (f : (uses η).Suspended) (ws : List (Waiting η)) : Prop :=
  f.op.isIssue = false ∧ ∃ verdict entry, ∃ a : f.op.Answer, Right f.op f.start a ∧
    ∀ r, f.next r = tellThen verdict entry ws a

/-- The requests are accounted for, those in `hand` being about to be told. -/
structure Accounted (hand : List (Waiting η)) (m : (uses η).Moment) : Prop where
  issued_ids : (issued m.trace).map (·.id) = List.range' 1 m.state.lastId
  nextId_pos : 0 < m.state.nextId
  answers : ∀ u start a, .ended u start a ∈ m.trace → Right u start a
  places : ∃ owed, List.Forall₂ Owes m.stack owed ∧
    (m.state.waiting ++ (hand ++ owed.flatten ++ (told m.trace).map (·.1))).Perm (issued m.trace)

/-- Nobody is told twice, and nobody who waits was told. -/
theorem Accounted.apart {hand : List (Waiting η)} {m : (uses η).Moment} (h : Accounted hand m) :
    ((m.state.waiting ++ (told m.trace).map (·.1)).map (·.id)).Nodup := by
  obtain ⟨owed, _, hperm⟩ := h.places
  have hall := (hperm.map (·.id)).nodup_iff.2 (h.issued_ids ▸ List.nodup_range')
  exact hall.sublist (((List.sublist_append_right _ _).append_left _).map _)

theorem Accounted.nodup {hand : List (Waiting η)} {m : (uses η).Moment} (h : Accounted hand m) :
    (m.state.waiting.map (·.id)).Nodup := by
  have happ := h.apart
  rw [List.map_append] at happ
  exact happ.of_append_left

theorem accounted_new (timeout : Int) : Accounted [] (⟨{ timeout := timeout }, [], []⟩ : (uses η).Moment) where
  issued_ids := rfl
  nextId_pos := Nat.one_pos
  answers := fun _ _ _ h => by cases h
  places := ⟨[], .nil, .refl _⟩

/-- Telling what is in hand, up to the next call, keeps the account. -/
theorem Accounted.proceed {hand : List (Waiting η)} {m : (uses η).Moment} (h : Accounted hand m) {u : Use η}
    (hu : u.isIssue = false) {start : Pending η} {a : u.Answer} (ha : Right u start a)
    (verdict : Waiting η → Verdict) (entry : Waiting η → List Log.Entry) :
    Accounted [] (m.proceed u start (tellThen verdict entry hand a)) := by
  obtain ⟨owed, hstack, hperm⟩ := h.places
  cases hand with
  | nil =>
    rw [Operations.Moment.proceed_of_ended (advance_tellThen_nil verdict entry a m.state)]
    refine ⟨?_, h.nextId_pos, ?_, owed, hstack, ?_⟩
    · rw [issued_ended hu]
      exact h.issued_ids
    · intro v s b hin
      rcases List.mem_append.1 hin with hin | hin
      · exact h.answers v s b hin
      · cases List.mem_singleton.1 hin
        exact ha
    · rw [issued_ended hu, told_ended]
      exact hperm
  | cons w ws =>
    rw [Operations.Moment.proceed_of_waiting (advance_tellThen_cons verdict entry w ws a m.state)]
    refine ⟨?_, h.nextId_pos, ?_, ws :: owed, .cons ⟨hu, verdict, entry, a, ha, fun _ => rfl⟩ hstack, ?_⟩
    · rw [issued_called]
      exact h.issued_ids
    · intro v s b hin
      rcases List.mem_append.1 hin with hin | hin
      · exact h.answers v s b hin
      · cases List.mem_singleton.1 hin
    · -- the first request in hand becomes the last one told
      have hmove : (ws ++ owed.flatten ++ ((told m.trace).map (·.1) ++ [w])).Perm
          (w :: ws ++ owed.flatten ++ (told m.trace).map (·.1)) := by
        rw [← List.append_assoc]
        exact List.perm_append_singleton w _
      rw [issued_called, told_called, List.map_append, List.nil_append, List.flatten_cons]
      exact (hmove.append_left m.state.waiting).trans hperm

theorem Accounted.issue {m : (uses η).Moment} (h : Accounted [] m) (method : Bytes) (params : Json) (asker : η)
    (now : Int) : Accounted [] (m.enter (.issue method params asker now)) := by
  obtain ⟨owed, hstack, hperm⟩ := h.places
  have hpos := h.nextId_pos
  let w : Waiting η := ⟨m.state.nextId, method, asker, now + m.state.timeout⟩
  have hissued : issued (m.enter (.issue method params asker now)).trace = issued m.trace ++ [w] :=
    List.filterMap_append
  have htold : told (m.enter (.issue method params asker now)).trace = told m.trace := told_ended _ _ _ _
  refine ⟨?_, Nat.succ_pos _, ?_, owed, hstack, ?_⟩
  · have hlast : (m.enter (.issue method params asker now)).state.lastId = m.state.lastId + 1 := by
      show m.state.nextId + 1 - 1 = m.state.nextId - 1 + 1
      omega
    have hid : w.id = 1 + 1 * m.state.lastId := by
      show m.state.nextId = 1 + 1 * (m.state.nextId - 1)
      omega
    rw [hissued, List.map_append, h.issued_ids, hlast, List.range'_concat, ← hid]
    rfl
  · intro u s b hin
    rcases List.mem_append.1 hin with hin | hin
    · exact h.answers u s b hin
    · cases List.mem_singleton.1 hin
      rfl
  · rw [hissued, htold]
    show (m.state.waiting ++ [w] ++ _).Perm _
    rw [List.append_assoc]
    exact (List.perm_middle.trans (hperm.cons w)).trans (List.perm_append_singleton w _).symm

theorem Accounted.step {m m' : (uses η).Moment} (h : Accounted [] m) (hs : Operations.Step m m') :
    Accounted [] m' := by
  obtain ⟨owed, hstack, hperm⟩ := h.places
  cases hs with
  | enter _ u =>
    cases hu : u.isIssue with
    | true =>
      cases u with
      | issue method params asker now => exact h.issue method params asker now
      | _ => cases hu
    | false =>
      obtain ⟨a, ha, verdict, entry, ws, rest, hadv, htaken⟩ := takes h.nodup hu
      rw [Operations.Moment.enter, Operations.Moment.proceed_congr hadv]
      refine Accounted.proceed (m := { m with state := { m.state with waiting := rest } })
        ⟨h.issued_ids, h.nextId_pos, h.answers, owed, hstack, ?_⟩ hu ha verdict entry
      rw [List.nil_append] at hperm
      rw [List.append_assoc ws, ← List.append_assoc rest]
      exact (htaken.append_right _).trans hperm
  | reply s f stack trace r =>
    cases hstack with
    | @cons _ ws _ owed hf hstack =>
      obtain ⟨hu, verdict, entry, a, ha, hnext⟩ := hf
      rw [hnext r]
      refine Accounted.proceed (m := ⟨s, stack, trace⟩) ⟨h.issued_ids, h.nextId_pos, h.answers, owed, hstack, ?_⟩
        hu ha verdict entry
      rw [List.nil_append, List.flatten_cons] at hperm
      exact hperm

theorem accounted {timeout : Int} {m : (uses η).Moment} (h : (uses η).Reachable { timeout := timeout } m) :
    Accounted [] m :=
  h.induct (accounted_new timeout) fun _ _ hm hs => hm.step hs

/-! ## Settled once -/

/-- A request is handed out under the id that it waits under. -/
theorem handedOut_ids {trace : List (uses η).Event} (h : ∀ u start a, .ended u start a ∈ trace → Right u start a) :
    (handedOut trace).map (·.id) = (issued trace).map fun w => Json.int w.id := by
  induction trace with
  | nil => rfl
  | cons e trace ih =>
    have ih := ih fun u start a hin => h u start a (List.mem_cons_of_mem e hin)
    cases e with
    | called c => exact ih
    | ended u start a =>
      cases u with
      | issue method params asker now =>
        have hid : a.id = .int start.nextId := congrArg Request.id (h _ _ _ List.mem_cons_self)
        exact congrArg₂ List.cons hid ih
      | _ => exact ih

structure SettledOnce (m : (uses η).Moment) : Prop where
  handed_out : (handedOut m.trace).map (·.id) = (List.range' 1 m.state.lastId).map fun n : Nat => Json.int n
  issued_ids : (issued m.trace).map (·.id) = List.range' 1 m.state.lastId
  told_issued : ∀ c ∈ told m.trace, c.1 ∈ issued m.trace
  /-- No asker is told twice, and none who was told waits. -/
  at_most_once : ((m.state.waiting ++ (told m.trace).map (·.1)).map (·.id)).Nodup
  /-- With no operation under way, who does not wait was told. -/
  at_rest : m.stack = [] → (m.state.waiting ++ (told m.trace).map (·.1)).Perm (issued m.trace)
  complete_answer : ∀ r start b, .ended (.complete r) start b ∈ m.trace →
    (b = true ↔ ∃ id, r.id = .int id ∧ start.isPending id = true)
  reject_answer : ∀ id e start b, .ended (.reject id e) start b ∈ m.trace → b = start.isPending id
  complete_pending : ∀ r id w, r.id = .int id → m.state.find? id = some w →
    m.enter (.complete r) = ⟨m.state.remove id,
      ⟨.complete r, m.state, (w, verdictOf r), fun _ => .done true⟩ :: m.stack,
      m.trace ++ [.called (w, verdictOf r)]⟩
  complete_absent : ∀ r, (∀ id, r.id = .int id → m.state.isPending id = false) →
    m.enter (.complete r) = { m with trace := m.trace ++ [.ended (.complete r) m.state false] }
  reject_pending : ∀ id e w, m.state.find? id = some w →
    m.enter (.reject id e) = ⟨m.state.remove id,
      ⟨.reject id e, m.state, (w, .rejected e), fun _ => .done true⟩ :: m.stack,
      m.trace ++ [.called (w, .rejected e)]⟩
  reject_absent : ∀ id e, m.state.isPending id = false →
    m.enter (.reject id e) = { m with trace := m.trace ++ [.ended (.reject id e) m.state false] }

/-- In whatever order the operations are entered, also by the askers that they tell. -/
theorem settled_once {timeout : Int} {m : (uses η).Moment} (h : (uses η).Reachable { timeout := timeout } m) :
    SettledOnce m := by
  have hm := accounted h
  obtain ⟨owed, hstack, hperm⟩ := hm.places
  refine ⟨?_, hm.issued_ids, ?_, hm.apart, ?_, ?_, fun id e start b hin => hm.answers _ _ _ hin,
    fun r id w => enter_complete, fun r => enter_complete_absent, fun id e w h => enter_reject h e,
    fun id e h => enter_reject_absent h e⟩
  · rw [handedOut_ids hm.answers, ← hm.issued_ids, List.map_map]
    rfl
  · intro c hc
    exact hperm.subset (List.mem_append_right _ (List.mem_append_right _ (List.mem_map_of_mem hc)))
  · intro hrest
    rw [hrest] at hstack
    cases hstack
    exact hperm
  · intro r start b hin
    have hb : b = start.isAnswered r := hm.answers _ _ _ hin
    rw [hb, isAnswered_iff]

/-- Of two requests that are rejected together the first asker is being told, and has itself
tried to complete the second and issued a third. -/
def amidRejectAll : (uses Nat).Moment :=
  let m : (uses Nat).Moment := ⟨{ timeout := 10 }, [], []⟩
  let m := (m.enter (.issue (text "a") .null 1 0)).enter (.issue (text "b") .null 2 5)
  let m := (m.enter (.rejectAll Error.stopped)).enter (.complete (Response.success (.int 2) .null))
  m.enter (.issue (text "c") .null 3 7)

theorem settled_once_amid_rejectAll : (uses Nat).Reachable { timeout := 10 } amidRejectAll ∧
    amidRejectAll.stack.length = 1 ∧ (told amidRejectAll.trace).map (·.1.id) = [1] ∧
    amidRejectAll.state.waiting.map (·.id) = [3] ∧ SettledOnce amidRejectAll := by
  have h : (uses Nat).Reachable { timeout := 10 } amidRejectAll :=
    ((((Operations.Reachable.init.enter _).enter _).enter _).enter _).enter _
  exact ⟨h, rfl, rfl, rfl, settled_once h⟩

end LanguageClient.Pending
