import Mathlib.Data.List.Nodup
import LanguageClient.Proofs.Reentry
import LanguageClient.Pending
/-
  LanguageClient.Proofs.Pending.Uses — what each operation on the pending requests does.

  Every operation but `issue` takes some requests out of the table and then tells their
  askers, one after another (`takes`); what it answers is decided by the table that it was
  entered on (`Right`).
-/

namespace LanguageClient

theorem Json.integer?_eq_some {s : Json} {n : Int} : s.integer? = some n ↔ s = .int n := by
  cases s <;> simp [integer?]

namespace Pending

variable {η : Type}

inductive Use (η : Type) where
  | issue (method : Bytes) (params : Json) (asker : η) (now : Int)
  | complete (r : Response)
  | expire (now : Int)
  | reject (id : Int) (e : Error)
  | rejectAll (e : Error)

abbrev Use.Answer : Use η → Type
  | issue .. => Request
  | complete _ => Bool
  | expire _ => Nat
  | reject .. => Bool
  | rejectAll _ => Nat

def Use.isIssue : Use η → Bool
  | issue .. => true
  | _ => false

def Use.body : (u : Use η) → Routine (Pending η) (Telling η) u.Answer
  | .issue method params asker now => modifyGet fun p => p.issue method params asker now
  | .complete r => Pending.complete r
  | .expire now => Pending.expire now
  | .reject id e => Pending.reject id e
  | .rejectAll e => Pending.rejectAll e

abbrev uses (η : Type) : Operations (Pending η) (Telling η) := ⟨Use η, Use.Answer, Use.body⟩

/-! ## How far the operations get -/

abbrev tellThen {α : Type} (verdict : Waiting η → Verdict) (entry : Waiting η → List Log.Entry)
    (ws : List (Waiting η)) (a : α) : Routine (Pending η) (Telling η) α :=
  (tellAll verdict entry ws).bind fun _ => .done a

theorem advance_tellThen_nil {α : Type} (verdict : Waiting η → Verdict) (entry : Waiting η → List Log.Entry) (a : α)
    (p : Pending η) : (tellThen verdict entry [] a).advance p = (.ended a, p) := rfl

theorem advance_tellThen_cons {α : Type} (verdict : Waiting η → Verdict) (entry : Waiting η → List Log.Entry)
    (w : Waiting η) (ws : List (Waiting η)) (a : α) (p : Pending η) :
    (tellThen verdict entry (w :: ws) a).advance p
      = (.waiting (w, verdict w) fun _ => tellThen verdict entry ws a, p) := by
  have hhead : (tellAll verdict entry (w :: ws)).advance p
      = (.waiting (w, verdict w) fun _ => tellAll verdict entry ws, p) := Routine.advance_log_bind _ _ _
  rw [tellThen, Routine.advance_bind, hhead]

theorem id_of_find? {p : Pending η} {id : Int} {w : Waiting η} (h : p.find? id = some w) : (w.id : Int) = id := by
  simpa using List.find?_some h

theorem advance_settle_absent {id : Int} {p : Pending η} (h : p.find? id = none) (v : Verdict) :
    (settle id v).advance p = (.ended false, p) := by
  simp only [settle, get, getThe, MonadStateOf.get, bind, Routine.bind, Routine.advance, h]
  rfl

theorem advance_settle {id : Int} {p : Pending η} {w : Waiting η} (h : p.find? id = some w) (v : Verdict) :
    (settle id v).advance p = (tellThen (fun _ => v) (fun _ => []) [w] true).advance (p.remove id) := by
  simp only [settle, get, getThe, MonadStateOf.get, bind, Routine.bind, Routine.advance, h]
  rfl

theorem advance_complete_of_no_integer {r : Response} (h : r.id.integer? = none) (p : Pending η) :
    (complete r).advance p = (.ended false, p) := by
  rw [complete, h]
  rfl

theorem advance_complete {r : Response} {id : Int} (h : r.id.integer? = some id) (p : Pending η) :
    (complete r).advance p = (settle id (verdictOf r)).advance p := by
  rw [complete, h]
  show (if p.isPending id then _ else _ : Routine (Pending η) (Telling η) Bool).advance p = _
  cases hf : p.find? id with
  | some w => rw [if_pos (by rw [isPending, hf]; rfl)]
  | none =>
    rw [if_neg (by rw [isPending, hf]; exact Bool.false_ne_true), advance_settle_absent hf]
    rfl

theorem advance_expire (now : Int) (p : Pending η) :
    (expire now).advance p = (tellThen (fun w => .rejected (.timedOut w.method)) (fun w => [expiry w])
      (p.waiting.filter (isDue now)) (p.waiting.filter (isDue now)).length).advance
        { p with waiting := p.waiting.filter fun w => !isDue now w } := rfl

theorem advance_rejectAll (e : Error) (p : Pending η) :
    (rejectAll e).advance p = (tellThen (fun _ => .rejected e) (fun _ => []) p.waiting p.waiting.length).advance
      { p with waiting := [] } := rfl

/-! ## What they answer and what they take -/

def isAnswered (p : Pending η) (r : Response) : Bool := r.id.integer?.any p.isPending

theorem isAnswered_iff {p : Pending η} {r : Response} :
    p.isAnswered r = true ↔ ∃ id, r.id = .int id ∧ p.isPending id = true := by
  rw [isAnswered, Option.any_eq_true]
  refine exists_congr fun id => and_congr_left fun _ => ?_
  exact Json.integer?_eq_some

/-- The answer that an operation owes to whoever entered it on the table `p`. -/
def Right : (u : Use η) → Pending η → u.Answer → Prop
  | .issue method params _ _, p, r => r = ⟨.int p.nextId, method, params⟩
  | .complete r, p, b => b = p.isAnswered r
  | .expire now, p, n => n = (p.waiting.filter (isDue now)).length
  | .reject id _, p, b => b = p.isPending id
  | .rejectAll _, p, n => n = p.waiting.length

/-- With ids of their own, removing an id removes one request. -/
theorem perm_remove {p : Pending η} (hp : (p.waiting.map (·.id)).Nodup) {id : Int} {w : Waiting η}
    (h : p.find? id = some w) : ((p.remove id).waiting ++ [w]).Perm p.waiting := by
  have hid := id_of_find? h
  obtain ⟨before, after, hsplit⟩ := List.append_of_mem (List.mem_of_find?_eq_some h)
  rw [hsplit, List.map_append, List.map_cons, List.nodup_middle, List.nodup_cons, ← List.map_append] at hp
  have hkeep : (before ++ after).filter (fun x => (x.id : Int) != id) = before ++ after := by
    rw [List.filter_eq_self]
    intro x hx
    have hne : x.id ≠ w.id := fun heq => hp.1 (heq ▸ List.mem_map_of_mem hx)
    simp only [bne_iff_ne]
    omega
  have hdrop : ((w.id : Int) != id) = false := by simp [hid]
  have hremove : (p.remove id).waiting = before ++ after := by
    rw [← hkeep, remove, hsplit, List.filter_append, List.filter_cons, List.filter_append, hdrop]
    rfl
  rw [hremove, hsplit]
  exact (List.perm_append_singleton w _).trans List.perm_middle.symm

/-- On the table `p`, `q` takes some requests out, tells their askers and answers `a`. -/
def Takes {α : Type} (q : Routine (Pending η) (Telling η) α) (p : Pending η) (a : α) : Prop :=
  ∃ verdict entry ws rest, q.advance p = (tellThen verdict entry ws a).advance { p with waiting := rest } ∧
    (rest ++ ws).Perm p.waiting

theorem takes_nothing {α : Type} {q : Routine (Pending η) (Telling η) α} {p : Pending η} {a : α}
    (h : q.advance p = (.ended a, p)) : Takes q p a :=
  ⟨fun _ => .resolved .null, fun _ => [], [], p.waiting, h, by simp⟩

theorem takes_settle {p : Pending η} (hp : (p.waiting.map (·.id)).Nodup) (id : Int) (v : Verdict) :
    Takes (settle id v) p (p.isPending id) := by
  rw [isPending]
  cases h : p.find? id with
  | none => exact takes_nothing (advance_settle_absent h v)
  | some w => exact ⟨_, _, _, _, advance_settle h v, perm_remove hp h⟩

theorem takes_complete {p : Pending η} (hp : (p.waiting.map (·.id)).Nodup) (r : Response) :
    Takes (complete r) p (p.isAnswered r) := by
  rw [isAnswered]
  cases h : r.id.integer? with
  | none => exact takes_nothing (advance_complete_of_no_integer h p)
  | some id =>
    obtain ⟨verdict, entry, ws, rest, hadv, hperm⟩ := takes_settle hp id (verdictOf r)
    exact ⟨verdict, entry, ws, rest, (advance_complete h p).trans hadv, hperm⟩

theorem takes_expire (p : Pending η) (now : Int) :
    Takes (expire now) p (p.waiting.filter (isDue now)).length :=
  ⟨_, _, _, _, advance_expire now p, List.perm_append_comm.trans (List.filter_append_perm (isDue now) p.waiting)⟩

theorem takes_rejectAll (p : Pending η) (e : Error) : Takes (rejectAll e) p p.waiting.length :=
  ⟨_, _, _, _, advance_rejectAll e p, by simp⟩

/-- Every use but an issue takes requests and gives the right answer. -/
theorem takes {p : Pending η} (hp : (p.waiting.map (·.id)).Nodup) {u : Use η} (hu : u.isIssue = false) :
    ∃ a : u.Answer, Right u p a ∧ Takes u.body p a := by
  cases u with
  | issue method params asker now => cases hu
  | complete r => exact ⟨_, rfl, takes_complete hp r⟩
  | expire now => exact ⟨_, rfl, takes_expire p now⟩
  | reject id e => exact ⟨_, rfl, takes_settle hp id _⟩
  | rejectAll e => exact ⟨_, rfl, takes_rejectAll p e⟩

/-! ## Settling one request -/

variable {m : (uses η).Moment}

theorem enter_reject {id : Int} {w : Waiting η} (h : m.state.find? id = some w) (e : Error) :
    m.enter (.reject id e) = ⟨m.state.remove id,
      ⟨.reject id e, m.state, (w, .rejected e), fun _ => .done true⟩ :: m.stack,
      m.trace ++ [.called (w, .rejected e)]⟩ :=
  Operations.Moment.proceed_of_waiting ((advance_settle h _).trans (advance_tellThen_cons ..))

theorem enter_reject_absent {id : Int} (h : m.state.isPending id = false) (e : Error) :
    m.enter (.reject id e) = { m with trace := m.trace ++ [.ended (.reject id e) m.state false] } := by
  have habsent : m.state.find? id = none := by simpa [isPending] using h
  exact Operations.Moment.proceed_of_ended (advance_settle_absent habsent _)

theorem enter_complete {r : Response} {id : Int} {w : Waiting η} (hr : r.id = .int id)
    (h : m.state.find? id = some w) : m.enter (.complete r) = ⟨m.state.remove id,
      ⟨.complete r, m.state, (w, verdictOf r), fun _ => .done true⟩ :: m.stack,
      m.trace ++ [.called (w, verdictOf r)]⟩ := by
  have hid : r.id.integer? = some id := by rw [hr, Json.integer?]
  exact Operations.Moment.proceed_of_waiting
    ((advance_complete hid _).trans ((advance_settle h _).trans (advance_tellThen_cons ..)))

theorem enter_complete_absent {r : Response} (h : ∀ id, r.id = .int id → m.state.isPending id = false) :
    m.enter (.complete r) = { m with trace := m.trace ++ [.ended (.complete r) m.state false] } := by
  refine Operations.Moment.proceed_of_ended ?_
  show (complete r).advance m.state = _
  cases hid : r.id.integer? with
  | none => exact advance_complete_of_no_integer hid _
  | some id =>
    have habsent : m.state.find? id = none := by
      simpa [isPending] using h id (Json.integer?_eq_some.1 hid)
    exact (advance_complete hid _).trans (advance_settle_absent habsent _)

end Pending

end LanguageClient
