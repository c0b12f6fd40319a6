import LanguageClient.Proofs.Reentry.Contract
import LanguageClient.Proofs.Reentry.Restraint
import LanguageClient.Proofs.ServerProcess.Reaping
/-
  LanguageClient.Proofs.ServerProcess.Ledger — what was told of processes, and what was reported.

  The client's end is told of the end of its process once, and reports it later; until then it
  still has the process. So it stands in one of a few ways: with a process of whose end it was
  not told, with one of whose end it was, or with none; and all processes before were reported
  as they ended.

  - `Follows`, `Without`, `Owes`: the ways in which the client's end stands.
  - `Lasting`: what stays so while processes end and the client's end keeps its process.
  - `contract`: while something is handed over, the user may leave a process that has not been
    told of for another one; one that has been told of has to stay.
  - `quiet`: reads, writes and closing ask for no process and keep the one there is.
-/

namespace LanguageClient.ServerProcess.Reaping

structure Ledger where
  table : Table
  reports : List (Option Nat)

/-- The processes of a table are those that were reported, and have ended so. -/
def Paid (t : Table) (reports : List (Option Nat)) : Prop := t.map Entry.ended = reports.reverse.map some

theorem Paid.in_order {t : Table} {reports : List (Option Nat)} (h : Paid t reports) :
    t.reverse.map Entry.ended = reports.map some := by
  rw [List.map_reverse, h, ← List.map_reverse, List.reverse_reverse]

/-- The client's end has a process, the last one that was started, and has reported all others. It may have been
told of its end. -/
inductive Follows : Option (Option Nat) → ServerProcess → Ledger → Prop
  | untold {p : ServerProcess} {e : Entry} {t : Table} {reports : List (Option Nat)} :
      p.pid = some e.pid → e.isTold = false → Paid t reports → Follows none p ⟨e :: t, reports⟩
  | told {p : ServerProcess} {e : Entry} {t : Table} {reports : List (Option Nat)} {code : Option Nat} :
      p.pid = some e.pid → e.isTold = true → e.ended = some code → Paid t reports →
      Follows (some code) p ⟨e :: t, reports⟩

def Without (p : ServerProcess) (g : Ledger) : Prop := p.pid = none ∧ Paid g.table g.reports

/-- The client's end has no process any more, and is about to report how the last one ended. -/
def Owes (code : Option Nat) (p : ServerProcess) (g : Ledger) : Prop :=
  p.pid = none ∧ Paid g.table (g.reports ++ [code])

def Stands (told : Option (Option Nat)) (p : ServerProcess) (g : Ledger) : Prop :=
  Follows told p g ∨ told = none ∧ Without p g

def Fair (g : Ledger) : Prop := ∃ newer older, g.table = newer ++ older ∧ Paid older g.reports

variable {told : Option (Option Nat)} {p p' : ServerProcess} {g g' : Ledger}

/-! ## What lasts -/

structure Passes (g g' : Ledger) : Prop where
  table : Drift g.table g'.table
  reports : g'.reports = g.reports

theorem Passes.refl (g : Ledger) : Passes g g := ⟨.refl g.table, rfl⟩

theorem Paid.drift {t t' : Table} {reports : List (Option Nat)} (h : Paid t reports) (hdrift : Drift t t') :
    Paid t' reports := by
  -- every entry has ended by now, and so it stays; the induction does not mind the order of the reports
  have key : ∀ codes : List (Option Nat), t.map Entry.ended = codes.map some → t'.map Entry.ended = codes.map some := by
    clear h
    induction hdrift with
    | nil => exact fun _ h => h
    | cons hage _ ih =>
      intro codes h
      cases codes with
      | nil => cases h
      | cons code codes =>
        obtain ⟨hhead, htail⟩ := List.cons.inj h
        exact congrArg₂ List.cons (hage.ended code hhead) (ih codes htail)
  exact key reports.reverse h

/-- What is known of the client's end and stays so while processes end, as long as it keeps its process. -/
structure Lasting (P : ServerProcess → Ledger → Prop) : Prop where
  fair : ∀ {p g}, P p g → Fair g
  keeps : ∀ {p g p' g'}, P p g → p'.pid = p.pid → Passes g g' → P p' g'

theorem follows_lasting (told : Option (Option Nat)) : Lasting (Follows told) where
  fair h := by
    cases h with
    | untold _ _ hpaid => exact ⟨[_], _, rfl, hpaid⟩
    | told _ _ _ hpaid => exact ⟨[_], _, rfl, hpaid⟩
  keeps := by
    intro p g p' g' h hp hpasses
    obtain ⟨t', reports'⟩ := g'
    obtain ⟨htable, hreports⟩ := hpasses
    obtain rfl : reports' = g.reports := hreports
    cases h with
    | untold hpid htold hpaid =>
      cases htable with
      | cons hage htail =>
        exact .untold (by rw [hp, hpid, hage.pid]) (hage.isTold.trans htold) (hpaid.drift htail)
    | told hpid htold hended hpaid =>
      cases htable with
      | cons hage htail =>
        exact .told (by rw [hp, hpid, hage.pid]) (hage.isTold.trans htold) (hage.ended _ hended) (hpaid.drift htail)

theorem without_lasting : Lasting Without where
  fair h := ⟨[], _, rfl, h.2⟩
  keeps h hp hpasses := ⟨hp.trans h.1, by rw [hpasses.reports]; exact h.2.drift hpasses.table⟩

theorem owes_lasting (code : Option Nat) : Lasting (Owes code) where
  fair := by
    rintro p ⟨t, reports⟩ ⟨-, hpaid⟩
    cases t with
    | nil => simp [Paid] at hpaid
    | cons e t =>
      refine ⟨[e], t, rfl, ?_⟩
      unfold Paid at hpaid
      rw [List.reverse_append] at hpaid
      exact (List.cons.inj hpaid).2
  keeps h hp hpasses := ⟨hp.trans h.1, by rw [hpasses.reports]; exact h.2.drift hpasses.table⟩

theorem stands_lasting (told : Option (Option Nat)) : Lasting (Stands told) where
  fair h := h.elim (follows_lasting told).fair fun h => without_lasting.fair h.2
  keeps h hp hpasses :=
    h.imp (fun h => (follows_lasting told).keeps h hp hpasses) fun h => ⟨h.1, without_lasting.keeps h.2 hp hpasses⟩

/-- It is the same process that this is known of. -/
theorem Lasting.same {P : ServerProcess → Ledger → Prop} (hP : Lasting P) (pid : Option Nat) :
    Lasting fun p g => p.pid = pid ∧ P p g where
  fair h := hP.fair h.2
  keeps h hp hpasses := ⟨hp.trans h.1, hP.keeps h.2 hp hpasses⟩

theorem Follows.running (h : Follows told p g) : ∃ pid, p.pid = some pid := by
  cases h with
  | untold hpid _ _ => exact ⟨_, hpid⟩
  | told hpid _ _ _ => exact ⟨_, hpid⟩

theorem Follows.owes {code : Option Nat} (h : Follows (some code) p g) (hp : p'.pid = none) : Owes code p' g := by
  cases h with
  | told _ _ hended hpaid =>
    refine ⟨hp, ?_⟩
    unfold Paid at hpaid ⊢
    rw [List.map_cons, hended, hpaid, List.reverse_append]
    rfl

theorem Follows.unique {told' : Option (Option Nat)} (h : Follows told p g) (h' : Follows told' p g) : told = told' := by
  cases h with
  | untold _ htold _ =>
    cases h' with
    | untold _ _ _ => rfl
    | told _ htold' _ _ => exact absurd (htold.symm.trans htold') (by simp)
  | told _ htold hended _ =>
    cases h' with
    | untold _ htold' _ => exact absurd (htold.symm.trans htold') (by simp)
    | told _ _ hended' _ => exact hended.symm.trans hended'

theorem Follows.not_without (h : Follows told p g) : ¬ Without p g := by
  intro hnone
  obtain ⟨pid, hpid⟩ := h.running
  exact absurd (hpid.symm.trans hnone.1) (by simp)

/-- The client's end stands in one way only. -/
theorem Stands.unique {told' : Option (Option Nat)} (h : Stands told p g) (h' : Stands told' p g) : told = told' := by
  rcases h with hf | ⟨rfl, hnone⟩ <;> rcases h' with hf' | ⟨rfl, hnone'⟩
  · exact hf.unique hf'
  · exact absurd hnone' hf.not_without
  · exact absurd hnone hf'.not_without
  · rfl

/-- What the system says of a process whose end has not been told. -/
theorem Follows.asked {pid : Nat} {t : Table} (h : Follows none p g) (hpid : p.pid = some pid)
    (hdrift : Drift g.table t) :
    ((ask pid t).1 = .running ∧ Follows none p ⟨(ask pid t).2, g.reports⟩) ∨
    ∃ code, (ask pid t).1 = .ended code ∧ Follows (some code) p ⟨(ask pid t).2, g.reports⟩ := by
  cases h with
  | untold hown htold hpaid =>
    cases hdrift with
    | @cons _ e _ t hage htail =>
      -- the process was started last, so the table is asked for its first entry
      obtain rfl : e.pid = pid := Option.some.inj (by rw [hage.pid, ← hown, hpid])
      have hhead : e.isTold = false := hage.isTold.trans htold
      rw [ask_head hhead]
      cases hended : e.ended with
      | none => exact Or.inl ⟨rfl, .untold hpid hhead (hpaid.drift htail)⟩
      | some code => exact Or.inr ⟨code, rfl, .told hpid rfl rfl (hpaid.drift htail)⟩

/-! ## The contract -/

def record : Call → Ledger → Ledger
  | .deliver (.exit code), g => { g with reports := g.reports ++ [code] }
  | _, g => g

def finish (rounds : Nat) (a : Act) (start : ServerProcess) (answer : a.Answer) (g : Ledger) : Ledger :=
  { g with reports := g.reports ++ (reportOf (.ended a start answer : (acts rounds).Event)).toList }

/-- What whoever has the word may do: a process of whose end was told stays, with that end. -/
def Later (p : ServerProcess) (g : Ledger) (p' : ServerProcess) (g' : Ledger) : Prop :=
  ∀ told, Stands told p g → Stands told p' g'

def Served (q : Service) (g : Ledger) (r : q.Reply) (g' : Ledger) : Prop :=
  g'.reports = g.reports ∧ ∃ t, Drift g.table t ∧ Reaping.answer t q r = some g'.table

def contract : Contract ServerProcess Calls Ledger where
  record := record
  safe
    | .service _, _, g => Fair g
    | .deliver _, p, g => ∃ told, Stands told p g
  answers
    | .service q, p, g, r, p', g' => p' = p ∧ Served q g r g'
    | .deliver _, p, g, _, p', g' => Later p g p' g'

theorem holds_request {q : Service} {post : q.Reply → ServerProcess → Ledger → Prop} (hfair : Fair g)
    (h : ∀ r g', Served q g r g' → post r p g') : (request q).Holds contract post p g := by
  refine Routine.holds_ask.2 ⟨hfair, ?_⟩
  rintro r p' g' ⟨rfl, hserved⟩
  exact h r g' hserved

/-! ## What asks for no process -/

def isQuiet : Service → Bool
  | .start _ => false
  | .reap _ => false
  | .collect _ => false
  | _ => true

theorem eq_of_answer {t t' : Table} {q : Service} {r : q.Reply} (hq : isQuiet q = true)
    (h : Reaping.answer t q r = some t') : t' = t := by
  cases q with
  | start _ => cases hq
  | reap _ => cases hq
  | collect _ => cases hq
  | _ => exact (Option.some.inj h).symm

theorem Served.passes {q : Service} {r : q.Reply} (h : Served q g r g') (hq : isQuiet q = true) : Passes g g' := by
  obtain ⟨hreports, t, hdrift, hanswer⟩ := h
  exact ⟨eq_of_answer hq hanswer ▸ hdrift, hreports⟩

theorem holds_quiet {q : Service} {post : q.Reply → ServerProcess → Ledger → Prop} {P : ServerProcess → Ledger → Prop}
    (hP : Lasting P) (hp : P p g) (hq : isQuiet q = true) (h : ∀ r g', P p g' → post r p g') :
    (request q).Holds contract post p g :=
  holds_request (hP.fair hp) fun r g' hserved => h r g' (hP.keeps hp rfl (hserved.passes hq))

/-- The client's end keeps its process, hands nothing over and asks for no process. -/
def quiet (pid : Option Nat) : Restraint ServerProcess Calls where
  trust p := p.pid = pid
  moves p p' := p'.pid = p.pid
  notes _ := True
  calls
    | .service q => isQuiet q = true
    | .deliver _ => False
  stays _ := rfl
  chain h h' := h'.trans h
  trusted h h' := h'.trans h

/-- What lasts is not touched by what is quiet. -/
theorem Lasting.holds {α : Type} {P : ServerProcess → Ledger → Prop} (hP : Lasting P) {pid : Option Nat} {r : Work α}
    {post : α → ServerProcess → Ledger → Prop} (h : r.Heeds (quiet pid) p) (hpid : p.pid = pid) (hp : P p g)
    (hpost : ∀ a p' g', P p' g' → post a p' g') : r.Holds contract post p g := by
  induction r generalizing p g with
  | done a => exact hpost a p g hp
  | look next ih => exact ih p h hpid hp
  | put t next ih => exact ih h.2 (h.1.trans hpid) (hP.keeps hp h.1 (.refl g))
  | note e next ih => exact ih h.2 hpid hp
  | call c next ih =>
    cases c with
    | service q =>
      refine ⟨hP.fair hp, ?_⟩
      rintro r p' g' ⟨rfl, hserved⟩
      exact ih r (h.2 r p' hpid) hpid (hP.keeps hp rfl (hserved.passes h.1))
    | deliver d => exact h.1.elim

section quiet

variable {rounds : Nat} {pid : Option Nat}

theorem heeds_request {q : Service} (hq : isQuiet q = true) : (request q).Heeds (quiet pid) p :=
  Routine.heeds_ask (R := quiet pid) hq

theorem heeds_repeatedly {α β : Type} {step : β → Work (β ⊕ α)} {giveUp : β → α}
    (hstep : ∀ b p, p.pid = pid → (step b).Heeds (quiet pid) p) (hp : p.pid = pid) (b : β) :
    (repeatedly rounds step b giveUp).Heeds (quiet pid) p := by
  refine (Routine.heeds_loop hstep hp rounds b).bind hp fun r p' hp' => ?_
  cases r with
  | inl b => exact (heeds_request rfl).bind hp' fun _ _ _ => trivial
  | inr a => trivial

theorem heeds_drain (s : Stream) (hp : p.pid = pid) : (drain rounds s).Heeds (quiet pid) p := by
  unfold drain
  rw [Routine.heeds_get_bind]
  cases p.descriptor s with
  | none => trivial
  | some fd =>
    refine (heeds_repeatedly (fun got p hp => ?_) hp []).bind hp fun result p' hp' => ?_
    · refine (heeds_request rfl).bind hp fun r p' _ => ?_
      cases r <;> trivial
    · obtain ⟨got, hasEnded⟩ := result
      cases hasEnded with
      | false => trivial
      | true =>
        refine (heeds_request rfl).bind hp' fun _ q _ => (Routine.heeds_modify_bind _ _).2 ⟨?_, trivial⟩
        cases s <;> rfl

theorem heeds_hold (s : Stream) (hp : p.pid = pid) : (hold rounds s).Heeds (quiet pid) p := by
  refine (heeds_drain s hp).bind hp fun b q _ => (Routine.heeds_modify _).2 ?_
  cases s <;> rfl

theorem heeds_write (bytes : Bytes) (hp : p.pid = pid) : (write rounds bytes).Heeds (quiet pid) p := by
  unfold write
  rw [Routine.heeds_get_bind]
  cases p.input with
  | none => trivial
  | some fd =>
    refine heeds_repeatedly (fun rest p hp => ?_) hp bytes
    unfold writeStep
    split
    next => trivial
    next =>
      refine (heeds_request rfl).bind hp fun r p hp => ?_
      cases r with
      | bytes n => trivial
      | interrupted => trivial
      | full =>
        have hroom : (makeRoom rounds fd).Heeds (quiet pid) p := by
          unfold makeRoom
          rw [Routine.heeds_get_bind]
          refine (heeds_request rfl).bind hp fun there p hp => ?_
          cases there with
          | false => trivial
          | true =>
            refine (heeds_hold .output hp).bind hp fun _ p hp => ?_
            exact (heeds_hold .errors hp).bind hp fun _ _ _ => trivial
        refine hroom.bind hp fun there _ _ => ?_
        cases there <;> trivial
      | refused why => exact ⟨trivial, trivial⟩

theorem heeds_closing (fds : List Nat) (hp : p.pid = pid) :
    (fds.forM fun fd => request (.close fd)).Heeds (quiet pid) p :=
  Routine.heeds_forM (fun _ _ _ _ => heeds_request rfl) hp

theorem heeds_closeAll (hp : p.pid = pid) : closeAll.Heeds (quiet pid) p := by
  unfold closeAll
  rw [Routine.heeds_get_bind]
  exact (heeds_closing _ hp).bind hp fun _ q hq => (Routine.heeds_set _).2 (hp.trans hq.symm)

theorem heeds_closeInput (hp : p.pid = pid) : closeInput.Heeds (quiet pid) p := by
  unfold closeInput
  rw [Routine.heeds_get_bind]
  exact (heeds_closing _ hp).bind hp fun _ q hq => (Routine.heeds_set _).2 (hp.trans hq.symm)

theorem heeds_drainBoth (hp : p.pid = pid) : (drainBoth rounds).Heeds (quiet pid) p := by
  refine (heeds_drain .output hp).bind hp fun output p hp => ?_
  exact (heeds_drain .errors hp).bind hp fun _ _ _ => trivial

end quiet

end LanguageClient.ServerProcess.Reaping
