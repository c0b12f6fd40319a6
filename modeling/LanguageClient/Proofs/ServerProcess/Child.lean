import Mathlib.Data.List.Infix
import LanguageClient.ServerProcess
/-
  LanguageClient.Proofs.ServerProcess.Child — the other end of the pipes.

  A child writes to its two streams, closes them and ends, at any time; so may processes that
  it has left its streams to, even after its end. Its end is remembered with what had been
  written until then. What the system answers to the client has to fit: a read gives what was
  written and not read yet, in the order of writing, and a stream ends when it is closed and
  read up. Everything else the system may answer as it likes.

  - `Child.move` is what happens on the other side; `Child.answer` says which answers fit, and
    what they leave behind.
  - `Drift` is what may have happened on the other side meanwhile.
-/

namespace LanguageClient.ServerProcess

structure Flow where
  read : Bytes := []
  /-- What was written and has not been read. -/
  unread : Bytes := []
  /-- Somebody can write to it. -/
  isOpen : Bool := true

namespace Flow

def written (f : Flow) : Bytes := f.read ++ f.unread

def push (f : Flow) (b : Bytes) : Flow := { f with unread := f.unread ++ b }

def close (f : Flow) : Flow := { f with isOpen := false }

def take (f : Flow) (b : Bytes) : Flow := { f with read := f.read ++ b, unread := f.unread.drop b.length }

theorem written_push (f : Flow) (b : Bytes) : f.written <+: (f.push b).written := ⟨b, List.append_assoc _ _ b⟩

theorem written_close (f : Flow) : f.written <+: f.close.written := List.prefix_rfl

theorem written_take {f : Flow} {b : Bytes} (h : b <+: f.unread) : f.written <+: (f.take b).written := by
  show f.read ++ f.unread <+: f.read ++ b ++ f.unread.drop b.length
  rw [List.append_assoc, ← List.prefix_append_drop h]

/-- There is nothing to be read, and never will be. -/
def IsDry (f : Flow) : Prop := f.unread = [] ∧ f.isOpen = false

end Flow

structure Child where
  flow : Stream → Flow := fun _ => {}
  /-- What had been written when the child ended, once it has. -/
  last : Option (Stream → Bytes) := none
  last_prefix : ∀ l, last = some l → ∀ s, l s <+: (flow s).written := by nofun

namespace Child

def written (k : Child) (s : Stream) : Bytes := (k.flow s).written

def read (k : Child) (s : Stream) : Bytes := (k.flow s).read

/-- What had been written to a dry stream when the child ended was read. -/
theorem last_read {k : Child} {l : Stream → Bytes} (h : k.last = some l) {s : Stream} (hdry : (k.flow s).unread = []) :
    l s <+: k.read s := by
  have hl := k.last_prefix l h s
  rwa [Flow.written, hdry, List.append_nil] at hl

def setFlow (k : Child) (s : Stream) (f : Flow) (h : (k.flow s).written <+: f.written) : Child where
  flow t := if t = s then f else k.flow t
  last := k.last
  last_prefix l hl t := by
    by_cases hts : t = s
    · subst hts
      rw [if_pos rfl]
      exact (k.last_prefix l hl t).trans h
    · rw [if_neg hts]
      exact k.last_prefix l hl t

section setFlow

variable {k : Child} {s t : Stream} {f : Flow} {h : (k.flow s).written <+: f.written}

@[simp] theorem flow_setFlow_self : (k.setFlow s f h).flow s = f := if_pos rfl

theorem flow_setFlow_of_ne (hne : t ≠ s) : (k.setFlow s f h).flow t = k.flow t := if_neg hne

theorem written_setFlow (t : Stream) : k.written t <+: (k.setFlow s f h).written t := by
  by_cases hts : t = s
  · subst hts
    rwa [written, written, flow_setFlow_self]
  · rw [written, written, flow_setFlow_of_ne hts]

end setFlow

/-! ## What happens on the other side -/

inductive Move where
  | write (s : Stream) (b : Bytes)
  | close (s : Stream)
  /-- The child ends. -/
  | exit

/-- A closed stream is not written to any more, and a child ends once. -/
def move (k : Child) : Move → Child
  | .write s b =>
    if (k.flow s).isOpen then
      k.setFlow s ((k.flow s).push b) (Flow.written_push _ b)
    else k
  | .close s => k.setFlow s (k.flow s).close (Flow.written_close _)
  | .exit =>
    match k.last with
    | some _ => k
    | none =>
      { flow := k.flow
        last := some k.written
        last_prefix := fun _ hl _ => Option.some.inj hl ▸ List.prefix_rfl }

structure Drift (k k' : Child) : Prop where
  read : ∀ s, k'.read s = k.read s
  written : ∀ s, k.written s <+: k'.written s
  /-- A closed stream stays as it is. -/
  closed : ∀ s, (k.flow s).isOpen = false → k'.flow s = k.flow s
  last : ∀ l, k.last = some l → k'.last = some l

theorem Drift.refl (k : Child) : Drift k k := ⟨fun _ => rfl, fun _ => List.prefix_rfl, fun _ _ => rfl, fun _ h => h⟩

theorem Drift.trans {k k' k'' : Child} (h : Drift k k') (h' : Drift k' k'') : Drift k k'' where
  read s := (h'.read s).trans (h.read s)
  written s := (h.written s).trans (h'.written s)
  closed s hs := (h'.closed s (h.closed s hs ▸ hs)).trans (h.closed s hs)
  last l hl := h'.last l (h.last l hl)

theorem Drift.dry {k k' : Child} (h : Drift k k') {s : Stream} (hs : (k.flow s).IsDry) : (k'.flow s).IsDry :=
  (h.closed s hs.2).symm ▸ hs

/-- A stream that was open has changed, and what was read is the same. -/
theorem drift_setFlow {k : Child} {s : Stream} {f : Flow} (h : (k.flow s).written <+: f.written) (hread : f.read = k.read s)
    (hclosed : (k.flow s).isOpen = false → f = k.flow s) : Drift k (k.setFlow s f h) where
  read t := by
    by_cases hts : t = s
    · subst hts
      rw [read, flow_setFlow_self, hread]
    · rw [read, flow_setFlow_of_ne hts, read]
  written := written_setFlow
  closed t ht := by
    by_cases hts : t = s
    · subst hts
      rw [flow_setFlow_self, hclosed ht]
    · rw [flow_setFlow_of_ne hts]
  last _ hl := hl

theorem drift_move (k : Child) (m : Move) : Drift k (k.move m) := by
  cases m with
  | write s b =>
    rw [move]
    split
    · rename_i hopen
      exact drift_setFlow (Flow.written_push (k.flow s) b) rfl fun hclosed => absurd hopen (by rw [hclosed]; decide)
    · exact .refl k
  | close s =>
    refine drift_setFlow (Flow.written_close (k.flow s)) rfl fun hclosed => ?_
    rw [Flow.close, ← hclosed]
  | exit =>
    rw [move]
    split
    · exact .refl k
    · rename_i hnone
      exact ⟨fun _ => rfl, fun _ => List.prefix_rfl, fun _ _ => rfl, fun l hl => absurd hl (by simp [hnone])⟩

/-! ## What the system may answer -/

def receive (k : Child) (s : Stream) : Received → Option Child
  | .bytes b =>
    if h : b ≠ [] ∧ b <+: (k.flow s).unread then
      some (k.setFlow s ((k.flow s).take b) (Flow.written_take h.2))
    else none
  | .interrupted => some k
  | .nothing => if (k.flow s).unread = [] ∧ (k.flow s).isOpen = true then some k else none
  | .ended => if (k.flow s).unread = [] ∧ (k.flow s).isOpen = false then some k else none

/-- Bytes come from the beginning of what was not read yet. -/
theorem receive_bytes {k k' : Child} {s : Stream} {b : Bytes} (h : k.receive s (.bytes b) = some k') :
    b ≠ [] ∧ b <+: (k.flow s).unread ∧ k'.flow s = (k.flow s).take b ∧ (∀ t, t ≠ s → k'.flow t = k.flow t) ∧
      k'.last = k.last := by
  rw [receive] at h
  split at h
  · rename_i hb
    obtain rfl := Option.some.inj h
    exact ⟨hb.1, hb.2, flow_setFlow_self, fun t hts => flow_setFlow_of_ne hts, rfl⟩
  · cases h

theorem receive_nothing {k k' : Child} {s : Stream} (h : k.receive s .nothing = some k') :
    k' = k ∧ (k.flow s).unread = [] := by
  rw [receive] at h
  split at h
  · rename_i hempty
    exact ⟨(Option.some.inj h).symm, hempty.1⟩
  · cases h

theorem receive_ended {k k' : Child} {s : Stream} (h : k.receive s .ended = some k') : k' = k ∧ (k.flow s).IsDry := by
  rw [receive] at h
  split at h
  · rename_i hdry
    exact ⟨(Option.some.inj h).symm, hdry⟩
  · cases h

/-- Until the child has ended it is told to be running; then it never is. -/
def mayBe (k : Child) : Fate → Bool
  | .running => k.last.isNone
  | _ => k.last.isSome

end Child

structure Spawned extends Started where
  distinct : output ≠ errors

namespace Spawned

variable (x : Spawned)

def descriptor : Stream → Nat
  | .output => x.output
  | .errors => x.errors

def stream? (fd : Nat) : Option Stream :=
  if fd = x.output then some .output else if fd = x.errors then some .errors else none

theorem stream?_descriptor (s : Stream) : x.stream? (x.descriptor s) = some s := by
  cases s with
  | output => exact if_pos rfl
  | errors => exact (if_neg x.distinct.symm).trans (if_pos rfl)

end Spawned

/-- What a request leaves behind, if it can be answered so. A loop that has gone round as often
as it may is not told to end. -/
def Child.answer (x : Spawned) (k : Child) : (q : Service) → q.Reply → Option Child
  | .receive fd, r =>
    match x.stream? fd with
    | some s => k.receive s r
    | none => some k
  | .reap _, r => if k.mayBe r then some k else none
  | .spent, _ => none
  | _, _ => some k

section answer

variable {x : Spawned} {k k' : Child}

theorem Child.answer_receive (s : Stream) (r : Received) :
    k.answer x (.receive (x.descriptor s)) r = k.receive s r := by
  unfold Child.answer
  simp only [x.stream?_descriptor]

theorem Child.answer_reap {pid : Nat} {r : Fate} (h : k.answer x (.reap pid) r = some k') : k' = k ∧ k.mayBe r = true := by
  have h : (if k.mayBe r then some k else none) = some k' := h
  split at h
  · rename_i hmay
    exact ⟨(Option.some.inj h).symm, hmay⟩
  · cases h

/-- Only a read changes what is on the other side. -/
theorem Child.eq_of_answer {q : Service} {r : q.Reply} (hq : ∀ fd, q ≠ .receive fd) (h : k.answer x q r = some k') :
    k' = k := by
  cases q with
  | receive fd => exact absurd rfl (hq fd)
  | reap pid => exact (answer_reap h).1
  | spent => cases h
  | _ => exact (Option.some.inj h).symm

end answer

end LanguageClient.ServerProcess
