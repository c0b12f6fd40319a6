import LanguageClient.Proofs.ServerProcess.Reading
/-
  LanguageClient.Proofs.ServerProcess.Writing — what becomes of the bytes of a write.

  A write deals with the system: it sends, waits for room, reads meanwhile, and closes a stream
  that has ended. The system may answer every request as it likes, with regard to all that it has
  been asked before (`System`). An `Account` of the dealings says how far a write has come: which
  bytes were taken, which are left, and where those are that were read.

  - `Account.deal`: what one dealing does to the account.
  - `drain_attended`, `makeRoom_attended`: what was read is in hand, and then held.
  - `write_accounted`: whatever the system answers, all of the bytes are taken in their order or a
    beginning of them is, and everything that was read is held, in its order.
-/

namespace LanguageClient.ServerProcess

/-! ## Dealings -/

def content : Received → Bytes
  | .bytes b => b
  | _ => []

structure Dealing where
  request : Service
  reply : request.Reply

namespace Dealing

def taken : Dealing → Bytes
  | ⟨.send _ b, .bytes n⟩ => b.take n
  | _ => []

def reads : Dealing → List (Option Nat × Bytes)
  | ⟨.receive fd, r⟩ => [(some fd, content r)]
  | _ => []

/-- Whether a write ends here although something is left. -/
def givesUp : Dealing → Bool
  | ⟨.send .., .refused _⟩ => true
  | ⟨.awaitRoom .., isReady⟩ => !isReady
  | ⟨.spent, _⟩ => true
  | _ => false

end Dealing

def taken (ds : List Dealing) : Bytes := ds.flatMap Dealing.taken

def reads (ds : List Dealing) : List (Option Nat × Bytes) := ds.flatMap Dealing.reads

theorem taken_concat (ds : List Dealing) (d : Dealing) : taken (ds ++ [d]) = taken ds ++ d.taken := by
  simp [taken]

theorem reads_concat (ds : List Dealing) (d : Dealing) : reads (ds ++ [d]) = reads ds ++ d.reads := by
  simp [reads]

theorem fst_of_mem_reads {g : Option Nat × Bytes} {ds : List Dealing} (h : g ∈ reads ds) : ∃ fd, g.1 = some fd := by
  obtain ⟨⟨q, r⟩, -, hg⟩ := List.mem_flatMap.1 h
  cases q with
  | receive fd =>
    obtain rfl := List.mem_singleton.1 hg
    exact ⟨fd, rfl⟩
  | _ => cases hg

def portion {κ : Type} [DecidableEq κ] (k : κ) (got : List (κ × Bytes)) : Bytes :=
  got.flatMap fun g => if k = g.1 then g.2 else []

theorem portion_append {κ : Type} [DecidableEq κ] (k : κ) (got got' : List (κ × Bytes)) :
    portion k (got ++ got') = portion k got ++ portion k got' := List.flatMap_append

theorem portion_singleton (s t : Stream) (b : Bytes) : portion t [(s, b)] = only s b t := by
  simp [portion, only]

abbrev System := List Dealing → (q : Service) → q.Reply

structure Attended where
  process : ServerProcess
  dealings : List Dealing := []

namespace Attended

def seat : Seat ServerProcess Attended := ⟨Attended.process, fun p w => { w with process := p }, fun _ w => w⟩

def answer (y : System) : (c : Call) → StateM Attended c.Reply
  | .service q => fun w => (y w.dealings q, { w with dealings := w.dealings ++ [⟨q, y w.dealings q⟩] })
  | .deliver _ => pure ()

end Attended

def writing (y : System) (rounds : Nat) (bytes : Bytes) (p : ServerProcess) : Bool × Attended :=
  (write rounds bytes).run Attended.seat (Attended.answer y) { process := p }

/-- Nobody else uses the process, and every answer is written down. -/
def attended : Contract ServerProcess Calls (List Dealing) where
  record _ ds := ds
  safe _ _ _ := True
  answers
    | .service q, p, ds, r, p', ds' => p' = p ∧ ds' = ds ++ [⟨q, r⟩]
    | .deliver _, p, ds, _, p', ds' => p' = p ∧ ds' = ds

variable {rounds : Nat} {p₀ p p' : ServerProcess} {bytes rest rest' : Bytes} {inHand inHand' : Stream → Bytes}
  {ds : List Dealing} {got : List (Stream × Bytes)}

theorem attended_request {q : Service} {post : q.Reply → ServerProcess → List Dealing → Prop}
    (h : ∀ r, post r p (ds ++ [⟨q, r⟩])) : (request q).Holds attended post p ds := by
  refine Routine.holds_ask.2 ⟨trivial, ?_⟩
  rintro r _ _ ⟨rfl, rfl⟩
  exact h r

/-- A loop may be cut short, which is a dealing too. -/
theorem attended_repeatedly {α β : Type} {step : β → Work (β ⊕ α)} {giveUp : β → α}
    {post : α → ServerProcess → List Dealing → Prop} (inv : β → ServerProcess → List Dealing → Prop)
    (hstep : ∀ b p ds, inv b p ds → (step b).Holds attended (Sum.elim inv post) p ds)
    (hspent : ∀ b p ds, inv b p ds → post (giveUp b) p (ds ++ [⟨.spent, ()⟩])) {b : β} (h : inv b p ds) :
    (repeatedly rounds step b giveUp).Holds attended post p ds := by
  unfold repeatedly
  rw [Routine.holds_bind]
  refine (Routine.Holds.loop (Sum.elim inv post) hstep h rounds).mono ?_
  intro r p ds hr
  cases r with
  | inr a => exact hr
  | inl b =>
    rw [Routine.holds_bind]
    exact attended_request fun _ => hspent b p ds hr

/-! ## The account of a write -/

def Drawn (p : ServerProcess) (ds : List Dealing) (got : List (Stream × Bytes)) : Prop :=
  reads ds = got.map fun g => (p.descriptor g.1, g.2)

/-- How far a write has come that began with the process `p₀`. What is offered to the system is
always what is left, and of all that was read some is held and some is in hand. -/
structure Account (p₀ : ServerProcess) (bytes rest : Bytes) (inHand : Stream → Bytes) (p : ServerProcess)
    (ds : List Dealing) : Prop where
  sent : bytes = taken ds ++ rest
  offered : ∀ (i fd : Nat) b r, ds[i]? = some ⟨.send fd b, r⟩ → p₀.input = some fd ∧ bytes = taken (ds.take i) ++ b
  read : ∃ got, Drawn p₀ ds got ∧ ∀ s, p.held s ++ inHand s = p₀.held s ++ portion s got
  streams : ∀ s fd, p.descriptor s = some fd → p₀.descriptor s = some fd

theorem Account.start (p : ServerProcess) (bytes : Bytes) : Account p bytes bytes (fun _ => []) p [] where
  sent := rfl
  offered := by simp
  read := ⟨[], rfl, fun _ => rfl⟩
  streams _ _ h := h

/-- What one dealing does to the account; what more is read is in hand. -/
theorem Account.deal {d : Dealing} (h : Account p₀ bytes rest inHand p ds) (htaken : rest = d.taken ++ rest')
    (hoffered : ∀ fd b r, d = ⟨.send fd b, r⟩ → p₀.input = some fd ∧ rest = b) (more : List (Stream × Bytes))
    (hreads : d.reads = more.map fun g => (p₀.descriptor g.1, g.2))
    (hinHand : ∀ s, inHand' s = inHand s ++ portion s more) : Account p₀ bytes rest' inHand' p (ds ++ [d]) where
  sent := by rw [taken_concat, List.append_assoc, ← htaken, ← h.sent]
  offered i fd b r hi := by
    by_cases hlt : i < ds.length
    · rw [List.getElem?_append_left hlt] at hi
      rw [List.take_append_of_le_length (Nat.le_of_lt hlt)]
      exact h.offered i fd b r hi
    · obtain ⟨hlen, -⟩ := List.getElem?_eq_some_iff.1 hi
      rw [List.length_append, List.length_singleton] at hlen
      obtain rfl : i = ds.length := by omega
      rw [List.getElem?_concat_length] at hi
      obtain ⟨hinput, rfl⟩ := hoffered fd b r (Option.some.inj hi)
      rw [List.take_left]
      exact ⟨hinput, h.sent⟩
  read := by
    obtain ⟨got, hgot, hheld⟩ := h.read
    refine ⟨got ++ more, ?_, fun s => ?_⟩
    · rw [Drawn, reads_concat, hgot, hreads, List.map_append]
    · rw [hinHand, ← List.append_assoc, hheld, portion_append, List.append_assoc]
  streams := h.streams

def Service.isIdle : Service → Bool
  | .send .. => false
  | .receive _ => false
  | _ => true

/-- An idle request leaves the account as it is. -/
theorem Account.pass {q : Service} (h : Account p₀ bytes rest inHand p ds) (hidle : q.isIdle = true) (r : q.Reply) :
    Account p₀ bytes rest inHand p (ds ++ [⟨q, r⟩]) := by
  cases q with
  | send fd b => cases hidle
  | receive fd => cases hidle
  | _ => exact h.deal rfl nofun [] rfl fun s => (List.append_nil _).symm

/-- What is left is offered, and the system takes a beginning of it or nothing. -/
theorem Account.send {fd : Nat} (h : Account p₀ bytes rest inHand p ds) (hfd : p₀.input = some fd) {r : Accepted}
    (hrest : rest = Dealing.taken ⟨.send fd rest, r⟩ ++ rest') :
    Account p₀ bytes rest' inHand p (ds ++ [⟨.send fd rest, r⟩]) := by
  refine h.deal hrest ?_ [] rfl fun s => (List.append_nil _).symm
  rintro fd b r ⟨⟩
  exact ⟨hfd, rfl⟩

/-- What is read of a stream is in hand. -/
theorem Account.receive {s : Stream} {fd : Nat} {got : Bytes} (h : Account p₀ bytes rest (only s got) p ds)
    (hfd : p.descriptor s = some fd) (r : Received) :
    Account p₀ bytes rest (only s (got ++ content r)) p (ds ++ [⟨.receive fd, r⟩]) := by
  have hsource : p₀.descriptor s = some fd := h.streams s fd hfd
  refine h.deal rfl nofun [(s, content r)] ?_ fun t => ?_
  · rw [List.map_singleton, hsource]
    rfl
  · rw [portion_singleton, only_append]

/-- A process that has changed in other things than what it holds and what it reads from. -/
theorem Account.put (h : Account p₀ bytes rest inHand p ds) (hheld : ∀ s, p'.held s ++ inHand' s = p.held s ++ inHand s)
    (hstreams : ∀ s fd, p'.descriptor s = some fd → p.descriptor s = some fd) :
    Account p₀ bytes rest inHand' p' ds :=
  { h with
    read := h.read.imp fun _ hgot => ⟨hgot.1, fun s => (hheld s).trans (hgot.2 s)⟩
    streams := fun s fd hfd => h.streams s fd (hstreams s fd hfd) }

/-! ## Reading meanwhile -/

/-- One read after another. -/
theorem readUp_attended {s : Stream} {fd : Nat} {post : Bytes × Bool → ServerProcess → List Dealing → Prop}
    (hfd : p.descriptor s = some fd) (h : Account p₀ bytes rest (fun _ => []) p ds)
    (hpost : ∀ got hasEnded ds', Account p₀ bytes rest (only s got) p ds' → post (got, hasEnded) p ds') :
    (repeatedly rounds (drainStep fd) [] fun got => (got, false)).Holds attended post p ds := by
  -- this end stays as it is, and what was read is in hand
  refine attended_repeatedly (fun got p' ds' => p' = p ∧ Account p₀ bytes rest (only s got) p ds') ?_ ?_ ⟨rfl, ?_⟩
  · rintro got _ ds' ⟨rfl, hgot⟩
    unfold drainStep
    rw [Routine.holds_bind]
    refine attended_request fun r => ?_
    have hread := hgot.receive hfd r
    cases r with
    | bytes b => exact ⟨rfl, hread⟩
    | interrupted => exact ⟨rfl, by simpa [content] using hread⟩
    | nothing => exact hpost got false _ (by simpa [content] using hread)
    | ended => exact hpost got true _ (by simpa [content] using hread)
  · rintro got _ ds' ⟨rfl, hgot⟩
    exact hpost got false _ (hgot.pass (q := .spent) rfl ())
  · exact h.put (fun t => by rw [only_nil]) fun _ _ ht => ht

theorem drain_attended {s : Stream} {post : Bytes → ServerProcess → List Dealing → Prop}
    (h : Account p₀ bytes rest (fun _ => []) p ds)
    (hpost : ∀ got p' ds', Account p₀ bytes rest (only s got) p' ds' → post got p' ds') :
    (drain rounds s).Holds attended post p ds := by
  unfold drain
  simp only [Routine.holds_bind, Routine.holds_get]
  cases hfd : p.descriptor s with
  | none => exact hpost [] p ds (h.put (fun t => by rw [only_nil]) fun _ _ ht => ht)
  | some fd =>
    simp only [Routine.holds_bind]
    refine readUp_attended hfd h fun got hasEnded ds' hgot => ?_
    cases hasEnded with
    | false => exact hpost got p ds' hgot
    | true =>
      simp only [if_true, Routine.holds_bind, Routine.holds_modify, Routine.holds_pure]
      refine attended_request fun r => hpost got _ _ ?_
      refine (hgot.pass (q := .close fd) rfl r).put (fun t => by rw [held_ended]) fun t fd' ht => ?_
      rw [descriptor_ended] at ht
      split at ht
      · cases ht
      · exact ht

theorem hold_attended {s : Stream} {post : Unit → ServerProcess → List Dealing → Prop}
    (h : Account p₀ bytes rest (fun _ => []) p ds)
    (hpost : ∀ p' ds', Account p₀ bytes rest (fun _ => []) p' ds' → post () p' ds') :
    (hold rounds s).Holds attended post p ds := by
  unfold hold
  rw [Routine.holds_bind]
  refine drain_attended h fun got p' ds' hgot => hpost _ ds' ?_
  refine hgot.put (fun t => ?_) fun t fd ht => by rwa [descriptor_setHeld] at ht
  rw [held_setHeld, only, List.append_nil]
  split
  · rename_i hts
    rw [hts]
  · rw [List.append_nil]

theorem makeRoom_attended {fd : Nat} {post : Bool → ServerProcess → List Dealing → Prop}
    (h : Account p₀ bytes rest (fun _ => []) p ds)
    (hready : ∀ p' ds', Account p₀ bytes rest (fun _ => []) p' ds' → post true p' ds')
    (hfailed : ∀ p' ds' d, Account p₀ bytes rest (fun _ => []) p' (ds' ++ [d]) → d.givesUp = true →
      post false p' (ds' ++ [d])) :
    (makeRoom rounds fd).Holds attended post p ds := by
  unfold makeRoom
  simp only [Routine.holds_bind, Routine.holds_get]
  refine attended_request fun isReady => ?_
  have hwaited := h.pass (q := .awaitRoom fd p.sources) rfl isReady
  cases isReady with
  | false => exact hfailed p ds _ hwaited rfl
  | true =>
    simp only [if_true, Routine.holds_bind]
    refine hold_attended hwaited fun p₁ ds₁ h₁ => ?_
    refine hold_attended h₁ fun p₂ ds₂ h₂ => ?_
    exact hready p₂ ds₂ h₂

/-! ## A write -/

def Separate (p : ServerProcess) : Prop := p.output = none ∨ p.output ≠ p.errors

theorem Separate.unique (h : Separate p) {s t : Stream} {fd : Nat} (hs : p.descriptor s = some fd)
    (ht : p.descriptor t = some fd) : s = t := by
  have hboth : ¬ (p.output = some fd ∧ p.errors = some fd) := by
    rintro ⟨houtput, herrors⟩
    rcases h with hnone | hne
    · rw [hnone] at houtput
      cases houtput
    · exact hne (houtput.trans herrors.symm)
  cases s <;> cases t
  · rfl
  · exact absurd ⟨hs, ht⟩ hboth
  · exact absurd ⟨ht, hs⟩ hboth
  · rfl

/-- Where streams are told apart by their descriptors, what was read of a stream is what was read
from its descriptor. -/
theorem Drawn.portion_eq (h : Drawn p ds got) (hseparate : Separate p) (s : Stream) :
    portion s got = portion (p.descriptor s) (reads ds) := by
  rw [h, portion, portion, List.flatMap_map]
  refine List.flatMap_congr fun g hg => ?_
  have hmem : (p.descriptor g.1, g.2) ∈ reads ds := by
    rw [h]
    exact List.mem_map_of_mem hg
  obtain ⟨fd, hfd⟩ := fst_of_mem_reads hmem
  have hsame : s = g.1 ↔ p.descriptor s = p.descriptor g.1 :=
    ⟨fun hs => by rw [hs], fun hs => hseparate.unique (hs.trans hfd) hfd⟩
  simp only [hsame]

structure Written (p : ServerProcess) (bytes : Bytes) (isWritten : Bool) (p' : ServerProcess) (ds : List Dealing) :
    Prop where
  all : isWritten = true → taken ds = bytes
  beginning : isWritten = false → taken ds <+: bytes ∧ (taken ds ≠ bytes ∨ taken ds = [])
  /-- A write ends early only where there is no input, or at a dealing that leaves no hope. -/
  gave_up : isWritten = false → p.input = none ∨ ∃ d ∈ ds.getLast?, d.givesUp = true
  /-- What is offered to the server is what had not been taken before. -/
  offered : ∀ (i fd : Nat) b r, ds[i]? = some ⟨.send fd b, r⟩ → p.input = some fd ∧ bytes = taken (ds.take i) ++ b
  /-- All that was read was read of one of the streams, and is held behind what had been held of it before. -/
  held : ∃ got, Drawn p ds got ∧ ∀ s, p'.held s = p.held s ++ portion s got
  /-- What was read from the descriptor of a stream is held of that stream. -/
  apart : Separate p → ∀ s, p'.held s = p.held s ++ portion (p.descriptor s) (reads ds)

theorem Account.held (h : Account p₀ bytes rest (fun _ => []) p ds) :
    ∃ got, Drawn p₀ ds got ∧ ∀ s, p.held s = p₀.held s ++ portion s got := by
  obtain ⟨got, hgot, hheld⟩ := h.read
  refine ⟨got, hgot, fun s => ?_⟩
  rw [← hheld, List.append_nil]

theorem Account.apart (h : Account p₀ bytes rest (fun _ => []) p ds) (hseparate : Separate p₀) (s : Stream) :
    p.held s = p₀.held s ++ portion (p₀.descriptor s) (reads ds) := by
  obtain ⟨got, hgot, hheld⟩ := h.held
  rw [hheld, hgot.portion_eq hseparate]

/-- An account that nothing is in hand of, when the write ends. -/
theorem Account.written {isWritten : Bool} (h : Account p₀ bytes rest (fun _ => []) p ds)
    (hwhole : isWritten = true → rest = []) (hpart : isWritten = false → rest ≠ [] ∨ taken ds = [])
    (hend : isWritten = false → p₀.input = none ∨ ∃ d ∈ ds.getLast?, d.givesUp = true) :
    Written p₀ bytes isWritten p ds where
  all hw := by rw [h.sent, hwhole hw, List.append_nil]
  beginning hw := by
    refine ⟨⟨rest, h.sent.symm⟩, (hpart hw).imp_left fun hrest heq => hrest ?_⟩
    have hsent := h.sent
    rw [heq] at hsent
    exact List.self_eq_append_right.1 hsent
  gave_up := hend
  offered := h.offered
  held := h.held
  apart := h.apart

theorem Account.whole (h : Account p₀ bytes [] (fun _ => []) p ds) : Written p₀ bytes true p ds :=
  h.written (fun _ => rfl) nofun nofun

theorem Account.part {d : Dealing} (h : Account p₀ bytes rest (fun _ => []) p (ds ++ [d])) (hrest : rest ≠ [])
    (hd : d.givesUp = true) : Written p₀ bytes false p (ds ++ [d]) :=
  h.written nofun (fun _ => Or.inl hrest) fun _ => Or.inr ⟨d, List.getLast?_concat, hd⟩

/-- Without an input nothing is asked of the system. -/
theorem written_nothing (hinput : p.input = none) : Written p bytes false p [] :=
  (Account.start p bytes).written nofun (fun _ => Or.inr rfl) fun _ => Or.inl hinput

theorem write_attended :
    (write rounds bytes).Holds attended (fun isWritten p' ds => Written p bytes isWritten p' ds) p [] := by
  unfold write
  simp only [Routine.holds_bind, Routine.holds_get]
  cases hinput : p.input with
  | none => exact written_nothing hinput
  | some fd =>
    refine attended_repeatedly (fun rest p' ds' => Account p bytes rest (fun _ => []) p' ds') ?_ ?_
      (Account.start p bytes)
    · -- at every answer the account goes on with what is left, or the write ends with it
      intro rest p' ds' h
      unfold writeStep
      split
      · rename_i hempty
        exact (hempty ▸ h).whole
      · rename_i hrest
        rw [Routine.holds_bind]
        refine attended_request fun r => ?_
        cases r with
        | bytes n => exact h.send hinput (List.take_append_drop n rest).symm
        | interrupted => exact h.send hinput rfl
        | full =>
          simp only [Routine.holds_bind]
          refine makeRoom_attended (h.send hinput rfl) (fun p₁ ds₁ h₁ => h₁) ?_
          exact fun p₁ ds₁ d h₁ hd => h₁.part hrest hd
        | refused why => exact (h.send hinput rfl).part hrest rfl
    · -- out of rounds, and nothing may be left then either
      intro rest p' ds' h
      have hspent := h.pass (q := .spent) rfl ()
      cases rest with
      | nil => exact hspent.whole
      | cons c r => exact hspent.part (by simp) rfl

theorem Attended.seat_lawful : Attended.seat.Lawful := ⟨fun _ _ => rfl, fun _ _ => rfl⟩

/-- Whatever the system answers, a write that says so has had all of its bytes taken, once and in
order, and any other a beginning of them; and all that was read meanwhile is held in order. -/
theorem write_accounted (y : System) (rounds : Nat) (bytes : Bytes) (p : ServerProcess) :
    Written p bytes (writing y rounds bytes p).1 (writing y rounds bytes p).2.process
      (writing y rounds bytes p).2.dealings := by
  refine Routine.Holds.run Attended.seat_lawful Attended.dealings (fun _ _ => rfl) (fun _ _ => rfl) ?_ write_attended
  intro c w
  cases c with
  | service q => exact ⟨rfl, rfl⟩
  | deliver d => exact ⟨rfl, rfl⟩

/-- A system that takes two bytes, is interrupted, has no room until more of the output was read and
the error output has ended, takes one byte more, and then finds the pipe broken. -/
def hesitant : System
  | ds, .send .. => match ds.length with
    | 0 => .bytes 2
    | 1 => .interrupted
    | 2 => .full
    | 11 => .bytes 1
    | _ => .refused .brokenPipe
  | ds, .receive _ => match ds.length with
    | 4 => .bytes (text "ab")
    | 5 => .interrupted
    | 6 => .bytes (text "c")
    | 7 => .nothing
    | 8 => .bytes (text "!")
    | _ => .ended
  | _, .awaitRoom .. => true
  | _, .surroundings => { files := { tree := {} } }
  | _, .start _ => .error (.noFork .noResource)
  | _, .reap _ => .running
  | _, .collect _ => .unknown
  | _, .time => 0
  | _, .awaitBytes .. => ()
  | _, .signal .. => ()
  | _, .pause _ => ()
  | _, .close _ => ()
  | _, .spent => ()

def alreadyHolding : ServerProcess :=
  { pid := some 9, input := some 3, output := some 4, errors := some 5, heldOutput := text "old " }

example : Separate alreadyHolding ∧ (writing hesitant 9 (text "hello") alreadyHolding).1 = false ∧
    taken (writing hesitant 9 (text "hello") alreadyHolding).2.dealings = text "hel" ∧
    (writing hesitant 9 (text "hello") alreadyHolding).2.process.heldOutput = text "old abc" :=
  ⟨Or.inr (by decide), by decide +kernel, by decide +kernel, by decide +kernel⟩

end LanguageClient.ServerProcess
