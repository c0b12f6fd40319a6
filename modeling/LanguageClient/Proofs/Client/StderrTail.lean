import LanguageClient.Proofs.Bytes
import LanguageClient.Proofs.Client.Silence
import LanguageClient.Proofs.Client.Sparing
/-
  LanguageClient.Proofs.Client.StderrTail — the end of a server's error output is kept exactly.

  Whatever is done to a client, what it keeps of the error output of its server is the end of
  all that was written to it since the server was started last, as long as it may be: no
  matter in which chunks it came, and what stops, exits and messages came in between
  (`tail_exact`).

  - `errorOutput`: what was written, read off the events alone.
-/

namespace LanguageClient.Client

open Routine Operations

variable {η : Type} {read : Bytes → Except Frame.Dropped Message} {c : Client η}

/-! ## What was written -/

section Output

variable {σ : Type} {body : (d : Deed η) → Routine σ (Calls η) d.Answer}

/-- The error output after an event. The call that starts a server begins it anew; a start that
is refused makes no such call. -/
def outputAfter (output : Bytes) : Event (⟨Deed η, Deed.Answer, body⟩ : Operations σ (Calls η)) → Bytes
  | .called (.spawn _) => []
  | .ended (.use (.errors chunk)) _ _ => output ++ chunk
  | _ => output

def errorOutput (trace : List (Event (⟨Deed η, Deed.Answer, body⟩ : Operations σ (Calls η)))) : Bytes :=
  trace.foldl outputAfter []

theorem errorOutput_append (trace : List (Event (⟨Deed η, Deed.Answer, body⟩ : Operations σ (Calls η))))
    (e : Event (⟨Deed η, Deed.Answer, body⟩ : Operations σ (Calls η))) :
    errorOutput (trace ++ [e]) = outputAfter (errorOutput trace) e := by
  rw [errorOutput, List.foldl_append]
  rfl

end Output

/-! ## What is kept -/

def tailCare : Care := ⟨True, False, False, False⟩

/-- Neither a call that starts no server nor the end of an operation is error output. -/
theorem outputAfter_of_quiet {σ : Type} {body : (d : Deed η) → Routine σ (Calls η) d.Answer} (output : Bytes)
    {e : Event (⟨Deed η, Deed.Answer, body⟩ : Operations σ (Calls η))} {d : Deed η} {start : σ}
    (hd : ∀ chunk, d ≠ .use (.errors chunk))
    (he : (∃ a, e = .ended d start a) ∨ ∃ call, Call.NoSpawn call ∧ e = .called call) : outputAfter output e = output := by
  rcases he with ⟨a, rfl⟩ | ⟨call, hcall, rfl⟩
  · cases d with
    | use u =>
      cases u with
      | errors chunk => exact absurd rfl (hd chunk)
      | _ => rfl
    | _ => rfl
  · cases call with
    | spawn config => exact hcall.elim
    | _ => rfl

structure KeepsTail (limit : Nat) (m : (whole η read).Moment) : Prop where
  limit_eq : m.state.options.stderrTailBytes = limit
  tail_eq : m.state.stderrTail = Bytes.lastN limit (errorOutput m.trace)

variable {limit : Nat} {m : (whole η read).Moment}

theorem KeepsTail.quiet (h : KeepsTail limit m) {d : Deed η} (hd : ∀ chunk, d ≠ .use (.errors chunk)) {start : Client η}
    {p : Action η d.Answer} (hp : ActionSpares tailCare Call.NoSpawn p m.state) :
    KeepsTail limit (Moment.proceed (O := whole η read) m d start p) := by
  have hmoved : Spares tailCare m.state _ := moves_proceed (O := whole η read) d start hp
  obtain ⟨e, htrace, he⟩ := proceed_event (O := whole η read) d start hp
  refine ⟨(congrArg ClientOptions.stderrTailBytes hmoved.options).trans h.limit_eq, (hmoved.tail trivial).trans ?_⟩
  rw [htrace, errorOutput_append, outputAfter_of_quiet _ hd he]
  exact h.tail_eq

theorem KeepsTail.errors (h : KeepsTail limit m) (chunk : Bytes) : KeepsTail limit (m.enter (.use (.errors chunk))) := by
  rw [Moment.enter, Moment.proceed_of_ended (advance_errors read chunk)]
  refine ⟨h.limit_eq, ?_⟩
  rw [errorOutput_append]
  show Bytes.lastN m.state.options.stderrTailBytes (m.state.stderrTail ++ chunk) = Bytes.lastN limit (_ ++ chunk)
  rw [h.limit_eq, h.tail_eq, Bytes.lastN_append]

/-- A start begins anew, unless it is refused. -/
theorem KeepsTail.starts (h : KeepsTail limit m) {d : Deed η} (hd : d.Starts) : KeepsTail limit (m.enter d) := by
  by_cases hcalm : m.state.Calm
  · obtain ⟨next, hadv⟩ := advance_starts read hd hcalm
    rw [Moment.enter, Moment.proceed_of_waiting hadv]
    refine ⟨h.limit_eq, ?_⟩
    rw [errorOutput_append]
    exact (Bytes.lastN_nil limit).symm
  · obtain ⟨a, hadv⟩ := advance_starts_busy read hd hcalm
    rw [Moment.enter, Moment.proceed_of_ended hadv]
    refine ⟨h.limit_eq, h.tail_eq.trans ?_⟩
    have hquiet : ∀ chunk, d ≠ .use (.errors chunk) := by
      rintro chunk rfl
      exact hd
    rw [errorOutput_append, outputAfter_of_quiet _ hquiet (Or.inl ⟨a, rfl⟩)]

theorem KeepsTail.enter (h : KeepsTail limit m) (d : Deed η) : KeepsTail limit (m.enter d) := by
  by_cases hstarts : d.Starts
  · exact h.starts hstarts
  · by_cases herrors : ∃ chunk, d = .use (.errors chunk)
    · obtain ⟨chunk, rfl⟩ := herrors
      exact h.errors chunk
    · have hquiet : ∀ chunk, d ≠ .use (.errors chunk) := fun chunk heq => herrors ⟨chunk, heq⟩
      exact h.quiet hquiet (heeds_body (fun _ h => h.noSpawn) (Deed.allowed id id hstarts fun _ => hquiet) False.elim)

/-- What a client keeps of the error output of its server is always the end of what was written
since the server was started last, and as much of it as may be kept. -/
theorem tail_exact {config : ServerConfig} {options : ClientOptions} {link : Link} {router : Router η}
    {errors exits publications : Signal η}
    (h : (whole η read).Reachable (made config options link router errors exits publications) m) :
    m.state.stderrTail <:+ errorOutput m.trace ∧
      m.state.stderrTail.length = min options.stderrTailBytes (errorOutput m.trace).length := by
  suffices hkept : KeepsTail options.stderrTailBytes m by
    rw [hkept.tail_eq]
    exact ⟨Bytes.lastN_suffix _ _, Bytes.length_lastN _ _⟩
  induction h with
  | init => exact ⟨rfl, (Bytes.lastN_nil _).symm⟩
  | step hm hstep ih =>
    cases hstep with
    | enter _ d => exact ih.enter d
    | reply s f stack trace r =>
      have hbound : Bound (sparing tailCare Call.NoSpawn) (fun _ => True) _ :=
        bound (fun _ => False.elim) (fun d s _ => heedsLater_body (fun _ h => h) id id False.elim) hm
      have htaken : ∀ chunk, f.op ≠ .use (.errors chunk) := fun chunk =>
        not_waiting (fun s => ⟨_, _, advance_errors read chunk⟩) hm f List.mem_cons_self
      have hrest : KeepsTail options.stderrTailBytes (⟨s, stack, trace⟩ : (whole η read).Moment) :=
        ⟨ih.limit_eq, ih.tail_eq⟩
      exact hrest.quiet htaken (hbound f List.mem_cons_self trivial r s False.elim)

/-- A client may keep three bytes. It has taken in two when a start is waiting for the transport;
then come three more, a stop in vain, and the last one. -/
def amidSpawn : (whole Unit Frame.read).Moment :=
  let config : ServerConfig := { name := text "demo", command := text "demo" }
  let greeting : Greeting := ⟨.null, .null, fun _ => .ok {}⟩
  let m : (whole Unit Frame.read).Moment := ⟨made config { stderrTailBytes := 3 } {} {} {} {} {}, [], []⟩
  let m := (m.enter (.use (.errors (text "ab")))).enter (.connect greeting none)
  ((m.enter (.use (.errors (text "cde")))).enter (.use (.stop none))).enter (.use (.errors (text "f")))

theorem tail_exact_amid_spawn : amidSpawn.stack.length = 1 ∧ amidSpawn.state.stderrTail = text "def" ∧
    errorOutput amidSpawn.trace = text "cdef" ∧
    amidSpawn.state.stderrTail <:+ errorOutput amidSpawn.trace ∧
    amidSpawn.state.stderrTail.length = min 3 (errorOutput amidSpawn.trace).length := by
  have h : (whole Unit Frame.read).Reachable
      (made { name := text "demo", command := text "demo" } { stderrTailBytes := 3 } {} {} {} {} {}) amidSpawn :=
    ((((Reachable.init.enter _).enter _).enter _).enter _).enter _
  exact ⟨rfl, rfl, rfl, tail_exact h⟩

end LanguageClient.Client
