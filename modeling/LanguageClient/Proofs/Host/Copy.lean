import LanguageClient.Host.Program.Copy
import LanguageClient.Proofs.Reentry.Contract
/-
  LanguageClient.Proofs.Host.Copy — what `cat` writes is what it reads.

  A host hands out the bytes of a file or a pipe in pieces as it likes. Without options `cat`
  writes each piece as it has come, so it has written all of them when it says that it has
  finished (`descriptor_copies`), as long as there are fewer bytes than it makes calls.
-/

namespace LanguageClient.Host.Program.Copy

/-- What is still to be read from a descriptor, and what was written to the standard output. -/
structure Tap where
  ahead : Bytes
  written : Bytes

/-- A descriptor gives what is ahead in whatever pieces, and an empty one only at the end. A read that fails fails for
good; a write takes all or fails. -/
def tap (fd : Nat) : Contract Shell System Tap where
  record _ g := g
  safe _ _ _ := True
  answers
    | .read k _, _, g, .ok b, _, g' =>
      k = fd → g.ahead = b ++ g'.ahead ∧ (b = [] → g.ahead = []) ∧ g'.written = g.written
    | .read _ _, _, _, .error e, _, _ => e ≠ .interrupted
    | .write k b, _, g, .ok _, _, g' => k = 1 → g' = { g with written := g.written ++ b }
    | _, _, _, _, _, _ => True

variable {fd n : Nat} {p : Progress} {s : Shell} {g : Tap} {post : Nat → Shell → Tap → Prop} {next : Outcome → Program}

theorem descriptor_copies (hn : g.ahead.length < n)
    (h : ∀ outcome s g', (∀ p', outcome = .finished p' → g'.ahead = [] ∧ g'.written = g.written ++ g.ahead) →
      (next outcome).Holds (tap fd) post s g') : (descriptor {} n p fd next).Holds (tap fd) post s g := by
  induction n generalizing s g p with
  | zero => exact absurd hn (Nat.not_lt_zero _)
  | succ n ih =>
    refine ⟨trivial, fun r s₁ g₁ hread => ?_⟩
    cases r with
    | error e =>
      cases e with
      | interrupted => exact absurd rfl hread
      | _ => exact h _ s₁ g₁ nofun
    | ok b =>
      obtain ⟨hahead, hend, hwritten⟩ :
          g.ahead = b ++ g₁.ahead ∧ (b = [] → g.ahead = []) ∧ g₁.written = g.written := hread rfl
      cases b with
      | nil =>
        refine h _ s₁ g₁ fun p' _ => ?_
        rw [hwritten, hend rfl, List.append_nil]
        exact ⟨hahead.symm.trans (hend rfl), rfl⟩
      | cons c b =>
        refine ⟨trivial, fun r s₂ g₂ hwrite => ?_⟩
        cases r with
        | error e => exact h _ s₂ g₂ nofun
        | ok _ =>
          obtain rfl : g₂ = { g₁ with written := g₁.written ++ c :: b } := hwrite rfl
          have hless : g₁.ahead.length < n := by
            rw [hahead, List.length_append, List.length_cons] at hn
            omega
          refine ih hless fun outcome s' g' hfinished => h outcome s' g' fun p' heq => ?_
          obtain ⟨hnothing, hall⟩ := hfinished p' heq
          refine ⟨hnothing, ?_⟩
          rw [hall, hwritten, hahead, List.append_assoc]

end LanguageClient.Host.Program.Copy
