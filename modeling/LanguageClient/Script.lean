import LanguageClient.Log
/-
  LanguageClient.Script — handlers written down as lists of steps.

  A script is a list of steps on some world. A step may set up a handler that has steps of
  its own, run when the handler fires; these may fire handlers again, so runs are bounded
  by a nesting limit: the steps of a handler that fires below as many handlers as the limit
  allows are left out, and the place is marked.

  - `nested` ties the knot: what a step does, given how the steps of a handler are run.
  - `act` runs the steps of a handler, `play` the steps of a script.
-/

namespace LanguageClient.Script

variable {κ ρ ω o : Type}

/-- Run the steps of a handler, each recorded by `did` after it has run; with no way to run
them, mark the place with `cut`. -/
def act (run : Option (κ → StateM ω ρ)) (cut : ω → ω) (did : κ → ρ → ω → ω) (steps : List κ) :
    StateM ω Unit :=
  match run with
  | none => if steps.isEmpty then pure () else modify cut
  | some run => steps.forM (fun s => do
      let answer ← run s
      modify (did s answer))

/-- How a step is performed when handlers may nest `limit` deep. -/
def nested (perform : Option (κ → StateM ω ρ) → κ → StateM ω ρ) (limit : Nat) : κ → StateM ω ρ :=
  match limit with
  | 0 => perform none
  | n + 1 => perform (some (nested perform n))

def play (perform : κ → StateM ω ρ) (fresh : ω → ω) (observe : ρ → ω → o) :
    List κ → ω → List o × ω
  | [], w => ([], w)
  | s :: steps, w =>
    let (answer, w₁) := perform s (fresh w)
    let (rest, w₂) := play perform fresh observe steps w₁
    (observe answer w₁ :: rest, w₂)

end LanguageClient.Script
