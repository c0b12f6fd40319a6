import LanguageClient.Host.Program.Usage
import LanguageClient.Host.Shell.Floating
/-
  LanguageClient.Host.Program.Sleep — letting time pass.

  `sleep` takes numbers of seconds or of another unit, and lets all of that time pass.
-/

namespace LanguageClient.Host.Program

namespace Sleep

def unit? (suffix : Bytes) : Option Nat :=
  if suffix = [] ∨ suffix = [115] then some 1000
  else if suffix = [109] then some 60000
  else if suffix = [104] then some 3600000
  else if suffix = [100] then some 86400000
  else none

def forever : Nat := 1000000000000

/-- How many units of time a number counts, as milliseconds and not less than they are. -/
def milliseconds? (v : Shell.Floating) (unit : Nat) : Option Nat :=
  match v with
  | .noNumber _ => none
  | .infinite isNegative => if isNegative then none else some forever
  | .finite isNegative m e =>
    if isNegative ∧ m ≠ 0 then none
    else if 0 ≤ e then some (min forever (m * unit * Nat.pow 2 (min e.toNat 1100)))
    else
      let d := Nat.pow 2 (min (-e).toNat 1100)
      some (min forever ((m * unit + d - 1) / d))

def time? (s : Bytes) : Option Nat :=
  let ((v, _), length) := Shell.Floating.read s
  if length = 0 then none else (unit? (s.drop length)).bind (milliseconds? v)

def usage : Usage := ⟨[], [], text "NUMBER[SUFFIX]..."⟩

end Sleep

def sleep (tool : Bytes) (args : List Bytes) : Code Nat := do
  match Sleep.usage.parse args with
  | .error message => misuse tool message
  | .ok w =>
    if w.isAboutTool then Sleep.usage.tell tool w
    else if w.operands = [] then misuse tool (text "missing operand")
    else
      match w.operands.filter (fun a => (Sleep.time? a).isNone) with
      | [] =>
        Code.call (.sleep ((w.operands.filterMap Sleep.time?).foldl (fun total t => total + t) 0))
        return 0
      | bad =>
        bad.forM (fun a => complain tool (text "invalid time interval " ++ quoted a))
        Code.write 2 (hint tool)
        return 1

end LanguageClient.Host.Program
