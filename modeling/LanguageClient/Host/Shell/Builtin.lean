import LanguageClient.Host.Shell.Print
import LanguageClient.Host.Shell.Test
import LanguageClient.Host.Shell.Builtin.Names
import LanguageClient.Host.Shell.Builtin.Options
import LanguageClient.Host.Shell.Builtin.Place
import LanguageClient.Host.Shell.Builtin.Read
import LanguageClient.Host.Shell.Builtin.Signals
/-
  LanguageClient.Host.Shell.Builtin — the commands that the shell performs itself.

  A builtin takes its arguments and gives a status; what it says is written when it is done.
  The builtins that run commands of a script are not here.

  - `table` has the builtins by name, `perform` carries one out in its own name.
-/

namespace LanguageClient.Host.Shell.Builtin

def echo (args : List Bytes) : Act Nat := do
  Act.say (Print.echo args)
  return 0

def printf (args : List Bytes) : Act Nat := do
  match ← Arguments.plain args with
  | [] => Act.fail (text "usage: printf format [arg ...]")
  | format :: args =>
    let done := Print.printf format args
    Act.say done.out
    done.faults.forM (fun fault => Code.complain fault)
    match done.broken with
    | some fault => Act.fail fault
    | none => return if done.faults.isEmpty then 0 else 1

def test (args : List Bytes) : Act Nat := do
  match ← (ExceptT.lift (Test.evaluate (args.length + 1) args).run : Act (Except Bytes Bool)) with
  | .ok holds => return if holds then 0 else 1
  | .error fault => Act.fail fault

def bracket (args : List Bytes) : Act Nat :=
  if args.getLast? = some (text "]") then test args.dropLast else Act.fail (text "missing ]")

/-- How much time has been used: too little to be counted. -/
def times (_ : List Bytes) : Act Nat := do
  let line := Listing.line (text "0m0.000000s 0m0.000000s")
  Act.say (line ++ line)
  return 0

/-! ## Leaving -/

/-- Leave as many loops as there are, at most so many as the argument says. -/
def skipLoops (skip : Nat → Skip) (args : List Bytes) : Act Nat := do
  let k ← match args with
    | [] => pure 1
    | a :: _ => do
      let k ← Act.number a
      if k = 0 then Act.fail (text "Illegal number: " ++ a) else pure k
  let s : Shell ← get
  if 0 < s.loops then modify (fun s : Shell => { s with skip := skip (min k s.loops) })
  return 0

def «return» (args : List Bytes) : Act Nat := do
  let s : Shell ← get
  let status ← match args with
    | [] => pure s.status
    | a :: _ => Act.number a
  modify (fun s : Shell => { s with skip := .returning (args != []) })
  return status

def exit (args : List Bytes) : Act Nat := do
  match args with
  | [] => pure ()
  | a :: _ =>
    let status ← Act.number a
    modify (fun s : Shell => { s with found := some status })
  throw .leaving

/-! ## All builtins -/

def table : List (Bytes × (List Bytes → Act Nat)) :=
  ([(":", fun _ => pure 0), ("true", fun _ => pure 0), ("false", fun _ => pure 1), ("echo", echo), ("printf", printf),
    ("test", test), ("[", bracket), ("read", read), ("cd", cd), ("chdir", cd), ("pwd", pwd), ("kill", kill),
    ("trap", trap), ("wait", wait), ("jobs", jobs), ("fg", resume), ("bg", resume), ("times", times),
    ("export", marking (text "export") Shell.exporting (·.isExported)),
    ("readonly", marking (text "readonly") Shell.guarding (·.isReadonly)), ("local", «local»), ("unset", unset),
    ("set", «set»), ("shift", shift), ("getopts", getopts), ("alias", «alias»), ("unalias", unalias), ("hash", hash),
    ("type", type), ("command", command), ("umask", umask), ("ulimit", ulimit), ("break", skipLoops .breaking),
    ("continue", skipLoops .continuing), ("return", «return»), ("exit", exit)] :
    List (String × (List Bytes → Act Nat))).map (fun (name, body) => (text name, body))

def flush : Code Bool := do
  let s : Shell ← get
  modify (fun s : Shell => { s with said := [] })
  if s.said = [] then return true
  else
    match ← Code.call (.write 1 s.said) with
    | .ok () => return true
    | .error _ => return false

/-- Carry out what is done in the name of a builtin or of none, and set its status. -/
def perform (name : Option Bytes) (body : Act Nat) : Act Unit := do
  let s : Shell ← get
  modify (fun s : Shell => { s with speaker := name, said := [] })
  let done ← Act.caught body
  let isWritten ← flush
  match done with
  | .ok status =>
    unless isWritten do Code.complain (name.getD [] ++ text ": I/O error")
    Code.setStatus (if isWritten then status else status ||| 1)
    modify (fun t : Shell => { t with speaker := s.speaker })
  | .error stop =>
    modify (fun t : Shell => { t with speaker := s.speaker })
    throw stop

end LanguageClient.Host.Shell.Builtin
