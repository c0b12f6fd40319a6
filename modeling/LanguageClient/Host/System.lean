import LanguageClient.Routine
import LanguageClient.Host.Limit
import LanguageClient.Host.Shell.State
import LanguageClient.Host.Shell.Numeral
/-
  LanguageClient.Host.System — the calls a process makes to its host.

  A process is a routine on the state of a shell, whose calls are the system calls below.
  A new process is described by a job, which is data: the commands or the program it runs
  and the changes it makes to its descriptors first.

  - `Code` is what a process does; `Act` is what may also end early, because of a mistake
    in the script or because the shell ends.
-/

namespace LanguageClient.Host

inductive Disposition where
  | standard
  | ignored
  | caught
  deriving DecidableEq, Repr

inductive Patience where
  /-- Not at all. -/
  | nothing
  /-- Until a signal comes that it catches. -/
  | untilSignal
  | whatever
  deriving DecidableEq, Repr

inductive DescriptorChange where
  | copy (source fd : Nat)
  | close (fd : Nat)
  deriving DecidableEq, Repr

inductive Task where
  /-- Commands of a script; of those that are tested the failure does not end the shell. -/
  | commands (c : Shell.Command) (isTested : Bool)
  /-- A subshell with redirections of its own. -/
  | subshell (c : Shell.Command) (redirects : List Shell.Redirection) (isTested : Bool)
  /-- A program, looked for along a path from the directory of an index on. -/
  | program (argv : List Bytes) (path : Option Bytes) (index : Nat)
  /-- Write a text to a descriptor. -/
  | text (fd : Nat) (b : Bytes)

structure Job where
  changes : List DescriptorChange := []
  /-- Whether it runs in the background: it hears nothing from the terminal. -/
  inBackground : Bool := false
  /-- Whether its standard input has nothing in it. -/
  readsNothing : Bool := false
  shell : Shell
  task : Task

structure Sight where
  place : Place
  node : Node

inductive SystemCall where
  /-- Read up to `most` bytes; nothing at the end. -/
  | read (fd most : Nat)
  | write (fd : Nat) (bytes : Bytes)
  | openFile (path : Bytes) (mode : Shell.OpenMode)
  | change (c : DescriptorChange)
  /-- A new descriptor, not below `least`, for what another one stands for. -/
  | duplicate (fd least : Nat)
  /-- The reading and the writing end of a new pipe. -/
  | pipe
  | fork (j : Job)
  /-- Become another program; this call answers only when it fails. -/
  | execute (path : Bytes) (argv : List Bytes) (env : List (Bytes × Bytes))
  /-- Wait for the end of a child; nothing when none has ended so far. -/
  | wait (patience : Patience)
  /-- Send a signal to a process, or to a group of them if the number is not above zero. -/
  | kill (target : Int) (signal : SignalNumber)
  /-- The pid of the process and that of its parent. -/
  | self
  | enter (directory : Bytes)
  | whereAmI
  /-- The permissions that new files do not get; with `new` they are set, and what they were is given. -/
  | mask (new : Option Nat)
  | limits
  /-- Set how much of something may be used and asked for. -/
  | limit (letter : UInt8) (soft hard : Option (Option Nat))
  | sleep (ms : Nat)
  | dispose (signal : SignalNumber) (d : Disposition)
  /-- Whether a signal is ignored. -/
  | isIgnored (signal : SignalNumber)
  /-- The caught signals that have come since the last time. -/
  | signals
  | unlink (path : Bytes)
  | removeDirectory (path : Bytes)
  /-- The names in a directory, in order. -/
  | list (directory : Bytes)
  | inspect (path : Bytes) (follow : Bool)
  /-- Whether a descriptor is open, and whether it belongs to a pipe. -/
  | isPipe (fd : Nat)

abbrev SystemCall.Reply : SystemCall → Type
  | read .. => Except Errno Bytes
  | write .. => Except Errno Unit
  | openFile .. => Except Errno Nat
  | change _ => Except Errno Unit
  | duplicate .. => Except Errno Nat
  | pipe => Nat × Nat
  | fork _ => Nat
  | execute .. => Errno
  | wait .. => Except Errno (Option (Nat × Status))
  | kill .. => Except Errno Unit
  | self => Nat × Nat
  | enter _ => Except Errno Unit
  | whereAmI => Bytes
  | mask _ => Nat
  | limits => List Limit
  | limit .. => Except Errno Unit
  | sleep _ => Unit
  | dispose .. => Unit
  | isIgnored _ => Bool
  | signals => List SignalNumber
  | unlink _ => Except Errno Unit
  | removeDirectory _ => Except Errno Unit
  | list _ => Except Errno (List Bytes)
  | inspect .. => Except Errno Sight
  | isPipe _ => Option Bool

abbrev System : Surface := ⟨SystemCall, SystemCall.Reply⟩

abbrev Program := Routine Shell System Nat

/-- A part of what a process does: given what it does with the result, all that it does. So a step
costs the same however deep it lies in others. -/
def Code (α : Type) : Type := (α → Program) → Program

inductive Stop where
  /-- A mistake in the script. -/
  | mistake
  /-- The script has asked for the end of the shell. -/
  | leaving
  /-- An interrupt has come to an interactive shell. -/
  | interrupted
  /-- There is nothing left to do. -/
  | ending
  deriving DecidableEq, Repr

/-- What a shell does as long as nothing stops it. -/
abbrev Act (α : Type) := ExceptT Stop Code α

namespace Code

instance : Monad Code where
  pure a := fun next => next a
  bind p f := fun next => p (fun a => f a next)

instance : LawfulMonad Code :=
  LawfulMonad.mk' Code (fun _ => rfl) (fun _ _ => rfl) (fun _ _ _ => rfl)

instance : MonadStateOf Shell Code where
  get := fun next => .look next
  set s := fun next => .put s (next ⟨⟩)
  modifyGet f := fun next => .look (fun s => .put (f s).2 (next (f s).1))

def call (c : SystemCall) : Code c.Reply := fun next => .call c next

def program (p : Code Nat) : Program := p .done

/-- Write to a descriptor; a failure is passed over. -/
def write (fd : Nat) (bytes : Bytes) : Code Unit := do discard (call (.write fd bytes))

def close (fd : Nat) : Code Unit := do discard (call (.change (.close fd)))

def complain (message : Bytes) : Code Unit := do
  let s : Shell ← get
  let speaker := match s.speaker with
    | some name => name ++ text ": "
    | none => []
  write 2 (s.name ++ text ": " ++ Bytes.decimal s.line ++ text ": " ++ speaker ++ message ++ [Byte.lf])

def setStatus (n : Nat) : Code Unit := modify (fun s : Shell => { s with status := n })

end Code

namespace Act

variable {α : Type}

def call (c : SystemCall) : Act c.Reply := ExceptT.lift (Code.call c)

def fail (message : Bytes) : Act α := do
  Code.complain message
  Code.setStatus 2
  throw .mistake

def number (s : Bytes) : Act Nat :=
  match Shell.Numeral.whole? true false s with
  | some n => if 0 ≤ n ∧ n < 2147483648 then pure n.toNat else fail (text "Illegal number: " ++ s)
  | none => fail (text "Illegal number: " ++ s)

/-- Give a variable a value, if there can be such a variable and it may have another value. -/
def assign (name value : Bytes) : Act Unit := do
  let s : Shell ← get
  if !Shell.isName name then fail (name ++ text ": bad variable name")
  else if s.isReadonly name then fail (name ++ text ": is read only")
  else
    modify (fun s : Shell => s.set name value)
    if name = text "OPTIND" then
      let n ← number value
      modify (fun s : Shell => { s with optionIndex := if n = 0 then 1 else n })

/-- Say something when the running builtin is done. -/
def say (b : Bytes) : Act Unit := modify (fun s : Shell => { s with said := s.said ++ b })

/-- Carry out what may stop, and say whether and why it has. -/
def caught (body : Act α) : Act (Except Stop α) := ExceptT.lift body.run

end Act

end LanguageClient.Host
