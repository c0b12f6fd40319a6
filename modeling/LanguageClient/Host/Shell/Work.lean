import LanguageClient.Host.Status
/-
  LanguageClient.Host.Shell.Work — the commands that run in processes of their own.

  A work has a number, the least that is free when it begins, and the processes that carry
  it out. It is done when all of them have ended, and has the status of the last one. A work
  that is done keeps its number until it has been asked for or told of.

  - `begin` starts a work without processes, `join` adds one to it, `note` takes note of the
    end of a process, `forget` takes a work out.
-/

namespace LanguageClient.Host.Shell

structure Work where
  number : Nat
  /-- The processes of a work, in order, and how they have ended. -/
  members : List (Nat × Option Status) := []
  /-- Whether it has ended since it was last told of. -/
  hasChanged : Bool := false
  isWaitedFor : Bool := false
  deriving DecidableEq, Repr

namespace Work

def isDone (w : Work) : Bool := w.members.all (·.2.isSome)

def status? (w : Work) : Option Status := w.members.getLast?.bind (·.2)

def code (w : Work) : Nat := (w.status?.map Status.code).getD 0

def leader? (w : Work) : Option Nat := w.members.head?.map (·.1)

def isFree (w : Work) : Bool := w.isDone && w.isWaitedFor

end Work

abbrev Works := List Work

namespace Works

def find? (ws : Works) (number : Nat) : Option Work := List.find? (·.number == number) ws

def forget (ws : Works) (number : Nat) : Works := ws.filter (·.number != number)

def nextNumber (ws : Works) : Nat :=
  ((List.range (ws.length + 1)).map (· + 1)).find? (fun n => (ws.find? n).all Work.isFree) |>.getD 1

/-- Begin a work, which takes the place of one whose number it gets. -/
def begin (ws : Works) : Nat × Works := (ws.nextNumber, ⟨ws.nextNumber, [], false, false⟩ :: ws.forget ws.nextNumber)

def update (ws : Works) (number : Nat) (f : Work → Work) : Works :=
  ws.map (fun w => if w.number = number then f w else w)

def join (ws : Works) (number pid : Nat) : Works :=
  ws.update number (fun w => { w with members := w.members ++ [(pid, none)] })

def ofProcess? (ws : Works) (pid : Nat) : Option Work :=
  List.find? (fun w => !w.isDone && w.members.any (·.1 == pid)) ws

def note (ws : Works) (pid : Nat) (status : Status) : Works :=
  match ws.ofProcess? pid with
  | none => ws
  | some w =>
    ws.update w.number (fun w =>
      let members := w.members.map (fun m => if m.1 = pid then (pid, some status) else m)
      { w with members := members, hasChanged := w.hasChanged || members.all (·.2.isSome) })

def outcome : Status → Bytes
  | .exited 0 => text "Done"
  | .exited code => text "Done(" ++ Bytes.decimal code ++ text ")"
  | .killed signal => SignalNumber.description signal

/-- The line for a work: its number, a mark if it is the newest or the one before, with `withPids`
its processes, and how it stands. -/
def describe (ws : Works) (withPids : Bool) (w : Work) : Bytes :=
  let mark := if ws.head?.any (·.number == w.number) then text "+"
    else if (ws.drop 1).head?.any (·.number == w.number) then text "-" else text " "
  let start := text "[" ++ Bytes.decimal w.number ++ text "] " ++ mark ++ text " "
  let blanks (n : Nat) : Bytes := List.replicate (max 1 n) Byte.space
  let standing := if w.isDone then (w.status?.map outcome).getD [] else text "Running"
  let pid (k : Nat) : Bytes := if withPids then Bytes.decimal k ++ text " " else []
  let first := start ++ pid (w.leader?.getD 0) ++ standing
  let others := w.members.drop 1
  let tail := if withPids then others.flatMap (fun (k, _) =>
      let line := text " |\n" ++ blanks start.length ++ Bytes.decimal k ++ text " "
      line ++ blanks (33 - (line.length - 3)))
    else others.flatMap (fun _ => text " | ")
  first ++ blanks (33 - first.length) ++ tail ++ [Byte.lf]

end Works

end LanguageClient.Host.Shell
