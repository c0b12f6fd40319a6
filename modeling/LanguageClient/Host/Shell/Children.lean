import LanguageClient.Host.System
/-
  LanguageClient.Host.Shell.Children — starting processes and waiting for them.

  A shell waits for one work at a time, and takes note of every child that ends meanwhile.
  Of the work that is waited for it tells what a signal has ended.
-/

namespace LanguageClient.Host.Shell.Children

def begin : Code Nat := do
  let s : Shell ← get
  let (number, works) := s.works.begin
  modify (fun s : Shell => { s with works := works })
  return number

def start (number : Nat) (j : Job) : Code Unit := do
  let pid ← Code.call (.fork j)
  modify (fun s : Shell =>
    { s with
      works := s.works.join number pid
      lastJob := if j.inBackground then some pid else s.lastJob })

def tell (status : Status) : Code Unit :=
  match status with
  | .exited _ => pure ()
  | .killed signal =>
    if signal = SignalNumber.interrupt ∨ signal = SignalNumber.pipe then pure ()
    else Code.write 2 (status.description ++ [Byte.lf])

def limit : Nat := 1000000

/-- Wait until the work that is asked for is done, or any child has ended if there is none, and
take note of all that have ended by then; false when a signal has come first. -/
def wait (asked : Option Nat) : Nat → Patience → Code Bool
  | 0, _ => pure true
  | n + 1, patience => do
    let s : Shell ← get
    let isDone := asked.any (fun k => (s.works.find? k).all Work.isDone)
    match ← Code.call (.wait (if isDone then .nothing else patience)) with
    | .ok (some (pid, status)) =>
      let ofWork := (s.works.ofProcess? pid).map (·.number)
      modify (fun s : Shell => { s with works := s.works.note pid status })
      if asked.isSome ∧ ofWork = asked then tell status
      wait asked n (if asked.isSome then patience else .nothing)
    | .ok none =>
      if isDone ∨ patience = .nothing then return true
      else
        discard (wait asked n .nothing)
        return false
    | .error _ => return true

def collect : Code Unit := do discard (wait none limit .nothing)

/-- Wait for a work, which is then forgotten; its status comes back. -/
def await (number : Nat) : Code Nat := do
  discard (wait (some number) limit .whatever)
  let s : Shell ← get
  modify (fun s : Shell => { s with works := s.works.forget number })
  return ((s.works.find? number).map Work.code).getD 0

def run (j : Job) : Code Nat := do
  let number ← begin
  start number j
  await number

end LanguageClient.Host.Shell.Children
