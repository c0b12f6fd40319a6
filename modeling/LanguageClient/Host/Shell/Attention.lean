import LanguageClient.Host.System
/-
  LanguageClient.Host.Shell.Attention — which signals the shell hears.

  A signal with an action is caught and looked after between commands; one with an empty
  action is ignored. What was ignored before the shell was started stays so. The shell that
  was started first also catches interrupts without an action, so that it ends only when it
  has seen what it waits for. An interactive one does not end by them, nor by the signals
  that ask it to end.
-/

namespace LanguageClient.Host.Shell.Attention

/-- What is done about a signal. The end of a child is never ignored. -/
def wanted (s : Shell) (signal : SignalNumber) : Disposition :=
  match s.traps.lookup signal with
  | some [] => if signal = SignalNumber.child then .standard else .ignored
  | some _ => .caught
  | none =>
    if s.isForked then .standard
    else if signal = SignalNumber.interrupt then .caught
    else if s.has 'i' ∧ (signal = SignalNumber.quit ∨ signal = SignalNumber.terminate) then .ignored
    else .standard

def settle (signal : SignalNumber) : Code Unit := do
  let s : Shell ← get
  let isDeaf ← match s.settled.lookup signal with
    | some isDeaf => pure isDeaf
    | none => Code.call (.isIgnored signal)
  modify (fun s : Shell => { s with settled := (signal, isDeaf) :: s.settled.filter (·.1 != signal) })
  unless isDeaf do Code.call (.dispose signal (wanted s signal))

def ignore (signal : SignalNumber) : Code Unit := do
  modify (fun s : Shell => { s with settled := (signal, true) :: s.settled.filter (·.1 != signal) })
  Code.call (.dispose signal .ignored)

def settleManners : Code Unit := [SignalNumber.interrupt, SignalNumber.quit, SignalNumber.terminate].forM settle

/-- Give up the actions that a new process does not take over. -/
def reset : Code Unit := do
  let s : Shell ← get
  modify Shell.forked
  if s.has 'i' ∧ !s.isForked then settleManners
  (s.traps.filter (fun t => t.2 != [] && t.1 != 0)).forM (fun t => settle t.1)

def surrender : Code Unit := do
  Code.call (.dispose SignalNumber.interrupt .standard)
  let (pid, _) ← Code.call .self
  discard (Code.call (.kill pid SignalNumber.interrupt))

/-- Take in the signals that have come; an interrupt without an action ends the shell, or what an
interactive one is doing. -/
def listen : Act Unit := do
  let arrived ← Act.call .signals
  if arrived ≠ [] then
    modify (fun s : Shell => { s with pending := s.pending ++ arrived, isCalled := true })
    let s : Shell ← get
    if arrived.contains SignalNumber.interrupt ∧ (s.traps.lookup SignalNumber.interrupt).isNone then
      if s.has 'i' then
        modify (fun s : Shell => { s with pending := s.pending.filter (· != SignalNumber.interrupt) })
        Code.setStatus 130
        throw .interrupted
      else surrender

end LanguageClient.Host.Shell.Attention
