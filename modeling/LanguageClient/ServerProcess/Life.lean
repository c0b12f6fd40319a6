import LanguageClient.ServerProcess
/-
  LanguageClient.ServerProcess.Life — starting a server's process, following it and ending it.

  - `launch` starts a process when none is running.
  - `poll` hands over what the server has written since, and at last its exit. Whoever is
    handed something may use the process, so after each delivery it may be gone.
  - `terminate` closes the server's input, waits, then asks it and at last forces it to end.
-/

namespace LanguageClient.ServerProcess

open Host (SignalNumber)

def note (message : Bytes) : Work Unit := Routine.log (Log.debug "process" message)

/-! ## Starting -/

def launch (c : ServerConfig) : Work (Option Launch.Refusal) := do
  let p : ServerProcess ← get
  if p.isRunning then return some .alreadyRunning
  else
    match Launch.plan (← request .surroundings) c with
    | .error refusal => return some refusal
    | .ok l =>
      match ← request (.start l) with
      | .error fault => return some (fault.refusal c.command)
      | .ok s =>
        set s.process
        note (text "Spawned '" ++ l.file ++ text "' (pid " ++ Bytes.decimal s.pid ++ text ")")
        return none

/-! ## Ending -/

/-- The exit code of the process if it has ended; without a process it has. -/
def reap : Work (Option (Option Nat)) := do
  let p : ServerProcess ← get
  match p.pid with
  | none => return some none
  | some pid =>
    match ← request (.reap pid) with
    | .running => return none
    | .ended code => return some code
    | .unknown => return some none

def interval : Nat := 5

def awaitStep (deadline : Int) : Work (Unit ⊕ Option (Option Nat)) := do
  match ← reap with
  | some code => return .inr (some code)
  | none =>
    if deadline ≤ (← request .time) then return .inr none
    else
      request (.pause interval)
      return .inl ()

def awaitEnd (rounds : Nat) (wait : Int) : Work (Option (Option Nat)) := do
  let start ← request .time
  repeatedly rounds (fun () => awaitStep (start + wait)) () (fun () => none)

def closeAll : Work Unit := do
  let p : ServerProcess ← get
  (p.input.toList ++ p.sources).forM (fun fd => request (.close fd))
  set ({ pid := p.pid } : ServerProcess)

def abandon : Work Unit := do
  modify (fun p : ServerProcess => { p with pid := none })
  closeAll

def closeInput : Work Unit := do
  let p : ServerProcess ← get
  p.input.toList.forM (fun fd => request (.close fd))
  set { p with input := none }

/-- End a process that has not ended by itself: ask it to, then force it. -/
def force (rounds pid : Nat) (grace : Int) : Work (Option Nat) := do
  note (text "Sending SIGTERM to " ++ Bytes.decimal pid)
  request (.signal pid SignalNumber.terminate)
  match ← awaitEnd rounds grace with
  | some code => return code
  | none =>
    note (text "Sending SIGKILL to " ++ Bytes.decimal pid)
    request (.signal pid SignalNumber.kill)
    match ← request (.collect pid) with
    | .ended code => return code
    | _ => return none

def terminate (rounds : Nat) (grace : Int) : Work (Option Nat) := do
  let p : ServerProcess ← get
  match p.pid with
  | none =>
    closeAll
    return none
  | some pid =>
    closeInput
    let code ← match ← awaitEnd rounds grace with
      | some code => pure code
      | none => force rounds pid grace
    abandon
    return code

/-! ## Following -/

def isThere : Work Bool := do
  let p : ServerProcess ← get
  return p.isRunning

/-- Hand over bytes of a stream, if there are any; false when there is no process any more. -/
def handOver (s : Stream) (b : Bytes) : Work Bool := do
  if b = [] then return true
  else
    deliver (.bytes s b)
    isThere

def release (s : Stream) : Work Bool := do
  let p : ServerProcess ← get
  set (p.setHeld [] s)
  handOver s (p.held s)

structure Found where
  output : Bytes
  errors : Bytes
  exit : Option (Option Nat)

def closingTime : Int := 200

def drainBoth (rounds : Nat) : Work (Bytes × Bytes) := do
  let output ← drain rounds .output
  let errors ← drain rounds .errors
  return (output, errors)

/-- Read what is there, and see whether the process has ended; when both streams have, wait so
long for its end. When it has ended, read again: it may have written just before. -/
def takeIn (rounds : Nat) (wait : Int) : Work Found := do
  let (output, errors) ← drainBoth rounds
  let p : ServerProcess ← get
  if p.sources = [] then
    let exit ← awaitEnd rounds wait
    return ⟨output, errors, exit⟩
  else
    match ← reap with
    | none => return ⟨output, errors, none⟩
    | some code =>
      let (more, moreErrors) ← drainBoth rounds
      return ⟨output ++ more, errors ++ moreErrors, some code⟩

def look (rounds : Nat) (wait : Int) : Work Found := do
  let p : ServerProcess ← get
  if p.sources = [] then takeIn rounds wait
  else
    request (.awaitBytes p.sources wait)
    takeIn rounds closingTime

/-- Hand over the exit of the process, after which there is none. -/
def handOverExit (code : Option Nat) : Work Unit := do
  let p : ServerProcess ← get
  note (text "Server process " ++ Bytes.decimal (p.pid.getD 0) ++ text " exited")
  abandon
  deliver (.exit code)

def handOverAll (found : Found) : Work Unit := do
  if ← handOver .output found.output then
    if ← handOver .errors found.errors then
      if let some code := found.exit then handOverExit code

def poll (rounds : Nat) (wait : Int) : Work Bool := do
  if ← isThere then
    if ← release .output then
      if ← release .errors then handOverAll (← look rounds wait)
    return true
  else return false

end LanguageClient.ServerProcess
