import LanguageClient.Host.Shell.Arguments
import LanguageClient.Host.Shell.Attention
import LanguageClient.Host.Shell.Children
import LanguageClient.Host.Shell.Listing
/-
  LanguageClient.Host.Shell.Builtin.Signals — sending signals, what is done about them, and
  waiting for works.
-/

namespace LanguageClient.Host.Shell.Builtin

/-! ## Works by name -/

/-- The work that a name after a percent sign means: by its number, as the newest or as the one before. -/
def workNamed (name : Bytes) : Act Work := do
  let s : Shell ← get
  let unknown : Act Work := Act.fail (text "No such job: " ++ name)
  let rest := name.drop 1
  if rest = [] ∨ rest = [Byte.plus] ∨ rest = [Byte.percent] then
    match s.works with
    | w :: _ => return w
    | [] => Act.fail (text "No current job")
  else if rest = [Byte.minus] then
    match s.works with
    | _ :: w :: _ => return w
    | _ => Act.fail (text "No previous job")
  else
    match Bytes.toNat? rest with
    | some number =>
      match s.works.find? number with
      | some w => return w
      | none => unknown
    | none =>
      if rest = [63] then
        match s.works with
        | [w] => return w
        | [] => unknown
        | _ => Act.fail (name ++ text ": ambiguous")
      else unknown

def workFor (args : List Bytes) : Act Work :=
  match args with
  | name :: _ => if name.head? = some Byte.percent then workNamed name else Act.fail (text "No such job: " ++ name)
  | [] => workNamed [Byte.percent]

def tellWork (isOnlyPid withPids : Bool) (w : Work) : Act Unit := do
  if isOnlyPid then Act.say (Listing.line (Bytes.decimal (w.leader?.getD 0)))
  else
    let s : Shell ← get
    Act.say (s.works.describe withPids w)
    modify (fun s : Shell =>
      { s with
        works := if w.isDone then s.works.forget w.number
          else s.works.update w.number (fun w => { w with hasChanged := false }) })

def jobs (args : List Bytes) : Act Nat := do
  let (options, names) ← Arguments.options "lp" args
  let mode := options.getLast?.map (·.1)
  let tell (w : Work) : Act Unit := tellWork (mode == some 112) (mode == some 108) w
  if names = [] then
    Children.collect
    let s : Shell ← get
    s.works.forM tell
  else
    names.forM (fun name => do
      let w ← if name.head? = some Byte.percent then workNamed name else Act.fail (text "No such job: " ++ name)
      tell w)
  return 0

/-- Go on with works, which have to be controlled by the shell for that; none is. -/
def resume (args : List Bytes) : Act Nat := do
  let names ← Arguments.plain args
  discard (workFor names)
  Act.fail (text "job " ++ names.head?.getD (text "(null)") ++ text " not created under job control")

/-! ## Waiting -/

def interrupted : Act Nat := do
  Attention.listen
  let s : Shell ← get
  return 128 + s.pending.getLast?.getD 0

def waitForAll : Nat → Act Nat
  | 0 => pure 0
  | n + 1 => do
    let s : Shell ← get
    if s.works.all Work.isDone then
      modify (fun s : Shell => { s with works := s.works.map (fun w => { w with isWaitedFor := true }) })
      return 0
    else if ← Children.wait none Children.limit .untilSignal then waitForAll n
    else interrupted

/-- Wait for works one after another; the status is that of the last one there was. -/
def waitForEach (status : Nat) : List Bytes → Act Nat
  | [] => pure status
  | name :: names => do
    let w ← if name.head? = some Byte.percent then do pure (some (← workNamed name))
      else do
        let pid ← Act.number name
        let s : Shell ← get
        pure (List.find? (fun w : Work => w.members.getLast?.any (·.1 == pid)) s.works)
    match w with
    | none => waitForEach status names
    | some w =>
      if ← Children.wait (some w.number) Children.limit .untilSignal then
        modify (fun s : Shell => { s with works := s.works.update w.number (fun w => { w with isWaitedFor := true }) })
        let s : Shell ← get
        waitForEach (((s.works.find? w.number).map Work.code).getD 0) names
      else interrupted

def wait (args : List Bytes) : Act Nat := do
  let names ← Arguments.plain args
  if names = [] then waitForAll Children.limit else waitForEach 127 names

/-! ## Sending -/

def killUsage : Bytes :=
  text "Usage: kill [-s sigspec | -signum | -sigspec] [pid | job]... or\nkill -l [exitstatus]"

/-- Send a signal to processes, works and groups of processes; false when one of them is not there. -/
def sendAll (signal : SignalNumber) : List Bytes → Act Bool
  | [] => pure true
  | name :: names => do
    let target : Int ← if name.head? = some Byte.percent then do
        let w ← workNamed name
        pure (-(w.leader?.getD 0 : Int))
      else if name.head? = some Byte.minus then do pure (-((← Act.number (name.drop 1)) : Int))
      else do pure ((← Act.number name) : Int)
    let sent ← match ← Act.call (.kill target signal) with
      | .ok () => pure true
      | .error e => do
        Code.complain (e.message ++ [Byte.lf])
        pure false
    let others ← sendAll signal names
    return sent && others

def nameSignals (args : List Bytes) : Act Nat := do
  match args with
  | [] =>
    Act.say Listing.signals
    return 0
  | arg :: _ =>
    let n ← Act.number arg
    let n := if 128 < n then n - 128 else n
    if 0 < n ∧ n < SignalNumber.count then
      Act.say (Listing.line (SignalNumber.name n))
      return 0
    else Act.fail (text "invalid signal number or exit status: " ++ arg)

/-- What the options of `kill` ask for: to name signals, or to send the one that is named. -/
def killOptions (options : List (UInt8 × Bytes)) : Act (Bool × Option SignalNumber) :=
  options.foldlM (fun (isList, signal) (letter, arg) =>
    if letter = 108 then return (true, signal)
    else
      match SignalNumber.ofText? 1 arg with
      | some signal => return (isList, some signal)
      | none => Act.fail (text "invalid signal number or name: " ++ arg)) (false, none)

def kill (args : List Bytes) : Act Nat := do
  let first := args.head?.getD []
  if args = [] then Act.fail killUsage
  let (isList, signal, names) ←
    if first.head? = some Byte.minus then
      match SignalNumber.ofText? 1 (first.drop 1) with
      | some signal => pure (false, some signal, args.drop 1)
      | none => do
        let (options, names) ← Arguments.options "ls:" args
        let (isList, signal) ← killOptions options
        pure (isList, signal, names)
    else pure (false, none, args)
  let signal := if isList then signal else some (signal.getD SignalNumber.terminate)
  if (signal.isNone || names.isEmpty) != isList then Act.fail killUsage
  match signal with
  | none => nameSignals names
  | some signal =>
    if isList then nameSignals names
    else
      let sent ← sendAll signal names
      return if sent then 0 else 1

/-! ## Actions -/

def setTraps (action : Option Bytes) : List Bytes → Act Nat
  | [] => pure 0
  | name :: names => do
    match SignalNumber.ofText? 0 name with
    | none =>
      Code.write 2 (text "trap: " ++ name ++ text ": bad trap\n")
      return 1
    | some signal =>
      let action := action.filter (· != [Byte.minus])
      modify (fun s : Shell =>
        { s with traps := (action.toList.map (signal, ·)) ++ s.traps.filter (·.1 != signal) })
      if signal ≠ 0 then Attention.settle signal
      setTraps action names

def trap (args : List Bytes) : Act Nat := do
  match ← Arguments.plain args with
  | [] =>
    Act.say (Listing.traps (← get))
    return 0
  | first :: names =>
    if names = [] ∨ (SignalNumber.ofNumber? first).isSome then setTraps none (first :: names)
    else setTraps (some first) names

end LanguageClient.Host.Shell.Builtin
