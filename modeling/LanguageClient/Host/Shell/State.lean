import LanguageClient.Host.Shell.Command
import LanguageClient.Host.Shell.Work
/-
  LanguageClient.Host.Shell.State — what a shell keeps between its commands.

  A shell has a name and arguments, variables, functions, options, actions for signals, and
  the status of its last command. Variables that are exported make up the environment of
  the programs it runs. A variable may be known without having a value.
-/

namespace LanguageClient.Host

structure Variable where
  value : Option Bytes
  isExported : Bool := false
  isReadonly : Bool := false
  /-- Whether it stays known when it has no value any more. -/
  isLasting : Bool := false
  deriving DecidableEq, Repr

namespace Shell

inductive Skip where
  /-- Nothing is skipped. -/
  | nothing
  /-- So many loops are left. -/
  | breaking (loops : Nat)
  /-- So many loops but one are left, and that one starts its next round. -/
  | continuing (loops : Nat)
  /-- The running function, or the script that is read in place, is left, maybe with a status
  that it has named. -/
  | returning (hasStatus : Bool)
  deriving DecidableEq, Repr

structure Function where
  line : Nat
  body : Command

structure Tracked where
  index : Nat
  isStale : Bool

end Shell

structure Shell where
  name : Bytes := text "sh"
  args : List Bytes := []
  vars : List (Bytes × Variable) := []
  functions : List (Bytes × Shell.Function) := []
  aliases : List (Bytes × Bytes) := []
  /-- The commands that have been found along the path, the first one found first. -/
  tracked : List (Bytes × Shell.Tracked) := []
  traps : List (SignalNumber × Bytes) := []
  /-- The signals that the shell has dealt with, each with whether it stays ignored whatever is
  asked for. -/
  settled : List (SignalNumber × Bool) := []
  /-- The signals that have come and have not been looked after. -/
  pending : List SignalNumber := []
  /-- Whether one of them has come since the shell last looked after them. -/
  isCalled : Bool := false
  /-- The letters of the options that are on. -/
  options : Bytes := []
  status : Nat := 0
  line : Nat := 0
  /-- The line up to which the script has been read. -/
  lastLine : Nat := 0
  /-- The builtin or the script in whose name is spoken. -/
  speaker : Option Bytes := none
  /-- The process of the shell itself; the processes it makes of itself keep it. -/
  pid : Nat := 0
  isForked : Bool := false
  /-- The process of the last command in the background. -/
  lastJob : Option Nat := none
  works : Shell.Works := []
  /-- The path of the directory the shell is in, as it was entered. -/
  directory : Bytes := []
  skip : Shell.Skip := .nothing
  /-- How many loops are running. -/
  loops : Nat := 0
  /-- How many functions are running one within another. -/
  depth : Nat := 0
  /-- The descriptors that have been redirected for a while, innermost first, and where each of
  them is kept if it was open. -/
  saves : List (List (Nat × Option Nat)) := []
  /-- What the variables that are local to the running commands were before, innermost first. -/
  locals : List (List (Bytes × Option Variable)) := []
  /-- The options that come back at the end of a function, for each list of local variables. -/
  localOptions : List (Option Bytes) := []
  /-- The argument that `getopts` looks at next, and where it stands within the one before. -/
  optionIndex : Nat := 1
  optionOffset : Option Nat := none
  /-- The status that an action for a signal found. -/
  found : Option Nat := none
  /-- The status of the last commands whose output was asked for. -/
  outputStatus : Nat := 0
  /-- Whether the text before a trace is being made up. -/
  isTracing : Bool := false
  /-- What the running builtin has to say so far. -/
  said : Bytes := []

namespace Shell

/-! ## Options -/

def optionNames : List (Bytes × UInt8) :=
  ([("errexit", 'e'), ("noglob", 'f'), ("ignoreeof", 'I'), ("interactive", 'i'), ("monitor", 'm'), ("noexec", 'n'),
    ("stdin", 's'), ("xtrace", 'x'), ("verbose", 'v'), ("vi", 'V'), ("emacs", 'E'), ("noclobber", 'C'),
    ("allexport", 'a'), ("notify", 'b'), ("nounset", 'u'), ("privileged", 'p'), ("nolog", '('),
    ("debug", ')')] :
    List (String × Char)).map (fun (name, c) => (text name, UInt8.ofNat c.toNat))

/-- The options that have no letter of their own are kept by signs. -/
def isOptionLetter (b : UInt8) : Bool := Byte.isAlpha b

def has (s : Shell) (option : Char) : Bool := s.options.contains (UInt8.ofNat option.toNat)

def turn (s : Shell) (isOn : Bool) (letter : UInt8) : Shell :=
  let others := s.options.filter (· != letter)
  { s with options := if isOn then letter :: others else others }

/-- Turn the option of a letter on or off, if there is one; of the two ways to edit lines only one can
be on. -/
def turnLetter? (s : Shell) (isOn : Bool) (letter : UInt8) : Option Shell :=
  if isOptionLetter letter ∧ optionNames.any (·.2 == letter) then
    let s' := s.turn isOn letter
    some (if isOn ∧ letter = 86 then s'.turn false 69 else if isOn ∧ letter = 69 then s'.turn false 86 else s')
  else none

def turnNamed? (s : Shell) (isOn : Bool) (name : Bytes) : Option Shell :=
  (optionNames.lookup name).map (s.turn isOn)

def withArgs (s : Shell) (args : List Bytes) : Shell := { s with args := args, optionIndex := 1, optionOffset := none }

def optionLetters (s : Shell) : Bytes :=
  (optionNames.map (·.2)).reverse.filter (fun b => isOptionLetter b && s.options.contains b)

/-! ## Variables -/

def value? (s : Shell) (name : Bytes) : Option Bytes := (s.vars.lookup name).bind (·.value)

def putVariable (s : Shell) (name : Bytes) (v : Variable) : Shell :=
  { s with vars := (name, v) :: s.vars.filter (·.1 != name) }

/-- What a shell has to look for again when a variable changes. -/
def noticing (s : Shell) (name : Bytes) : Shell := if name = text "PATH" then { s with tracked := [] } else s

def set (s : Shell) (name value : Bytes) : Shell :=
  let old := (s.vars.lookup name).getD ⟨none, false, false, false⟩
  let s' := (s.noticing name).putVariable name { old with value := some value, isExported := old.isExported || s.has 'a' }
  if name = text "OPTIND" then { s' with optionOffset := none } else s'

def exporting (s : Shell) (name : Bytes) : Shell :=
  s.putVariable name { (s.vars.lookup name).getD ⟨none, false, false, false⟩ with isExported := true }

def guarding (s : Shell) (name : Bytes) : Shell :=
  s.putVariable name { (s.vars.lookup name).getD ⟨none, false, false, false⟩ with isReadonly := true }

def isReadonly (s : Shell) (name : Bytes) : Bool := (s.vars.lookup name).any (·.isReadonly)

/-- Take a variable's value away; unless it is a lasting one it is no longer known. -/
def unset (s : Shell) (name : Bytes) : Shell :=
  match s.vars.lookup name with
  | none => s
  | some v =>
    if v.isLasting then (s.noticing name).putVariable name { v with value := none }
    else { s.noticing name with vars := s.vars.filter (·.1 != name) }

/-- Keep what a variable is for the end of the innermost list of local ones. -/
def keep (s : Shell) (name : Bytes) : Shell :=
  match s.locals with
  | [] => s
  | frame :: frames =>
    let old := s.vars.lookup name
    let lasting : Variable := { old.getD ⟨none, false, false, false⟩ with isLasting := true }
    { s.putVariable name lasting with locals := ((name, old) :: frame) :: frames }

def keepOptions (s : Shell) : Shell :=
  match s.localOptions with
  | none :: rest => { s with localOptions := some s.options :: rest }
  | _ => s

def entering (s : Shell) : Shell := { s with locals := [] :: s.locals, localOptions := none :: s.localOptions }

def leaving (s : Shell) : Shell :=
  match s.locals with
  | [] => s
  | frame :: frames =>
    let back := frame.foldl (fun s (name, old) =>
      match old with
      | some v => (noticing s name).putVariable name v
      | none => { noticing s name with vars := s.vars.filter (·.1 != name) }) s
    { back with
      locals := frames
      localOptions := s.localOptions.drop 1
      options := ((s.localOptions.head?.getD none)).getD s.options }

def environment (s : Shell) : List (Bytes × Bytes) :=
  s.vars.filterMap (fun (name, v) => if v.isExported then v.value.map (name, ·) else none)

def standardPath : Bytes := text "/usr/local/sbin:/usr/local/bin:/usr/sbin:/usr/bin:/sbin:/bin"

def ownVariables : List (Bytes × Option Bytes) :=
  [(text "IFS", some [Byte.space, Byte.tab, Byte.lf]), (text "MAIL", none), (text "MAILPATH", none),
    (text "OPTIND", some (text "1")), (text "PATH", some standardPath), (text "PS1", some (text "$ ")),
    (text "PS2", some (text "> ")), (text "PS4", some (text "+ "))]

/-- A shell whose variables are its own and those of an environment that can be variables;
how fields are parted and where options are looked for is never taken over. -/
def ofEnvironment (env : List (Bytes × Bytes)) : Shell :=
  let own : Shell := { vars := ownVariables.map (fun (name, value) => (name, ⟨value, false, false, true⟩)) }
  let full := (env.filter (fun v => isName v.1)).foldl (fun s (name, value) => (s.set name value).exporting name) own
  (full.set (text "IFS") [Byte.space, Byte.tab, Byte.lf]).set (text "OPTIND") (text "1")

def separators (s : Shell) : Bytes := (s.value? (text "IFS")).getD [Byte.space, Byte.tab, Byte.lf]

def joint (s : Shell) : Bytes :=
  match s.value? (text "IFS") with
  | none => [Byte.space]
  | some ifs => ifs.take 1

def parameter? (s : Shell) (name : Bytes) : Option Bytes :=
  if name = text "?" then some (Bytes.decimal s.status)
  else if name = text "#" then some (Bytes.decimal s.args.length)
  else if name = text "$" then some (Bytes.decimal s.pid)
  else if name = text "!" then s.lastJob.map Bytes.decimal
  else if name = text "-" then some s.optionLetters
  else if name = text "@" ∨ name = text "*" then some (Bytes.joinWith s.joint s.args)
  else
    match Bytes.toNat? name with
    | some 0 => some s.name
    | some n => s.args[n - 1]?
    | none => s.value? name

/-- A shell as a new process has it: of its actions for signals only the empty ones are kept, and
none of its works are its own. -/
def forked (s : Shell) : Shell :=
  { s with
    traps := s.traps.filter (·.2 == [])
    saves := []
    works := []
    isForked := true }

end Shell

end LanguageClient.Host
