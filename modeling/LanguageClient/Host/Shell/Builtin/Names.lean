import LanguageClient.Host.Shell.Arguments
import LanguageClient.Host.Shell.Mask
import LanguageClient.Host.Shell.Search
/-
  LanguageClient.Host.Shell.Builtin.Names — variables, aliases and the names of commands, and
  what a process may use.
-/

namespace LanguageClient.Host.Shell.Builtin

/-! ## Variables -/

def markAll (mark : Shell → Bytes → Shell) : List Bytes → Act Unit
  | [] => pure ()
  | arg :: args => do
    let s : Shell ← get
    match setting arg with
    | (name, some value) => Act.assign name value
    | (name, none) =>
      if (s.vars.lookup name).isNone ∧ !isName name then Act.fail (name ++ text ": bad variable name")
    modify (fun s : Shell => mark s (setting arg).1)
    markAll mark args

def marking (command : Bytes) (mark : Shell → Bytes → Shell) (isMarked : Variable → Bool) (args : List Bytes) :
    Act Nat := do
  let (option, a) ← Arguments.next? (text "p") ⟨[], args⟩
  if option.isSome ∨ a.args = [] then
    Act.say (Listing.variableLines (← get) (command ++ [Byte.space]) isMarked)
  else markAll mark a.args
  return 0

def localAll : List Bytes → Act Unit
  | [] => pure ()
  | arg :: args => do
    let s : Shell ← get
    let (name, value) := setting arg
    if arg = [Byte.minus] then modify Shell.keepOptions
    else
      match value with
      | some value =>
        if s.isReadonly name then Act.fail (name ++ text ": is read only")
        modify (fun s : Shell => (s.keep name).set name value)
      | none =>
        if (s.vars.lookup name).isNone ∧ !isName name then Act.fail (name ++ text ": bad variable name")
        modify (fun s : Shell => s.keep name)
    localAll args

def «local» (args : List Bytes) : Act Nat := do
  let s : Shell ← get
  if s.locals = [] then Act.fail (text "not in a function")
  else
    localAll args
    return 0

def unsetVariable (arg : Bytes) : Act Unit := do
  let s : Shell ← get
  let name := (setting arg).1
  if !isName name then Act.fail (name ++ text ": bad variable name")
  else if s.isReadonly name then Act.fail (name ++ text ": is read only")
  else
    modify (fun s : Shell => s.unset name)
    if name = text "OPTIND" then Act.fail (text "Illegal number: ")

def unset (args : List Bytes) : Act Nat := do
  let (options, names) ← Arguments.options "vf" args
  if options.getLast?.map (·.1) = some 102 then
    modify (fun s : Shell => { s with functions := s.functions.filter (fun f => !names.contains f.1) })
  else names.forM unsetVariable
  return 0

/-! ## Aliases -/

/-- A name, and the value after an equals sign that is not the first byte. -/
def aliasSetting (arg : Bytes) : Bytes × Option Bytes :=
  match Bytes.cutAt Byte.equals (arg.drop 1) with
  | some (name, value) => (arg.take 1 ++ name, some value)
  | none => (arg, none)

def putAlias (s : Shell) (name value : Bytes) : Shell :=
  { s with
    aliases := if (s.aliases.lookup name).isSome then s.aliases.map (fun a => if a.1 = name then (name, value) else a)
      else s.aliases ++ [(name, value)] }

def aliasAll : List Bytes → Act Bool
  | [] => pure true
  | arg :: args => do
    let s : Shell ← get
    let isThere ← match aliasSetting arg with
      | (name, some value) => do
        modify (fun s : Shell => putAlias s name value)
        pure true
      | (name, none) =>
        match s.aliases.lookup name with
        | some value => do
          Act.say (Listing.aliasLine name value)
          pure true
        | none => do
          Code.write 2 (text "alias: " ++ name ++ text " not found\n")
          pure false
    let others ← aliasAll args
    return isThere && others

def «alias» (args : List Bytes) : Act Nat := do
  if args = [] then
    Act.say (Listing.aliases (← get))
    return 0
  else return if ← aliasAll args then 0 else 1

def unaliasAll : List Bytes → Act Bool
  | [] => pure true
  | name :: names => do
    let s : Shell ← get
    let isThere := (s.aliases.lookup name).isSome
    if !isThere then Code.write 2 (text "unalias: " ++ name ++ text " not found\n")
    modify (fun s : Shell => { s with aliases := s.aliases.filter (·.1 != name) })
    let others ← unaliasAll names
    return isThere && others

def unalias (args : List Bytes) : Act Nat := do
  let (option, a) ← Arguments.next? (text "a") ⟨[], args⟩
  if option.isSome then
    modify (fun s : Shell => { s with aliases := [] })
    return 0
  else return if ← unaliasAll a.args then 0 else 1

/-! ## Commands -/

def hashAll : List Bytes → Act Bool
  | [] => pure true
  | name :: names => do
    modify (fun s : Shell => { s with tracked := s.tracked.filter (·.1 != name) })
    let s : Shell ← get
    let isFound ← match kindOf s name with
      | true =>
        match ← Search.locate name with
        | .ok _ => pure true
        | .error e => do
          Code.complain (name ++ text ": " ++ Search.failure e)
          pure false
      | false => pure true
    let others ← hashAll names
    return isFound && others
where
  /-- Whether a name stands for a program that is looked for. -/
  kindOf (s : Shell) (name : Bytes) : Bool :=
    match Search.kind s true name with
    | .program => !name.contains Byte.slash
    | _ => false

def hash (args : List Bytes) : Act Nat := do
  let (option, a) ← Arguments.next? (text "r") ⟨[], args⟩
  if option.isSome then
    modify (fun s : Shell => { s with tracked := [] })
    return 0
  else if a.args = [] then
    Act.say (Search.tracked (← get))
    return 0
  else return if ← hashAll a.args then 0 else 1

def describeAll : List Bytes → Act Bool
  | [] => pure true
  | name :: names => do
    let isKnown ← Search.describe true none name
    let others ← describeAll names
    return isKnown && others

def type (names : List Bytes) : Act Nat := do return if ← describeAll names then 0 else 127

def command (args : List Bytes) : Act Nat := do
  let (options, names) ← Arguments.options "pvV" args
  let letters := options.map (·.1)
  match names with
  | name :: _ =>
    if letters.contains 118 ∨ letters.contains 86 then
      let other := if letters.contains 112 then some standardPath else none
      return if ← Search.describe (letters.contains 86) other name then 0 else 127
    else return 0
  | [] => return 0

/-! ## What a process may use -/

def umask (args : List Bytes) : Act Nat := do
  let (options, args) ← Arguments.options "S" args
  let mask ← Act.call (.mask none)
  match args with
  | [] => Act.say (Listing.line (if options = [] then Mask.digits mask else Mask.asClauses mask))
  | arg :: _ =>
    let new ← if arg.head?.any Byte.isDigit then
        match Mask.ofDigits? arg with
        | some new => pure new
        | none => Act.fail (text "Illegal number: " ++ arg)
      else
        match Mask.ofClauses? mask arg with
        | some new => pure new
        | none => Act.fail (text "Illegal mode: " ++ arg)
    discard (Act.call (.mask (some new)))
  return 0

def amount (n : Option Nat) : Bytes :=
  match n with
  | some n => Bytes.decimal n
  | none => text "unlimited"

def amount? (s : Bytes) : Option (Option Nat) :=
  if s = text "unlimited" then some none
  else if s = [] then some (some 0)
  else (Bytes.toNat? s).map some

def ulimit (args : List Bytes) : Act Nat := do
  let (options, args) ← Arguments.options "HSatfdscmlpnvwr" args
  let letters := options.map (·.1)
  let what := (letters.filter (fun b => !(text "HSa").contains b)).getLast?.getD 102
  let side := (letters.filter (fun b => (text "HS").contains b)).getLast?
  let shown (l : Limit) : Bytes := amount (if side = some 72 then l.hard else l.soft)
  let isAll := letters.contains 97
  let limits ← Act.call .limits
  match args with
  | [] =>
    if isAll then
      Act.say (limits.flatMap (fun l =>
        Listing.line (l.name ++ List.replicate (20 - l.name.length) Byte.space ++ Byte.space :: shown l)))
    else Act.say ((limits.filter (·.letter == what)).flatMap (fun l => Listing.line (shown l)))
    return 0
  | arg :: others =>
    if isAll ∨ others ≠ [] then Act.fail (text "too many arguments")
    else
      match amount? arg with
      | none => Act.fail (text "bad number")
      | some new =>
        let given (other : UInt8) : Option (Option Nat) := if side = some other then none else some new
        match ← Act.call (.limit what (given 72) (given 83)) with
        | .ok () => return 0
        | .error e => Act.fail (text "error setting limit (" ++ e.message ++ text ")")

end LanguageClient.Host.Shell.Builtin
