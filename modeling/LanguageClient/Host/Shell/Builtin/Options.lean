import LanguageClient.Host.Shell.Arguments
import LanguageClient.Host.Shell.Attention
import LanguageClient.Host.Shell.Listing
/-
  LanguageClient.Host.Shell.Builtin.Options — the options of the shell itself, and those of
  its scripts.

  `set` takes options first, each after a plus sign to turn it off, and what follows them are
  the new arguments. The command line of a shell takes the same options and a few more.
  `getopts` gives a script its options one by one.
-/

namespace LanguageClient.Host.Shell.Builtin

structure Wishes where
  /-- Whether a text is to be run. -/
  isText : Bool := false
  isLogin : Bool := false
  /-- Whether `--` or a minus sign has ended the options. -/
  isEnded : Bool := false
  /-- Whether the end was `--`. -/
  isReset : Bool := false
  /-- The options that have been turned off. -/
  off : Bytes := []
  args : List Bytes

namespace Wishes

def illegal (letter : Bytes) : Act Wishes := Act.fail (text "Illegal option -" ++ letter)

/-- The options that count as on in a list of them: at the start all that have not been turned off. -/
def listed (atStart : Bool) (w : Wishes) (s : Shell) : Shell :=
  if atStart then { s with options := (Shell.optionNames.map (·.2)).filter (!w.off.contains ·) } else s

def named (atStart isOn : Bool) (w : Wishes) : Act Wishes := do
  let s : Shell ← get
  match w.args with
  | [] =>
    let s := listed atStart w s
    Act.say (if isOn then Listing.optionTable s else Listing.optionCommands s)
    return w
  | name :: args =>
    match s.turnNamed? isOn name with
    | some s' =>
      modify (fun _ : Shell => s')
      return { w with args := args, off := if isOn then w.off else (Shell.optionNames.lookup name).toList ++ w.off }
    | none => illegal (text "o " ++ name)

def letters (atStart isOn : Bool) (w : Wishes) : Bytes → Act Wishes
  | [] => pure w
  | letter :: others => do
    let s : Shell ← get
    if letter = 99 ∧ atStart then letters atStart isOn { w with isText := true } others
    else if letter = 108 ∧ atStart then letters atStart isOn { w with isLogin := true } others
    else if letter = 111 then letters atStart isOn (← named atStart isOn w) others
    else
      match s.turnLetter? isOn letter with
      | some s' =>
        modify (fun _ : Shell => s')
        letters atStart isOn (if isOn then w else { w with off := letter :: w.off }) others
      | none => illegal [letter]

def take (atStart : Bool) : Nat → Wishes → Act Wishes
  | 0, w => pure w
  | n + 1, w =>
    match w.args with
    | (45 :: rest) :: args =>
      if rest = [] ∨ rest = [Byte.minus] then pure { w with args := args, isEnded := true, isReset := rest != [] }
      else do take atStart n (← letters atStart true { w with args := args } rest)
    | (43 :: rest) :: args => do take atStart n (← letters atStart false { w with args := args } rest)
    | _ => pure w

def ofArgs (atStart : Bool) (args : List Bytes) : Act Wishes := take atStart (args.length + 1) { args := args }

end Wishes

/-- Hear signals as the options ask for. Without a terminal the shell cannot control works. -/
def heed : Code Unit := do
  Attention.settleManners
  let s : Shell ← get
  if s.has 'm' then
    Code.complain (text "can't access tty; job control turned off")
    modify (fun s : Shell => s.turn false 109)

def «set» (args : List Bytes) : Act Nat := do
  if args = [] then Act.say (Listing.variableLines (← get) [] (·.value.isSome))
  else
    let w ← Wishes.ofArgs false args
    if w.isEnded ∧ !w.isReset then modify (fun s : Shell => (s.turn false 120).turn false 118)
    heed
    if w.args ≠ [] ∨ w.isReset then modify (fun s : Shell => s.withArgs w.args)
  return 0

def shift (args : List Bytes) : Act Nat := do
  let s : Shell ← get
  let k ← match args with
    | [] => pure 1
    | a :: _ => Act.number a
  if s.args.length < k then Act.fail (text "can't shift that many")
  else
    modify (fun s : Shell => s.withArgs (s.args.drop k))
    return 0

/-! ## The options of scripts -/

def optionOf? (letter : UInt8) : Bytes → Option Bool
  | [] => none
  | b :: 58 :: r => if b = letter then some true else optionOf? letter r
  | b :: r => if b = letter then some false else optionOf? letter r

structure FoundOption where
  letter : UInt8
  /-- What `OPTARG` becomes. -/
  argument : Option Bytes
  index : Nat
  offset : Option Nat
  complaint : Bytes := []
  isOver : Bool := false

/-- The option of a letter that has been read from a word; `rest` follows it there. -/
def findOption (spec : Bytes) (args : List Bytes) (index : Nat) (word : Bytes) (letter : UInt8) (rest : Bytes) :
    FoundOption :=
  let isQuiet := spec.head? == some Byte.colon
  let here := some (word.length - rest.length)
  match optionOf? letter spec with
  | none =>
    if isQuiet then ⟨63, some [letter], index, here, [], false⟩
    else ⟨63, none, index, here, text "Illegal option -" ++ [letter, Byte.lf], false⟩
  | some false => ⟨letter, some [], index, here, [], false⟩
  | some true =>
    if rest ≠ [] then ⟨letter, some rest, index, none, [], false⟩
    else
      match args[index - 1]? with
      | some arg => ⟨letter, some arg, index + 1, none, [], false⟩
      | none =>
        if isQuiet then ⟨Byte.colon, some [letter], index, none, [], false⟩
        else ⟨63, none, index, none, text "No arg for -" ++ letter :: text " option\n", false⟩

/-- The next option among arguments, from an index and an offset in the word before it on. -/
def nextOption (spec : Bytes) (args : List Bytes) (index : Nat) (offset : Option Nat) : FoundOption :=
  let before := if index ≤ 1 then [] else args[index - 2]?.getD []
  let rest := match offset with
    | some k => before.drop k
    | none => []
  let noMore (index : Nat) : FoundOption := ⟨63, none, index, none, [], true⟩
  match rest with
  | letter :: rest => findOption spec args index before letter rest
  | [] =>
    match args[index - 1]? with
    | some (45 :: letter :: rest) =>
      if letter = Byte.minus ∧ rest = [] then noMore (index + 1)
      else findOption spec args (index + 1) (45 :: letter :: rest) letter rest
    | _ => noMore index

def getopts (args : List Bytes) : Act Nat := do
  match ← Arguments.plain args with
  | spec :: name :: given =>
    let s : Shell ← get
    let list := if given = [] then s.args else given
    let isOut := s.optionIndex = 0 ∨ list.length + 1 < s.optionIndex
    let found := if isOut then nextOption spec list 1 none else nextOption spec list s.optionIndex s.optionOffset
    modify (fun s : Shell => { s with optionIndex := 0, optionOffset := none })
    if found.complaint ≠ [] then Code.write 2 found.complaint
    if !found.isOver then
      match found.argument with
      | some arg => Act.assign (text "OPTARG") arg
      | none => modify (fun s : Shell => s.unset (text "OPTARG"))
    Act.assign (text "OPTIND") (Bytes.decimal found.index)
    Act.assign (setting name).1 [found.letter]
    modify (fun s : Shell => { s with optionIndex := found.index, optionOffset := found.offset })
    return if found.isOver then 1 else 0
  | _ => Act.fail (text "Usage: getopts optstring var [arg...]")

end LanguageClient.Host.Shell.Builtin
