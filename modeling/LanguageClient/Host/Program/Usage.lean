import LanguageClient.Host.System
/-
  LanguageClient.Host.Program.Usage — how the tools of the host are used, and how they speak.

  A tool has options of one letter, several of which may stand together after a minus sign,
  and long ones after two, which may be cut short. Options may follow operands, and end at
  `--`. A tool calls itself by the name it was run with.

  - `parse` takes options and operands apart.
  - `quoted` writes a text between quotes, `named` a file name so that a shell reads it.
-/

namespace LanguageClient.Host.Program

/-! ## Speaking -/

def complain (tool message : Bytes) : Code Unit := Code.write 2 (tool ++ text ": " ++ message ++ [Byte.lf])

def hint (tool : Bytes) : Bytes := text "Try '" ++ tool ++ text " --help' for more information.\n"

def misuse (tool message : Bytes) : Code Nat := do
  complain tool message
  Code.write 2 (hint tool)
  return 1

def statusOf (succeeded : Bool) : Nat := if succeeded then 0 else 1

/-! ## Quotes -/

def isPrintable (b : UInt8) : Bool := 32 ≤ b && b ≤ 126

def letterFor? (b : UInt8) : Option UInt8 :=
  ([(7, 97), (8, 98), (9, 116), (10, 110), (11, 118), (12, 102), (13, 114)] : List (UInt8 × UInt8)).lookup b

def escaped (b : UInt8) : Bytes :=
  match letterFor? b with
  | some c => [92, c]
  | none => 92 :: [b / 64, b / 8 % 8, b % 8].map (· + 48)

def quoted (s : Bytes) : Bytes :=
  39 :: s.flatMap (fun b => if b = 39 ∨ b = 92 then [92, b] else if isPrintable b then [b] else escaped b) ++ [39]

/-- Text of a name inside single quotes, where what cannot be printed stands in quotes of its own. -/
def shellBody (inEscapes : Bool) : Bytes → Bytes
  | [] => []
  | b :: r =>
    if isPrintable b then
      let back := if inEscapes then text "''" else []
      back ++ (if b = 39 then text "'\\''" else [b]) ++ shellBody false r
    else (if inEscapes then [] else text "'$'") ++ escaped b ++ shellBody true r

def isShellByte (b : UInt8) : Bool := (text " !\"$&()*;<=>?[\\^`|:'").contains b || !isPrintable b

def needsQuotes (s : Bytes) : Bool :=
  s = [] || s.any isShellByte || s = text "\x7b" || s = text "\x7d" || s.head?.any (fun b => b == 35 || b == 126)

/-- A name between quotes as a shell reads them: double ones around a name with single quotes, if
nothing in it means anything there. -/
def shellQuoted (s : Bytes) : Bytes :=
  if s.contains 39 ∧ s.all (fun b => isPrintable b && !(text "\"$\\`!").contains b) then 34 :: s ++ [34]
  else 39 :: shellBody false s ++ [39]

def named (s : Bytes) : Bytes := if needsQuotes s then shellQuoted s else s

/-! ## Options -/

/-- The options of a tool: letters, and long names with the letter that each stands for and whether
it may have an argument. -/
structure Usage where
  letters : Bytes
  names : List (Bytes × UInt8 × Bool)
  /-- What the operands are. -/
  operands : Bytes := text "[FILE]..."

structure Wanted where
  options : List (UInt8 × Option Bytes) := []
  operands : List Bytes := []

namespace Wanted

def has (w : Wanted) (letter : UInt8) : Bool := w.options.any (·.1 == letter)

def isAboutTool (w : Wanted) : Bool := w.has 72 || w.has 86

end Wanted

namespace Usage

def common : List (Bytes × UInt8 × Bool) := [(text "help", 72, false), (text "version", 86, false)]

def long (u : Usage) (s : Bytes) : Except Bytes (UInt8 × Option Bytes) :=
  let name := s.takeWhile (· != Byte.equals)
  let argument := if name.length < s.length then some (s.drop (name.length + 1)) else none
  let fitting : List (Bytes × UInt8 × Bool) := match (u.names ++ common).filter (·.1 == name) with
    | [] => (u.names ++ common).filter (fun n => name.isPrefixOf n.1)
    | exact => exact
  match fitting with
  | [] => .error (text "unrecognized option '--" ++ s ++ text "'")
  | [(full, letter, mayHave)] =>
    if argument.isSome ∧ !mayHave then .error (text "option '--" ++ full ++ text "' doesn't allow an argument")
    else .ok (letter, argument)
  | several =>
    .error (text "option '--" ++ s ++ text "' is ambiguous; possibilities:"
      ++ several.flatMap (fun n => text " '--" ++ n.1 ++ text "'"))

/-- Take options and operands apart; an error says what is wrong with an option. After one that asks
about the tool nothing is read. -/
def parse (u : Usage) : List Bytes → Except Bytes Wanted
  | [] => .ok {}
  | arg :: rest =>
    if arg = text "--" then .ok { operands := rest }
    else if (text "--").isPrefixOf arg then
      match u.long (arg.drop 2) with
      | .error e => .error e
      | .ok option =>
        if ({ options := [option] } : Wanted).isAboutTool then .ok { options := [option] }
        else (u.parse rest).map (fun w => { w with options := option :: w.options })
    else if arg.head? = some Byte.minus ∧ 1 < arg.length then
      match (arg.drop 1).find? (!u.letters.contains ·) with
      | some bad => .error (text "invalid option -- '" ++ [bad] ++ text "'")
      | none =>
        (u.parse rest).map (fun w => { w with options := (arg.drop 1).map (·, none) ++ w.options })
    else (u.parse rest).map (fun w => { w with operands := arg :: w.operands })

def tell (u : Usage) (tool : Bytes) (w : Wanted) : Code Nat := do
  Code.write 1 (if w.has 72 then text "Usage: " ++ tool ++ text " [OPTION]... " ++ u.operands ++ [Byte.lf]
    else tool ++ text " 9.4\n")
  return 0

def plainNames (names : List (String × Char)) : List (Bytes × UInt8 × Bool) :=
  names.map (fun (name, c) => (text name, UInt8.ofNat c.toNat, false))

end Usage

end LanguageClient.Host.Program
