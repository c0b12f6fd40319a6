import LanguageClient.Host.System
import LanguageClient.Host.Shell.Numeral
/-
  LanguageClient.Host.Shell.Test — the tests of texts, numbers and files.

  A test is a list of arguments: operands, and operators that are put together with `!`,
  `-a`, `-o` and parentheses, each binding less tightly than the one before. Up to four
  arguments are first looked at as a whole, so that any text may be an operand.
-/

namespace LanguageClient.Host.Shell.Test

inductive Operator where
  | unary
  | binary
  | negation
  | conjunction
  | disjunction
  | opening
  | closing
  deriving DecidableEq, Repr

def unaryNames : List Bytes :=
  (["-r", "-w", "-x", "-e", "-f", "-d", "-c", "-b", "-p", "-u", "-g", "-k", "-s", "-t", "-z", "-n", "-h", "-O", "-G",
    "-L", "-S"]).map text

def binaryNames : List Bytes :=
  (["=", "!=", "<", ">", "-eq", "-ne", "-ge", "-gt", "-le", "-lt", "-nt", "-ot", "-ef"]).map text

def operator? (s : Bytes) : Option Operator :=
  if unaryNames.contains s then some .unary
  else if binaryNames.contains s then some .binary
  else if s = text "!" then some .negation
  else if s = text "-a" then some .conjunction
  else if s = text "-o" then some .disjunction
  else if s = text "(" then some .opening
  else if s = text ")" then some .closing
  else none

/-- Whether the argument that stands first is an operand although it looks like a unary operator. -/
def isOperand : List Bytes → Bool
  | [_] => true
  | [_, _] => false
  | _ :: s :: _ => operator? s == some .binary
  | [] => true

/-- What the argument that stands first is; none for an operand or when there is none. -/
def ahead (args : List Bytes) : Option Operator :=
  match args with
  | [] => none
  | s :: rest =>
    match operator? s with
    | some .unary => if isOperand args then none else some .unary
    | some .opening => if rest = [] then none else some .opening
    | other => other

/-! ## Single tests -/

abbrev Outcome (α : Type) := ExceptT Bytes Code α

def integer (s : Bytes) : Outcome Int :=
  match Numeral.whole? true false s with
  | some n => return n
  | none => throw (text "Illegal number: " ++ s)

def ask (c : SystemCall) : Outcome c.Reply := ExceptT.lift (Code.call c)

def isSame (a b : Bytes) : Outcome Bool := do
  match ← ask (.inspect a true), ← ask (.inspect b true) with
  | .ok x, .ok y => return x.place == y.place
  | _, _ => return false

def compare (a op b : Bytes) : Outcome Bool := do
  if op = text "=" then return a == b
  else if op = text "!=" then return a != b
  else if op = text "<" then return Bytes.before a b
  else if op = text ">" then return Bytes.before b a
  else if op = text "-ef" then isSame a b
  else if op = text "-nt" ∨ op = text "-ot" then return false
  else
    let x ← integer a
    let y ← integer b
    return if op = text "-eq" then x == y
      else if op = text "-ne" then x != y
      else if op = text "-lt" then x < y
      else if op = text "-le" then x ≤ y
      else if op = text "-gt" then y < x
      else y ≤ x

def holds (op : Bytes) (node : Node) : Bool :=
  if op = text "-e" then true
  else if op = text "-f" then node.isFile
  else if op = text "-d" then node.isDirectory
  else if op = text "-r" then node.access.canRead
  else if op = text "-w" then node.access.canWrite
  else if op = text "-x" then node.access.canExecute
  else if op = text "-c" then (match node with | .device _ => true | _ => false)
  else if op = text "-s" then (match node with
    | .file _ (.bytes b) => b != []
    | .file .. => true
    | .directory _ => true
    | _ => false)
  else if op = text "-O" ∨ op = text "-G" then (match node with
    | .file access _ => access.canWrite
    | .directory isWritable => isWritable
    | _ => false)
  else false

def holdsForDescriptor (op : Bytes) (fd : Nat) : Outcome Bool := do
  match ← ask (.isPipe fd) with
  | none => return false
  | some isPipe => return (op == text "-p" && isPipe) || op == text "-e" || op == text "-r" || op == text "-w"

def fileTest (op path : Bytes) : Outcome Bool := do
  let isOfLink := op = text "-h" ∨ op = text "-L"
  match ← ask (.inspect path (!isOfLink)) with
  | .error _ => return false
  | .ok sight =>
    match sight.node with
    | .link _ => return isOfLink
    | .device (.descriptor fd) => holdsForDescriptor op fd
    | node => return holds op node

def unary (op arg : Bytes) : Outcome Bool := do
  if op = text "-n" then return arg != []
  else if op = text "-z" then return arg == []
  else if op = text "-t" then
    discard (integer arg)
    return false
  else fileTest op arg

/-! ## Tests put together -/

mutual

/-- The truth of the test that comes first, taken for an operand if `isForced`, and the arguments
from its last one on. -/
def primary (n : Nat) (isForced : Bool) (args : List Bytes) : Outcome (Bool × List Bytes) :=
  match n with
  | 0 => throw (text "too many arguments")
  | n + 1 => do
    match args with
    | [] => return (false, [])
    | s :: rest =>
      match if isForced then none else ahead args with
      | some .opening =>
        if ahead rest = some .closing then return (false, rest)
        else
          let (v, at?) ← alternatives n false rest
          if ahead (at?.drop 1) = some .closing then return (v, at?.drop 1) else throw (text "closing paren expected")
      | some .unary =>
        match rest with
        | [] => throw (s ++ text ": argument expected")
        | a :: _ => return (← unary s a, rest)
      | _ =>
        if ahead rest = some .binary then
          match rest with
          | op :: b :: more => return (← compare s op b, b :: more)
          | _ => throw ((rest.head?.getD []) ++ text ": argument expected")
        else return (s != [], args)

def negated (n : Nat) (isForced : Bool) (args : List Bytes) : Outcome (Bool × List Bytes) :=
  match n with
  | 0 => throw (text "too many arguments")
  | n + 1 => do
    if !isForced ∧ ahead args = some .negation then
      match args.drop 1 with
      | [] => return (true, args)
      | rest => do
        let (v, at?) ← negated n false rest
        return (!v, at?)
    else primary n isForced args

def conditions (n : Nat) (isForced : Bool) (args : List Bytes) : Outcome (Bool × List Bytes) :=
  match n with
  | 0 => throw (text "too many arguments")
  | n + 1 => do
    let (v, at?) ← negated n isForced args
    if ahead (at?.drop 1) = some .conjunction then
      let (w, end?) ← conditions n false (at?.drop 2)
      return (v && w, end?)
    else return (v, at?)

def alternatives (n : Nat) (isForced : Bool) (args : List Bytes) : Outcome (Bool × List Bytes) :=
  match n with
  | 0 => throw (text "too many arguments")
  | n + 1 => do
    let (v, at?) ← conditions n isForced args
    if ahead (at?.drop 1) = some .disjunction then
      let (w, end?) ← alternatives n false (at?.drop 2)
      return (v || w, end?)
    else return (v, at?)

end

/-- The truth of a test as a whole, from a list of arguments that no look at their number explains. -/
def whole (isForced : Bool) (args : List Bytes) : Outcome Bool := do
  let (v, at?) ← alternatives (4 * args.length + 8) isForced args
  match at? with
  | s :: _ :: _ => throw (if s = [] then text "unexpected operator" else s ++ text ": unexpected operator")
  | _ => return v

def evaluate (n : Nat) (args : List Bytes) : Outcome Bool := do
  match n, args with
  | n + 1, args =>
    if args = [] then return false
    else if args.length = 3 ∧ operator? (args[1]?.getD []) = some .binary then whole true args
    else if (args.length = 3 ∨ args.length = 4) ∧ args.head? = some (text "(") ∧ args.getLast? = some (text ")") then
      whole false (args.drop 1).dropLast
    else if (args.length = 3 ∨ args.length = 4) ∧ args.head? = some (text "!") then
      return !(← evaluate n (args.drop 1))
    else whole false args
  | 0, _ => throw (text "too many arguments")

end LanguageClient.Host.Shell.Test
