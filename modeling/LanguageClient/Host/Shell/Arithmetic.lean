import LanguageClient.Host.Shell.Numeral
import LanguageClient.Host.Shell.State
/-
  LanguageClient.Host.Shell.Arithmetic — the value of an arithmetic expression.

  An expression is made of numbers of 64 bits, variables, signs and parentheses. Signs bind
  as tightly as `strength` says and from the left; `&&`, `||` and the two sides of `?` look
  only at what they need. Assignments bind from the right, and change the shell.
-/

namespace LanguageClient.Host.Shell.Arithmetic

inductive Token where
  | number (n : Int)
  | name (s : Bytes)
  | sign (s : Bytes)
  deriving DecidableEq, Repr

/-- The signs of an expression, longer ones before those they begin with. -/
def signs : List Bytes :=
  (["<<=", ">>=", "<<", ">>", "<=", ">=", "==", "!=", "&&", "||", "+=", "-=", "*=", "/=", "%=", "&=", "|=", "^=",
    "+", "-", "*", "/", "%", "<", ">", "=", "!", "~", "&", "|", "^", "?", ":", "(", ")"]).map text

inductive Fault where
  /-- A number or a name is missing. -/
  | noPrimary
  | unclosed
  | noColon
  /-- Something is left after the expression. -/
  | leftOver
  | divisionByZero
  /-- The value of a variable is no number. -/
  | illegal (value : Bytes)
  | fixed (name : Bytes)
  deriving DecidableEq, Repr

def Fault.message (source : Bytes) : Fault → Bytes
  | noPrimary => about "expecting primary"
  | unclosed => about "expecting ')'"
  | noColon => about "expecting ':'"
  | leftOver => about "expecting EOF"
  | divisionByZero => about "division by zero"
  | illegal value => text "Illegal number: " ++ value
  | fixed name => name ++ text ": is read only"
where
  about (s : String) : Bytes := text "arithmetic expression: " ++ text s ++ text ": \"" ++ source ++ text "\""

def isBlank (b : UInt8) : Bool := b == Byte.space || b == Byte.tab || b == Byte.lf

/-- The token that a text begins with, and its length; a byte that means nothing is a sign too. -/
def token (s : Bytes) : Token × Nat :=
  match s with
  | [] => (.sign [], 0)
  | b :: _ =>
    if Byte.isDigit b then
      let (n, length) := Numeral.natural s
      (.number (min n Numeral.largest), max 1 length)
    else if isNameByte b then
      let run := s.takeWhile isNameByte
      (.name run, run.length)
    else
      let sign := (signs.find? (·.isPrefixOf s)).getD [b]
      (.sign sign, max 1 sign.length)

def tokens : Nat → Bytes → List Token
  | 0, _ => []
  | n + 1, s =>
    match s.dropWhile isBlank with
    | [] => []
    | r => (token r).1 :: tokens n (r.drop (token r).2)

/-! ## Operations -/

def wrap (n : Int) : Int := n.bmod 18446744073709551616

/-- What a shift by so many places multiplies with; only the lowest six bits of the number count. -/
def shift (b : Int) : Int := Nat.pow 2 (b.emod 64).toNat

def truth (b : Bool) : Int := if b then 1 else 0

def strength (s : Bytes) : Option Nat :=
  if s = text "|" then some 3
  else if s = text "^" then some 4
  else if s = text "&" then some 5
  else if s = text "==" ∨ s = text "!=" then some 6
  else if s = text "<" ∨ s = text "<=" ∨ s = text ">" ∨ s = text ">=" then some 7
  else if s = text "<<" ∨ s = text ">>" then some 8
  else if s = text "+" ∨ s = text "-" then some 9
  else if s = text "*" ∨ s = text "/" ∨ s = text "%" then some 10
  else none

def bits (f : BitVec 64 → BitVec 64 → BitVec 64) (a b : Int) : Int :=
  (f (BitVec.ofInt 64 a) (BitVec.ofInt 64 b)).toInt

def combine (s : Bytes) (a b : Int) : Except Fault Int :=
  if s = text "|" then .ok (bits (· ||| ·) a b)
  else if s = text "^" then .ok (bits (· ^^^ ·) a b)
  else if s = text "&" then .ok (bits (· &&& ·) a b)
  else if s = text "==" then .ok (truth (a == b))
  else if s = text "!=" then .ok (truth (a != b))
  else if s = text "<" then .ok (truth (a < b))
  else if s = text "<=" then .ok (truth (a ≤ b))
  else if s = text ">" then .ok (truth (b < a))
  else if s = text ">=" then .ok (truth (b ≤ a))
  else if s = text "<<" then .ok (wrap (a * shift b))
  else if s = text ">>" then .ok (a.fdiv (shift b))
  else if s = text "+" then .ok (wrap (a + b))
  else if s = text "-" then .ok (wrap (a - b))
  else if s = text "*" then .ok (wrap (a * b))
  else if b = 0 then .error .divisionByZero
  else if s = text "/" then .ok (wrap (a.tdiv b))
  else if s = text "%" then .ok (a.tmod b)
  else .error .leftOver

/-- The sign of the operation that an assignment sign performs first; for `=` there is none. -/
def assignment? (s : Bytes) : Option Bytes :=
  if s.getLast? = some Byte.equals ∧ (strength s).isNone ∧ s ≠ text "!=" then some s.dropLast else none

/-! ## Values -/

structure Reading where
  tokens : List Token
  shell : Shell

abbrev Reader (α : Type) := StateT Reading (Except Fault) α

def goOn (rest : List Token) : Reader Unit := modify (fun r : Reading => { r with tokens := rest })

def numberOf (name : Bytes) : Reader Int := do
  let value := ((← get).shell.value? name).getD []
  match Numeral.whole? false true value with
  | some n => return n
  | none => throw (.illegal value)

def store (name : Bytes) (n : Int) : Reader Unit := do
  let r ← get
  if r.shell.isReadonly name then throw (.fixed name)
  else modify (fun r : Reading => { r with shell := r.shell.set name (Bytes.ofInt n) })

def takeSign (s : String) : Reader Bool := do
  let r ← get
  if r.tokens.head? = some (.sign (text s)) then
    goOn (r.tokens.drop 1)
    return true
  else return false

mutual

/-- The value of an operand; with `idle` it is read but not worked out. -/
def operand (n : Nat) (idle : Bool) : Reader Int := do
  let r ← get
  match n, r.tokens with
  | n + 1, t :: rest =>
    goOn rest
    match t with
    | .number k => return k
    | .name x => if idle then return 0 else numberOf x
    | .sign s =>
      if s = text "(" then
        let v ← assignment n idle
        if ← takeSign ")" then return v else throw .unclosed
      else if s = text "-" then return wrap (-(← operand n idle))
      else if s = text "+" then operand n idle
      else if s = text "!" then return truth ((← operand n idle) == 0)
      else if s = text "~" then return -(← operand n idle) - 1
      else throw .noPrimary
  | _, _ => throw .noPrimary

/-- The value of operands joined by signs that bind at least as tightly as `least`. -/
def joined (n : Nat) (idle : Bool) (least : Nat) : Reader Int :=
  match n with
  | 0 => throw .noPrimary
  | n + 1 => do continued n idle least (← operand n idle)

def continued (n : Nat) (idle : Bool) (least : Nat) (v : Int) : Reader Int := do
  let r ← get
  match n, r.tokens with
  | n + 1, .sign s :: rest =>
    match (strength s).filter (least ≤ ·) with
    | none => return v
    | some k =>
      goOn rest
      let w ← joined n idle (k + 1)
      continued n idle least (← if idle then pure w else (combine s v w : Except Fault Int))
  | _, _ => return v

def conjunction (n : Nat) (idle : Bool) : Reader Int :=
  match n with
  | 0 => throw .noPrimary
  | n + 1 => do
    let a ← joined n idle 0
    if ← takeSign "&&" then
      let b ← conjunction n (idle || a == 0)
      return truth (a != 0 && b != 0)
    else return a

def disjunction (n : Nat) (idle : Bool) : Reader Int :=
  match n with
  | 0 => throw .noPrimary
  | n + 1 => do
    let a ← conjunction n idle
    if ← takeSign "||" then
      let b ← disjunction n (idle || a != 0)
      return truth (a != 0 || b != 0)
    else return a

def choice (n : Nat) (idle : Bool) : Reader Int :=
  match n with
  | 0 => throw .noPrimary
  | n + 1 => do
    let a ← disjunction n idle
    if ← takeSign "?" then
      let b ← assignment n (idle || a == 0)
      if ← takeSign ":" then
        let c ← choice n (idle || a != 0)
        return if a ≠ 0 then b else c
      else throw .noColon
    else return a

def assignment (n : Nat) (idle : Bool) : Reader Int := do
  let r ← get
  match n, r.tokens with
  | n + 1, .name x :: .sign s :: rest =>
    match assignment? s with
    | none => choice n idle
    | some operation =>
      goOn rest
      let v ← assignment n idle
      if idle then return v
      else
        let u ← if operation = [] then pure v else do
          let old ← numberOf x
          (combine operation old v : Except Fault Int)
        store x u
        return u
  | n + 1, _ => choice n idle
  | 0, _ => throw .noPrimary

end

def evaluate (s : Shell) (source : Bytes) : Except Fault (Int × Shell) := do
  let ts := tokens (source.length + 1) source
  let (v, r) ← (assignment (10 * ts.length + 16) false).run ⟨ts, s⟩
  if r.tokens = [] then return (v, r.shell) else throw .leftOver

end LanguageClient.Host.Shell.Arithmetic
