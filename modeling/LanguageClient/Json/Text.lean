import LanguageClient.Json
import LanguageClient.Utf8
/-
  LanguageClient.Json.Text — the text of a value.

  A value is written on one line and without blanks; texts that are no UTF-8 are mended. It is
  read byte by byte: the bytes make tokens (`Lexer`), and the tokens make the value (`Stage`).
  A NUL between two tokens ends the text, as it ends a C string.

  A decimal number is not rounded to the nearest double, and it is written without an exponent.
-/

namespace LanguageClient.Json

/-! ## Writing -/

def hexDigit (n : UInt8) : UInt8 := if n < 10 then n + 48 else n + 87

def escape (c : UInt8) : Bytes :=
  if c = 34 then [92, 34]
  else if c = 92 then [92, 92]
  else if c = 8 then text "\\b"
  else if c = 9 then text "\\t"
  else if c = 10 then text "\\n"
  else if c = 12 then text "\\f"
  else if c = 13 then text "\\r"
  else if c < 32 then text "\\u00" ++ [hexDigit (c / 16), hexDigit (c % 16)]
  else [c]

def quoted (s : Bytes) : Bytes := 34 :: (Utf8.mend s).flatMap escape ++ [34]

def decimalText (m : Int) (places : Nat) : Bytes :=
  let digits := Bytes.decimal m.natAbs
  let padded := List.replicate (places + 1 - digits.length) 48 ++ digits
  let whole := padded.length - places
  let fraction := if places = 0 then [48] else padded.drop whole
  (if m < 0 then [Byte.minus] else []) ++ padded.take whole ++ Byte.dot :: fraction

mutual

def written : Json → Bytes
  | null => text "null"
  | bool true => text "true"
  | bool false => text "false"
  | int n => Bytes.ofInt n
  | decimal m places => decimalText m places
  | str s => quoted s
  | array items => 91 :: Bytes.joinWith [44] (writtenItems items) ++ [93]
  | object members => 123 :: Bytes.joinWith [44] (writtenMembers members) ++ [125]

def writtenItems : List Json → List Bytes
  | [] => []
  | v :: vs => written v :: writtenItems vs

def writtenMembers : List (Bytes × Json) → List Bytes
  | [] => []
  | (key, v) :: ms => (quoted key ++ Byte.colon :: written v) :: writtenMembers ms

end

/-! ## Numbers -/

/-- The least number that rounds to an infinite double. -/
def doubleLimit : Nat := Nat.pow 2 1024 - Nat.pow 2 970

/-- As few places as a number needs, but at least one. -/
def reduced : Nat → Nat → Nat × Nat
  | n, 0 => (n * 10, 1)
  | n, 1 => (n, 1)
  | n, places + 2 => if n % 10 = 0 then reduced (n / 10) (places + 1) else (n, places + 2)

/-- The number `m * 10 ^ e`, unless it is too large for a double. -/
def scaled? (m : Nat) (e : Int) : Option (Nat × Nat) :=
  if m = 0 then some (0, 1)
  else if 309 < (Bytes.decimal m).length + e then none
  else
    let n := m * Nat.pow 10 e.toNat
    let places := (-e).toNat
    if doubleLimit * Nat.pow 10 places ≤ n then none else some (reduced n places)

def exponent? : Bytes → Option Int
  | [] => some 0
  | c :: r =>
    if c = 69 ∨ c = 101 then
      match r with
      | Byte.plus :: ds => (Bytes.toNat? ds).map fun n => (n : Int)
      | Byte.minus :: ds => (Bytes.toNat? ds).map fun n => -(n : Int)
      | ds => (Bytes.toNat? ds).map fun n => (n : Int)
    else none

def fraction? : Bytes → Option (Bytes × Bytes)
  | Byte.dot :: r =>
    let (digits, rest) := r.span Byte.isDigit
    if digits = [] then none else some (digits, rest)
  | s => some ([], s)

/-- The value of a numeral without leading zeros. An integer that takes more than 64 bits is a
decimal number. -/
def numeral? (isNegative : Bool) (s : Bytes) : Option Json := do
  let sign (n : Nat) : Int := if isNegative then -n else n
  let (whole, rest) := s.span Byte.isDigit
  let n := Bytes.numeral whole
  if whole = [] ∨ whole.head? = some 48 ∧ whole.length ≠ 1 then none
  else if rest = [] ∧ n < Nat.pow 2 64 ∧ (isNegative → n ≤ Nat.pow 2 63) then some (int (sign n))
  else
    let (fraction, rest) ← fraction? rest
    let (n, places) ← scaled? (Bytes.numeral (whole ++ fraction)) ((← exponent? rest) - fraction.length)
    some (decimal (sign n) places)

def ofWord? (s : Bytes) : Option Json :=
  if s = text "null" then some null
  else if s = text "true" then some (bool true)
  else if s = text "false" then some (bool false)
  else
    match s with
    | Byte.minus :: r => numeral? true r
    | s => numeral? false s

/-! ## Texts -/

def hexValue? (c : UInt8) : Option Nat :=
  if Byte.isDigit c then some (c.toNat - 48)
  else if 97 ≤ c ∧ c ≤ 102 then some (c.toNat - 87)
  else if 65 ≤ c ∧ c ≤ 70 then some (c.toNat - 55)
  else none

def codeUnit? (a b c d : UInt8) : Option Nat := do
  return ((← hexValue? a) * 16 + (← hexValue? b)) * 256 + ((← hexValue? c) * 16 + (← hexValue? d))

def isHigh (n : Nat) : Bool := 0xD800 ≤ n && n < 0xDC00

def isLow (n : Nat) : Bool := 0xDC00 ≤ n && n < 0xE000

def unescaped? (c : UInt8) : Option UInt8 :=
  [(34, 34), (92, 92), (47, 47), (98, 8), (102, 12), (110, 10), (114, 13), (116, 9)].lookup c

/-- The text that stands between quotes. A character beyond the first 65536 is escaped as two code
units, of which neither may stand alone. -/
def unescape? : Bytes → Option Bytes
  | [] => some []
  | 92 :: 117 :: a :: b :: c :: d :: r => do
    let n ← codeUnit? a b c d
    if isLow n then none
    else if isHigh n then
      match r with
      | 92 :: 117 :: a :: b :: c :: d :: r =>
        let low ← codeUnit? a b c d
        if isLow low then
          return Utf8.character (0x10000 + (n - 0xD800) * 1024 + (low - 0xDC00)) ++ (← unescape? r)
        else none
      | _ => none
    else return Utf8.character n ++ (← unescape? r)
  | 92 :: c :: r => do return (← unescaped? c) :: (← unescape? r)
  | c :: r => do if c = 92 then none else return c :: (← unescape? r)

/-! ## Tokens -/

inductive Token where
  | openArray
  | closeArray
  | openObject
  | closeObject
  | comma
  | colon
  /-- A value that holds no others. -/
  | plain (v : Json)

def isBlank (c : UInt8) : Bool := c == 32 || c == 9 || c == 10 || c == 13

inductive Lexer where
  | between
  /-- In a word; its bytes so far, last first. -/
  | word (read : Bytes)
  /-- Between quotes; the bytes so far, last first, and whether a backslash has just been read. -/
  | quote (read : Bytes) (isEscaping : Bool)
  /-- Behind the end of the text. -/
  | ended

namespace Lexer

def mark? (c : UInt8) : Option Token :=
  [(91, .openArray), (93, .closeArray), (123, .openObject), (125, .closeObject), (44, .comma),
    (58, .colon)].lookup c

def start (c : UInt8) : Option Token × Lexer :=
  if isBlank c then (none, between)
  else if c = 0 then (none, ended)
  else if c = 34 then (none, quote [] false)
  else
    match mark? c with
    | some t => (some t, between)
    | none => (none, word [c])

def endsWord (c : UInt8) : Bool := isBlank c || c == 0 || c == 34 || (mark? c).isSome

/-- Take a byte: the tokens that are complete then, unless the text is none. -/
def take : Lexer → UInt8 → Option (List Token × Lexer)
  | between, c => some ((start c).1.toList, (start c).2)
  | word read, c =>
    if endsWord c then do
      return (.plain (← ofWord? read.reverse) :: (start c).1.toList, (start c).2)
    else some ([], word (c :: read))
  | quote read true, c => some ([], quote (c :: read) false)
  | quote read false, c =>
    if c = 34 then
      if Utf8.isText read.reverse then do return ([.plain (str (← unescape? read.reverse))], between) else none
    else if c < 32 then none
    else some ([], quote (c :: read) (c == 92))
  | ended, _ => some ([], ended)

def finish : Lexer → Option (List Token)
  | between => some []
  | word read => do return [.plain (← ofWord? read.reverse)]
  | quote .. => none
  | ended => some []

end Lexer

/-! ## Values -/

inductive Level where
  /-- The items so far, last first. -/
  | items (done : List Json)
  /-- The members so far, and the key of the one that comes. -/
  | members (done : List (Bytes × Json)) (key : Bytes)

inductive Stage where
  /-- A value comes next; an array that has just been opened may be closed instead. -/
  | value (around : List Level) (mayClose : Bool)
  /-- A key comes next; an object that has just been opened may be closed instead. -/
  | key (done : List (Bytes × Json)) (around : List Level) (mayClose : Bool)
  /-- A colon comes next. -/
  | colon (key : Bytes) (done : List (Bytes × Json)) (around : List Level)
  /-- A value is complete. -/
  | complete (v : Json) (around : List Level)

namespace Stage

/-- Take a token, unless it cannot stand here. Of two members with one key the later one counts. -/
def take : Stage → Token → Option Stage
  | value around _, .plain v => some (complete v around)
  | value around _, .openArray => some (value (.items [] :: around) true)
  | value around _, .openObject => some (key [] around true)
  | value (.items _ :: around) true, .closeArray => some (complete (.array []) around)
  | key done around _, .plain (.str k) => some (colon k done around)
  | key _ around true, .closeObject => some (complete (.object []) around)
  | colon k done around, .colon => some (value (.members done k :: around) false)
  | complete v (.items done :: around), .comma => some (value (.items (v :: done) :: around) false)
  | complete v (.items done :: around), .closeArray => some (complete (.array (v :: done).reverse) around)
  | complete v (.members done k :: around), .comma => some (key (Table.assign k v done) around false)
  | complete v (.members done k :: around), .closeObject =>
    some (complete (.object (Table.assign k v done)) around)
  | _, _ => none

def result? : Stage → Option Json
  | complete v [] => some v
  | _ => none

end Stage

/-! ## Reading -/

structure Reader where
  lexer : Lexer := .between
  stage : Stage := .value [] false

def Reader.take (r : Reader) (c : UInt8) : Option Reader := do
  let (tokens, lexer) ← r.lexer.take c
  return ⟨lexer, ← tokens.foldlM Stage.take r.stage⟩

def Reader.finish (r : Reader) : Option Json := do
  (← (← r.lexer.finish).foldlM Stage.take r.stage).result?

def byteOrderMark : Bytes := [0xEF, 0xBB, 0xBF]

def read? (s : Bytes) : Option Json := do
  (← (if byteOrderMark.isPrefixOf s then s.drop 3 else s).foldlM Reader.take {}).finish

end LanguageClient.Json
