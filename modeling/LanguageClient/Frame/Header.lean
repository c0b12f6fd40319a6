import LanguageClient.Bytes
/-
  LanguageClient.Frame.Header — the body length that a header block declares.

  A header block is a list of lines `name: value`, separated by CR LF. The first line whose
  name is Content-Length, in any case of letters, decides; the other lines do not matter.
  The first line of the block may begin with bytes left over from a frame that was skipped,
  as long as they cannot be part of the name: there the name ends at the last colon, and the
  byte before it must be no token character. The value counts when it is a numeral of at
  most `maxLength`.
-/

namespace LanguageClient.Frame

def nameText : Bytes := text "Content-Length"

def maxLength : Nat := 268435456

def isTokenChar (c : UInt8) : Bool := Byte.isAlnum c || (text "!#$%&'*+-.^_`|~").contains c

/-- A name or value without blanks around it; a carriage return at its end goes too. -/
def trim (s : Bytes) : Bytes :=
  Bytes.dropEnd (fun c => c == Byte.space || c == Byte.tab || c == Byte.cr)
    (s.dropWhile (fun c => c == Byte.space || c == Byte.tab))

/-- Whether a trimmed text ends in the name and no token character stands right before it. -/
def endsInName (key : Bytes) : Bool :=
  let start := key.length - nameText.length
  nameText.length ≤ key.length && Bytes.sameName (key.drop start) nameText
    && !((key.take start).getLast?.any isTokenChar)

/-- The value of a first line that declares a length. -/
def leadingValue? (line : Bytes) : Option Bytes :=
  match Bytes.cutAtLast Byte.colon line with
  | some (key, value) => if endsInName (trim key) then some (trim value) else none
  | none => none

def laterValue? (line : Bytes) : Option Bytes :=
  match Bytes.cutAt Byte.colon line with
  | some (key, value) => if Bytes.sameName (trim key) nameText then some (trim value) else none
  | none => none

/-- The value of the first line that declares a length. -/
def lengthValue? (header : Bytes) : Option Bytes :=
  match Bytes.lines header with
  | [] => none
  | first :: rest => (leadingValue? first).or (rest.findSome? laterValue?)

/-- Read on from the number `n`, giving up as soon as the number grows too large. -/
def readBounded (n : Nat) : Bytes → Option Nat
  | [] => some n
  | c :: r =>
    if Byte.isDigit c then
      let m := n * 10 + Byte.digitValue c
      if maxLength < m then none else readBounded m r
    else none

def readLength : Bytes → Option Nat
  | [] => none
  | value => readBounded 0 value

/-- The body length that a header block declares, `none` when it declares none that counts. -/
def contentLength (header : Bytes) : Option Nat := (lengthValue? header).bind readLength

end LanguageClient.Frame
