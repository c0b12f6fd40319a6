import LanguageClient.Bytes
/-
  LanguageClient.Uri — percent coding of paths.

  A path inside a URI is written with its unreserved bytes and `/` as they are and every
  other byte as `%` and two capital hexadecimal digits. Reading is tolerant: a `%` that is
  not followed by two hexadecimal digits stands for itself.
-/

namespace LanguageClient.Uri

def hexValue? (c : UInt8) : Option UInt8 :=
  if Byte.isDigit c then some (c - 48)
  else if 97 ≤ c ∧ c ≤ 102 then some (c - 87)
  else if 65 ≤ c ∧ c ≤ 70 then some (c - 55)
  else none

def hexDigit (n : UInt8) : UInt8 := if n < 10 then n + 48 else n + 55

/-- Each `%XY` becomes the byte it names; anything else is kept. -/
def decode : Bytes → Bytes
  | Byte.percent :: x :: y :: r =>
    match hexValue? x, hexValue? y with
    | some a, some b => (a * 16 + b) :: decode r
    | _, _ => Byte.percent :: decode (x :: y :: r)
  | c :: r => c :: decode r
  | [] => []
  termination_by s => s.length

/-- Unreserved bytes and the slash stand for themselves in the path of a URI. -/
def isPlain (c : UInt8) : Bool :=
  Byte.isAlnum c || c == Byte.minus || c == Byte.dot || c == 95 || c == 126 || c == Byte.slash

def encodeByte (c : UInt8) : Bytes :=
  if isPlain c then [c] else [Byte.percent, hexDigit (c / 16), hexDigit (c % 16)]

def encode (s : Bytes) : Bytes := s.flatMap encodeByte

end LanguageClient.Uri
