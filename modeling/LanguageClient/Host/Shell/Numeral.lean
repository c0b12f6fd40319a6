import LanguageClient.Bytes
/-
  LanguageClient.Host.Shell.Numeral — the numbers that texts begin with.

  A number is hexadecimal after `0x`, octal after another zero, else decimal, and may have
  blanks and a sign before it. It is held in 64 bits: what is too large counts as the
  largest there is.

  - `natural` reads a number without a sign, `integer` one with a sign.
  - `whole?` reads a text that is a number as a whole.
-/

namespace LanguageClient.Host.Shell.Numeral

def largest : Nat := 9223372036854775807

def largestUnsigned : Nat := 18446744073709551615

def hexValue? (b : UInt8) : Option Nat :=
  if Byte.isDigit b then some (Byte.digitValue b)
  else if 97 ≤ Byte.lower b ∧ Byte.lower b ≤ 102 then some ((Byte.lower b).toNat - 87)
  else none

def digitsOf (base : Nat) (s : Bytes) : Nat × Nat :=
  let ds := (s.takeWhile (fun b => (hexValue? b).any (· < base))).filterMap hexValue?
  (ds.foldl (fun n d => n * base + d) 0, ds.length)

/-- A number without its sign: hexadecimal after `0x`, octal after `0`, and how long it is. -/
def natural (s : Bytes) : Nat × Nat :=
  match s with
  | 48 :: x :: r =>
    if Byte.lower x = 120 ∧ 0 < (digitsOf 16 r).2 then ((digitsOf 16 r).1, (digitsOf 16 r).2 + 2)
    else digitsOf 8 s
  | _ => digitsOf 10 s

structure Reading where
  isNegative : Bool
  magnitude : Nat
  /-- How much of the text it takes, with what stands before its digits; nothing when there is none. -/
  length : Nat

def integer (decimalOnly : Bool) (s : Bytes) : Reading :=
  let blanks := (s.takeWhile Byte.isSpace).length
  let body := s.drop blanks
  let isSigned := body.head? = some Byte.minus ∨ body.head? = some Byte.plus
  let bare := if isSigned then body.drop 1 else body
  let (n, k) := if decimalOnly then digitsOf 10 bare else natural bare
  ⟨body.head? == some Byte.minus, n, if k = 0 then 0 else blanks + (if isSigned then 1 else 0) + k⟩

def Reading.value (r : Reading) : Int := if r.isNegative then -(r.magnitude : Int) else r.magnitude

def Reading.isTooLarge (r : Reading) : Bool :=
  if r.isNegative then largest + 1 < r.magnitude else largest < r.magnitude

def Reading.clamped (r : Reading) : Int := max (-(largest : Int) - 1) (min largest r.value)

/-- The number that a text is, with blanks around it; `allowsNone` makes nothing at all a zero. -/
def whole? (decimalOnly allowsNone : Bool) (s : Bytes) : Option Int :=
  let r := integer decimalOnly s
  if r.isTooLarge ∨ (r.length = 0 ∧ !allowsNone) then none
  else if (s.drop r.length).all Byte.isSpace then some (if r.length = 0 then 0 else r.value)
  else none

end LanguageClient.Host.Shell.Numeral
