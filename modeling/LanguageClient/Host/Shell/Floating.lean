import LanguageClient.Host.Shell.Numeral
/-
  LanguageClient.Host.Shell.Floating — numbers with a fraction, read and written exactly.

  A number is a whole number of 53 bits times a power of two, or infinite, or no number at
  all. A text is read as the number nearest to what it denotes, of two equally near ones
  the even one; a number is written with so many digits by the same rule.

  - `roundDiv` is that rule, for quotients.
  - `read` gives the number at the beginning of a text.
  - `fixed`, `scientific` and `general` write a number.
-/

namespace LanguageClient.Host.Shell

inductive Floating where
  | finite (isNegative : Bool) (mantissa : Nat) (exponent : Int)
  | infinite (isNegative : Bool)
  | noNumber (isNegative : Bool)
  deriving DecidableEq, Repr

namespace Floating

/-- The whole number nearest to a quotient; of two equally near ones the even one. -/
def roundDiv (a b : Nat) : Nat :=
  let q := a / b
  let r := a % b
  if b < 2 * r ∨ (2 * r = b ∧ q % 2 = 1) then q + 1 else q

def isNegative : Floating → Bool
  | finite s _ _ => s
  | infinite s => s
  | noNumber s => s

/-! ## Reading -/

/-- The power of two that is the unit of the numbers near a positive quotient. -/
def unitFor (a b : Nat) : Int :=
  let guess : Int := (Nat.log2 a : Int) - (Nat.log2 b : Int)
  let isBelow := if 0 ≤ guess then a < b * Nat.pow 2 guess.toNat else a * Nat.pow 2 (-guess).toNat < b
  max ((if isBelow then guess - 1 else guess) - 52) (-1074)

def ofQuotient (isNegative : Bool) (a b : Nat) : Floating × Bool :=
  if a = 0 then (finite isNegative 0 0, false)
  else
    let e := unitFor a b
    let num := if 0 ≤ e then a else a * Nat.pow 2 (-e).toNat
    let den := if 0 ≤ e then b * Nat.pow 2 e.toNat else b
    let m := roundDiv num den
    if Nat.pow 2 1024 ≤ (if 0 ≤ e then m * Nat.pow 2 e.toNat else m / Nat.pow 2 (-e).toNat) then
      (infinite isNegative, true)
    else (finite isNegative m e, m < Nat.pow 2 52 && num % den != 0)

def exponent (letter : UInt8) (s : Bytes) : Int × Nat :=
  match s with
  | b :: r =>
    if Byte.lower b = letter then
      let isSigned := r.head? = some Byte.minus ∨ r.head? = some Byte.plus
      let ds := (if isSigned then r.drop 1 else r).takeWhile Byte.isDigit
      if ds = [] then (0, 0)
      else
        let n : Int := min (Bytes.numeral ds) 20000
        (if r.head? = some Byte.minus then -n else n, 1 + (if isSigned then 1 else 0) + ds.length)
    else (0, 0)
  | [] => (0, 0)

def digitsWithPoint (base : Nat) (s : Bytes) : Nat × Nat × Nat × Nat :=
  let (whole, k) := Numeral.digitsOf base s
  let rest := s.drop k
  let (fraction, j) := if rest.head? = some Byte.dot then Numeral.digitsOf base (rest.drop 1) else (0, 0)
  let hasPoint := rest.head? = some Byte.dot ∧ 0 < k + j
  (whole * Nat.pow base j + fraction, j, k + j, k + (if hasPoint then j + 1 else 0))

def magnitude (isNegative : Bool) (s : Bytes) : (Floating × Bool) × Nat :=
  let small := s.map Byte.lower
  if (text "infinity").isPrefixOf small then ((infinite isNegative, false), 8)
  else if (text "inf").isPrefixOf small then ((infinite isNegative, false), 3)
  else if (text "nan").isPrefixOf small then ((noNumber isNegative, false), 3)
  else
    let (hex, places, count, length) := digitsWithPoint 16 (s.drop 2)
    if (text "0x").isPrefixOf small ∧ 0 < count then
      let (e, k) := exponent 112 (s.drop (2 + length))
      let power := e - 4 * places
      ((ofQuotient isNegative (if 0 ≤ power then hex * Nat.pow 2 power.toNat else hex)
        (if 0 ≤ power then 1 else Nat.pow 2 (-power).toNat)), 2 + length + k)
    else
      let (n, places, count, length) := digitsWithPoint 10 s
      if count = 0 then ((finite isNegative 0 0, false), 0)
      else
        let (e, k) := exponent 101 (s.drop length)
        let power := e - places
        ((ofQuotient isNegative (if 0 ≤ power then n * Nat.pow 10 power.toNat else n)
          (if 0 ≤ power then 1 else Nat.pow 10 (-power).toNat)), length + k)

def read (s : Bytes) : (Floating × Bool) × Nat :=
  let blanks := (s.takeWhile Byte.isSpace).length
  let body := s.drop blanks
  let isSigned := body.head? = some Byte.minus ∨ body.head? = some Byte.plus
  let (v, k) := magnitude (body.head? == some Byte.minus) (if isSigned then body.drop 1 else body)
  (v, if k = 0 then 0 else blanks + (if isSigned then 1 else 0) + k)

/-! ## Writing -/

/-- `mantissa · 2 ^ exponent · 10 ^ places`, rounded to a whole number. -/
def scaled (mantissa : Nat) (exponent places : Int) : Nat :=
  let num := mantissa * (if 0 ≤ exponent then Nat.pow 2 exponent.toNat else 1)
    * (if 0 ≤ places then Nat.pow 10 places.toNat else 1)
  let den := (if 0 ≤ exponent then 1 else Nat.pow 2 (-exponent).toNat)
    * (if 0 ≤ places then 1 else Nat.pow 10 (-places).toNat)
  roundDiv num den

def withPoint (keepsPoint : Bool) (places n : Nat) : Bytes :=
  let ds := Bytes.decimal n
  let ds := List.replicate (places + 1 - ds.length) 48 ++ ds
  let whole := ds.take (ds.length - places)
  if places = 0 then whole ++ (if keepsPoint then [Byte.dot] else []) else whole ++ Byte.dot :: ds.drop whole.length

def fixed (keepsPoint : Bool) (places mantissa : Nat) (e : Int) : Bytes :=
  withPoint keepsPoint places (scaled mantissa e places)

def decimalExponent (mantissa : Nat) (e : Int) : Int :=
  let num := mantissa * (if 0 ≤ e then Nat.pow 2 e.toNat else 1)
  let den := if 0 ≤ e then 1 else Nat.pow 2 (-e).toNat
  let guess : Int := (Bytes.decimal num).length - (Bytes.decimal den).length
  let isBelow := if 0 ≤ guess then num < den * Nat.pow 10 guess.toNat else num * Nat.pow 10 (-guess).toNat < den
  if isBelow then guess - 1 else guess

/-- The digits of a number, one before the point and so many after it, and its exponent. -/
def significant (places mantissa : Nat) (e : Int) : Nat × Int :=
  if mantissa = 0 then (0, 0)
  else
    let x := decimalExponent mantissa e
    let n := scaled mantissa e (places - x)
    if Nat.pow 10 (places + 1) ≤ n then (n / 10, x + 1) else (n, x)

def writtenExponent (letter : UInt8) (x : Int) : Bytes :=
  let ds := Bytes.decimal x.natAbs
  letter :: (if x < 0 then Byte.minus else Byte.plus) :: (if ds.length < 2 then 48 :: ds else ds)

def scientific (letter : UInt8) (keepsPoint : Bool) (places mantissa : Nat) (e : Int) : Bytes :=
  let (n, x) := significant places mantissa e
  withPoint keepsPoint places n ++ writtenExponent letter x

def withoutZeros (s : Bytes) : Bytes :=
  if s.contains Byte.dot then Bytes.dropEnd (· == Byte.dot) (Bytes.dropEnd (· == 48) s) else s

def general (letter : UInt8) (keepsZeros : Bool) (precision mantissa : Nat) (e : Int) : Bytes :=
  let digits := max 1 precision
  let (n, x) := significant (digits - 1) mantissa e
  let trim (s : Bytes) : Bytes := if keepsZeros then s else withoutZeros s
  if x < -4 ∨ (digits : Int) ≤ x then trim (withPoint keepsZeros (digits - 1) n) ++ writtenExponent letter x
  else trim (fixed keepsZeros (digits - 1 - x).toNat mantissa e)

def hexadecimal (upper : Bool) (mantissa : Nat) (e : Int) : Bytes :=
  let size := Nat.log2 mantissa
  let fraction := (mantissa - Nat.pow 2 size) * Nat.pow 2 (52 - size)
  let ds := (Nat.toDigits 16 fraction).map (fun c => UInt8.ofNat c.toNat)
  let ds := Bytes.dropEnd (· == 48) (List.replicate (13 - ds.length) 48 ++ ds)
  let x : Int := if mantissa = 0 then 0 else e + size
  let s := text "0x" ++ (if mantissa = 0 then text "0" else text "1")
    ++ (if mantissa = 0 ∨ ds = [] then [] else Byte.dot :: ds)
    ++ text "p" ++ [if x < 0 then Byte.minus else Byte.plus] ++ Bytes.decimal x.natAbs
  if upper then s.map (fun b => if Byte.isLower b then b - 32 else b) else s

def written (conversion : UInt8) (keepsPoint : Bool) (precision : Option Nat) : Floating → Bytes
  | infinite _ => if Byte.isUpper conversion then text "INF" else text "inf"
  | noNumber _ => if Byte.isUpper conversion then text "NAN" else text "nan"
  | finite _ m e =>
    let letter := if Byte.isUpper conversion then 69 else 101
    let places := precision.getD 6
    match Byte.lower conversion with
    | 102 => fixed keepsPoint places m e
    | 101 => scientific letter keepsPoint places m e
    | 103 => general letter keepsPoint places m e
    | _ => hexadecimal (Byte.isUpper conversion) m e

end Floating

end LanguageClient.Host.Shell
