import LanguageClient.Bytes
/-
  LanguageClient.Utf8 — text in UTF-8, and what is made of bytes that are none.

  The first byte of a character tells in which spans the bytes after it must lie. A byte that
  lies outside the span that is due breaks the character off, and may be the first of another.
  Mending a text puts the replacement character for each character that is broken off, and for
  each byte that no character begins with.
-/

namespace LanguageClient.Utf8

structure Span where
  low : UInt8
  high : UInt8
  deriving DecidableEq, Repr

def Span.holds (s : Span) (b : UInt8) : Bool := s.low ≤ b && b ≤ s.high

def anyTail : Span := ⟨0x80, 0xBF⟩

/-- The spans of the bytes that come after a first byte; no character begins with the other bytes. -/
def tails? (b : UInt8) : Option (List Span) :=
  if b < 0x80 then some []
  else if b < 0xC2 then none
  else if b < 0xE0 then some [anyTail]
  else if b = 0xE0 then some [⟨0xA0, 0xBF⟩, anyTail]
  else if b = 0xED then some [⟨0x80, 0x9F⟩, anyTail]
  else if b < 0xF0 then some [anyTail, anyTail]
  else if b = 0xF0 then some [⟨0x90, 0xBF⟩, anyTail, anyTail]
  else if b < 0xF4 then some [anyTail, anyTail, anyTail]
  else if b = 0xF4 then some [⟨0x80, 0x8F⟩, anyTail, anyTail]
  else none

/-- Whether a text goes on in UTF-8 when bytes in some spans are due. -/
def isTextAfter (due : List Span) : Bytes → Bool
  | [] => due.isEmpty
  | b :: r =>
    match due with
    | [] =>
      match tails? b with
      | none => false
      | some due => isTextAfter due r
    | span :: due => span.holds b && isTextAfter due r

def isText (s : Bytes) : Bool := isTextAfter [] s

/-! ## Mending -/

/-- A character that is not complete: its bytes so far, and the spans of those that are due. -/
structure Part where
  bytes : Bytes := []
  due : List Span := []
  deriving DecidableEq, Repr

def replacement : Bytes := [0xEF, 0xBF, 0xBD]

def opening (b : UInt8) : Bytes × Part :=
  match tails? b with
  | none => (replacement, {})
  | some [] => ([b], {})
  | some due => ([], ⟨[b], due⟩)

def Part.take (p : Part) (b : UInt8) : Bytes × Part :=
  match p.due with
  | [] => opening b
  | span :: due =>
    if span.holds b then
      if due = [] then (p.bytes ++ [b], {}) else ([], ⟨p.bytes ++ [b], due⟩)
    else (replacement ++ (opening b).1, (opening b).2)

def mendFrom (p : Part) : Bytes → Bytes
  | [] => if p.due = [] then [] else replacement
  | b :: r => (p.take b).1 ++ mendFrom (p.take b).2 r

def mend (s : Bytes) : Bytes := mendFrom {} s

/-! ## Characters by their numbers -/

def character (n : Nat) : Bytes :=
  let tail (n : Nat) : UInt8 := UInt8.ofNat (0x80 + n % 64)
  if n < 0x80 then [UInt8.ofNat n]
  else if n < 0x800 then [UInt8.ofNat (0xC0 + n / 64), tail n]
  else if n < 0x10000 then [UInt8.ofNat (0xE0 + n / 4096), tail (n / 64), tail n]
  else [UInt8.ofNat (0xF0 + n / 262144), tail (n / 4096), tail (n / 64), tail n]

end LanguageClient.Utf8
