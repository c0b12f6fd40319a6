/-
  LanguageClient.Bytes — byte strings, the text of headers, paths, messages and logs.

  Text that crosses the boundary of the client (a server's output, a path, an
  environment entry) need not be UTF-8, so it is kept as the list of its bytes.
  Letters and digits are the ASCII ones throughout.

  - `text` gives the bytes of a fixed wording, `decimal` the digits of a number.
  - `cut` splits at the first place where a separator occurs and `lines` at every CR LF.
  - `sortDistinct` lists the members of a list in byte order, each once.
-/

namespace LanguageClient

abbrev Bytes := List UInt8

def text (s : String) : Bytes := s.toUTF8.data.toList

namespace Byte

@[match_pattern] abbrev tab : UInt8 := 9
@[match_pattern] abbrev lf : UInt8 := 10
@[match_pattern] abbrev cr : UInt8 := 13
@[match_pattern] abbrev space : UInt8 := 32
@[match_pattern] abbrev percent : UInt8 := 37
@[match_pattern] abbrev plus : UInt8 := 43
@[match_pattern] abbrev minus : UInt8 := 45
@[match_pattern] abbrev dot : UInt8 := 46
@[match_pattern] abbrev slash : UInt8 := 47
@[match_pattern] abbrev colon : UInt8 := 58
@[match_pattern] abbrev equals : UInt8 := 61

def isDigit (c : UInt8) : Bool := 48 ≤ c && c ≤ 57

def isUpper (c : UInt8) : Bool := 65 ≤ c && c ≤ 90

def isLower (c : UInt8) : Bool := 97 ≤ c && c ≤ 122

def isAlpha (c : UInt8) : Bool := isUpper c || isLower c

def isAlnum (c : UInt8) : Bool := isAlpha c || isDigit c

/-- The white space of the C locale: blank, tab, line feed, vertical tab, form feed, carriage return. -/
def isSpace (c : UInt8) : Bool := c == 32 || (9 ≤ c && c ≤ 13)

def lower (c : UInt8) : UInt8 := if isUpper c then c + 32 else c

def digitValue (c : UInt8) : Nat := c.toNat - 48

end Byte

namespace Bytes

def lower (s : Bytes) : Bytes := s.map Byte.lower

/-- Two names are the same name when they differ in the case of letters only. -/
def sameName (a b : Bytes) : Bool := lower a == lower b

/-! ## Numbers -/

def decimal (n : Nat) : Bytes := (Nat.toDigits 10 n).map (fun c => UInt8.ofNat c.toNat)

def ofInt : Int → Bytes
  | .ofNat n => decimal n
  | .negSucc n => Byte.minus :: decimal (n + 1)

def numeral (s : Bytes) : Nat := s.foldl (fun n c => n * 10 + Byte.digitValue c) 0

/-- The value of an unsigned numeral, `none` when a byte is no digit or there is none. -/
def toNat? (s : Bytes) : Option Nat := if s ≠ [] ∧ s.all Byte.isDigit then some (numeral s) else none

/-! ## Cutting -/

def cutFrom (sep : Bytes) (before : Bytes) : Bytes → Option (Bytes × Bytes)
  | [] => if sep = [] then some (before.reverse, []) else none
  | b :: r =>
    if sep.isPrefixOf (b :: r) then some (before.reverse, (b :: r).drop sep.length)
    else cutFrom sep (b :: before) r

def cut (sep s : Bytes) : Option (Bytes × Bytes) := cutFrom sep [] s

def cutAt (b : UInt8) (s : Bytes) : Option (Bytes × Bytes) :=
  match s.span (· != b) with
  | (_, []) => none
  | (before, _ :: after) => some (before, after)

def cutAtLast (b : UInt8) (s : Bytes) : Option (Bytes × Bytes) :=
  (cutAt b s.reverse).map (fun (after, before) => (before.reverse, after.reverse))

theorem append_of_cutFrom {sep before s a b : Bytes} (h : cutFrom sep before s = some (a, b)) :
    before.reverse ++ s = a ++ sep ++ b := by
  induction s generalizing before with
  | nil =>
    simp only [cutFrom] at h
    split at h <;> simp_all
  | cons c r ih =>
    simp only [cutFrom] at h
    split at h
    next hp =>
      obtain ⟨t, ht⟩ := List.isPrefixOf_iff_prefix.1 hp
      simp only [Option.some.injEq, Prod.mk.injEq] at h
      rw [← h.1, ← h.2, ← ht]
      simp
    next => simpa using ih h

/-- A cut loses nothing. -/
theorem append_of_cut {sep s a b : Bytes} (h : cut sep s = some (a, b)) : s = a ++ sep ++ b := by
  simpa using append_of_cutFrom h

def linesFrom (line : Bytes) : Bytes → List Bytes
  | [] => [line.reverse]
  | Byte.cr :: Byte.lf :: r => line.reverse :: linesFrom [] r
  | b :: r => linesFrom (b :: line) r

/-- The lines of a block whose lines are separated by CR LF; an empty block is one empty line. -/
def lines (s : Bytes) : List Bytes := linesFrom [] s

/-- `s` without the longest run at its end whose bytes satisfy `p`. -/
def dropEnd (p : UInt8 → Bool) (s : Bytes) : Bytes := (s.reverse.dropWhile p).reverse

def lastN (n : Nat) (s : Bytes) : Bytes := s.drop (s.length - n)

def words (s : Bytes) : List Bytes := (s.splitOnP Byte.isSpace).filter (· ≠ [])

/-- What a C string keeps of `s`: the bytes before the first NUL. -/
def beforeNul (s : Bytes) : Bytes := s.takeWhile (· != 0)

/-- Text without a NUL is kept whole. -/
theorem beforeNul_eq_self {s : Bytes} (h : 0 ∉ s) : beforeNul s = s := by
  induction s with
  | nil => rfl
  | cons b r ih =>
    obtain ⟨hb, hr⟩ := not_or.1 (mt List.mem_cons.2 h)
    have : (b != 0) = true := bne_iff_ne.2 (Ne.symm hb)
    simpa [beforeNul, List.takeWhile_cons, this] using ih hr

def joinWith (sep : Bytes) : List Bytes → Bytes
  | [] => []
  | [p] => p
  | p :: ps => p ++ sep ++ joinWith sep ps

/-! ## Order -/

/-- Byte order: the first differing byte decides, and a proper beginning comes first. -/
def before : Bytes → Bytes → Bool
  | [], [] => false
  | [], _ :: _ => true
  | _ :: _, [] => false
  | a :: as, b :: bs => a < b || (a == b && before as bs)

def insertDistinct (s : Bytes) : List Bytes → List Bytes
  | [] => [s]
  | t :: ts => if before s t then s :: t :: ts else if s == t then t :: ts else t :: insertDistinct s ts

def sortDistinct (ss : List Bytes) : List Bytes := ss.foldr insertDistinct []

end Bytes

end LanguageClient
