import LanguageClient.Bytes
/-
  LanguageClient.Host.Shell.Pattern — patterns for words.

  In a pattern `*` fits any text, `?` any byte and `[…]` the bytes listed, or the others
  after `[!`. A list holds bytes, ranges of bytes and classes such as `[:digit:]`. A byte
  that is quoted fits itself only.
-/

namespace LanguageClient.Host.Shell.Pattern

abbrev Marked := List (UInt8 × Bool)

inductive Member where
  | range (first last : UInt8)
  | ofClass (p : UInt8 → Bool)

inductive Item where
  | exactly (b : UInt8)
  | anything
  | one
  | oneOf (others : Bool) (members : List Member)

/-! ## Classes -/

def isGraphic (b : UInt8) : Bool := 33 ≤ b && b ≤ 126

def isHexDigit (b : UInt8) : Bool := Byte.isDigit b || (97 ≤ Byte.lower b && Byte.lower b ≤ 102)

def classes : List (Bytes × (UInt8 → Bool)) :=
  [(text "alnum", Byte.isAlnum), (text "alpha", Byte.isAlpha),
    (text "blank", fun b => b == Byte.space || b == Byte.tab), (text "cntrl", fun b => b < 32 || b == 127),
    (text "digit", Byte.isDigit), (text "graph", isGraphic), (text "lower", Byte.isLower),
    (text "print", fun b => isGraphic b || b == Byte.space),
    (text "punct", fun b => isGraphic b && !Byte.isAlnum b), (text "space", Byte.isSpace),
    (text "upper", Byte.isUpper), (text "xdigit", isHexDigit)]

def class? (s : Marked) : Option ((UInt8 → Bool) × Marked) :=
  match s with
  | (58, false) :: r =>
    (classes.find? (fun c => (c.1 ++ text ":]").isPrefixOf (r.map (·.1)))).map
      (fun c => (c.2, r.drop (c.1.length + 2)))
  | _ => none

/-! ## Reading patterns -/

/-- The members up to the closing bracket, and what follows it; the first one may be a bracket itself. -/
def members (isFirst : Bool) : Nat → Marked → Option (List Member × Marked)
  | 0, _ => none
  | _, [] => none
  | n + 1, (b, isQuoted) :: r =>
    if b = 93 ∧ !isQuoted ∧ !isFirst then some ([], r)
    else
      match if b = 91 ∧ !isQuoted then class? r else none with
      | some (p, after) => (members false n after).map (fun (ms, rest) => (.ofClass p :: ms, rest))
      | none =>
        match r with
        | (45, false) :: (c, cQuoted) :: after =>
          if c = 93 ∧ !cQuoted then (members false n r).map (fun (ms, rest) => (.range b b :: ms, rest))
          else (members false n after).map (fun (ms, rest) => (.range b c :: ms, rest))
        | _ => (members false n r).map (fun (ms, rest) => (.range b b :: ms, rest))

def bracket? (s : Marked) : Option (Bool × List Member × Marked) :=
  let others := s.head? == some (33, false)
  (members true (s.length + 1) (if others then s.drop 1 else s)).map (fun (ms, rest) => (others, ms, rest))

def items (s : Marked) : List Item :=
  match s with
  | [] => []
  | (b, isQuoted) :: r =>
    if isQuoted then .exactly b :: items r
    else if b = 42 then .anything :: items r
    else if b = 63 then .one :: items r
    else if b = 91 then
      match bracket? r with
      | some (others, ms, after) => if after.length < r.length then .oneOf others ms :: items after else []
      | none => .exactly b :: items r
    else .exactly b :: items r
  termination_by s.length
  decreasing_by all_goals (subst_vars; simp only [List.length_cons]; omega)

/-! ## Fitting -/

def Member.holds (b : UInt8) : Member → Bool
  | range first last => first ≤ b && b ≤ last
  | ofClass p => p b

def Item.fitsByte (b : UInt8) : Item → Bool
  | exactly c => b == c
  | anything => true
  | one => true
  | oneOf others ms => ms.any (Member.holds b) != others

def anyEnd (p : Bytes → Bool) : Bytes → Bool
  | [] => p []
  | b :: r => p (b :: r) || anyEnd p r

def fits : List Item → Bytes → Bool
  | [], s => s == []
  | .anything :: is, s => anyEnd (fits is) s
  | _ :: _, [] => false
  | i :: is, b :: r => i.fitsByte b && fits is r

/-- `s` without the shortest or longest beginning that fits. -/
def trimFront (longest : Bool) (is : List Item) (s : Bytes) : Bytes :=
  let cuts := (List.range (s.length + 1)).filter (fun n => fits is (s.take n))
  match if longest then cuts.getLast? else cuts.head? with
  | some n => s.drop n
  | none => s

def trimBack (longest : Bool) (is : List Item) (s : Bytes) : Bytes :=
  let cuts := (List.range (s.length + 1)).filter (fun n => fits is (s.drop n))
  match if longest then cuts.head? else cuts.getLast? with
  | some n => s.take n
  | none => s

end LanguageClient.Host.Shell.Pattern
