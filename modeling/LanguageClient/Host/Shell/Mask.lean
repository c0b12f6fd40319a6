import LanguageClient.Bytes
/-
  LanguageClient.Host.Shell.Mask — the permissions that new files do not get.

  A mask is given by octal digits, or by clauses that say which permissions the owner, the
  group and the others do get. What a clause takes over from one of the three, and whether
  anybody may execute, is seen in the permissions before the first clause.
-/

namespace LanguageClient.Host.Shell.Mask

def everything : Nat := 511

/-- The permissions that a mask leaves, and the mask that leaves such permissions. -/
def complement (n : Nat) : Nat := everything - n % (everything + 1)

/-! ## Octal digits -/

def isOctal (b : UInt8) : Bool := 48 ≤ b && b ≤ 55

def ofDigits? (s : Bytes) : Option Nat :=
  if s.all isOctal then some (s.foldl (fun n b => n * 8 + (b.toNat - 48)) 0 % (everything + 1)) else none

def digits (mask : Nat) : Bytes :=
  [mask / 512 % 8, mask / 64 % 8, mask / 8 % 8, mask % 8].map (fun d => UInt8.ofNat (48 + d))

/-! ## Clauses -/

def who? (b : UInt8) : Option Nat :=
  if b = 117 then some 448 else if b = 103 then some 56 else if b = 111 then some 7
  else if b = 97 then some everything else none

def forAll (three : Nat) : Nat := three % 8 * 73

/-- The permissions a letter names, given those there were at first. -/
def permissions? (first : Nat) (b : UInt8) : Option Nat :=
  if b = 114 then some (forAll 4)
  else if b = 119 then some (forAll 2)
  else if b = 120 then some (forAll 1)
  else if b = 88 then some (if first &&& forAll 1 = 0 then 0 else forAll 1)
  else if b = 115 then some 0
  else if b = 117 then some (forAll (first / 64))
  else if b = 103 then some (forAll (first / 8))
  else if b = 111 then some (forAll first)
  else none

def isSign (b : UInt8) : Bool := b == Byte.plus || b == Byte.minus || b == Byte.equals

def union (ns : List Nat) : Nat := ns.foldl (· ||| ·) 0

def change (sign : UInt8) (who given now : Nat) : Nat :=
  if sign = Byte.plus then now ||| (given &&& who)
  else if sign = Byte.minus then now &&& complement (given &&& who)
  else (now &&& complement who) ||| (given &&& who)

def signs (first who : Nat) : Nat → Nat → Bytes → Nat × Bytes
  | 0, now, s => (now, s)
  | _, now, [] => (now, [])
  | n + 1, now, b :: r =>
    if isSign b then
      let letters := r.takeWhile (fun b => (permissions? first b).isSome)
      signs first who n (change b who (union (letters.filterMap (permissions? first))) now) (r.drop letters.length)
    else (now, b :: r)

def clauses (first : Nat) : Nat → Nat → Bytes → Option Nat
  | _, now, [] => some now
  | 0, _, _ => none
  | n + 1, now, s =>
    let letters := s.takeWhile (fun b => (who? b).isSome)
    let who := if letters = [] then everything else union (letters.filterMap who?)
    let rest := s.drop letters.length
    if !rest.head?.any isSign then none
    else
      match signs first who (s.length + 1) now rest with
      | (now, []) => some now
      | (now, b :: r) => if b = 44 then clauses first n now r else none

def ofClauses? (mask : Nat) (s : Bytes) : Option Nat :=
  (clauses (complement mask) (s.length + 1) (complement mask) s).map complement

def asClauses (mask : Nat) : Bytes :=
  let three (name : String) (n : Nat) : Bytes :=
    text name ++ Byte.equals :: (([(4, 114), (2, 119), (1, 120)] : List (Nat × UInt8)).filter
      (fun p => n &&& p.1 != 0)).map (·.2)
  let left := complement mask
  Bytes.joinWith [44] [three "u" (left / 64 % 8), three "g" (left / 8 % 8), three "o" (left % 8)]

end LanguageClient.Host.Shell.Mask
