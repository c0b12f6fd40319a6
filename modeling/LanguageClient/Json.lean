import LanguageClient.Table
/-
  LanguageClient.Json — the values that messages and server lists are made of.

  A number is a decimal number when it is written with a point or an exponent, whatever it
  counts, and then it is no integer. The members of an object stand in the order of their keys,
  each key once.

  Whoever takes a value for something it is not meets a `Fault`; the wordings of faults are
  those of the JSON library.
-/

namespace LanguageClient

inductive Json where
  | null
  | bool (b : Bool)
  | int (n : Int)
  /-- The number `mantissa / 10 ^ places`, with as few places as it needs but at least one. -/
  | decimal (mantissa : Int) (places : Nat)
  | str (s : Bytes)
  | array (items : List Json)
  | object (members : List (Bytes × Json))
  deriving Repr

instance : Inhabited Json := ⟨.null⟩

namespace Json

/-! ## Equality -/

mutual

def same : Json → Json → Bool
  | null, null => true
  | bool a, bool b => a == b
  | int m, int n => m == n
  | decimal m p, decimal n q => m == n && p == q
  | str s, str t => s == t
  | array as, array bs => sameItems as bs
  | object as, object bs => sameMembers as bs
  | _, _ => false

def sameItems : List Json → List Json → Bool
  | [], [] => true
  | a :: as, b :: bs => same a b && sameItems as bs
  | _, _ => false

def sameMembers : List (Bytes × Json) → List (Bytes × Json) → Bool
  | [], [] => true
  | (k, a) :: as, (l, b) :: bs => k == l && same a b && sameMembers as bs
  | _, _ => false

end

mutual

theorem same_iff : ∀ a b : Json, same a b = true ↔ a = b
  | null, b => by cases b <;> simp [same]
  | bool _, b => by cases b <;> simp [same]
  | int _, b => by cases b <;> simp [same]
  | decimal _ _, b => by cases b <;> simp [same]
  | str _, b => by cases b <;> simp [same]
  | array as, b => by cases b <;> simp [same, sameItems_iff as]
  | object as, b => by cases b <;> simp [same, sameMembers_iff as]

theorem sameItems_iff : ∀ as bs : List Json, sameItems as bs = true ↔ as = bs
  | [], bs => by cases bs <;> simp [sameItems]
  | a :: as, bs => by cases bs <;> simp [sameItems, same_iff a, sameItems_iff as]

theorem sameMembers_iff : ∀ as bs : List (Bytes × Json), sameMembers as bs = true ↔ as = bs
  | [], bs => by cases bs <;> simp [sameMembers]
  | (_, a) :: as, bs => by cases bs <;> simp [sameMembers, same_iff a, sameMembers_iff as, Prod.ext_iff, and_assoc]

end

instance : DecidableEq Json := fun a b => decidable_of_iff _ (same_iff a b)

/-! ## What a value is -/

/-- Truthiness: false are null, `false`, zero and the empty text. A decimal number that is
no nearer to the least positive double than to zero is zero. -/
def truthy : Json → Bool
  | null => false
  | bool b => b
  | int n => n != 0
  | decimal m places => Nat.pow 10 places < m.natAbs * Nat.pow 2 1075
  | str s => s != []
  | array _ => true
  | object _ => true

def integer? : Json → Option Int
  | int n => some n
  | _ => none

def text? : Json → Option Bytes
  | str s => some s
  | _ => none

def items? : Json → Option (List Json)
  | array items => some items
  | _ => none

def isObject : Json → Bool
  | object _ => true
  | _ => false

/-! ## Objects -/

def ofMembers (members : List (String × Json)) : Json :=
  object (Table.ofPairs (members.map fun m => (text m.1, m.2)))

/-- A member, unless its value is null. -/
def given (key : String) (v : Json) : List (String × Json) := if v = .null then [] else [(key, v)]

def ofTexts (ts : List Bytes) : Json := array (ts.map str)

def get? (j : Json) (key : String) : Option Json :=
  match j with
  | object members => members.lookup (text key)
  | _ => none

def get (j : Json) (key : String) : Json := (j.get? key).getD .null

/-- A member of an object that is there and is not null. -/
def present? (j : Json) (key : String) : Option Json := (j.get? key).filter (· ≠ .null)

/-! ## Faults -/

def kind : Json → String
  | null => "null"
  | bool _ => "boolean"
  | int _ => "number"
  | decimal .. => "number"
  | str _ => "string"
  | array _ => "array"
  | object _ => "object"

inductive Fault where
  /-- A member that has to be there is not. -/
  | absent (key : String)
  /-- A member is asked of a value that is no object. -/
  | memberless (kind : String)
  | mistyped (wanted kind : String)
  deriving DecidableEq, Repr

def Fault.message : Fault → Bytes
  | absent key => text "[json.exception.out_of_range.403] key '" ++ text key ++ text "' not found"
  | memberless kind => text "[json.exception.type_error.304] cannot use at() with " ++ text kind
  | mistyped wanted kind =>
    text "[json.exception.type_error.302] type must be " ++ text wanted ++ text ", but is " ++ text kind

abbrev Reading (α : Type) := Except Fault α

def need (j : Json) (key : String) : Reading Json :=
  match j with
  | object _ => (j.get? key).elim (.error (.absent key)) .ok
  | _ => .error (.memberless j.kind)

def asText (j : Json) : Reading Bytes := (j.text?).elim (.error (.mistyped "string" j.kind)) .ok

/-- A number of 32 bits: a larger one is cut, a decimal one loses its places, and a truth value is
a number too. -/
def asNumber : Json → Reading Int
  | int n => .ok (n.bmod (Nat.pow 2 32))
  | decimal m places => .ok ((m.tdiv (Nat.pow 10 places)).bmod (Nat.pow 2 32))
  | bool b => .ok b.toInt
  | j => .error (.mistyped "number" j.kind)

def asList {α : Type} (read : Json → Reading α) (j : Json) : Reading (List α) :=
  (j.items?).elim (.error (.mistyped "array" j.kind)) (·.mapM read)

def optional {α : Type} (j : Json) (key : String) (read : Json → Reading α) : Reading (Option α) :=
  match j.present? key with
  | none => .ok none
  | some v => some <$> read v

/-- A truth value; a member that is none, or is not there, counts for `false`. -/
def flag (j : Json) (key : String) : Bool := j.get key == .bool true

end Json

end LanguageClient
