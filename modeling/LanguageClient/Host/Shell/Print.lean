import LanguageClient.Host.Shell.Floating
/-
  LanguageClient.Host.Shell.Print — what `echo` and `printf` write.

  Both replace escapes: a backslash with a letter or with the octal digits of a byte.
  `printf` writes its format once for every set of arguments it takes, at least once; an
  argument that is missing is empty, or zero.
-/

namespace LanguageClient.Host.Shell.Print

/-! ## Escapes -/

def isOctal (b : UInt8) : Bool := 48 ≤ b && b ≤ 55

def octal (s : Bytes) : UInt8 × Nat :=
  let digits := (s.take 3).takeWhile isOctal
  (UInt8.ofNat (digits.foldl (fun n c => n * 8 + Byte.digitValue c) 0), digits.length)

def escaped? (b : UInt8) : Option UInt8 :=
  if b = 97 then some 7
  else if b = 98 then some 8
  else if b = 101 then some 27
  else if b = 102 then some 12
  else if b = 110 then some 10
  else if b = 114 then some 13
  else if b = 116 then some 9
  else if b = 118 then some 11
  else if b = 92 then some 92
  else none

/-- One escape of a format after its backslash: the byte it writes and how much of the text it takes. -/
def escape (s : Bytes) : UInt8 × Nat :=
  match s with
  | [] => (92, 0)
  | b :: _ =>
    if isOctal b then octal s
    else
      match escaped? b with
      | some c => (c, 1)
      | none => (92, 0)

/-- A text with its escapes replaced, and whether one of them ended it. Octal digits may have
a zero before them. -/
def unescape (s : Bytes) : Bytes × Bool :=
  match s with
  | [] => ([], false)
  | 92 :: r =>
    if r.head? = some 99 then ([], true)
    else
      let skipped := if r.head? = some 48 ∧ (r.drop 1).head?.any isOctal then 1 else 0
      let (c, k) := escape (r.drop skipped)
      let (tail, ended) := unescape (r.drop (skipped + k))
      (c :: tail, ended)
  | b :: r =>
    let (tail, ended) := unescape r
    (b :: tail, ended)
  termination_by s.length
  decreasing_by all_goals (simp only [List.length_cons, List.length_drop]; omega)

def echo (args : List Bytes) : Bytes :=
  let (quiet, words) := if args.head? = some (text "-n") then (true, args.drop 1) else (false, args)
  let (out, ended) := unescape (Bytes.joinWith [Byte.space] words)
  if quiet ∨ ended then out else out ++ [Byte.lf]

/-! ## Layout -/

structure Layout where
  onLeft : Bool := false
  zeros : Bool := false
  plus : Bool := false
  blank : Bool := false
  mark : Bool := false
  width : Nat := 0
  precision : Option Nat := none

def isFlag (b : UInt8) : Bool := (text "#-+ 0").contains b

def Layout.ofFlags (flags : Bytes) : Layout :=
  { onLeft := flags.contains Byte.minus, zeros := flags.contains 48, plus := flags.contains Byte.plus
    blank := flags.contains Byte.space, mark := flags.contains 35 }

def pad (l : Layout) (s : Bytes) : Bytes :=
  let missing := List.replicate (l.width - s.length) Byte.space
  if l.onLeft then s ++ missing else missing ++ s

def sign (l : Layout) (isNegative : Bool) : Bytes :=
  if isNegative then [Byte.minus] else if l.plus then [Byte.plus] else if l.blank then [Byte.space] else []

def filled (l : Layout) (fills : Bool) (front body : Bytes) : Bytes :=
  let zeros := if fills ∧ l.zeros ∧ !l.onLeft then l.width - front.length - body.length else 0
  pad l (front ++ List.replicate zeros 48 ++ body)

/-- The digits of a number in a base, as many as the precision asks for. -/
def digits (l : Layout) (base : Nat) (upper : Bool) (n : Nat) : Bytes :=
  let ds := (Nat.toDigits base n).map (fun c => UInt8.ofNat (if upper then c.toUpper else c).toNat)
  let ds := if n = 0 ∧ l.precision = some 0 then [] else ds
  List.replicate (l.precision.getD 1 - ds.length) 48 ++ ds

def whole (l : Layout) (front ds : Bytes) : Bytes := filled l l.precision.isNone front ds

def unsigned (l : Layout) (conversion : UInt8) (n : Nat) : Bytes :=
  if conversion = 117 then whole l [] (digits l 10 false n)
  else if conversion = 111 then
    let ds := digits l 8 false n
    whole l [] (if l.mark ∧ ds.head? ≠ some 48 then 48 :: ds else ds)
  else
    let upper := conversion == 88
    whole l (if l.mark ∧ n ≠ 0 then text (if upper then "0X" else "0x") else []) (digits l 16 upper n)

/-! ## Arguments -/

def faultOf (s : Bytes) (length : Nat) (isTooLarge : Bool) : Option Bytes :=
  if length < s.length then
    some (s ++ text (if length = 0 then ": expected numeric value" else ": not completely converted"))
  else if isTooLarge then some (s ++ text ": Numerical result out of range")
  else none

/-- The byte after a quote that begins an argument, which then stands for its number. -/
def quotedByte? (s : Bytes) : Option UInt8 :=
  match s with
  | b :: r => if b = 39 ∨ b = 34 then some (r.head?.getD 0) else none
  | [] => none

def integer (s : Bytes) : Int × Option Bytes :=
  match quotedByte? s with
  | some b => (b.toNat, none)
  | none =>
    let r := Numeral.integer false s
    (r.clamped, faultOf s r.length r.isTooLarge)

/-- The number without a sign that an argument denotes; a negative one counts from the other end. -/
def natural (s : Bytes) : Nat × Option Bytes :=
  match quotedByte? s with
  | some b => (b.toNat, none)
  | none =>
    let r := Numeral.integer false s
    let isTooLarge := Numeral.largestUnsigned < r.magnitude
    let n := if isTooLarge then Numeral.largestUnsigned
      else if r.isNegative then (Numeral.largestUnsigned + 1 - r.magnitude) % (Numeral.largestUnsigned + 1)
      else r.magnitude
    (n, faultOf s r.length isTooLarge)

def floating (s : Bytes) : Floating × Option Bytes :=
  match quotedByte? s with
  | some b => (.finite false b.toNat 0, none)
  | none =>
    let ((v, isOut), length) := Floating.read s
    (v, faultOf s length isOut)

/-! ## Formats -/

/-- What rounds through a format have written so far, and which arguments are left. -/
structure Round where
  out : Bytes := []
  args : List Bytes
  ended : Bool := false
  /-- What is wrong with the arguments. -/
  faults : List Bytes := []
  /-- What is wrong with the format, at which everything ends. -/
  broken : Option Bytes := none

namespace Round

def put (s : Round) (b : Bytes) : Round := { s with out := s.out ++ b }

def next (s : Round) : Bytes := s.args.head?.getD []

def used (s : Round) (fault : Option Bytes) : Round :=
  { s with args := s.args.drop 1, faults := s.faults ++ fault.toList }

def number (s : Round) : Int × Round :=
  let (n, fault) := integer s.next
  (Int.bmod n 4294967296, s.used fault)

end Round

def width (s : Round) (l : Layout) (format : Bytes) : Layout × Round × Bytes :=
  match format with
  | 42 :: r =>
    let (n, s') := s.number
    ({ l with width := n.natAbs, onLeft := l.onLeft || n < 0 }, s', r)
  | r =>
    let ds := r.takeWhile Byte.isDigit
    ({ l with width := Bytes.numeral ds }, s, r.drop ds.length)

def precision (s : Round) (l : Layout) (format : Bytes) : Layout × Round × Bytes :=
  match format with
  | Byte.dot :: 42 :: r =>
    let (n, s') := s.number
    ({ l with precision := if n < 0 then none else some n.toNat }, s', r)
  | Byte.dot :: r =>
    let ds := r.takeWhile Byte.isDigit
    ({ l with precision := some (Bytes.numeral ds) }, s, r.drop ds.length)
  | r => (l, s, r)

def convert (s : Round) (l : Layout) (conversion : UInt8) : Option Round :=
  let short (b : Bytes) : Bytes := match l.precision with
    | some k => b.take k
    | none => b
  let arg := s.next
  if conversion = 115 then some ((s.put (pad l (short arg))).used none)
  else if conversion = 99 then some ((s.put (pad l [arg.head?.getD 0])).used none)
  else if conversion = 98 then
    let (b, ended) := unescape arg
    some { (s.put (pad l (short b))).used none with ended := ended }
  else if conversion = 100 ∨ conversion = 105 then
    let (n, fault) := integer arg
    some ((s.put (whole l (sign l (n < 0)) (digits l 10 false n.natAbs))).used fault)
  else if (text "ouxX").contains conversion then
    let (n, fault) := natural arg
    some ((s.put (unsigned l conversion n)).used fault)
  else if (text "aAeEfFgG").contains conversion then
    let (v, fault) := floating arg
    let fills := match v with
      | .finite .. => true
      | _ => false
    some ((s.put (filled l fills (sign l v.isNegative) (v.written conversion l.mark l.precision))).used fault)
  else none

def mostWidth : Nat := 2147483647

/-- Write the argument that a conversion asks for, whose flags and letter come first in `r`; what
follows it in the format comes back. -/
def directive (r : Bytes) (s : Round) : Round × Bytes :=
  let flags := r.takeWhile isFlag
  let (l, s₁, r₁) := width s (.ofFlags flags) (r.drop flags.length)
  let (l', s₂, r₂) := precision s₁ l r₁
  match r₂ with
  | [] => ({ s₂ with ended := true, broken := some (text "missing format character") }, [])
  | conversion :: after =>
    let isTooWide := mostWidth < l'.width ∨ l'.precision.any (mostWidth < ·)
    match convert s₂ (if isTooWide then { l' with width := 0, precision := none } else l') conversion with
    | none =>
      let written := Byte.percent :: r.take (r.length - after.length)
      ({ s₂ with ended := true, broken := some (written ++ text ": invalid directive") }, [])
    | some s' =>
      if isTooWide then ({ s' with out := s₂.out, ended := true, broken := some (text "xvsnprintf failed") }, [])
      else (s', after)

def once (n : Nat) (format : Bytes) (s : Round) : Round :=
  match n, format with
  | 0, _ => s
  | _, [] => s
  | n + 1, b :: r =>
    if b = 92 then
      let (c, k) := escape r
      once n (r.drop k) (s.put [c])
    else if b = Byte.percent then
      if r.head? = some Byte.percent then once n (r.drop 1) (s.put [Byte.percent])
      else
        let (s', after) := directive r s
        if s'.ended then s' else once n after s'
    else
      let run := format.takeWhile (fun c => c != 92 && c != Byte.percent)
      once n (format.drop run.length) (s.put run)

def rounds (format : Bytes) : Nat → Round → Round
  | 0, s => s
  | n + 1, s =>
    let s' := once (format.length + 1) format s
    if s'.ended ∨ s'.args = [] ∨ s'.args.length = s.args.length then s' else rounds format n s'

def printf (format : Bytes) (args : List Bytes) : Round := rounds format (args.length + 1) { args := args }

end LanguageClient.Host.Shell.Print
