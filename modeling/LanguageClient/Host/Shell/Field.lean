import LanguageClient.Host.Shell.Pattern
/-
  LanguageClient.Host.Shell.Field — how the text that a word stands for is parted into fields.

  The text of a word comes in pieces. What stands in the script or comes from quotes is
  kept as it is; what comes from an expansion outside quotes is soft and is parted at the
  separators; the arguments of the shell are parted where each of them ends. Blanks among
  the separators part fields together with those beside them, every other separator parts
  two fields by itself.

  - `split` gives the fields of a list of pieces, `splitAtMost` only so many, of which the
    last one takes the rest.
-/

namespace LanguageClient.Host.Shell

inductive Glyph where
  | byte (b : UInt8) (isQuoted : Bool)
  /-- A place where quotes stand. -/
  | quotes
  /-- Where one argument of the shell ends and the next begins. -/
  | cut
  deriving DecidableEq, Repr

inductive Piece where
  | kept (gs : List Glyph)
  | soft (gs : List Glyph)
  | args (gs : List Glyph)
  deriving DecidableEq, Repr

namespace Glyph

def ofBytes (isQuoted : Bool) (b : Bytes) : List Glyph := b.map (.byte · isQuoted)

def ofArgs (isQuoted : Bool) : List Bytes → List Glyph
  | [] => []
  | [a] => ofBytes isQuoted a
  | a :: as => ofBytes isQuoted a ++ .cut :: ofArgs isQuoted as

def marked (gs : List Glyph) : Pattern.Marked :=
  gs.filterMap (fun
    | byte b isQuoted => some (b, isQuoted)
    | _ => none)

def isBlank (b : UInt8) : Bool := b == Byte.space || b == Byte.tab || b == Byte.lf

/-- Whether a glyph parts fields, and whether it does so as a blank. -/
def parting (separators : Bytes) : Glyph → Bool × Bool
  | byte b _ => (separators.contains b, separators.contains b && isBlank b)
  | cut => (true, true)
  | quotes => (false, false)

end Glyph

namespace Piece

def glyphs : Piece → List Glyph
  | kept gs => gs
  | soft gs => gs
  | args gs => gs

def ofValue (isQuoted : Bool) (b : Bytes) : Piece :=
  if isQuoted then kept (Glyph.ofBytes true b) else soft (Glyph.ofBytes false b)

def marked (ps : List Piece) : Pattern.Marked := ps.flatMap (fun p => Glyph.marked p.glyphs)

def joined (ps : List Piece) : Bytes := (marked ps).map (·.1)

end Piece

/-- The fields found so far and the one that is growing, each last glyph first. -/
structure Split where
  fields : List (List Glyph) := []
  growing : List Glyph := []
  /-- How many fields may still be begun; none when there is no limit. -/
  left : Option Nat := none
  /-- What the growing field is if only separators follow. -/
  trimmed : Option (List Glyph) := none
  /-- Whether a blank has just ended a field. -/
  afterBlank : Bool := false
  /-- Whether the piece before was a list of arguments. -/
  afterArgs : Bool := false

namespace Split

def grow (s : Split) (g : Glyph) : Split := { s with growing := g :: s.growing }

def takeLast (s : Split) (g : Glyph) (parts isBlank : Bool) : Split :=
  if isBlank then { s with growing := g :: s.growing, trimmed := s.trimmed.or (some s.growing) }
  else
    { s with
      growing := g :: s.growing
      trimmed := if parts ∧ s.afterBlank then s.trimmed else none
      afterBlank := false }

/-- End the growing field at a separator, unless the next one would be the last. -/
def finish (s : Split) (g : Glyph) : Split :=
  match s.left with
  | some 1 => { s with left := some 0, growing := g :: s.growing, trimmed := some s.growing }
  | left => { s with fields := s.growing :: s.fields, growing := [], left := left.map (· - 1) }

def step (separators : Bytes) (isArgs wasArgs : Bool) (s : Split) (g : Glyph) : Split :=
  let (parts, isBlank) := g.parting separators
  if s.left = some 0 then s.takeLast g parts isBlank
  else if s.afterBlank then
    if !parts then { s with growing := [g], afterBlank := false }
    else { s with growing := [], afterBlank := isBlank }
  else if !parts then s.grow g
  else
    let asBlank := isBlank && !isArgs && !wasArgs
    if s.growing = [] ∧ asBlank then s
    else { s.finish g with afterBlank := asBlank }

def take (separators : Bytes) (s : Split) : Piece → Split
  | .kept gs => gs.foldl grow s
  | .soft gs => { gs.foldl (step separators false s.afterArgs) { s with afterBlank := false } with afterArgs := false }
  | .args gs => { gs.foldl (step [] true s.afterArgs) { s with afterBlank := false } with afterArgs := true }

/-- All fields; the last one counts if it is not empty, or if it is an argument. -/
def finished (s : Split) : List (List Glyph) :=
  let last := s.trimmed.getD s.growing
  (if last ≠ [] ∨ s.afterArgs then last :: s.fields else s.fields).reverse.map List.reverse

end Split

def split (separators : Bytes) (ps : List Piece) : List (List Glyph) :=
  (ps.foldl (Split.take separators) {}).finished

def splitAtMost (most : Nat) (separators : Bytes) (ps : List Piece) : List (List Glyph) :=
  (ps.foldl (Split.take separators) { left := some most }).finished

end LanguageClient.Host.Shell
