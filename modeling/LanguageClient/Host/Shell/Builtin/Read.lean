import LanguageClient.Host.Shell.Arguments
import LanguageClient.Host.Shell.Field
/-
  LanguageClient.Host.Shell.Builtin.Read — taking a line of the input apart.

  A line is read byte by byte, so that what follows it stays for others. A backslash keeps
  the byte after it from parting fields, and an end of line after one joins two lines. The
  fields go to variables one by one; the last variable gets all that is left.
-/

namespace LanguageClient.Host.Shell.Builtin

namespace Read

/-- A line as it grows: the pieces it has, last first, and the bytes after them, last first. -/
structure Growth where
  pieces : List Piece := []
  bytes : Bytes := []
  /-- Whether a backslash has just been read. -/
  isEscaped : Bool := false

namespace Growth

def soft (g : Growth) : Growth := { pieces := .soft (Glyph.ofBytes false g.bytes.reverse) :: g.pieces }

def finished (g : Growth) : List Piece := g.soft.pieces.reverse

def take (isRaw : Bool) (g : Growth) (b : UInt8) : Growth :=
  if b = 0 then g
  else if g.isEscaped then
    let g := g.soft
    if b = Byte.lf then g else { g with pieces := .kept [.byte b true] :: g.pieces }
  else if b = 92 ∧ !isRaw then { g with isEscaped := true }
  else { g with bytes := b :: g.bytes }

end Growth

def line (isRaw : Bool) : Nat → Growth → Code (List Piece × Bool)
  | 0, g => pure (g.finished, false)
  | n + 1, g => do
    match ← Code.call (.read 0 1) with
    | .ok [b] => if b = Byte.lf ∧ !g.isEscaped then return (g.finished, true) else line isRaw n (g.take isRaw b)
    | _ => return (g.finished, false)

def longest : Nat := 100000000

/-- Give fields to variables, one by one; those for which there are none become empty. -/
def deal : List Bytes → List Bytes → Act Unit
  | [], _ => pure ()
  | name :: names, fields => do
    Act.assign (setting name).1 (fields.head?.getD [])
    deal names (fields.drop 1)

end Read

def read (args : List Bytes) : Act Nat := do
  let (options, names) ← Arguments.options "p:r" args
  if names = [] then Act.fail (text "arg count")
  let (pieces, isComplete) ← Read.line (options.any (·.1 == 114)) Read.longest {}
  let s : Shell ← get
  let fields := splitAtMost names.length s.separators pieces
  Read.deal names (fields.map (fun f => (Glyph.marked f).map (·.1)))
  return if isComplete then 0 else 1

end LanguageClient.Host.Shell.Builtin
