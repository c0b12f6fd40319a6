import LanguageClient.Host.Shell.Children
import LanguageClient.Host.Shell.Field
import LanguageClient.Host.Shell.Arithmetic
/-
  LanguageClient.Host.Shell.Expand — from the words of a command to its fields.

  Every part of a word is replaced by pieces of text: a tilde at its beginning by a
  directory, a parameter by its value, an expression by a number and commands by what they
  write. The pieces are parted into fields, and a field that is a pattern then stands for
  the paths that fit.
-/

namespace LanguageClient.Host.Shell

namespace Expand

inductive Tilde where
  | nowhere
  | atStart
  /-- At the beginning and after colons. -/
  | inSetting
  deriving DecidableEq, Repr

structure Purpose where
  /-- Whether the text is parted into fields. -/
  isSplit : Bool := false
  /-- Whether the word stands for a parameter, so that what it says itself is soft. -/
  isOperand : Bool := false
  tilde : Tilde := .atStart

def maxDepth : Nat := 100

def readAll : Nat → Nat → List Bytes → Code Bytes
  | 0, _, got => pure got.reverse.flatten
  | n + 1, fd, got => do
    match ← Code.call (.read fd 65536) with
    | .ok [] => return got.reverse.flatten
    | .ok b => readAll n fd (b :: got)
    | .error .interrupted => readAll n fd got
    | .error _ => return got.reverse.flatten

/-- What commands write to their standard output, without the line ends at its end. -/
def output (body : List Command) : Act Bytes := do
  if body.isEmpty then return []
  let (reading, writing) ← Act.call .pipe
  let number ← Children.begin
  let changes : List DescriptorChange := if writing = 1 then [] else [.copy writing 1, .close writing]
  Children.start number
    { changes := .close reading :: changes, shell := ← get, task := .commands (.sequence body) false }
  Code.close writing
  let got ← readAll 1000000 reading []
  Code.close reading
  let status ← Children.await number
  modify (fun s : Shell => { s with outputStatus := status })
  return Bytes.dropEnd (· == Byte.lf) (got.filter (· != 0))

/-! ## Tildes -/

def home? (s : Shell) (user : Bytes) : Option Bytes :=
  if user = [] then s.value? (text "HOME") else if user = text "root" then some (text "/root") else none

/-- Replace the tilde that begins a text, if the name after it ends within the text. -/
def tilde (s : Shell) (inSetting isLast : Bool) (b : Bytes) : List Glyph :=
  match b with
  | 126 :: r =>
    let user := r.takeWhile (fun c => c != Byte.slash && !(inSetting && c == Byte.colon))
    if user.length = r.length ∧ !isLast then Glyph.ofBytes false b
    else
      match home? s user with
      | some home => Glyph.ofBytes true home ++ Glyph.ofBytes false (r.drop user.length)
      | none => Glyph.ofBytes false b
  | _ => Glyph.ofBytes false b

def tildes (s : Shell) (isLast atStart : Bool) (b : Bytes) : List Glyph :=
  match b.splitOn Byte.colon with
  | [] => []
  | first :: others =>
    let last := others.length
    let at? (k : Nat) (piece : Bytes) : List Glyph :=
      if k = 0 ∧ !atStart then Glyph.ofBytes false piece else tilde s true (isLast || k < last) piece
    at? 0 first ++ (others.zipIdx 1).flatMap (fun (piece, k) => .byte Byte.colon false :: at? k piece)

def plain (s : Shell) (mode : Tilde) (isFirst isLast : Bool) (b : Bytes) : List Glyph :=
  match mode with
  | .nowhere => Glyph.ofBytes false b
  | .atStart => if isFirst then tilde s false isLast b else Glyph.ofBytes false b
  | .inSetting => tildes s isLast isFirst b

/-! ## Words -/

def valuePieces (s : Shell) (isSplit isQuoted : Bool) (name : Bytes) : List Piece :=
  if isSplit ∧ name = text "@" ∧ isQuoted then
    if s.args = [] then [] else [.args (Glyph.ofArgs true s.args)]
  else if isSplit ∧ !isQuoted ∧ (name = text "@" ∨ name = text "*") then [.soft (Glyph.ofArgs false s.args)]
  else
    match s.parameter? name with
    | some v => [.ofValue isQuoted v]
    | none => []

def checkSet (name : Bytes) : Act Unit := do
  let s : Shell ← get
  if s.has 'u' ∧ (s.parameter? name).isNone then Act.fail (name ++ text ": parameter not set")

mutual

/-- The pieces of a word; `isFirst` says whether its beginning comes next. -/
def pieces (n : Nat) (p : Purpose) (isFirst : Bool) (w : Word) : Act (List Piece) :=
  match w with
  | [] => pure []
  | .plain b :: ps => do
    let s : Shell ← get
    let gs := plain s p.tilde isFirst ps.isEmpty b
    let others ← pieces n p false ps
    return (if p.isOperand then .soft gs else .kept gs) :: others
  | first :: ps => do
    let these ← part n p first
    let others ← pieces n p false ps
    return these ++ others
  termination_by (n, w.length + 1)

def part (n : Nat) (p : Purpose) (it : Part) : Act (List Piece) :=
  match n, it with
  | _, .plain b => pure [.kept (Glyph.ofBytes false b)]
  | _, .quoted b => pure [.kept (Glyph.ofBytes true b)]
  | _, .quotes => pure [.kept [.quotes]]
  | _, .output body isQuoted => do return [Piece.ofValue isQuoted (← output body)]
  | 0, _ => Act.fail (text "too deeply nested")
  | n + 1, .arithmetic e isQuoted => do
    let source := Piece.joined (← pieces n { tilde := .nowhere } true e)
    let s : Shell ← get
    match Arithmetic.evaluate s source with
    | .ok (v, s') =>
      modify (fun _ : Shell => s')
      return [Piece.ofValue isQuoted (Bytes.ofInt v)]
    | .error fault => Act.fail (fault.message source)
  | n + 1, .parameter name use isQuoted => do
    let s : Shell ← get
    let value := s.parameter? name
    let found (orEmpty : Bool) : Bool := value.any (fun v => !orEmpty || v != [])
    let standing := valuePieces s p.isSplit isQuoted name
    let operand : Purpose := { isSplit := p.isSplit, isOperand := true }
    match use with
    | .value => do
      checkSet name
      return standing
    | .length => do
      checkSet name
      return [Piece.ofValue isQuoted (Bytes.decimal (value.getD []).length)]
    | .default orEmpty w => if found orEmpty then return standing else pieces n operand true w
    | .alternative orEmpty w => if found orEmpty then pieces n operand true w else return []
    | .assign orEmpty w =>
      if found orEmpty then return standing
      else
        let v := Piece.joined (← pieces n {} true w)
        Act.assign name v
        return valuePieces (← get) p.isSplit isQuoted name
    | .required orEmpty w =>
      if found orEmpty then return standing
      else
        let message := Piece.joined (← pieces n {} true w)
        Act.fail (name ++ text ": " ++ (if !w.isEmpty then message
          else text (if orEmpty then "parameter not set or null" else "parameter not set")))
    | .trim atFront longest w => do
      checkSet name
      let is := Pattern.items (Piece.marked (← pieces n {} true w))
      match value with
      | none => return []
      | some v =>
        return [Piece.ofValue isQuoted (if atFront then Pattern.trimFront longest is v else Pattern.trimBack longest is v)]
    | .bad => Act.fail (text "Bad substitution")
  termination_by (n, 0)

end

/-! ## Patterns for paths -/

def isPattern (f : Pattern.Marked) : Bool := f.any (fun b => !b.2 && (b.1 == 42 || b.1 == 63 || b.1 == 91))

/-- The names of a directory that fit a pattern; hidden ones only if it begins with a dot. -/
def namesFor (directory : Bytes) (f : Pattern.Marked) : Code (List Bytes) := do
  match ← Code.call (.list (if directory = [] then Path.dotName else directory)) with
  | .error _ => return []
  | .ok names =>
    let isHidden := f.head?.map (·.1) == some Byte.dot
    let all := if isHidden then Path.dotName :: Path.dotDotName :: names else names
    return all.filter (fun name => (name.head? == some Byte.dot) == isHidden && Pattern.fits (Pattern.items f) name)

def pathsFrom (start : Bytes) : List Pattern.Marked → Code (List Bytes)
  | [] => do
    match ← Code.call (.inspect start false) with
    | .ok _ => return [start]
    | .error _ => return []
  | f :: rest => do
    let names ← if isPattern f then namesFor start f else pure [f.map (·.1)]
    let ends := if rest.isEmpty then [] else [Byte.slash]
    let found ← names.mapM (fun name => pathsFrom (start ++ name ++ ends) rest)
    return found.flatten

/-- A field that is a pattern stands for the paths that fit it, if there are any. -/
def globbed (f : Pattern.Marked) : Code (List Bytes) := do
  let s : Shell ← get
  if isPattern f ∧ !s.has 'f' then
    let found ← pathsFrom [] (f.splitOnP (·.1 == Byte.slash))
    return if found = [] then [f.map (·.1)] else Bytes.sortDistinct found
  else return [f.map (·.1)]

/-! ## What words are for -/

def fields (w : Word) : Act (List Bytes) := do
  let ps ← pieces maxDepth { isSplit := true } true w
  let s : Shell ← get
  let found ← (split s.separators ps).mapM (fun f => globbed (Glyph.marked f))
  return found.flatten

def allFields : List Word → Act (List Bytes)
  | [] => pure []
  | w :: ws => do
    let first ← fields w
    let others ← allFields ws
    return first ++ others

def single (w : Word) : Act Bytes := do return Piece.joined (← pieces maxDepth {} true w)

def value (w : Word) : Act Bytes := do return Piece.joined (← pieces maxDepth { tilde := .inSetting } true w)

def content (w : Word) : Act Bytes := do return Piece.joined (← pieces maxDepth { tilde := .nowhere } true w)

def setting (w : Word) : Act (List Bytes) :=
  match w with
  | .plain b :: rest =>
    if isSetting b then do
      let (name, v) := Shell.setting b
      let parts := if v = some [] then rest else .plain (v.getD []) :: rest
      return [name ++ Byte.equals :: (← value parts)]
    else fields w
  | _ => fields w

def pattern (w : Word) : Act (List Pattern.Item) := do
  return Pattern.items (Piece.marked (← pieces maxDepth {} true w))

end Expand

end LanguageClient.Host.Shell
