import LanguageClient.Bytes
/-
  LanguageClient.Path — paths as text: their parts, joining, parents and the normal form.

  A path is kept as it was written. Its components are the root, when it starts with `/`,
  then its names, and an empty last component when it ends in `/` after a name; several
  slashes in a row count as one.

  - `join` puts a path under another; an absolute right side stands alone.
  - `parent` drops the last component and `ancestors` lists a path and all its parents.
  - `normal` is the normal form: no `.`, no name before a `..`, no `..` after the root,
    single slashes, and `.` when nothing is left.
  - `extension` starts at the last dot of the last component, unless that dot starts it.
-/

namespace LanguageClient.Path

def isAbsolute (p : Bytes) : Bool := p.head? == some Byte.slash

def names (p : Bytes) : List Bytes := (p.splitOn Byte.slash).filter (· ≠ [])

def filename (p : Bytes) : Bytes := (p.reverse.takeWhile (· != Byte.slash)).reverse

def dotName : Bytes := [Byte.dot]

def dotDotName : Bytes := [Byte.dot, Byte.dot]

/-- `a / b`: `b` itself when it is absolute, else `b` after `a` with a slash where one is missing. -/
def join (a b : Bytes) : Bytes :=
  if isAbsolute b then b
  else if filename a = [] then a ++ b
  else a ++ Byte.slash :: b

/-- Everything before the last component, without the slashes that part them. -/
def parent (p : Bytes) : Bytes :=
  if names p = [] then p
  else
    let kept := Bytes.dropEnd (· == Byte.slash) (Bytes.dropEnd (· != Byte.slash) p)
    if kept = [] ∧ isAbsolute p then [Byte.slash] else kept

def ancestors (p : Bytes) : List Bytes :=
  if _h : parent p ≠ [] ∧ (parent p).length < p.length then p :: ancestors (parent p) else [p]
  termination_by p.length

/-- A path relative to `dir` made absolute; the empty path stays empty. -/
def absolute (dir p : Bytes) : Bytes := if p = [] ∨ isAbsolute p then p else join dir p

/-! ## The normal form -/

/-- A path on the way to its normal form: the names kept, last first, and whether a slash
follows the last of them. -/
structure Draft where
  rooted : Bool
  kept : List Bytes := []
  slash : Bool := false

/-- Take the next component of the path; a trailing slash counts as an empty one. -/
def Draft.push (s : Draft) (name : Bytes) : Draft :=
  if name = dotDotName then
    match s.kept with
    | [] => if s.rooted then s else { s with kept := [dotDotName], slash := false }
    | last :: rest =>
      if last = dotDotName then { s with kept := dotDotName :: s.kept, slash := false }
      else { s with kept := rest, slash := true }
  else if name = dotName ∨ name = [] then { s with slash := true }
  else { s with kept := name :: s.kept, slash := false }

def Draft.written (s : Draft) : Bytes :=
  match s.kept with
  | [] => if s.rooted then [Byte.slash] else dotName
  | last :: _ =>
    (if s.rooted then [Byte.slash] else []) ++ Bytes.joinWith [Byte.slash] s.kept.reverse
      ++ (if s.slash ∧ last ≠ dotDotName then [Byte.slash] else [])

/-- The components after the root: the names, and an empty one for a trailing slash. -/
def components (p : Bytes) : List Bytes := names p ++ (if filename p = [] then [[]] else [])

def normal (p : Bytes) : Bytes :=
  if p = [] then [] else ((components p).foldl Draft.push { rooted := isAbsolute p }).written

/-! ## The extension -/

/-- The extension of a file name, with its dot; none for `.`, `..` and a dot that starts the name. -/
def nameExtension (name : Bytes) : Bytes :=
  if name = dotDotName then []
  else
    match Bytes.cutAtLast Byte.dot name with
    | some (_ :: _, after) => Byte.dot :: after
    | _ => []

def extension (p : Bytes) : Bytes := nameExtension (filename p)

def dropDot : Bytes → Bytes
  | Byte.dot :: r => r
  | s => s

end LanguageClient.Path
