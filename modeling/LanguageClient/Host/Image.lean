import LanguageClient.Host.Tree
/-
  LanguageClient.Host.Image — what runs when a file is executed.

  A file that is a tool of the host runs as it is. A text that begins with `#!` is run by
  the interpreter its first line names, which gets the rest of that line as one argument,
  then the path of the text and its arguments. Any other file cannot be executed.

  Of a text only the beginning is looked at, filled up with NULs where the text is shorter.
  The interpreter's name ends at a blank or a NUL. Without an end of line in that beginning
  the name has to end before it does, so that no part of a name is taken for the whole.
-/

namespace LanguageClient.Host

structure Image where
  tool : Tool
  argv : List Bytes
  deriving DecidableEq, Repr

namespace Image

def isBlank (b : UInt8) : Bool := b == Byte.space || b == Byte.tab

def isTerminator (b : UInt8) : Bool := isBlank b || b == 0

def lineLimit : Nat := 256

def beginning (content : Bytes) : Bytes :=
  (content ++ List.replicate (lineLimit - content.length) 0).take lineLimit |>.drop 2

def named (line : Bytes) : Bytes × List Bytes :=
  let (name, tail) := line.span (!isTerminator ·)
  match tail with
  | [] => (name, [])
  | b :: _ =>
    if b = 0 then (name, [])
    else
      match tail.dropWhile isBlank with
      | [] => (name, [])
      | argument => (name, [Bytes.beforeNul argument])

/-- The interpreter that a text names in its first line, and its argument. -/
def interpreter? (content : Bytes) : Option (Bytes × List Bytes) :=
  match content with
  | 35 :: 33 :: _ =>
    let start := beginning content
    let line := start.takeWhile (fun b => b != Byte.lf && b != 0)
    let rest := start.drop line.length
    if rest.head? = some Byte.lf then
      let body := (Bytes.dropEnd isBlank line).dropWhile isBlank
      if body = [] then none else some (named body)
    else
      let body := start.dropWhile isBlank
      if body = [] ∨ !body.any isTerminator then none else some (named (Bytes.dropEnd isBlank body.dropLast))
  | _ => none

/-- What is executed at a path, if it may be. -/
def target (f : Files) (path : Bytes) : Except Errno Content :=
  match f.find path with
  | .error e => .error e
  | .ok (_, .file access content) => if access.canExecute then .ok content else .error .accessDenied
  | .ok _ => .error .accessDenied

/-- What runs when a content is executed that stands at a path, over at most `depth` interpreters. -/
def load (f : Files) (depth : Nat) (content : Content) (path : Bytes) (argv : List Bytes) : Except Errno Image :=
  match depth with
  | 0 => .error .tooManyLinks
  | depth + 1 =>
    match content with
    | .tool t => .ok ⟨t, argv⟩
    | .bytes b =>
      match interpreter? b with
      | none => .error .execFormat
      | some (name, argument) =>
        match if name = [] then .error .accessDenied else target f name with
        | .error e => .error e
        | .ok content => load f depth content name (name :: argument ++ path :: argv.drop 1)

def maxDepth : Nat := 6

/-- How long an argument may be, and how long all of them together. -/
def maxArgument : Nat := 131071

def maxArguments : Nat := 2097152

def isTooLong (argv entries : List Bytes) : Bool :=
  (argv ++ entries).any (maxArgument < ·.length) ||
    maxArguments < (argv ++ entries).foldl (fun n s => n + s.length + 9) 0

end Image

def Files.image (f : Files) (path : Bytes) (argv entries : List Bytes) : Except Errno Image :=
  match Image.target f path with
  | .error e => .error e
  | .ok content =>
    if Image.isTooLong argv entries then .error .argumentsTooLong
    else Image.load f Image.maxDepth content path argv

end LanguageClient.Host
