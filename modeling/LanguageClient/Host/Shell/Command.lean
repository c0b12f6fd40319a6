import LanguageClient.Bytes
/-
  LanguageClient.Host.Shell.Command — the commands of the shell.

  A word is a list of parts: text as it stands, quoted text, and things to be replaced by
  the value of a parameter, of an expression or of the output of commands. What is quoted
  is neither split into fields nor read as a pattern, and quotes make a field even when
  nothing stands between them.
-/

namespace LanguageClient.Host.Shell

/-! ## Names of variables -/

def isNameStart (b : UInt8) : Bool := Byte.isAlpha b || b == 95

def isNameByte (b : UInt8) : Bool := Byte.isAlnum b || b == 95

def isName (s : Bytes) : Bool := s.head?.any isNameStart && s.all isNameByte

def setting (s : Bytes) : Bytes × Option Bytes :=
  match Bytes.cutAt Byte.equals s with
  | some (name, value) => (name, some value)
  | none => (s, none)

def isSetting (s : Bytes) : Bool := isName (setting s).1 && (setting s).2.isSome

/-! ## Commands -/

inductive OpenMode where
  | input
  /-- To be written from its beginning, without what it held. -/
  | output
  | append
  /-- To be read and written, with what it holds. -/
  | update
  /-- To be written, if it is not there yet. -/
  | fresh
  deriving DecidableEq, Repr

mutual

inductive Part where
  | plain (s : Bytes)
  | quoted (s : Bytes)
  /-- A place where quotes stand. -/
  | quotes
  | parameter (name : Bytes) (use : Use) (isQuoted : Bool)
  | arithmetic (e : List Part) (isQuoted : Bool)
  | output (body : List Command) (isQuoted : Bool)

/-- What stands for a parameter. With `orEmpty` an empty value counts as none. -/
inductive Use where
  | value
  | length
  | default (orEmpty : Bool) (w : List Part)
  | assign (orEmpty : Bool) (w : List Part)
  | alternative (orEmpty : Bool) (w : List Part)
  | required (orEmpty : Bool) (w : List Part)
  /-- The value without the shortest or the longest beginning or end that fits a pattern. -/
  | trim (atFront longest : Bool) (pattern : List Part)
  /-- A use that does not exist. -/
  | bad

inductive Redirect where
  /-- With `force` a file that is there already may be written anew whatever the options say. -/
  | file (fd : Nat) (mode : OpenMode) (force : Bool) (target : List Part)
  /-- Another descriptor's target, or nothing when the word is `-`. -/
  | copy (fd : Nat) (source : List Part)
  /-- A text that stands in the script. -/
  | content (fd : Nat) (body : List Part)

inductive Command where
  | simple (line : Nat) (assignments : List (Bytes × List Part)) (words : List (List Part))
      (redirects : List Redirect)
  | pipeline (stages : List Command) (inBackground : Bool)
  | negated (c : Command)
  | both (first second : Command)
  | either (first second : Command)
  /-- Commands one after another. -/
  | sequence (cs : List Command)
  | background (line : Nat) (c : Command) (redirects : List Redirect)
  | subshell (line : Nat) (body : List Command) (redirects : List Redirect)
  | redirected (line : Nat) (c : Command) (redirects : List Redirect)
  | branch (condition yes : List Command) (no : Option Command)
  | loop (untilTrue : Bool) (condition body : List Command)
  /-- Once for every field of the words, which is the value of a variable then. -/
  | each (line : Nat) (name : Bytes) (words : List (List Part)) (body : List Command)
  | choose (line : Nat) (word : List Part) (cases : List (List (List Part) × List Command))
  | define (line : Nat) (name : Bytes) (body : Command)

end

instance : Inhabited Command := ⟨.sequence []⟩

abbrev Word := List Part

/-- A redirection whose words have been replaced, but for a text that stands in the script. -/
inductive Redirection where
  | file (fd : Nat) (mode : OpenMode) (force : Bool) (path : Bytes)
  /-- Another descriptor, or none. -/
  | copy (fd : Nat) (source : Option Nat)
  | content (fd : Nat) (body : Word)

def Redirection.descriptor : Redirection → Nat
  | file fd _ _ _ => fd
  | copy fd _ => fd
  | content fd _ => fd

/-- The builtins whose failure ends the shell and whose names no function can have. -/
def specialNames : List Bytes :=
  ([".", ":", "break", "continue", "eval", "exec", "exit", "export", "local", "readonly", "return", "set",
    "shift", "times", "trap", "unset"]).map text

def isSpecial (name : Bytes) : Bool := specialNames.contains name

end LanguageClient.Host.Shell
