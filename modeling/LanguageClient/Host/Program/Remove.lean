import LanguageClient.Host.Program.Usage
/-
  LanguageClient.Host.Program.Remove — removing files and directories.

  `rm` removes files, empty directories with `-d`, and directories with what is in them with
  `-r`. It may ask before it removes something, and tell what it has removed. With `-f` what
  is not there is no fault.
-/

namespace LanguageClient.Host.Program

namespace Remove

inductive Asking where
  | never
  /-- Once, before much is removed. -/
  | once
  | always
  deriving DecidableEq

structure Choice where
  force : Bool := false
  withContents : Bool := false
  withEmpty : Bool := false
  tells : Bool := false
  asking : Asking := .never

/-- The options of `rm`; a sign stands for those that have no letter. -/
def usage : Usage where
  letters := text "dfirvIR"
  names := [(text "force", 102, false), (text "interactive", 97, true), (text "one-file-system", 49, false),
    (text "no-preserve-root", 50, false), (text "preserve-root", 51, true), (text "recursive", 114, false),
    (text "dir", 100, false), (text "verbose", 118, false)]

def asking? (argument : Option Bytes) : Option Asking :=
  let words : List (Bytes × Asking) := [(text "never", .never), (text "no", .never), (text "none", .never),
    (text "once", .once), (text "always", .always), (text "yes", .always)]
  match argument with
  | none => some .always
  | some s =>
    match words.lookup s with
    | some a => some a
    | none =>
      match (words.filter (fun w => s.isPrefixOf w.1)).map (·.2) with
      | [] => none
      | a :: as => if as.all (· == a) then some a else none

def noAsking (argument : Bytes) : Bytes :=
  text "invalid argument " ++ shellQuoted argument ++ text " for '--interactive'\nValid arguments are:\n"
    ++ text "  - 'never', 'no', 'none'\n  - 'once'\n  - 'always', 'yes'"

/-- Take the options one after another; an error says what is wrong with one, and whether it is told how
the tool is used. -/
def chosen (c : Choice) : List (UInt8 × Option Bytes) → Except (Bytes × Bool) Choice
  | [] => .ok c
  | (letter, argument) :: rest =>
    if letter = 102 then chosen { c with force := true, asking := .never } rest
    else if letter = 105 then chosen { c with force := false, asking := .always } rest
    else if letter = 73 then chosen { c with force := false, asking := .once } rest
    else if letter = 97 then
      match asking? argument with
      | some asking => chosen { c with asking := asking, force := c.force && asking == .never } rest
      | none => .error (noAsking (argument.getD []), true)
    else if letter = 114 ∨ letter = 82 then chosen { c with withContents := true } rest
    else if letter = 100 then chosen { c with withEmpty := true } rest
    else if letter = 118 then chosen { c with tells := true } rest
    else if letter = 51 ∧ argument.any (· != text "all") then
      .error (text "unrecognized --preserve-root argument: " ++ shellQuoted (argument.getD []), false)
    else chosen c rest

/-- Ask something; what begins with a `y` means yes. -/
def ask (tool question : Bytes) : Code Bool := do
  Code.write 2 (tool ++ text ": " ++ question ++ text "? ")
  let answer ← line 100000 []
  return (answer.head?.map Byte.lower) == some 121
where
  /-- The next line of the input. -/
  line : Nat → Bytes → Code Bytes
    | 0, got => pure got.reverse
    | n + 1, got => do
      match ← Code.call (.read 0 1) with
      | .ok [b] => if b = Byte.lf then return got.reverse else line n (b :: got)
      | _ => return got.reverse

def kind : Node → Bytes
  | .file _ (.bytes []) => text "regular empty file"
  | .file .. => text "regular file"
  | .directory _ => text "directory"
  | .device _ => text "character special file"
  | .link _ => text "symbolic link"

def mayRemove (tool : Bytes) (c : Choice) (path : Bytes) (node : Node) : Code Bool := do
  if c.asking ≠ .always then return true
  else
    let isProtected := match node with
      | .link _ => false
      | node => !node.access.canWrite
    ask tool (text "remove " ++ (if isProtected then text "write-protected " else []) ++ kind node ++ Byte.space ::
      shellQuoted path)

def fault (tool path message : Bytes) : Code Bool := do
  complain tool (text "cannot remove " ++ shellQuoted path ++ text ": " ++ message)
  return false

def settled (tool : Bytes) (c : Choice) (path : Bytes) (isDirectory : Bool) (r : Except Errno Unit) : Code Bool := do
  match r with
  | .ok () =>
    if c.tells then
      Code.write 1 (text (if isDirectory then "removed directory " else "removed ") ++ shellQuoted path ++ [Byte.lf])
    return true
  | .error e => if c.force ∧ (e = .noEntry ∨ e = .notDirectory) then return true else fault tool path e.message

def trimmed (path : Bytes) : Bytes :=
  let bare := Bytes.dropEnd (· == Byte.slash) path
  if bare.length < path.length then bare ++ [Byte.slash] else path

/-- Remove what a path leads to, and with `withContents` what is in it; true when there is no fault. -/
def tree (tool : Bytes) (c : Choice) : Nat → Bytes → Code Bool
  | 0, _ => pure false
  | n + 1, path => do
    match ← Code.call (.inspect path false) with
    | .error e => settled tool c path false (.error e)
    | .ok sight =>
      match sight.node with
      | .directory _ =>
        if c.withContents then
          match ← Code.call (.list path) with
          | .error e => fault tool path e.message
          | .ok [] =>
            if ← mayRemove tool c path sight.node then
              settled tool c path true (← Code.call (.removeDirectory path))
            else return true
          | .ok names =>
            let enters ← if c.asking = .always then ask tool (text "descend into directory " ++ shellQuoted path)
              else pure true
            if !enters then return true
            else
              let start := if path.getLast? = some Byte.slash then path else path ++ [Byte.slash]
              let done ← names.mapM (fun name => tree tool c n (start ++ name))
              if done.contains false then return false
              else if ← mayRemove tool c path sight.node then
                settled tool c path true (← Code.call (.removeDirectory path))
              else return true
        else if c.withEmpty then
          if ← mayRemove tool c path sight.node then
            settled tool c path true (← Code.call (.removeDirectory path))
          else return true
        else fault tool path Errno.isDirectory.message
      | node =>
        if path.getLast? = some Byte.slash then settled tool c path false (.error .notDirectory)
        else if ← mayRemove tool c path node then settled tool c path false (← Code.call (.unlink path))
        else return true

/-- Whether a path ends in a name that stands for a directory seen from itself or from below. -/
def endsInDots (path : Bytes) : Bool :=
  let name := Path.filename (Bytes.dropEnd (· == Byte.slash) path)
  name == Path.dotName || name == Path.dotDotName

/-- Whether a path ends in a slash after a name that is a link. -/
def leadsOverLink (path : Bytes) : Code Bool := do
  let bare := Bytes.dropEnd (· == Byte.slash) path
  if bare.length = path.length then return false
  else
    match ← Code.call (.inspect bare false) with
    | .ok sight =>
      match sight.node with
      | .link _ => return true
      | _ => return false
    | .error _ => return false

def maxDepth : Nat := 4096

def all (tool : Bytes) (c : Choice) (keepsRoot : Bool) : List Bytes → Code Bool
  | [] => pure true
  | path :: paths => do
    let isDone ←
      if c.withContents ∧ endsInDots path then do
        complain tool (text "refusing to remove '.' or '..' directory: skipping " ++ shellQuoted path)
        pure false
      else if c.withContents ∧ keepsRoot ∧ path ≠ [] ∧ path.all (· == Byte.slash) then do
        complain tool (text "it is dangerous to operate recursively on " ++ shellQuoted path)
        complain tool (text "use --no-preserve-root to override this failsafe")
        pure false
      else if c.withContents ∧ (← leadsOverLink path) then fault tool path Errno.notDirectory.message
      else tree tool c maxDepth (if c.withContents then trimmed path else path)
    let others ← all tool c keepsRoot paths
    return isDone && others

/-- For an option that does not exist but is a file: how it is removed. -/
def fileHint (tool : Bytes) (args : List Bytes) : Code Unit := do
  match args.find? (fun a => a.head? == some Byte.minus && 1 < a.length) with
  | none => pure ()
  | some arg =>
    match ← Code.call (.inspect arg false) with
    | .error _ => pure ()
    | .ok _ =>
      Code.write 2 (text "Try '" ++ tool ++ text " ./" ++ named arg ++ text "' to remove the file " ++ shellQuoted arg
        ++ text ".\n")

def carryOut (tool : Bytes) (w : Wanted) : Code Nat := do
  match chosen {} w.options with
  | .error (message, isUsage) =>
    complain tool message
    if isUsage then Code.write 2 (hint tool)
    return 1
  | .ok c =>
    let count := w.operands.length
    if count = 0 then if c.force then return 0 else misuse tool (text "missing operand")
    else
      let isMuch := c.asking = .once ∧ (c.withContents ∨ 3 < count)
      let question := text "remove " ++ Bytes.decimal count ++ text (if count = 1 then " argument" else " arguments")
        ++ text (if c.withContents then " recursively" else "")
      let goesOn ← if isMuch then ask tool question else pure true
      if goesOn then return statusOf (← all tool c (!w.has 50) w.operands) else return 0

end Remove

def remove (tool : Bytes) (args : List Bytes) : Code Nat := do
  match Remove.usage.parse args with
  | .error message =>
    complain tool message
    Remove.fileHint tool args
    Code.write 2 (hint tool)
    return 1
  | .ok w => if w.isAboutTool then Remove.usage.tell tool w else Remove.carryOut tool w

end LanguageClient.Host.Program
