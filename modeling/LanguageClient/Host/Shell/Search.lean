import LanguageClient.Host.System
import LanguageClient.Host.Shell.Reader
import LanguageClient.Host.Shell.Listing
/-
  LanguageClient.Host.Shell.Search — what the name of a command stands for.

  A name stands for a function, for a builtin, or for a program. A name with a slash is the
  path of a program; any other is looked for in the directories of the path, and where it
  has been found is kept until the path changes. After a change of the directory it is
  looked for again, though not in directories with absolute paths.

  - `kind` says what a name stands for, `locate` finds a program, `describe` tells of both.
-/

namespace LanguageClient.Host.Shell.Search

def regularNames : List Bytes :=
  (["[", "alias", "bg", "cd", "chdir", "command", "echo", "false", "fg", "getopts", "hash", "jobs", "kill", "printf",
    "pwd", "read", "test", "true", "type", "ulimit", "umask", "unalias", "wait"]).map text

def isBuiltin (name : Bytes) : Bool := isSpecial name || regularNames.contains name

inductive Kind where
  | function (f : Function)
  | builtin
  | program

def kind (s : Shell) (withFunctions : Bool) (name : Bytes) : Kind :=
  if name.contains Byte.slash then .program
  else
    match if withFunctions then s.functions.lookup name else none with
    | some f => .function f
    | none => if isBuiltin name then .builtin else .program

/-! ## Programs -/

/-- The path of a name in a directory; without one it is the current directory. -/
def pathIn (directory name : Bytes) : Bytes := if directory = [] then name else directory ++ Byte.slash :: name

/-- The directories that programs are looked for in; without a path only the current one. -/
def directories (path : Option Bytes) : List Bytes :=
  match path with
  | some path => path.splitOn Byte.colon
  | none => [[]]

def failure (e : Errno) : Bytes := if e = .noEntry ∨ e = .notDirectory then text "not found" else e.message

/-- The first directory with an executable file of a name, by its index; `before` is where it
was found before. -/
def locateFrom (name : Bytes) (before : Option Nat) (index : Nat) (e : Errno) : List Bytes → Code (Except Errno Nat)
  | [] => pure (.error e)
  | directory :: others => do
    let path := pathIn directory name
    if Path.isAbsolute path ∧ before.any (index ≤ ·) then
      if before = some index then return .ok index else locateFrom name before (index + 1) e others
    else
      match ← Code.call (.inspect path true) with
      | .error e' =>
        locateFrom name before (index + 1) (if e' = .noEntry ∨ e' = .notDirectory then e else e') others
      | .ok sight =>
        if sight.node.isFile && sight.node.access.canExecute then return .ok index
        else locateFrom name before (index + 1) .accessDenied others

def locate (name : Bytes) : Code (Except Errno Nat) := do
  let s : Shell ← get
  let known := s.tracked.lookup name
  match known.filter (!·.isStale) with
  | some t => return .ok t.index
  | none =>
    let found ← locateFrom name (known.map (·.index)) 0 .noEntry (directories (s.value? (text "PATH")))
    let tracked := match found with
      | .error _ => s.tracked.filter (·.1 != name)
      | .ok index =>
        if known.isSome then s.tracked.map (fun t => if t.1 = name then (name, ⟨index, false⟩) else t)
        else s.tracked ++ [(name, ⟨index, false⟩)]
    modify (fun s : Shell => { s with tracked := tracked })
    return found

def locateAlong (other : Option Bytes) (name : Bytes) : Code (Except Errno Nat) :=
  match other with
  | none => locate name
  | some path => locateFrom name none 0 .noEntry (directories (some path))

/-- From now on programs found in directories without absolute paths are looked for again. -/
def doubt (s : Shell) : Shell := { s with tracked := s.tracked.map (fun t => (t.1, { t.2 with isStale := true })) }

def pathAt (path : Option Bytes) (name : Bytes) (index : Nat) : Bytes :=
  pathIn ((directories path)[index]?.getD []) name

/-! ## Telling -/

/-- What a name stands for, after the name itself if `isVerbose`; false when it stands for nothing. -/
def describe (isVerbose : Bool) (other : Option Bytes) (name : Bytes) : Act Bool := do
  let s : Shell ← get
  let tell (story : Bytes) (short : Bytes) : Act Bool := do
    Act.say (Listing.line (if isVerbose then name ++ text " is " ++ story else short))
    return true
  if Reader.keywords.contains name then tell (text "a shell keyword") name
  else
    match s.aliases.lookup name with
    | some value =>
      tell (text "an alias for " ++ value) (text "alias " ++ name ++ Byte.equals :: Listing.quoted value)
    | none =>
      let unknown : Act Bool := do
        if isVerbose then Act.say (name ++ text ": not found\n")
        return false
      match kind s true name with
      | .function _ => tell (text "a shell function") name
      | .builtin => tell (text (if isSpecial name then "a special shell builtin" else "a shell builtin")) name
      | .program =>
        if name.contains Byte.slash then
          match ← Act.call (.inspect name true) with
          | .ok _ => tell name name
          | .error _ => unknown
        else
          let isKnown := other.isNone && (s.tracked.lookup name).isSome
          let found : Except Errno Nat ← match if other.isNone then s.tracked.lookup name else none with
            | some t => pure (.ok t.index)
            | none => locateAlong other name
          match found with
          | .error _ => unknown
          | .ok index =>
            let path := pathAt (other.or (s.value? (text "PATH"))) name index
            tell ((if isKnown then text "a tracked alias for " else []) ++ path) path

/-- The programs that have been found, with a mark for those that are looked for again. -/
def tracked (s : Shell) : Bytes :=
  (Listing.byDrawer Listing.commandDrawers s.tracked).flatMap (fun (name, t) =>
    Listing.line (pathAt (s.value? (text "PATH")) name t.index ++ text (if t.isStale then "*" else "")))

end LanguageClient.Host.Shell.Search
