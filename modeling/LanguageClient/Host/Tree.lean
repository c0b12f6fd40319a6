import LanguageClient.Path
/-
  LanguageClient.Host.Tree — the files of a host and how paths lead to them.

  A tree is a list of places and what stands there. A place is the list of names that leads
  to it from the root; the root is a directory. A path is followed from a directory name by
  name: `.` stays, `..` goes up, a link goes on at its target, and every name but the last
  has to lead to a directory. A trailing slash asks for a directory too. Paths and names
  have limits, and what may be done with a file is what its owner may do with it.

  - `walk` follows names and gives the place they lead to, or why they lead nowhere.
  - `Files` is a tree seen from a directory, and answers questions about paths.
-/

namespace LanguageClient.Host

inductive Errno where
  | noEntry
  | notDirectory
  | isDirectory
  | accessDenied
  | notPermitted
  | alreadyThere
  | notEmpty
  | invalid
  | nameTooLong
  | tooManyLinks
  | execFormat
  | argumentsTooLong
  | badDescriptor
  | brokenPipe
  | noSpace
  | noDevice
  | noChild
  | noProcess
  | interrupted
  | noResource
  | noMemory
  | tooManyFiles
  | fileTableFull
  deriving DecidableEq, Repr

namespace Errno

def message : Errno → Bytes
  | noEntry => text "No such file or directory"
  | notDirectory => text "Not a directory"
  | isDirectory => text "Is a directory"
  | accessDenied => text "Permission denied"
  | notPermitted => text "Operation not permitted"
  | alreadyThere => text "File exists"
  | notEmpty => text "Directory not empty"
  | invalid => text "Invalid argument"
  | nameTooLong => text "File name too long"
  | tooManyLinks => text "Too many levels of symbolic links"
  | execFormat => text "Exec format error"
  | argumentsTooLong => text "Argument list too long"
  | badDescriptor => text "Bad file descriptor"
  | brokenPipe => text "Broken pipe"
  | noSpace => text "No space left on device"
  | noDevice => text "No such device or address"
  | noChild => text "No child processes"
  | noProcess => text "No such process"
  | interrupted => text "Interrupted system call"
  | noResource => text "Resource temporarily unavailable"
  | noMemory => text "Cannot allocate memory"
  | tooManyFiles => text "Too many open files"
  | fileTableFull => text "Too many open files in system"

end Errno

inductive Tool where
  | shell
  | cat
  | sleep
  | remove
  deriving DecidableEq, Repr

inductive Content where
  | bytes (b : Bytes)
  | tool (t : Tool)
  deriving DecidableEq, Repr

structure Access where
  canRead : Bool := true
  canWrite : Bool := true
  canExecute : Bool := false
  deriving DecidableEq, Repr

/-- The access that the three digits of a mode give: 4 to read, 2 to write and 1 to execute;
the first digit is the owner's, and the files of a host belong to its user. -/
def Access.ofMode (mode : Nat) : Access :=
  let owner := mode / 64 % 8
  { canRead := owner / 4 % 2 == 1, canWrite := owner / 2 % 2 == 1, canExecute := owner % 2 == 1 }

inductive Device where
  /-- Takes everything and holds nothing. -/
  | null
  /-- Holds zeros without an end. -/
  | zero
  /-- Holds zeros and has no room for anything. -/
  | full
  /-- The terminal of a process, which has none here. -/
  | terminal
  /-- What a descriptor of the process that looks stands for. -/
  | descriptor (fd : Nat)
  deriving DecidableEq, Repr

inductive Node where
  | file (access : Access) (content : Content)
  | directory (isWritable : Bool)
  | device (d : Device)
  | link (target : Bytes)
  deriving DecidableEq, Repr

def Node.isDirectory : Node → Bool
  | directory _ => true
  | _ => false

def Node.isFile : Node → Bool
  | file .. => true
  | _ => false

def Node.access : Node → Access
  | file access _ => access
  | directory isWritable => ⟨true, isWritable, true⟩
  | _ => {}

abbrev Place := List Bytes

structure Tree where
  nodes : List (Place × Node) := []
  deriving DecidableEq, Repr

namespace Tree

/-- What stands at a place; the root is a directory that the user does not own. -/
def node? (t : Tree) (p : Place) : Option Node := if p = [] then some (.directory false) else t.nodes.lookup p

def isDirectory (t : Tree) (p : Place) : Bool := (t.node? p).any (·.isDirectory)

def isWritable (t : Tree) (p : Place) : Bool := t.node? p == some (.directory true)

def put (t : Tree) (p : Place) (n : Node) : Tree := ⟨(p, n) :: t.nodes.filter (·.1 != p)⟩

def removeAll (t : Tree) (p : Place) : Tree := ⟨t.nodes.filter (fun n => !p.isPrefixOf n.1)⟩

def namesIn (t : Tree) (p : Place) : List Bytes :=
  Bytes.sortDistinct (t.nodes.filterMap (fun n => if n.1.dropLast = p ∧ n.1 ≠ [] then n.1.getLast? else none))

/-- Make a directory and those above it, with one owner; what stands there already stays. -/
def makeDirectory (t : Tree) (isWritable : Bool) (p : Place) : Tree :=
  (List.range (p.length + 1)).foldl
    (fun t n => if (t.node? (p.take n)).isSome then t else t.put (p.take n) (.directory isWritable)) t

/-! ## Following paths -/

/-- The names a path is followed by; a trailing slash stays where it leads. -/
def steps (path : Bytes) : List Bytes :=
  Path.names path ++ (if Path.filename path = [] then [Path.dotName] else [])

def maxName : Nat := 255

def maxPath : Nat := 4095

/-- Follow names from a place, over at most `links` links; with `follow` also the last one. -/
def walk (t : Tree) (follow : Bool) (links : Nat) (here : Place) : List Bytes → Except Errno Place
  | [] => .ok here
  | name :: rest =>
    if !t.isDirectory here then .error .notDirectory
    else if name = Path.dotName then walk t follow links here rest
    else if name = Path.dotDotName then walk t follow links here.dropLast rest
    else if maxName < name.length then .error .nameTooLong
    else
      match t.node? (here ++ [name]) with
      | none => .error .noEntry
      | some (.link target) =>
        if rest = [] ∧ !follow then .ok (here ++ [name])
        else
          match links with
          | 0 => .error .tooManyLinks
          | more + 1 =>
            if target = [] then .error .noEntry
            else walk t follow more (if Path.isAbsolute target then [] else here) (steps target ++ rest)
      | some _ => walk t follow links (here ++ [name]) rest
  termination_by names => (links, names.length)

def maxLinks : Nat := 40

end Tree

structure Files where
  tree : Tree
  here : Place := []
  deriving DecidableEq, Repr

namespace Files

/-- The place a path leads to. A path ends at its first NUL, and the empty path leads nowhere. -/
def place (f : Files) (follow : Bool) (path : Bytes) : Except Errno Place :=
  let p := Bytes.beforeNul path
  if p = [] then .error .noEntry
  else if Tree.maxPath < p.length then .error .nameTooLong
  else f.tree.walk follow Tree.maxLinks (if Path.isAbsolute p then [] else f.here) (Tree.steps p)

def find (f : Files) (path : Bytes) : Except Errno (Place × Node) :=
  match f.place true path with
  | .error e => .error e
  | .ok p =>
    match f.tree.node? p with
    | some n => .ok (p, n)
    | none => .error .noEntry

def node? (f : Files) (path : Bytes) : Option Node := (f.find path).toOption.map (·.2)

def has (f : Files) (path : Bytes) : Bool := (f.node? path).isSome

def isFile (f : Files) (path : Bytes) : Bool := (f.node? path).any (·.isFile)

def isDirectory (f : Files) (path : Bytes) : Bool := (f.node? path).any (·.isDirectory)

def isExecutable (f : Files) (path : Bytes) : Bool := (f.node? path).any (fun n => n.isFile && n.access.canExecute)

/-- What can be read where a path leads; a directory can be opened but holds no text. -/
def read? (f : Files) (path : Bytes) : Option Bytes :=
  match f.node? path with
  | some (.file access content) =>
    if access.canRead then
      match content with
      | .bytes b => some b
      | .tool _ => some []
    else none
  | some (.directory _) => some []
  | some (.device .null) => some []
  | _ => none

def pathOf (p : Place) : Bytes := Byte.slash :: Bytes.joinWith [Byte.slash] p

def current (f : Files) : Bytes := pathOf f.here

end Files

end LanguageClient.Host
