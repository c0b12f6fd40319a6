import LanguageClient.Host.Shell.Arguments
import LanguageClient.Host.Shell.Search
/-
  LanguageClient.Host.Shell.Builtin.Place — where the shell is.

  The shell remembers the path by which it went to its directory. From there it goes up by
  taking the last name off that path, whatever links it leads over; with `-P` it follows the
  names as they stand in the tree.
-/

namespace LanguageClient.Host.Shell.Builtin

namespace Place

/-- A path, last byte first, without its last name; `least` bytes of it stay. -/
def up (least : Nat) : Bytes → Bytes
  | [] => []
  | b :: r =>
    if least < r.length + 1 then (if r.head? = some Byte.slash then r else up least r) else b :: r

def step (least : Nat) (path name : Bytes) : Bytes :=
  if name = [] ∨ name = Path.dotName then path
  else if name = Path.dotDotName then up least path
  else Byte.slash :: (name.reverse ++ path)

/-- The path that leads from a directory along another path, by names alone. -/
def logical (directory path : Bytes) : Bytes :=
  let isDouble := (text "//").isPrefixOf (if Path.isAbsolute path then path else directory) &&
    !(Path.isAbsolute path && (text "///").isPrefixOf path)
  let least := if isDouble then 2 else 1
  let start := if Path.isAbsolute path then List.replicate least Byte.slash
    else if directory.getLast? = some Byte.slash then directory else directory ++ [Byte.slash]
  let reached := (path.splitOn Byte.slash).foldl (step least) start.reverse
  (if least < reached.length then reached.drop 1 else reached).reverse

/-- Remember where the shell is: by the path it went, or by where that has led. -/
def remember (path : Option Bytes) : Act Unit := do
  let directory ← match path with
    | some path => pure path
    | none => Act.call .whereAmI
  modify (fun s : Shell => { s with directory := directory })
  Act.assign (text "PWD") directory
  modify (fun s : Shell => s.exporting (text "PWD"))

def go (isPhysical : Bool) (target : Bytes) : Act Bool := do
  let s : Shell ← get
  let path := if isPhysical ∨ (!Path.isAbsolute target ∧ s.directory = []) then none
    else some (logical s.directory target)
  match ← Act.call (.enter (path.getD target)) with
  | .error _ => return false
  | .ok () =>
    Act.assign (text "OLDPWD") s.directory
    modify (fun s : Shell => s.exporting (text "OLDPWD"))
    remember path
    modify Search.doubt
    return true

def isPlain (path : Bytes) : Bool :=
  match path.splitOn Byte.slash with
  | first :: _ => first = [] ∧ path ≠ [] ∨ first = Path.dotName ∨ first = Path.dotDotName
  | [] => false

/-- The first directory of a search path in which there is a directory of a name, and whether it
is told where that is. -/
def lookAlong (name : Bytes) : List Bytes → Act (Option (Bytes × Bool))
  | [] => pure none
  | start :: others => do
    let path := Search.pathIn start name
    match ← Act.call (.inspect path true) with
    | .ok sight => if sight.node.isDirectory then return some (path, start != []) else lookAlong name others
    | .error _ => lookAlong name others

def isPhysical (options : List (UInt8 × Bytes)) : Bool := (options.getLast?.map (·.1)) == some 80

/-- Remember where the shell is at its start: what its environment says, if that is right. -/
def start : Act Unit := do
  let s : Shell ← get
  match s.value? (text "PWD") with
  | none => remember none
  | some path =>
    if !Path.isAbsolute path then remember none
    else
      match ← Act.call (.inspect path true), ← Act.call (.inspect Path.dotName true) with
      | .ok x, .ok y => remember (if x.place = y.place then some path else none)
      | _, _ => remember none

end Place

/-- Go to a directory: the one that is named, the one before for `-`, or the home directory. -/
def cd (args : List Bytes) : Act Nat := do
  let (options, args) ← Arguments.options "LP" args
  let isPhysical := Place.isPhysical options
  let s : Shell ← get
  let goesBack := args.head? == some [Byte.minus]
  let target := match args with
    | [] => (s.value? (text "HOME")).getD []
    | a :: _ => if goesBack then (s.value? (text "OLDPWD")).getD [] else a
  let found ← if Place.isPlain target then pure none
    else
      let name := if target = [] then Path.dotName else target
      Place.lookAlong name (Search.directories (s.value? (text "CDPATH")))
  let (path, isTold) := found.getD (if target = [] then Path.dotName else target, false)
  if ← Place.go isPhysical path then
    let s : Shell ← get
    if goesBack ∨ isTold then Act.say (Listing.line s.directory)
    return 0
  else Act.fail (text "can't cd to " ++ (if target = [] then Path.dotName else target))

def pwd (args : List Bytes) : Act Nat := do
  let (options, _) ← Arguments.options "LP" args
  let s : Shell ← get
  let path ← if Place.isPhysical options then Act.call .whereAmI else pure s.directory
  Act.say (Listing.line path)
  return 0

end LanguageClient.Host.Shell.Builtin
