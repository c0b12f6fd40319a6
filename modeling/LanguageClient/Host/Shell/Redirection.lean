import LanguageClient.Host.Shell.Expand
/-
  LanguageClient.Host.Shell.Redirection — what descriptors stand for while a command runs.

  The words of redirections are replaced first, then the redirections are made one after
  another. What a descriptor stood for before is kept under a number from ten on, in a frame
  for every command, until the frame is taken off.

  - `planned` replaces the words, `apply` makes redirections, `push` and `pop` begin and end
    a frame.
-/

namespace LanguageClient.Host.Shell

namespace Redirection

/-! ## Planning -/

def source? (s : Bytes) : Option (Option Nat) :=
  match s with
  | [b] => if Byte.isDigit b then some (some (Byte.digitValue b)) else if b = Byte.minus then some none else none
  | _ => none

def ofRedirect (r : Redirect) : Act Redirection := do
  match r with
  | .file fd mode force target => return file fd mode force (← Expand.single target)
  | .content fd body => return content fd body
  | .copy fd source =>
    match source? (← Expand.single source) with
    | some source => return copy fd source
    | none =>
      modify (fun s : Shell => { s with line := s.lastLine })
      Act.fail (text "Syntax error: Bad fd number")

def planned : List Redirect → Act (List Redirection)
  | [] => pure []
  | r :: rs => do
    let first ← ofRedirect r
    let others ← planned rs
    return first :: others

/-! ## Opening -/

def failure (mode : OpenMode) (path : Bytes) (e : Errno) : Bytes :=
  let isMissing := e = .noEntry ∨ e = .notDirectory
  if mode = .input then
    text "cannot open " ++ path ++ text ": " ++ (if isMissing then text "No such file" else e.message)
  else text "cannot create " ++ path ++ text ": " ++ (if isMissing then text "Directory nonexistent" else e.message)

def openAs (shown mode : OpenMode) (path : Bytes) : Act Nat := do
  match ← Act.call (.openFile path mode) with
  | .ok fd => return fd
  | .error e => Act.fail (failure shown path e)

/-- Open a file; one that is there already is written anew only if nothing keeps it. -/
def openPath (mode : OpenMode) (force : Bool) (path : Bytes) : Act Nat := do
  let s : Shell ← get
  if mode = .output ∧ !force ∧ s.has 'C' then
    match ← Act.call (.inspect path true) with
    | .error _ => openAs mode .fresh path
    | .ok sight =>
      if sight.node.isFile then Act.fail (failure mode path .alreadyThere) else openAs mode .append path
  else openAs mode mode path

/-- How long a text is at most that is written before anybody reads it. -/
def shortText : Nat := 4096

def openText (body : Word) : Act Nat := do
  let (reading, writing) ← Act.call .pipe
  let b ← Expand.content body
  if b.length ≤ shortText then Code.write writing b
  else discard (Act.call (.fork { changes := [.close reading], shell := ← get, task := .text writing b }))
  Code.close writing
  return reading

/-! ## Frames -/

def push : Code Unit := modify (fun s : Shell => { s with saves := [] :: s.saves })

/-- Take a frame off; unless it is dropped the descriptors stand for what they stood for before. -/
def pop (isDropped : Bool) : Code Unit := do
  let s : Shell ← get
  match s.saves with
  | [] => pure ()
  | frame :: frames =>
    modify (fun s : Shell => { s with saves := frames })
    for fd in List.range 10 do
      match frame.lookup fd with
      | none => pure ()
      | some none => unless isDropped do Code.close fd
      | some (some kept) =>
        unless isDropped do discard (Code.call (.change (.copy kept fd)))
        Code.close kept

def unwind (left : Nat) : Nat → Code Unit
  | 0 => pure ()
  | n + 1 => do
    let s : Shell ← get
    if left < s.saves.length then
      pop false
      unwind left n

def keptErrors (s : Shell) : Nat := ((s.saves.head?.bind (·.lookup 2)).bind id).getD 2

def leastKept : Nat := 10

def keep (fd : Nat) : Code (Option Nat) := do
  match ← Code.call (.duplicate fd leastKept) with
  | .ok kept =>
    Code.close fd
    return some kept
  | .error _ => return none

/-- Let a descriptor stand for something new, which has been opened as `new`, or for nothing;
one that was opened for it alone is closed. -/
def settle (fd : Nat) (new : Option Nat) (isOpenedFor : Bool) : Act Unit := do
  match new with
  | none => Code.close fd
  | some k =>
    match ← Act.call (.change (.copy k fd)) with
    | .ok () => if isOpenedFor then Code.close k
    | .error e => Act.fail (Bytes.decimal k ++ text ": " ++ e.message)

def make (isKept : Bool) (r : Redirection) : Act Unit := do
  let fd := r.descriptor
  let (new, isOpenedFor) ← match r with
    | file _ mode force path => do pure (some (← openPath mode force path), true)
    | content _ body => do pure (some (← openText body), true)
    | copy _ source => pure (source, false)
  if !isOpenedFor ∧ new = some fd then return
  let s : Shell ← get
  match s.saves with
  | frame :: frames =>
    if isKept ∧ (frame.lookup fd).isNone then
      let kept ← if new = some fd then pure none else keep fd
      modify (fun s : Shell => { s with saves := ((fd, kept) :: frame) :: frames })
      if new ≠ some fd ∧ new ≠ none then settle fd new isOpenedFor
    else if new ≠ some fd then settle fd new isOpenedFor
  | [] => if new ≠ some fd then settle fd new isOpenedFor

def apply (isKept : Bool) : List Redirection → Act Unit
  | [] => pure ()
  | r :: rs => do
    make isKept r
    apply isKept rs

/-- Make redirections in a new frame; false when a mistake has kept one of them from being made. -/
def attempt (rs : List Redirection) : Act Bool := do
  if rs.isEmpty then return true
  push
  match ← Act.caught (apply true rs) with
  | .ok () => return true
  | .error .mistake => return false
  | .error stop => throw stop

end Redirection

end LanguageClient.Host.Shell
