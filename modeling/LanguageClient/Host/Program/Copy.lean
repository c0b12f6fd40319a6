import LanguageClient.Host.Program.Usage
/-
  LanguageClient.Host.Program.Copy — copying files to the standard output.

  `cat` copies the files it is given, or its input, one after another. It may number lines,
  leave out blank ones that follow one another, and show what cannot be seen. A file is not
  copied to its own end.
-/

namespace LanguageClient.Host.Program

structure Display where
  numbersAll : Bool := false
  numbersFilled : Bool := false
  squeezes : Bool := false
  showsControls : Bool := false
  showsEnds : Bool := false
  showsTabs : Bool := false
  deriving DecidableEq

structure Progress where
  /-- The number of the last numbered line. -/
  line : Nat := 0
  /-- How many ends of lines have come one after another, two at most; none within a line. -/
  ends : Option Nat := some 0
  /-- Whether a return is held back until it is known what follows it. -/
  holdsReturn : Bool := false

namespace Display

def numbers (d : Display) : Bool := d.numbersAll || d.numbersFilled

def number (n : Nat) : Bytes :=
  let ds := Bytes.decimal n
  List.replicate (6 - ds.length) Byte.space ++ ds ++ [Byte.tab]

def shown (d : Display) (b : UInt8) : Bytes :=
  if b = Byte.tab then (if d.showsTabs then text "^I" else [b])
  else if !d.showsControls then [b]
  else
    let low (b : UInt8) : Bytes := if b < 32 then [94, b + 64] else if b = 127 then text "^?" else [b]
    if b < 128 then low b else text "M-" ++ low (b - 128)

def endLine (d : Display) (p : Progress) : Bytes × Progress :=
  let ends := match p.ends with
    | none => 0
    | some k => min 2 (k + 1)
  if d.squeezes ∧ ends = 2 then ([], { p with ends := some ends })
  else
    let isNumbered := 0 < ends && d.numbersAll && !d.numbersFilled
    let start := if isNumbered then number (p.line + 1) else []
    let held := if p.holdsReturn then text "^M" else []
    (held ++ start ++ (if d.showsEnds then [36, Byte.lf] else [Byte.lf]),
      { p with line := if isNumbered then p.line + 1 else p.line, ends := some ends, holdsReturn := false })

def step (d : Display) (p : Progress) (b : UInt8) : Bytes × Progress :=
  if b = Byte.lf then d.endLine p
  else
    let isNumbered := p.ends.isSome && d.numbers
    let start := if isNumbered then number (p.line + 1) else []
    let held := if p.holdsReturn then [Byte.cr] else []
    let p : Progress := { p with line := if isNumbered then p.line + 1 else p.line, ends := none, holdsReturn := false }
    if b = Byte.cr ∧ d.showsEnds ∧ !d.showsControls then (held ++ start, { p with holdsReturn := true })
    else (held ++ start ++ d.shown b, p)

def copy (d : Display) (p : Progress) (b : Bytes) : Bytes × Progress :=
  if d = {} then (b, p)
  else
    let (chunks, p) := b.foldl (fun (out, p) b =>
      let (o, p') := d.step p b
      (o :: out, p')) (([] : List Bytes), p)
    (chunks.reverse.flatten, p)

end Display

namespace Copy

/-- How often a tool may call the host. -/
def limit : Nat := 100000000

inductive Outcome where
  | finished (p : Progress)
  /-- The file cannot be read. -/
  | unread (p : Progress) (e : Errno)
  /-- The copy cannot be written. -/
  | unwritten (e : Errno)

def descriptor (d : Display) : Nat → Progress → Nat → Code Outcome
  | 0, p, _ => pure (.finished p)
  | n + 1, p, fd => do
    match ← Code.call (.read fd 131072) with
    | .ok [] => return .finished p
    | .ok b =>
      let (out, p) := d.copy p b
      match ← Code.call (.write 1 out) with
      | .ok () => descriptor d n p fd
      | .error e => return .unwritten e
    | .error .interrupted => descriptor d n p fd
    | .error e => return .unread p e

/-- Whether a path leads to the file that the standard output is, and that is not empty. -/
def isOutput (path : Bytes) : Code Bool := do
  match ← Code.call (.inspect (text "/dev/fd/1") true), ← Code.call (.inspect path true) with
  | .ok out, .ok file =>
    match file.node with
    | .file _ (.bytes (_ :: _)) => return out.place == file.place
    | _ => return false
  | _, _ => return false

/-- Copy one file, or the standard input for `-`; what is wrong comes back, or that all is lost. -/
def file (tool : Bytes) (d : Display) (p : Progress) (name : Bytes) : Code (Except Nat (Progress × Bool)) := do
  let isInput := name = [Byte.minus]
  let opened ← if isInput then pure (.ok 0) else Code.call (.openFile name .input)
  match opened with
  | .error e =>
    complain tool (named name ++ text ": " ++ e.message)
    return .ok (p, false)
  | .ok fd =>
    let isOwn ← isOutput (if isInput then text "/dev/fd/0" else name)
    let outcome ← if isOwn then pure (.finished p) else descriptor d limit p fd
    if !isInput then Code.close fd
    if isOwn then
      complain tool (named name ++ text ": input file is output file")
      return .ok (p, false)
    else
      match outcome with
      | .finished p => return .ok (p, true)
      | .unread p e =>
        complain tool (named name ++ text ": " ++ e.message)
        return .ok (p, false)
      | .unwritten e =>
        complain tool (text "write error: " ++ e.message)
        return .error 1

def files (tool : Bytes) (d : Display) (p : Progress) (isFine : Bool) : List Bytes → Code Nat
  | [] => do
    if p.holdsReturn then Code.write 1 [Byte.cr]
    return statusOf isFine
  | name :: names => do
    match ← file tool d p name with
    | .error status => return status
    | .ok (p, isCopied) => files tool d p (isFine && isCopied) names

def usage : Usage where
  letters := text "AbeEnstTuv"
  names := Usage.plainNames [("number-nonblank", 'b'), ("number", 'n'), ("squeeze-blank", 's'),
    ("show-nonprinting", 'v'), ("show-ends", 'E'), ("show-tabs", 'T'), ("show-all", 'A')]

def display (w : Wanted) : Display :=
  let any (letters : String) : Bool := (text letters).any w.has
  { numbersAll := any "n", numbersFilled := any "b", squeezes := any "s", showsControls := any "Aetv"
    showsEnds := any "AeE", showsTabs := any "AtT" }

end Copy

def cat (tool : Bytes) (args : List Bytes) : Code Nat := do
  match Copy.usage.parse args with
  | .error message => misuse tool message
  | .ok w =>
    if w.isAboutTool then Copy.usage.tell tool w
    else if (← Code.call (.isPipe 1)).isNone then
      complain tool (text "standard output: " ++ Errno.badDescriptor.message)
      return 1
    else
      let names := if w.operands = [] then [[Byte.minus]] else w.operands
      let status ← Copy.files tool (Copy.display w) {} true names
      if names.contains [Byte.minus] ∧ (← Code.call (.isPipe 0)).isNone then
        complain tool (text "closing standard input: " ++ Errno.badDescriptor.message)
        return 1
      else return status

end LanguageClient.Host.Program
