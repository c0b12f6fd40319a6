import LanguageClient.Host.Shell.Run
/-
  LanguageClient.Host.Shell.Session — a shell from its start to its end.

  A shell runs the text after `-c`, a file, or what comes in on its standard input. Input
  comes in blocks, and a line is run as soon as no more input could change what it means. An
  interactive shell asks for every line, and goes on after a mistake with the input that
  comes in then.

  - `main` runs a shell with arguments.
-/

namespace LanguageClient.Host.Shell.Session

def blockSize : Nat := 8192

def ask (prompt : String) : Code Unit := do
  let s : Shell ← get
  if s.has 'i' then Code.write 2 ((s.value? (text prompt)).getD [])

def askAgain (count : Nat) : Code Unit := (List.replicate count ()).forM (fun _ => ask "PS2")

/-- What a mistake leaves of the script: an interactive shell goes on without what it has read. -/
def survived (body : Act Nat) : Act (Option Nat) := do
  match ← Act.caught body with
  | .ok status => return some status
  | .error stop =>
    let s : Shell ← get
    if (stop = .mistake ∨ stop = .interrupted) ∧ s.has 'i' ∧ !s.isForked then
      if stop = .interrupted then Code.write 2 [Byte.lf]
      Run.cleared none
      return none
    else throw stop

/-- Run the lines of the input from a cursor on, of which there is nothing left to read if
`isWhole`; `last` is the status of those before, and `isAsked` whether the next one has been
asked for. -/
def inputLines : Nat → Bool → Bool → Cursor → Nat → Act Nat
  | 0, _, _, _, last => pure last
  | n + 1, isWhole, isAsked, c, last => do
    unless isAsked do ask "PS1"
    let s : Shell ← get
    let parsed := Reader.line.run { c with aliases := s.aliases }
    let isComplete := isWhole || match parsed with
      | .ok (some (_, isEnd), c') => !isEnd && !c'.isCut
      | .ok (none, _) => false
      | .error fault => !fault.atEnd
    if !isComplete then
      match ← Act.call (.read 0 blockSize) with
      | .ok (b :: bs) => inputLines n false true { c with rest := c.rest ++ (b :: bs).filter (· != 0) } last
      | .error .interrupted => inputLines n false true c last
      | _ => inputLines n true true c last
    else
      match parsed with
      | .error fault =>
        let status ← survived (do
          Run.showUpTo c fault.line
          askAgain (fault.line - c.line)
          Run.atLine fault.line
          Act.fail fault.message)
        inputLines n isWhole false { rest := [], line := fault.line, isShown := true } (status.getD (← get).status)
      | .ok (none, _) =>
        Run.showText c c.rest
        let s : Shell ← get
        if s.has 'i' then Code.write 2 [Byte.lf]
        return last
      | .ok (some (cs, _), c') =>
        let read := c.rest.take (c.rest.length - c'.rest.length)
        modify (fun s : Shell => { s with lastLine := c'.line })
        Run.showText c read
        askAgain (read.count Byte.lf - 1)
        match ← survived (Run.list Run.limit {} cs) with
        | none =>
          let s : Shell ← get
          inputLines n isWhole false { rest := [], line := c'.line, isShown := true } s.status
        | some status =>
          let last := if cs.isEmpty then last else status
          if Run.skips (← get) then return last else inputLines n isWhole false c' last

def runInput : Act Nat := inputLines Run.limit false false { rest := [], isShown := true } 0

def options (argv : List Bytes) : Act Builtin.Wishes := do
  let w ← Builtin.Wishes.ofArgs true (argv.drop 1)
  discard Builtin.flush
  let s : Shell ← get
  if w.args = [] then
    if w.isText then Act.fail (text "-c requires an argument")
    modify (fun s : Shell => s.turn true 115)
  if s.has 'i' then modify (fun s : Shell => s.turn true 109)
  return w

def naming (name : Option Bytes) (args : List Bytes) : Act Unit := do
  modify (fun s : Shell => { s.withArgs args with name := name.getD s.name })
  Builtin.heed

def body (argv : List Bytes) : Act Nat := do
  let w ← options argv
  let s : Shell ← get
  if w.isText then
    let source := w.args.head?.getD []
    naming w.args[1]? (w.args.drop 2)
    let status ← Run.lines Run.limit { isLast := !s.has 's' } { rest := source } 0
    if s.has 's' then runInput else return status
  else if s.has 's' then
    naming none w.args
    runInput
  else
    let path := w.args.head?.getD []
    let fd ← Redirection.openPath .input false path
    let source ← Expand.readAll Run.limit fd []
    Code.close fd
    naming (some path) (w.args.drop 1)
    inputLines Run.limit true false { rest := source.filter (· != 0), isShown := true } 0

def main (argv : List Bytes) : Code Nat := do
  let (pid, parent) ← Code.call .self
  modify (fun s : Shell =>
    { s.set (text "PPID") (Bytes.decimal parent) with pid := pid, name := argv.head?.getD (text "sh") })
  Run.whole (do
    Builtin.Place.start
    body argv)

end LanguageClient.Host.Shell.Session
