import LanguageClient.Host.Shell.Builtin
import LanguageClient.Host.Shell.Grammar
import LanguageClient.Host.Shell.Redirection
/-
  LanguageClient.Host.Shell.Run — how the shell runs commands.

  Every command has a status, which is also kept in the shell. What a script skips is noted
  in the shell too, and every command gives way to it; a mistake and the end of the shell
  stop everything up to whoever waits for them. The last command of a shell takes its place.
  Signals are looked after before and after every command.

  - `tree` runs a command, `simple` one that is made of words, `lines` a script line by line.
  - `ending` ends a shell, `Job.code` is what a new process does.

  The number `n` bounds how long a script may run; a script that uses it up sleeps from then on.
-/

namespace LanguageClient.Host.Shell

structure Manner where
  /-- Whether its failure is looked at, and so does not end the shell. -/
  isTested : Bool := false
  /-- Whether nothing is run after it. -/
  isLast : Bool := false

namespace Run

def limit : Nat := 4000000

def maxDepth : Nat := 1000

def asleep {α : Type} : Act α := do
  Act.call (.sleep 1000000000000)
  throw .ending

def hasTraps (s : Shell) : Bool := s.traps.any (·.2 != [])

def skips (s : Shell) : Bool := s.skip != .nothing

def atLine (line : Nat) : Act Unit := modify (fun s : Shell => { s with line := line })

/-! ## Programs -/

def isUnwritable (b : UInt8) : Bool := b ≤ 8 || (16 ≤ b && b ≤ 31 && b != 27) || b == 127

def isNoScript (beginning : Bytes) : Bool := (beginning.takeWhile (· != Byte.lf)).any isUnwritable

def lookedAt : Nat := 128

/-- Become a shell that runs the file at a path, if that is a script. -/
def becomeShell (path : Bytes) (argv : List Bytes) : Code Errno := do
  let s : Shell ← get
  match ← Code.call (.openFile path .input) with
  | .error e => return e
  | .ok fd =>
    let beginning ← Code.call (.read fd lookedAt)
    Code.close fd
    match beginning with
    | .error e => return e
    | .ok b =>
      if isNoScript b then return .execFormat
      else Code.call (.execute (text "/bin/sh") (text "/bin/sh" :: path :: argv.drop 1) s.environment)

/-- Become the program at a path; a script that nothing else runs is run by the shell. -/
def becomeAt (path : Bytes) (argv : List Bytes) : Code Errno := do
  let s : Shell ← get
  match ← Code.call (.execute path argv s.environment) with
  | .execFormat => becomeShell path argv
  | e => return e

def becomeAlong (argv : List Bytes) (e : Errno) : List Bytes → Code Errno
  | [] => pure e
  | directory :: others => do
    let e' ← becomeAt (Search.pathIn directory (argv.head?.getD [])) argv
    becomeAlong argv (if e' = .noEntry ∨ e' = .notDirectory then e else e') others

/-- Become a program, looked for from the directory of an index on; when that fails, say why and end. -/
def become {α : Type} (argv : List Bytes) (path : Option Bytes) (index : Nat) : Act α := do
  let name := argv.head?.getD []
  let e ← if name.contains Byte.slash then becomeAt name argv
    else becomeAlong argv .noEntry ((Search.directories path).drop index)
  Code.complain (name ++ text ": " ++ Search.failure e)
  let isMissing := e = .noEntry ∨ e = .notDirectory ∨ e = .tooManyLinks ∨ e = .nameTooLong
  Code.setStatus (if isMissing then 127 else 126)
  throw .ending

/-! ## Naming commands -/

/-- The fields of words up to the first that has any, and the words after it. -/
def someFields : List Word → Act (List Bytes × List Word)
  | [] => pure ([], [])
  | w :: ws => do
    let fs ← Expand.fields w
    if fs = [] then someFields ws else return (fs, ws)

structure Call where
  /-- The fields found so far. -/
  fields : List Bytes
  /-- The words that have not been looked at. -/
  words : List Word
  /-- Where the name of the command stands among the fields. -/
  start : Nat := 0
  withFunctions : Bool := true
  /-- Whether the program is looked for along the usual path. -/
  isUsual : Bool := false
  /-- Whether the first builtin that is named is a special one; none when there is no builtin. -/
  isSpecial : Option Bool := none

namespace Call

def name (c : Call) : Bytes := c.fields[c.start]?.getD []

def argv (c : Call) : List Bytes := c.fields.drop c.start

def extended (c : Call) (count : Nat) : Act Call := do
  if count < c.fields.length then return c
  else
    let (fs, ws) ← someFields c.words
    return { c with fields := c.fields ++ fs, words := ws }

/-- The command that `command` is to run, after its options; none when it is to do something else. -/
def afterCommand (c : Call) : Nat → Nat → Act (Call × Option Nat)
  | 0, _ => pure (c, none)
  | n + 1, k => do
    let c ← c.extended k
    match c.fields[k]? with
    | none => return (c, none)
    | some (45 :: letter :: letters) =>
      if letter = Byte.minus ∧ letters = [] then
        let c ← c.extended (k + 1)
        return (c, if k + 1 < c.fields.length then some (k + 1) else none)
      else if (letter :: letters).all (· == 112) then afterCommand { c with isUsual := true } n (k + 1)
      else return (c, none)
    | some _ => return (c, some k)

def resolve : Nat → Call → Act (Call × Search.Kind)
  | 0, c => pure (c, .program)
  | n + 1, c => do
    let s : Shell ← get
    match Search.kind s c.withFunctions c.name with
    | .builtin =>
      let c := { c with isSpecial := c.isSpecial.or (some (Shell.isSpecial c.name)) }
      if c.name = text "command" then
        match ← afterCommand c limit (c.start + 1) with
        | (c, some k) => resolve n { c with start := k, withFunctions := false }
        | (c, none) => return (c, .builtin)
      else return (c, .builtin)
    | kind => return (c, kind)

def takesSettings (name : Bytes) : Bool := ((["alias", "export", "local", "readonly"]).map text).contains name

def completed (c : Call) (isBuiltin : Bool) : Act Call := do
  let expand (w : Word) : Act (List Bytes) :=
    if isBuiltin ∧ takesSettings c.name then Expand.setting w else Expand.fields w
  let fs ← c.words.mapM expand
  return { c with fields := c.fields ++ fs.flatten, words := [] }

end Call

/-! ## Variables of a command -/

def setForCommand (name value : Bytes) : Act Unit := do
  let s : Shell ← get
  if s.isReadonly name then Act.assign name value
  modify (fun s : Shell => s.keep name)
  Act.assign name value
  modify (fun s : Shell => s.exporting name)

/-- Set the variables before a command, and give them as they are traced. -/
def assignAll (isLocal isExported : Bool) : List (Bytes × Word) → Act (List Bytes)
  | [] => pure []
  | (name, w) :: rest => do
    let value ← Expand.value w
    if isLocal then setForCommand name value
    else
      Act.assign name value
      if isExported then modify (fun s : Shell => s.exporting name)
    let others ← assignAll isLocal isExported rest
    return (name ++ Byte.equals :: value) :: others

def leaveTo (count : Nat) : Nat → Act Unit
  | 0 => pure ()
  | n + 1 => do
    let s : Shell ← get
    if count < s.locals.length then
      let bad := (s.locals.head?.getD []).find? (fun v => v.2.isNone && !isName v.1)
      modify Shell.leaving
      if let some (name, _) := bad then Act.fail (name ++ text ": bad variable name")
      leaveTo count n

def traceStart : Act Bytes := do
  let s : Shell ← get
  let source := (s.value? (text "PS4")).getD []
  if !source.any (Reader.isActive .double) then return source
  else
    match (Reader.parts (Reader.depthFor { rest := source }) .inText false (fun _ => false)).run { rest := source } with
    | .error _ => return source
    | .ok (w, _) =>
      modify (fun s : Shell => { s with isTracing := true })
      let start ← Act.caught (Expand.content w)
      modify (fun s : Shell => { s with isTracing := false })
      match start with
      | .ok b => return b
      | .error .mistake => return source
      | .error stop => throw stop

def trace (fd : Nat) (words : List Bytes) : Act Unit := do
  let s : Shell ← get
  if s.has 'x' ∧ !s.isTracing then
    let start ← traceStart
    Code.write fd (start ++ Bytes.joinWith [Byte.space] words ++ [Byte.lf])

/-! ## Scripts in files -/

def showText (c : Cursor) (read : Bytes) : Code Unit := do
  let s : Shell ← get
  if c.isShown ∧ s.has 'v' then Code.write 2 read

def showUpTo (c : Cursor) (line : Nat) : Code Unit :=
  let lines := c.rest.splitOn Byte.lf
  let k := line - c.line + 1
  showText c (Bytes.joinWith [Byte.lf] (lines.take k) ++ (if k < lines.length then [Byte.lf] else []))

def searchText (name : Bytes) : List Bytes → Act (Option Bytes)
  | [] => pure none
  | directory :: others => do
    let path := Search.pathIn directory name
    match ← Act.call (.inspect path true) with
    | .ok sight => if sight.node.isFile then return some path else searchText name others
    | .error _ => searchText name others

def scriptNamed (name : Bytes) : Act (Bytes × Bytes) := do
  let s : Shell ← get
  let found ← if name.contains Byte.slash then pure (some name)
    else searchText name (Search.directories (s.value? (text "PATH")))
  match found with
  | none => Act.fail (name ++ text ": not found")
  | some path =>
    let fd ← Redirection.openPath .input false path
    let source ← Expand.readAll limit fd []
    Code.close fd
    return (path, source.filter (· != 0))

/-! ## Pipelines -/

/-- Look for the program of a stage beforehand, if its name is plain. -/
def lookAhead (c : Command) : Act Unit := do
  match c with
  | .simple _ _ ([.plain name] :: _) _ =>
    let s : Shell ← get
    match Search.kind s true name with
    | .program => if isName name then discard (Search.locate name)
    | _ => pure ()
  | _ => pure ()

/-- Start the stages of a pipeline, each reading what the one before it writes. -/
def startStages (number : Nat) (inBackground isTested : Bool) (input : Option Nat) : List Command → Act Unit
  | [] => pure ()
  | c :: rest => do
    lookAhead c
    let fromBefore : List DescriptorChange := match input with
      | some r => if 0 < r then [.copy r 0, .close r] else []
      | none => []
    let output ← if rest.isEmpty then pure none else some <$> Act.call .pipe
    let toNext (w : Nat) : List DescriptorChange := if 1 < w then [.copy w 1, .close w] else []
    let changes : List DescriptorChange := match output with
      | some (r, w) => .close r :: fromBefore ++ toNext w
      | none => fromBefore
    Children.start number
      { changes := changes, inBackground := inBackground, readsNothing := inBackground && input.isNone, shell := ← get
        task := .commands c isTested }
    input.toList.forM (fun r => do Code.close r)
    output.toList.forM (fun o => do Code.close o.2)
    startStages number inBackground isTested (output.map (·.1)) rest

/-! ## Commands -/

def isDecisive : Command → Bool
  | .simple .. | .pipeline .. | .subshell .. | .background .. => true
  | _ => false

/-- After the end of a round: whether the loop goes on, and whether it is this one that skips. -/
def afterRound : Code Bool := do
  let s : Shell ← get
  match s.skip with
  | .nothing => return true
  | .breaking k =>
    modify (fun s : Shell => { s with skip := if k ≤ 1 then .nothing else .breaking (k - 1) })
    return false
  | .continuing k =>
    modify (fun s : Shell => { s with skip := if k ≤ 1 then .nothing else .continuing (k - 1) })
    return k ≤ 1
  | .returning _ => return false

def returned : Code Unit := do
  let s : Shell ← get
  match s.skip with
  | .returning _ => modify (fun s : Shell => { s with skip := .nothing })
  | _ => pure ()

mutual

def tree (n : Nat) (m : Manner) (c : Command) : Act Nat :=
  match n with
  | 0 => asleep
  | n + 1 => do
    let s : Shell ← get
    if s.has 'n' then concluded n m
    else
      attend n
      let s : Shell ← get
      let status ← one n m c
      Code.setStatus status
      if s.has 'e' ∧ !m.isTested ∧ isDecisive c ∧ status ≠ 0 then throw .ending
      concluded n m

def concluded (n : Nat) (m : Manner) : Act Nat :=
  match n with
  | 0 => asleep
  | n + 1 => do
    attend n
    if m.isLast then throw .ending
    return (← get).status

def list (n : Nat) (m : Manner) (cs : List Command) : Act Nat :=
  match n with
  | 0 => asleep
  | n + 1 =>
    match cs with
    | [] => concluded n m
    | [c] => tree n m c
    | c :: rest => do
      discard (tree n { m with isLast := false } c)
      if skips (← get) then concluded n m else list n m rest

def attend (n : Nat) : Act Unit :=
  match n with
  | 0 => asleep
  | n + 1 => do
    Attention.listen
    let s : Shell ← get
    if s.isCalled then
      let status := s.found.getD s.status
      modify (fun s : Shell => { s with found := some status, isCalled := false })
      actions n status
      modify (fun t : Shell => { t with found := s.found })

def actions (n : Nat) (status : Nat) : Act Unit :=
  match n with
  | 0 => asleep
  | n + 1 => do
    let s : Shell ← get
    match s.pending.min? with
    | none => pure ()
    | some signal =>
      if skips s then modify (fun s : Shell => { s with isCalled := true })
      else
        modify (fun s : Shell => { s with pending := s.pending.filter (· != signal) })
        match s.traps.lookup signal with
        | none => pure ()
        | some action =>
          discard (lines n {} { rest := action } 0)
          unless (← get).skip = .returning true do Code.setStatus status
        actions n status

/-- Run the lines of a script from a cursor on; `last` is the status of those before. -/
def lines (n : Nat) (m : Manner) (c : Cursor) (last : Nat) : Act Nat :=
  match n with
  | 0 => asleep
  | n + 1 => do
    let s : Shell ← get
    match Reader.line.run { c with aliases := s.aliases } with
    | .error fault =>
      showUpTo c fault.line
      atLine fault.line
      Act.fail fault.message
    | .ok (none, _) =>
      showText c c.rest
      return last
    | .ok (some (cs, isEnd), c') =>
      modify (fun s : Shell => { s with lastLine := c'.line })
      showText c (c.rest.take (c.rest.length - c'.rest.length))
      let status ← list n { m with isLast := m.isLast && isEnd } cs
      let last := if cs.isEmpty then last else status
      if skips (← get) then return last else lines n m c' last

def simple (n : Nat) (m : Manner) (assignments : List (Bytes × Word)) (words : List Word)
    (redirects : List Redirect) : Act Nat :=
  match n with
  | 0 => asleep
  | n + 1 => do
    modify (fun s : Shell => { s with outputStatus := 0 })
    let (fs, ws) ← someFields words
    let (c, kind) ← Call.resolve limit { fields := fs, words := ws }
    let isBuiltin := match kind with
      | .builtin => true
      | _ => false
    let c ← c.completed isBuiltin
    let isExec := isBuiltin && c.name == text "exec"
    let isNamed := !c.fields.isEmpty
    let isLocal := isNamed && c.isSpecial != some true
    let before : Shell ← get
    if isLocal then modify Shell.entering
    let rs ← Redirection.planned redirects
    let isMade ← Redirection.attempt rs
    let status ←
      if !isMade then
        Code.setStatus 2
        if c.isSpecial = some true then throw .mistake
        pure 2
      else
        let settings ← assignAll isLocal (isExec && 1 < c.argv.length) assignments
        let s : Shell ← get
        trace (if rs.isEmpty then 2 else Redirection.keptErrors s) (settings ++ c.fields)
        if !isNamed then
          Builtin.perform none (do return (← get).outputStatus)
          pure (← get).status
        else invoke n m c kind
    if !rs.isEmpty then Redirection.pop isExec
    Redirection.unwind before.saves.length limit
    leaveTo before.locals.length limit
    return status

def invoke (n : Nat) (m : Manner) (c : Call) (kind : Search.Kind) : Act Nat :=
  match n with
  | 0 => asleep
  | n + 1 => do
    let args := c.argv.drop 1
    match kind with
    | .function f =>
      apply n m f args
      return (← get).status
    | .builtin =>
      let done ← Act.caught (Builtin.perform (some c.name) (builtin n m c.name args))
      match done with
      | .ok () => return (← get).status
      | .error .mistake => if c.isSpecial = some true then throw .mistake else return (← get).status
      | .error stop => throw stop
    | .program =>
      let other := if c.isUsual then some standardPath else none
      let found ← if c.name.contains Byte.slash then pure (.ok 0) else Search.locateAlong other c.name
      match found with
      | .error e =>
        Code.complain (c.name ++ text ": " ++ Search.failure e)
        return 127
      | .ok index =>
        let s : Shell ← get
        let path := other.or (s.value? (text "PATH"))
        if m.isLast ∧ !hasTraps s then become c.argv path index
        else Children.run { shell := s, task := .program c.argv path index }

def builtin (n : Nat) (m : Manner) (name : Bytes) (args : List Bytes) : Act Nat :=
  match n with
  | 0 => asleep
  | n + 1 =>
    if name = text "eval" then
      if args = [] then pure 0 else lines n { isTested := m.isTested } { rest := Bytes.joinWith [Byte.space] args } 0
    else if name = text "." then do
      match ← Arguments.plain args with
      | [] => return 0
      | file :: _ =>
        let (path, source) ← scriptNamed file
        modify (fun s : Shell => { s with speaker := some path })
        let status ← lines n {} { rest := source, isShown := true } 0
        returned
        return status
    else if name = text "exec" then do
      match args with
      | [] => return 0
      | argv => become argv ((← get).value? (text "PATH")) 0
    else
      match Builtin.table.lookup name with
      | some body => body args
      | none => pure 0

def apply (n : Nat) (m : Manner) (f : Function) (args : List Bytes) : Act Unit :=
  match n with
  | 0 => asleep
  | n + 1 => do
    let s : Shell ← get
    if maxDepth ≤ s.depth then
      Act.fail (text "Maximum function recursion depth (" ++ Bytes.decimal maxDepth ++ text ") reached")
    modify (fun s : Shell => { s.withArgs args with loops := 0, depth := s.depth + 1 })
    let done ← Act.caught (tree n { isTested := m.isTested } f.body)
    modify (fun t : Shell =>
      { t with
        args := s.args
        optionIndex := s.optionIndex
        optionOffset := s.optionOffset
        loops := s.loops
        depth := s.depth })
    returned
    match done with
    | .ok _ => pure ()
    | .error stop => throw stop

def one (n : Nat) (m : Manner) (c : Command) : Act Nat :=
  match n with
  | 0 => asleep
  | n + 1 => do
    let tested : Manner := { isTested := true }
    match c with
    | .simple line assignments words redirects =>
      atLine line
      simple n m assignments words redirects
    | .pipeline stages inBackground =>
      let number ← Children.begin
      startStages number inBackground m.isTested none stages
      if inBackground then return 0 else Children.await number
    | .negated c =>
      let status ← tree n tested c
      if skips (← get) then return status else return if status = 0 then 1 else 0
    | .both first second =>
      let status ← tree n tested first
      if status ≠ 0 ∨ skips (← get) then return status else tree n m second
    | .either first second =>
      let status ← tree n tested first
      if status = 0 ∨ skips (← get) then return status else tree n m second
    | .sequence cs => list n m cs
    | .background line c redirects =>
      atLine line
      let rs ← Redirection.planned redirects
      let number ← Children.begin
      Children.start number
        { inBackground := true, readsNothing := true, shell := ← get, task := .subshell c rs false }
      return 0
    | .subshell line body redirects =>
      atLine line
      let rs ← Redirection.planned redirects
      let s : Shell ← get
      if m.isLast ∧ !hasTraps s then
        Redirection.apply false rs
        list n m body
      else Children.run { shell := s, task := .subshell (.sequence body) rs m.isTested }
    | .redirected line c redirects =>
      atLine line
      let rs ← Redirection.planned redirects
      let status ← if ← Redirection.attempt rs then tree n { isTested := m.isTested } c else pure 2
      if !rs.isEmpty then Redirection.pop false
      return status
    | .branch condition yes no =>
      let status ← list n tested condition
      if skips (← get) then return status
      else if status = 0 then list n m yes
      else
        match no with
        | some c => tree n m c
        | none => return 0
    | .loop untilTrue condition body =>
      modify (fun s : Shell => { s with loops := s.loops + 1 })
      let status ← rounds n { isTested := m.isTested } untilTrue condition body 0
      modify (fun s : Shell => { s with loops := s.loops - 1 })
      return status
    | .each line name words body =>
      atLine line
      let items ← Expand.allFields words
      modify (fun s : Shell => { s with loops := s.loops + 1 })
      let status ← eachOf n { isTested := m.isTested } name items body 0
      modify (fun s : Shell => { s with loops := s.loops - 1 })
      return status
    | .choose line word cases =>
      atLine line
      let value ← Expand.single word
      firstFit n m value cases
    | .define line name body =>
      modify (fun s : Shell =>
        { s with
          functions := (name, ⟨line, body⟩) :: s.functions.filter (·.1 != name)
          tracked := s.tracked.filter (·.1 != name) })
      return 0

def rounds (n : Nat) (m : Manner) (untilTrue : Bool) (condition body : List Command) (last : Nat) : Act Nat :=
  match n with
  | 0 => asleep
  | n + 1 => do
    let status ← list n { isTested := true } condition
    let s : Shell ← get
    if skips s then
      let last := if s.skip = .returning true then status else last
      if ← afterRound then rounds n m untilTrue condition body last else return last
    else if (status == 0) == untilTrue then return last
    else
      let last ← list n m body
      if ← afterRound then rounds n m untilTrue condition body last else return last

def eachOf (n : Nat) (m : Manner) (name : Bytes) (items : List Bytes) (body : List Command) (last : Nat) : Act Nat :=
  match n with
  | 0 => asleep
  | n + 1 =>
    match items with
    | [] => pure last
    | item :: rest => do
      Act.assign name item
      let last ← list n m body
      if ← afterRound then eachOf n m name rest body last else return last

def firstFit (n : Nat) (m : Manner) (value : Bytes) (cases : List (List Word × List Command)) : Act Nat :=
  match n with
  | 0 => asleep
  | n + 1 => do
    match cases with
    | [] => return 0
    | (patterns, body) :: rest =>
      if skips (← get) then return 0
      else if ← fitsAny n value patterns then
        if body.isEmpty then return 0 else list n m body
      else firstFit n m value rest

/-- Whether a value fits one of several patterns, each of which is looked at only if it has to be. -/
def fitsAny (n : Nat) (value : Bytes) (patterns : List Word) : Act Bool :=
  match n with
  | 0 => asleep
  | n + 1 =>
    match patterns with
    | [] => pure false
    | p :: rest => do if Pattern.fits (← Expand.pattern p) value then return true else fitsAny n value rest

end

/-! ## Whole shells -/

def cleared (stop : Option Stop) : Code Unit := do
  modify (fun s : Shell =>
    { s with
      status := if stop = some .leaving then s.found.getD s.status else s.status
      found := none
      skip := .nothing
      loops := 0
      isTracing := false })
  Redirection.unwind 0 limit

/-- End a shell: run the action for the end, and give the status the shell ends with. -/
def ending (stop : Option Stop) : Code Nat := do
  if stop.isSome then cleared stop
  let s : Shell ← get
  match s.traps.lookup 0 with
  | none => return s.status
  | some action =>
    modify (fun s : Shell =>
      { s with traps := s.traps.filter (·.1 != 0), found := some s.status, skip := .nothing })
    match ← (lines limit {} { rest := action } 0).run with
    | .ok _ => return s.status
    | .error .leaving =>
      let t : Shell ← get
      return t.found.getD s.status
    | .error _ =>
      let t : Shell ← get
      return t.status

def whole (body : Act Nat) : Code Nat := do
  match ← body.run with
  | .ok _ => ending none
  | .error stop => ending (some stop)

/-- What a process hears that runs in the background. -/
def retire (readsNothing : Bool) : Code Unit := do
  Attention.ignore SignalNumber.interrupt
  Attention.ignore SignalNumber.quit
  if readsNothing then
    Code.close 0
    discard (Code.call (.openFile (text "/dev/null") .input))

end Run

end LanguageClient.Host.Shell

namespace LanguageClient.Host

def Job.code (j : Job) : Code Nat := do
  Shell.Attention.reset
  if j.inBackground then Shell.Run.retire j.readsNothing
  j.changes.forM (fun c => do discard (Code.call (.change c)))
  match j.task with
  | .commands c isTested => Shell.Run.whole (Shell.Run.tree Shell.Run.limit ⟨isTested, true⟩ c)
  | .subshell c redirections isTested =>
    Shell.Run.whole (do
      Shell.Redirection.apply false redirections
      Shell.Run.tree Shell.Run.limit ⟨isTested, true⟩ c)
  | .program argv path index =>
    discard (Shell.Run.become (α := Nat) argv path index).run
    let s : Shell ← get
    return s.status
  | .text fd b =>
    [SignalNumber.interrupt, SignalNumber.quit, SignalNumber.hangup].forM (fun signal =>
      Code.call (.dispose signal .ignored))
    Code.call (.dispose SignalNumber.pipe .standard)
    Code.write fd b
    return 0

end LanguageClient.Host
