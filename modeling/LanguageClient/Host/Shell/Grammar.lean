import LanguageClient.Host.Shell.Reader
/-
  LanguageClient.Host.Shell.Grammar — reading commands from the text of a script.

  A script is read and run line by line, so a fault in a later line does not keep the
  earlier ones from running: `line` reads the commands of the next line, which goes on as
  long as a command is not complete. The token at which a script cannot be read on is named
  in the fault, with the one that was expected.
-/

namespace LanguageClient.Host.Shell

namespace Reader

/-- The parts of a double quoted word; a list of all arguments that stands alone needs no quotes. -/
def quotedParts : List Part → List Part
  | [.parameter name .value true] =>
    if name = text "@" then [.parameter name .value true] else [.quotes, .parameter name .value true]
  | inner => .quotes :: inner

mutual

/-- The parts of a word, up to a byte at which `stop` holds. -/
def parts (n : Nat) (q : Quoting) (inBraces : Bool) (stop : UInt8 → Bool) : Reader (List Part) :=
  match n with
  | 0 => out
  | n + 1 => do
    match ← peek with
    | none => return []
    | some b =>
      if stop b then return []
      else
        let first ← piece n q inBraces stop b
        let others ← parts n q inBraces stop
        return first ++ others

def between (n : Nat) (inBraces : Bool) : Reader (List Part) :=
  match n with
  | 0 => out
  | n + 1 => do
    skip 1
    let inner ← parts n .double inBraces (· == doubleQuote)
    if (← peek).isNone then failAtEnd "Unterminated quoted string"
    skip 1
    return inner

def piece (n : Nat) (q : Quoting) (inBraces : Bool) (stop : UInt8 → Bool) (b : UInt8) : Reader (List Part) :=
  match n with
  | 0 => out
  | n + 1 => do
    if b = quote ∧ q = .bare then
      skip 1
      let s ← takeRun (· != quote)
      if (← peek).isNone then failAtEnd "Unterminated quoted string"
      skip 1
      return [.quotes, .quoted s]
    else if b = doubleQuote ∧ q = .bare then return quotedParts (← between n inBraces)
    else if b = doubleQuote ∧ inBraces then between n true
    else if b = backslash then
      match ← take 2 with
      | [_, 10] => return []
      | [_, c] =>
        let isEscape := q = .bare ∨ c = backslash ∨ c = backtick ∨ c = dollar ∨ (c = closeBrace ∧ inBraces)
          ∨ (c = doubleQuote ∧ (q = .double ∨ inBraces))
        return if isEscape then [.quoted [c]] else [.quoted [backslash, c]]
      | _ => return [.quoted [backslash]]
    else if b = dollar then expansion n q
    else if b = backtick then
      skip 1
      match backquoted (← rest) with
      | none => failAtEnd "EOF in backquote substitution"
      | some k =>
        let body := unescape q (← take k)
        skip 1
        let after ← get
        set ({ rest := body, aliases := after.aliases } : Cursor)
        let commands ← list n true
        set after
        return [.output commands (q != .bare)]
    else
      let first ← take 1
      let more ← takeRun (fun c => !stop c && !isActive q c)
      return if q = .bare then [.plain (first ++ more)] else [.quoted (first ++ more)]

def expansion (n : Nat) (q : Quoting) : Reader (List Part) :=
  match n with
  | 0 => out
  | n + 1 => do
    skip 1
    let isQuoted := q != .bare
    let r ← rest
    if (text "((").isPrefixOf r then
      skip 2
      return [.arithmetic (← expression n 0) isQuoted]
    else if r.head? = some openParen then
      skip 1
      let body ← list n true
      expect n (opening false) (.ofSign ")")
      return [.output body isQuoted]
    else if r.head? = some openBrace then
      skip 1
      return [← braced n q]
    else
      match r.head? with
      | none => return if isQuoted then [.quoted [dollar]] else [.plain [dollar]]
      | some b =>
        if isNameStart b then
          let name ← takeRun isNameByte
          return [.parameter name .value isQuoted]
        else if isSpecialParameter b then
          skip 1
          return [.parameter [b] .value isQuoted]
        else return if isQuoted then [.quoted [dollar]] else [.plain [dollar]]

def braced (n : Nat) (q : Quoting) : Reader Part :=
  match n with
  | 0 => out
  | n + 1 => do
    let r ← rest
    let second := (r.drop 1).head?
    if r.head? = some hash ∧ second.any (fun c => c == 95 || Byte.isAlnum c) then
      skip 1
      let name ← if second.any Byte.isDigit then take 1 else takeRun isNameByte
      if (← peek) = some closeBrace then
        skip 1
        return .parameter name .length (q != .bare)
      else used n q name (some .bad)
    else if r.head? = some hash ∧ second.isSome ∧ second ≠ some closeBrace ∧ (r.drop 2).head? = some closeBrace then
      skip 1
      let name ← take 1
      if second.any isSpecialParameter then
        skip 1
        return .parameter name .length (q != .bare)
      else used n q name (some .bad)
    else
      match r.head? with
      | none => failAtEnd "Missing '\x7d'"
      | some b =>
        if isNameStart b then used n q (← takeRun isNameByte) none
        else if Byte.isDigit b then used n q (← takeRun Byte.isDigit) none
        else if b = closeBrace then used n q [] (some .bad)
        else used n q (← take 1) (if isSpecialParameter b then none else some .bad)

def used (n : Nat) (q : Quoting) (name : Bytes) (fault : Option Use) : Reader Part :=
  match n with
  | 0 => out
  | n + 1 => do
    let isQuoted := q != .bare
    match fault with
    | some use =>
      discard (operand n q)
      return .parameter name use isQuoted
    | none =>
      if (← peek) = some closeBrace then
        skip 1
        return .parameter name .value isQuoted
      else
        let orEmpty := (← peek) = some Byte.colon
        if orEmpty then skip 1
        let sign ← takeUncounted
        if !orEmpty ∧ (sign = [hash] ∨ sign = [Byte.percent]) then
          let doubled := (← peek) = sign.head?
          if doubled then skip 1
          return .parameter name (.trim (sign == [hash]) doubled (← operand n .bare)) isQuoted
        else
          let w ← operand n q
          let use : Use := match sign with
            | [45] => .default orEmpty w
            | [61] => .assign orEmpty w
            | [43] => .alternative orEmpty w
            | [63] => .required orEmpty w
            | [125] => .value
            | _ => .bad
          return .parameter name use isQuoted

def operand (n : Nat) (q : Quoting) : Reader (List Part) :=
  match n with
  | 0 => out
  | n + 1 => do
    let w ← parts n q true (· == closeBrace)
    if (← peek).isNone then failAtEnd (if q = .double then "Unterminated quoted string" else "Missing '\x7d'")
    skip 1
    return w

def expression (n : Nat) (depth : Nat) : Reader (List Part) :=
  match n with
  | 0 => out
  | n + 1 => do
    let r ← rest
    match r with
    | [] => failAtEnd "Missing '))'"
    | b :: r' =>
      if b = closeParen ∧ depth = 0 ∧ r'.head? = some closeParen then
        skip 2
        return []
      else
        let first ←
          if b = dollar ∨ b = backtick ∨ b = backslash then piece n .double false (fun _ => false) b
          else (fun s => [Part.quoted s]) <$> take 1
        let depth := if b = openParen then depth + 1 else if b = closeParen then depth - 1 else depth
        return first ++ (← expression n depth)

def word (n : Nat) : Reader Word :=
  match n with
  | 0 => out
  | n + 1 => parts n .bare false isDelimiter

/-- Say that the next token was not expected; it is read before it is named. -/
def unexpected {α : Type} (n : Nat) (look : Look) (expected : Option Token) : Reader α :=
  match n with
  | 0 => out
  | n + 1 => do
    let found ← token look
    match found with
    | .word => discard (word n)
    | .endOfFile => skip (← rest).length
    | .newline => skip 1
    | _ => pure ()
    let hint := match expected with
      | some t => text " (expecting " ++ t.name ++ text ")"
      | none => []
    fail (found.name ++ text " unexpected" ++ hint)

def expect (n : Nat) (look : Look) (expected : Token) : Reader Unit :=
  match n with
  | 0 => out
  | n + 1 => do
    if (← token look) = expected then takeToken expected else unexpected n look (some expected)

def redirect (n : Nat) : Reader Redirect :=
  match n with
  | 0 => out
  | n + 1 => do
    let digit ← takeRun Byte.isDigit
    let r ← rest
    let fdOr (usual : Nat) : Nat := (Bytes.toNat? digit).getD usual
    if (text "<<").isPrefixOf r then
      skip 2
      contentOf n (fdOr 0)
    else if (text "<&").isPrefixOf r then
      skip 2
      return .copy (fdOr 0) (← target n)
    else if (text ">&").isPrefixOf r then
      skip 2
      return .copy (fdOr 1) (← target n)
    else if (text "<>").isPrefixOf r then
      skip 2
      return .file (fdOr 0) .update false (← target n)
    else if (text ">>").isPrefixOf r then
      skip 2
      return .file (fdOr 1) .append false (← target n)
    else if (text ">|").isPrefixOf r then
      skip 2
      return .file (fdOr 1) .output true (← target n)
    else
      skip 1
      if r.head? = some less then return .file (fdOr 0) .input false (← target n)
      else return .file (fdOr 1) .output false (← target n)

def target (n : Nat) : Reader Word :=
  match n with
  | 0 => out
  | n + 1 => do if (← token {}) = .word then word n else unexpected n {} none

def contentOf (n : Nat) (fd : Nat) : Reader Redirect :=
  match n with
  | 0 => out
  | n + 1 => do
    let withoutTabs := (← peek) = some Byte.minus
    if withoutTabs then skip 1
    if (← token {}) ≠ .word then unexpected n {} none
    let (ending, isQuoted, k) := endWord none (← rest)
    skip k
    let before ← get
    let body ← takeText ending withoutTabs isQuoted
    if isQuoted then return .content fd [.quoted body]
    else
      let after ← get
      set ({ rest := body, line := before.line + before.owed + 1, aliases := after.aliases } : Cursor)
      let ps ← parts n .inText false (fun _ => false)
      set after
      return .content fd ps

def redirects (n : Nat) : Reader (List Redirect) :=
  match n with
  | 0 => out
  | n + 1 => do
    if (← token (opening false)) = .redirection then
      let r ← redirect n
      return r :: (← redirects n)
    else return []

/-- A simple command: what it has so far is collected, last first. It stands in the line in which its
first word ends. -/
def simple (n : Nat) (line? : Option Nat) (assignments : List (Bytes × Word)) (words : List Word) (rs : List Redirect) :
    Reader Command :=
  match n with
  | 0 => out
  | n + 1 => do
    match ← token { aliases := words.isEmpty } with
    | .redirection => simple n line? assignments words ((← redirect n) :: rs)
    | .word =>
      let r ← rest
      let name := r.takeWhile isNameByte
      let isAssignment := words.isEmpty ∧ isName name ∧ (r.drop name.length).head? = some Byte.equals
      if isAssignment then skip (name.length + 1)
      let w ← word n
      let line? := some (line?.getD (← get).line)
      if isAssignment then simple n line? ((name, w) :: assignments) words rs
      else simple n line? assignments (w :: words) rs
    | t =>
      match if t = .ofSign "(" ∧ assignments.isEmpty ∧ rs.isEmpty then words else [] with
      | [w] =>
        skip 1
        expect n {} (.ofSign ")")
        match w with
        | [.plain name] =>
          if isName name ∧ !isSpecial name then
            discard (token (opening true))
            return .define (← get).line name (← command n)
          else fail (text "Bad function name")
        | _ => fail (text "Bad function name")
      | _ => return .simple (line?.getD (← get).line) assignments.reverse words.reverse rs.reverse

def words (n : Nat) : Reader (List Word) :=
  match n with
  | 0 => out
  | n + 1 => do
    if (← token {}) = .word then
      let w ← word n
      return w :: (← words n)
    else return []

def patterns (n : Nat) : Reader (List Word) :=
  match n with
  | 0 => out
  | n + 1 => do
    let w ← match ← token {} with
      | .word => word n
      | .redirection => do
        discard (takeRun Byte.isDigit)
        skip (redirectionLength (← rest))
        pure []
      | t => do
        takeToken t
        pure []
    if (← token {}) = .ofSign "|" then
      skip 1
      return w :: (← patterns n)
    else
      expect n {} (.ofSign ")")
      return [w]

def cases (n : Nat) : Reader (List (List Word × List Command)) :=
  match n with
  | 0 => out
  | n + 1 => do
    let look : Look := { lines := true, keywords := true }
    match ← token look with
    | .keyword k =>
      if k = text "esac" then
        skip 4
        return []
      else caseFrom n
    | t =>
      if t = .ofSign "(" then skip 1
      caseFrom n

def caseFrom (n : Nat) : Reader (List (List Word × List Command)) :=
  match n with
  | 0 => out
  | n + 1 => do
    let ps ← patterns n
    let body ← list n true
    let look : Look := { lines := true, keywords := true }
    if (← token look) = .ofKeyword "esac" then
      skip 4
      return [(ps, body)]
    else
      expect n look (.ofSign ";;")
      return (ps, body) :: (← cases n)

def branches (n : Nat) (condition : List Command) : Reader Command :=
  match n with
  | 0 => out
  | n + 1 => do
    expect n (opening true) (.ofKeyword "then")
    let yes ← list n false
    let t ← token (opening true)
    if t = .ofKeyword "elif" then
      skip 4
      let condition' ← list n false
      return .branch condition yes (some (← branches n condition'))
    else
      let no ← if t = .ofKeyword "else" then do
          skip 4
          pure (some (Command.sequence (← list n false)))
        else pure none
      expect n (opening true) (.ofKeyword "fi")
      return .branch condition yes no

def body (n : Nat) : Reader (List Command) :=
  match n with
  | 0 => out
  | n + 1 => do
    expect n (opening true) (.ofKeyword "do")
    let commands ← list n false
    expect n (opening true) (.ofKeyword "done")
    return commands

def eachLoop (n : Nat) (line : Nat) : Reader Command :=
  match n with
  | 0 => out
  | n + 1 => do
    let t ← token {}
    let w ← if t = .word then word n else pure []
    match w with
    | [.plain name] =>
      if !isName name then fail (text "Bad for loop variable")
      if (← token (opening true)) = .ofKeyword "in" then
        skip 2
        let ws ← words n
        match ← token {} with
        | .newline => skip 1
        | t => if t = .ofSign ";" then skip 1 else unexpected n {} none
        return .each line name ws (← body n)
      else
        if (← token (opening true)) = .ofSign ";" then skip 1
        return .each line name [[.parameter (text "@") .value true]] (← body n)
    | _ =>
      if t = .newline then skip 1
      fail (text "Bad for loop variable")

def compound (n : Nat) (line : Nat) (k : Bytes) : Reader Command :=
  match n with
  | 0 => out
  | n + 1 => do
    if k = text "if" then
      skip 2
      branches n (← list n false)
    else if k = text "while" ∨ k = text "until" then
      skip 5
      let condition ← list n false
      return .loop (k == text "until") condition (← body n)
    else if k = text "for" then
      skip 3
      eachLoop n line
    else if k = text "case" then
      skip 4
      if (← token {}) ≠ .word then unexpected n {} (some .word)
      let w ← word n
      expect n (opening true) (.ofKeyword "in")
      return .choose line w (← cases n)
    else if k = text "\x7b" then
      skip 1
      let commands ← list n false
      expect n (opening true) (.ofKeyword "\x7d")
      return .sequence commands
    else unexpected n (opening true) none

def command (n : Nat) : Reader Command :=
  match n with
  | 0 => out
  | n + 1 => do
    let line := (← get).line
    match ← token (opening false) with
    | .word => simple n none [] [] []
    | .redirection => simple n (some line) [] [] []
    | .keyword k =>
      let c ← compound n line k
      match ← redirects n with
      | [] => return c
      | rs => return .redirected line c rs
    | t =>
      if t = .ofSign "(" then
        skip 1
        let commands ← list n false
        expect n (opening true) (.ofSign ")")
        return .subshell line commands (← redirects n)
      else unexpected n (opening false) none

def stages (n : Nat) : Reader (List Command) :=
  match n with
  | 0 => out
  | n + 1 => do
    let c ← command n
    if (← token (opening false)) = .ofSign "|" then
      skip 1
      discard (token (opening true))
      return c :: (← stages n)
    else return [c]

def pipeline (n : Nat) : Reader Command :=
  match n with
  | 0 => out
  | n + 1 => do
    let isNegated := (← token (opening false)) = .ofKeyword "!"
    if isNegated then skip 1
    let c ← match ← stages n with
      | [c] => pure c
      | cs => pure (.pipeline cs false)
    return if isNegated then .negated c else c

def joined (n : Nat) (first : Command) : Reader Command :=
  match n with
  | 0 => out
  | n + 1 => do
    let t ← token (opening false)
    if t = .ofSign "&&" ∨ t = .ofSign "||" then
      skip 2
      discard (token (opening true))
      let second ← pipeline n
      joined n (if t = .ofSign "&&" then .both first second else .either first second)
    else return first

/-- One command of a list, in the background if a sign says so, and the sign that stands after it. -/
def item (n : Nat) : Reader (Command × Bool) :=
  match n with
  | 0 => out
  | n + 1 => do
    let line := (← get).line
    let first ← pipeline n
    let c ← joined n first
    let t ← token (opening false)
    if t = .ofSign "&" then
      skip 1
      return (match c with
        | .pipeline stages _ => .pipeline stages true
        | .redirected line c rs => .background line c rs
        | c => .background line c [], true)
    else if t = .ofSign ";" then
      skip 1
      return (c, true)
    else return (c, false)

def list (n : Nat) (canBeEmpty : Bool) : Reader (List Command) :=
  match n with
  | 0 => out
  | n + 1 => do
    let t ← token (opening true)
    if t = .endOfFile ∨ (canBeEmpty ∧ t.endsList) then return []
    else
      let (c, isParted) ← item n
      if isParted ∨ (← token (opening false)) = .newline then return c :: (← list n true)
      else return [c]

/-- The commands up to the end of a line, and whether the script ends with it. -/
def lineItems (n : Nat) : Reader (List Command × Bool) :=
  match n with
  | 0 => out
  | n + 1 => do
    match ← token (opening false) with
    | .endOfFile => return ([], true)
    | .newline =>
      skip 1
      return ([], false)
    | _ =>
      let (c, isParted) ← item n
      unless isParted do
        match ← token (opening false) with
        | .endOfFile => pure ()
        | .newline => pure ()
        | _ => unexpected n (opening false) none
      let (others, isEnd) ← lineItems n
      return (c :: others, isEnd)

end

/-- How many readers may call one another along a text. -/
def depthFor (c : Cursor) : Nat :=
  let aliases := c.aliases.foldl (fun n a => n + a.2.length) 0
  12 * (c.rest.length + 16 * aliases) + 64

/-- The commands of the next line, which may have none, and whether the script ends with it; nothing
at the end of the script. -/
def line : Reader (Option (List Command × Bool)) := do
  let c ← get
  if (← token (opening false)) = .endOfFile then return none
  else return some (← lineItems (depthFor c))

end Reader

end LanguageClient.Host.Shell
