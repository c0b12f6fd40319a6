import LanguageClient.Host.Shell.Command
/-
  LanguageClient.Host.Shell.Reader — reading words from the text of a script.

  A script is read from a cursor. What comes next is a token: a sign, the end of a line, a
  redirection, a keyword or a word; words are read into their parts. Where quotes stand
  decides which bytes mean something else, and so do the braces of a parameter. A word that
  begins a command may be an alias, whose text is then read in its place.

  The readers call one another along the nesting of the script, bounded by the number `n`
  that each passes on made smaller.
-/

namespace LanguageClient.Host.Shell

structure Cursor where
  rest : Bytes
  line : Nat := 1
  aliases : List (Bytes × Bytes) := []
  /-- The aliases whose texts are being read, each with how much stands after its text. -/
  inUse : List (Nat × Bytes) := []
  /-- How many lines are counted at the next end of a line, for the texts that have been taken
  from after it. -/
  owed : Nat := 0
  /-- Whether a text in the script went on to the end of what there is. -/
  isCut : Bool := false
  /-- Whether the script is in a file, so that its lines can be shown as they are read. -/
  isShown : Bool := false

structure Fault where
  line : Nat
  message : Bytes
  /-- Whether there was nothing left to read. -/
  atEnd : Bool

abbrev Reader := StateT Cursor (Except Fault)

namespace Reader

/-! ## Single bytes -/

def quote : UInt8 := 39
def doubleQuote : UInt8 := 34
def backslash : UInt8 := 92
def backtick : UInt8 := 96
def dollar : UInt8 := 36
def hash : UInt8 := 35
def openParen : UInt8 := 40
def closeParen : UInt8 := 41
def openBrace : UInt8 := 123
def closeBrace : UInt8 := 125
def semicolon : UInt8 := 59
def ampersand : UInt8 := 38
def bar : UInt8 := 124
def less : UInt8 := 60
def greater : UInt8 := 62

def isBlank (b : UInt8) : Bool := b == Byte.space || b == Byte.tab

def isOperator (b : UInt8) : Bool := [semicolon, ampersand, bar, less, greater, openParen, closeParen].contains b

def isDelimiter (b : UInt8) : Bool := isBlank b || b == Byte.lf || isOperator b

def isSpecialParameter (b : UInt8) : Bool := (text "@*#?-$!").contains b || Byte.isDigit b

/-- Where a word stands: by itself, between double quotes, or in a text that stands in the script. -/
inductive Quoting where
  | bare
  | double
  | inText
  deriving DecidableEq, Repr

def isActive (q : Quoting) (b : UInt8) : Bool :=
  b == doubleQuote || b == backslash || b == backtick || b == dollar || (b == quote && q == .bare)

/-! ## Moving on -/

def rest : Reader Bytes := do return (← get).rest

def peek : Reader (Option UInt8) := do return (← get).rest.head?

def take (k : Nat) : Reader Bytes := fun c =>
  let taken := c.rest.take k
  match taken.count Byte.lf with
  | 0 => .ok (taken, { c with rest := c.rest.drop k })
  | lines => .ok (taken, { c with rest := c.rest.drop k, line := c.line + lines + c.owed, owed := 0 })

def skip (k : Nat) : Reader Unit := discard (take k)

/-- Take a byte that does not count as the end of a line. -/
def takeUncounted : Reader Bytes := fun c => .ok (c.rest.take 1, { c with rest := c.rest.drop 1 })

def takeRun (p : UInt8 → Bool) : Reader Bytes := do take ((← rest).takeWhile p).length

def fail {α : Type} (message : Bytes) : Reader α := fun c =>
  .error ⟨c.line, text "Syntax error: " ++ message, c.rest.isEmpty⟩

def failAtEnd {α : Type} (message : String) : Reader α := do
  skip (← rest).length
  fail (text message)

def out {α : Type} : Reader α := fail (text "too deeply nested")

/-- How many bytes of blanks and comments come next; with `lines` also ends of lines. -/
def gapLength (lines : Bool) (inComment : Bool) : Bytes → Nat
  | [] => 0
  | 92 :: 10 :: r =>
    if inComment then (if lines then gapLength lines false r + 2 else 1) else gapLength lines false r + 2
  | b :: r =>
    if b = Byte.lf then (if lines then gapLength lines false r + 1 else 0)
    else if inComment then gapLength lines true r + 1
    else if isBlank b then gapLength lines false r + 1
    else if b = hash then gapLength lines true r + 1
    else 0

/-! ## Tokens -/

inductive Token where
  | endOfFile
  | newline
  | sign (s : Bytes)
  | redirection
  | keyword (s : Bytes)
  | word
  deriving DecidableEq, Repr

namespace Token

def ofSign (s : String) : Token := sign (text s)

def ofKeyword (s : String) : Token := keyword (text s)

def name : Token → Bytes
  | endOfFile => text "end of file"
  | newline => text "newline"
  | sign s => text "\"" ++ s ++ text "\""
  | redirection => text "redirection"
  | keyword s => text "\"" ++ s ++ text "\""
  | word => text "word"

def endsList : Token → Bool
  | endOfFile => true
  | sign s => s == text ")" || s == text ";;"
  | keyword s => (["do", "done", "elif", "else", "esac", "fi", "then", "\x7d"].map text).contains s
  | _ => false

end Token

def keywords : List Bytes :=
  (["!", "case", "do", "done", "elif", "else", "esac", "fi", "for", "if", "in", "then", "until", "while", "\x7b",
    "\x7d"]).map text

def signs : List Bytes := (["&&", "||", ";;", "&", "|", ";", "(", ")"]).map text

def rawAhead : Reader Bytes := do return (← rest).takeWhile (!isDelimiter ·)

/-- Put a sign or a plain word together that goes on in the next line. -/
def mend : Nat → Reader Unit
  | 0 => pure ()
  | n + 1 => do
    let c ← get
    let head := match c.rest with
      | b :: _ => if isOperator b then [b] else c.rest.takeWhile (fun b => !isDelimiter b && !isActive .bare b)
      | [] => []
    match c.rest.drop head.length with
    | 92 :: 10 :: r =>
      if head = [] ∨ head = [openParen] ∨ head = [closeParen] then pure ()
      else
        set { c with rest := head ++ r, line := c.line + 1 + c.owed, owed := 0 }
        mend n
    | _ => pure ()

def isRedirection (r : Bytes) : Bool := r.head?.any (fun b => b == less || b == greater)

def redirectionLength (r : Bytes) : Nat :=
  (((["<<-", "<<", "<&", ">&", "<>", ">>", ">|"]).map text).find? (·.isPrefixOf r)).elim 1 List.length

/-- What a token is looked for as: whether ends of lines are skipped, keywords are known and aliases replaced. -/
structure Look where
  lines : Bool := false
  keywords : Bool := false
  aliases : Bool := false

/-- The next token, which stays where it is; only an alias before it is replaced, at most `n` times. -/
def tokenFrom : Nat → Look → Reader Token
  | 0, _ => out
  | n + 1, look => do
    skip (gapLength look.lines false (← rest))
    mend (← rest).length
    let c ← get
    let (ended, inUse) := c.inUse.partition (fun u => c.rest.length ≤ u.1)
    set { c with inUse := inUse }
    let opensAliases := ended.any (fun u => ((c.aliases.lookup u.2).bind (·.getLast?)).any isBlank)
    match c.rest with
    | [] => return .endOfFile
    | b :: r =>
      if b = Byte.lf then return .newline
      else if isRedirection c.rest ∨ (Byte.isDigit b ∧ isRedirection r) then return .redirection
      else
        match signs.find? (·.isPrefixOf c.rest) with
        | some s => return .sign s
        | none =>
          let raw ← rawAhead
          if look.keywords ∧ keywords.contains raw then return .keyword raw
          else
            let value? := if look.aliases ∨ opensAliases then c.aliases.lookup raw else none
            match value? with
            | none => return .word
            | some value =>
              if inUse.any (·.2 == raw) then return .word
              else
                let after := c.rest.drop raw.length
                set { c with rest := value ++ after, inUse := (after.length, raw) :: inUse }
                tokenFrom n look

def token (look : Look) : Reader Token := do tokenFrom ((← get).aliases.length + 2) look

def opening (lines : Bool) : Look := ⟨lines, true, true⟩

def Token.width : Token → Nat
  | newline => 1
  | sign s => s.length
  | keyword s => s.length
  | _ => 0

def takeToken (t : Token) : Reader Unit := skip t.width

/-! ## Texts in the script -/

/-- A word that ends a text in the script, without its quotes, whether it has any, and how
long it is as it is written. -/
def endWord (open? : Option UInt8) : Bytes → Bytes × Bool × Nat
  | [] => ([], false, 0)
  | b :: r =>
    let keep (b : UInt8) (rest : Bytes × Bool × Nat) : Bytes × Bool × Nat := (b :: rest.1, rest.2.1, rest.2.2 + 1)
    let drop (rest : Bytes × Bool × Nat) : Bytes × Bool × Nat := (rest.1, true, rest.2.2 + 1)
    match open? with
    | some q => if b = q then drop (endWord none r) else keep b (endWord open? r)
    | none =>
      if b = quote ∨ b = doubleQuote then drop (endWord (some b) r)
      else if b = backslash then
        match r with
        | c :: r' => drop (keep c (endWord none r'))
        | [] => ([b], false, 1)
      else if isDelimiter b then ([], false, 0)
      else keep b (endWord none r)

/-- Whether a line goes on in the next one: it ends in a backslash that is not itself escaped. -/
def goesOn (line : Bytes) : Bool := (line.reverse.takeWhile (· == backslash)).length % 2 == 1

/-- The lines of a text up to one that is `word`, what follows that line, how many lines that
takes, and whether there was no such line. In a text that is not quoted a line may go on in the
next one, which then ends nothing. -/
def textUntil (word : Bytes) (withoutTabs isQuoted continues : Bool) : List Bytes → Bytes × List Bytes × Nat × Bool
  | [] => ([], [], 0, true)
  | raw :: rest =>
    let line := if withoutTabs ∧ !continues then raw.dropWhile (· == Byte.tab) else raw
    if line = word ∧ !continues then ([], rest, 1, false)
    else if rest = [] then (line, [], 0, true)
    else
      let (body, after, k, isCut) := textUntil word withoutTabs isQuoted (!isQuoted && goesOn line) rest
      (line ++ [Byte.lf] ++ body, after, k + 1, isCut)

def lineLength (open? : Option UInt8) (atStart : Bool) : Bytes → Option Nat
  | [] => none
  | b :: r =>
    match open? with
    | some q =>
      if b = backslash ∧ q = doubleQuote then
        match r with
        | _ :: r' => (lineLength open? false r').map (· + 2)
        | [] => none
      else (lineLength (if b = q then none else open?) false r).map (· + 1)
    | none =>
      if b = Byte.lf then some 0
      else if b = hash ∧ atStart then (Bytes.cutAt Byte.lf (b :: r)).map (·.1.length)
      else if b = backslash then
        match r with
        | _ :: r' => (lineLength none false r').map (· + 2)
        | [] => none
      else (lineLength (if b = quote ∨ b = doubleQuote then some b else none) (isDelimiter b) r).map (· + 1)

def takeText (word : Bytes) (withoutTabs isQuoted : Bool) : Reader Bytes := fun c =>
  match lineLength none false c.rest with
  | none => .ok ([], { c with isCut := true })
  | some k =>
    let after := c.rest.drop (k + 1)
    let (body, rest, lines, isCut) := textUntil word withoutTabs isQuoted false (after.splitOn Byte.lf)
    let left := c.rest.take k ++ (if isCut then [Byte.lf] else Byte.lf :: Bytes.joinWith [Byte.lf] rest)
    .ok (body, { c with rest := left, owed := c.owed + lines, isCut := c.isCut || isCut })

/-! ## Backquotes -/

/-- What is left of a text in backquotes when its escapes are taken off. -/
def unescape (q : Quoting) : Bytes → Bytes
  | 92 :: b :: r =>
    if b = Byte.lf then unescape q r
    else if b = backtick ∨ b = backslash ∨ b = dollar ∨ (b = doubleQuote ∧ q = .double) then b :: unescape q r
    else 92 :: b :: unescape q r
  | b :: r => b :: unescape q r
  | [] => []

def backquoted : Bytes → Option Nat
  | [] => none
  | 92 :: _ :: r => (backquoted r).map (· + 2)
  | b :: r => if b = backtick then some 0 else (backquoted r).map (· + 1)

end Reader

end LanguageClient.Host.Shell
