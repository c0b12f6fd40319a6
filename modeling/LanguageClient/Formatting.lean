import LanguageClient.Json
/-
  LanguageClient.Formatting — how a document is to be formatted, and places in a document.

  A caller names the formatting options it cares about; the others take their defaults.
  Lines and characters are counted from 0 in the protocol and from 1 in what is printed.
-/

namespace LanguageClient

structure FormattingOptions where
  tabSize : Int := 2
  insertSpaces : Bool := true
  trimTrailingWhitespace : Bool := true
  insertFinalNewline : Bool := true
  trimFinalNewlines : Bool := true
  deriving DecidableEq, Repr

/-- A choice of formatting options that may leave any of them open. -/
structure FormattingChoice where
  tabSize : Option Int := none
  insertSpaces : Option Bool := none
  trimTrailingWhitespace : Option Bool := none
  insertFinalNewline : Option Bool := none
  trimFinalNewlines : Option Bool := none
  deriving DecidableEq, Repr

def FormattingChoice.resolve (c : FormattingChoice) : FormattingOptions :=
  let standard : FormattingOptions := {}
  { tabSize := c.tabSize.getD standard.tabSize
    insertSpaces := c.insertSpaces.getD standard.insertSpaces
    trimTrailingWhitespace := c.trimTrailingWhitespace.getD standard.trimTrailingWhitespace
    insertFinalNewline := c.insertFinalNewline.getD standard.insertFinalNewline
    trimFinalNewlines := c.trimFinalNewlines.getD standard.trimFinalNewlines }

def FormattingOptions.toJson (o : FormattingOptions) : Json :=
  .ofMembers [("tabSize", .int o.tabSize), ("insertSpaces", .bool o.insertSpaces),
    ("trimTrailingWhitespace", .bool o.trimTrailingWhitespace), ("insertFinalNewline", .bool o.insertFinalNewline),
    ("trimFinalNewlines", .bool o.trimFinalNewlines)]

inductive Severity where
  | error
  | warning
  | information
  | hint
  deriving DecidableEq, Repr

namespace Severity

def name : Severity → Bytes
  | error => text "error"
  | warning => text "warning"
  | information => text "info"
  | hint => text "hint"

def all : List Severity := [error, warning, information, hint]

def ofCode? (n : Int) : Option Severity := if n < 1 then none else all[n.toNat - 1]?

def code (s : Severity) : Int := all.idxOf s + 1

def nameOf (code : Int) : Bytes := ((ofCode? code).map name).getD (text "unknown")

end Severity

structure Position where
  line : Int := 0
  character : Int := 0
  deriving DecidableEq, Repr

namespace Position

def written (p : Position) : Bytes := Bytes.ofInt (p.line + 1) ++ Byte.colon :: Bytes.ofInt (p.character + 1)

def toJson (p : Position) : Json := .ofMembers [("line", .int p.line), ("character", .int p.character)]

def ofJson (j : Json) : Json.Reading Position := do
  let line ← (← j.need "line").asNumber
  let character ← (← j.need "character").asNumber
  return ⟨line, character⟩

end Position

structure Range where
  start : Position := {}
  stop : Position := {}
  deriving DecidableEq, Repr

namespace Range

def written (r : Range) : Bytes := r.start.written ++ Byte.minus :: r.stop.written

def toJson (r : Range) : Json := .ofMembers [("start", r.start.toJson), ("end", r.stop.toJson)]

def ofJson (j : Json) : Json.Reading Range := do
  let start ← Position.ofJson (← j.need "start")
  let stop ← Position.ofJson (← j.need "end")
  return ⟨start, stop⟩

end Range

end LanguageClient
