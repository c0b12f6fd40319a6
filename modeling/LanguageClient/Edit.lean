import LanguageClient.Diagnostic
/-
  LanguageClient.Edit — what a server proposes to do to a document.

  An answer to the request for code actions lists actions and bare commands; a bare command is
  an action that has nothing else. What a client never looks into is kept as it was sent.
-/

namespace LanguageClient

structure TextEdit where
  range : Range := {}
  newText : Bytes := []
  deriving DecidableEq, Repr

def TextEdit.ofJson (j : Json) : Json.Reading TextEdit := do
  let range ← Range.ofJson (← j.need "range")
  let newText ← (← j.need "newText").asText
  return ⟨range, newText⟩

structure Command where
  title : Bytes
  command : Bytes
  arguments : Json := .null
  deriving DecidableEq, Repr

def Command.ofJson (j : Json) : Json.Reading Command := do
  let title ← (← j.need "title").asText
  let command ← (← j.need "command").asText
  return ⟨title, command, j.get "arguments"⟩

structure CodeAction where
  title : Bytes := []
  kind : Option Bytes := none
  diagnostics : List Diagnostic := []
  isPreferred : Bool := false
  /-- What it changes; null when it changes nothing by itself. -/
  edit : Json := .null
  command : Option Command := none
  /-- The action as it was sent. -/
  raw : Json := .null
  deriving DecidableEq, Repr

namespace CodeAction

def ofAction (j : Json) : Json.Reading CodeAction := do
  let title ← (← j.need "title").asText
  let kind ← j.optional "kind" Json.asText
  let diagnostics ← j.optional "diagnostics" (Json.asList Diagnostic.ofJson)
  let command ← if (j.get "command").isObject then some <$> Command.ofJson (j.get "command") else .ok none
  return { title := title
           kind := kind
           diagnostics := diagnostics.getD []
           isPreferred := j.flag "isPreferred"
           edit := j.get "edit"
           command := command
           raw := j }

/-- The action that a value stands for; where the command is a text, it is a bare command. -/
def ofJson (j : Json) : Json.Reading CodeAction :=
  if (j.get "command").text?.isSome then do
    let command ← Command.ofJson j
    return { title := command.title, command := some command, raw := j }
  else ofAction j

def unparsed (j : Json) : CodeAction := { raw := j }

end CodeAction

end LanguageClient
