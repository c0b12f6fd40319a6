import LanguageClient.Edit
/-
  LanguageClient.Completion — what a server proposes to go on with in a document.
-/

namespace LanguageClient

inductive InsertTextFormat where
  | plainText
  | snippet
  deriving DecidableEq, Repr

def InsertTextFormat.ofCode? (n : Int) : Option InsertTextFormat :=
  if n = 1 then some plainText else if n = 2 then some snippet else none

structure CompletionItem where
  label : Bytes := []
  kind : Option Int := none
  detail : Option Bytes := none
  documentation : Option Bytes := none
  deprecated : Bool := false
  insertText : Option Bytes := none
  insertTextFormat : Option InsertTextFormat := none
  textEdit : Option TextEdit := none
  additionalTextEdits : List TextEdit := []
  sortText : Option Bytes := none
  filterText : Option Bytes := none
  data : Json := .null
  /-- The item as it was sent. -/
  raw : Json := .null
  deriving DecidableEq, Repr

namespace CompletionItem

/-- A documentation is a text, or an object that has the text as its value. -/
def documentationOf (j : Json) : Json.Reading (Option Bytes) :=
  match j with
  | .str s => .ok (some s)
  | .object _ => some <$> ((j.get? "value").getD (.str [])).asText
  | _ => .ok none

/-- An edit, which may have one range to insert in and another to replace; the first of them counts. -/
def editOf (j : Json) : Json.Reading (Option TextEdit) :=
  if (j.get? "range").isSome then some <$> TextEdit.ofJson j
  else if (j.get? "insert").isSome then do
    let range ← Range.ofJson (← j.need "insert")
    let newText ← (← j.need "newText").asText
    return some ⟨range, newText⟩
  else .ok none

def ofJson (j : Json) : Json.Reading CompletionItem := do
  let label ← (← j.need "label").asText
  let kind ← j.optional "kind" Json.asNumber
  let detail ← j.optional "detail" Json.asText
  let documentation ← documentationOf (j.get "documentation")
  let insertText ← j.optional "insertText" Json.asText
  let format ← j.optional "insertTextFormat" Json.asNumber
  let textEdit ← editOf (j.get "textEdit")
  let edits ← j.optional "additionalTextEdits" (Json.asList TextEdit.ofJson)
  let sortText ← j.optional "sortText" Json.asText
  let filterText ← j.optional "filterText" Json.asText
  return { label := label
           kind := kind
           detail := detail
           documentation := documentation
           deprecated := j.flag "deprecated"
           insertText := insertText
           insertTextFormat := format.bind InsertTextFormat.ofCode?
           textEdit := textEdit
           additionalTextEdits := edits.getD []
           sortText := sortText
           filterText := filterText
           data := j.get "data"
           raw := j }

def unparsed (j : Json) : CompletionItem := { raw := j }

end CompletionItem

end LanguageClient
