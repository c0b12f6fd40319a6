import LanguageClient.Client.Session
import LanguageClient.Completion
/-
  LanguageClient.Client.Features — what a server is asked about a document.

  Each answer is a list. A server is asked only for what it has declared that it offers; otherwise
  the list is empty. An item that cannot be read never fails a list: it is kept as it was sent
  where that is possible, and else left out.
-/

namespace LanguageClient.Client

variable {η α : Type}

structure Items (α : Type) where
  read : Json → Json.Reading α
  /-- What stands for an item that cannot be read. -/
  unparsed? : Json → Option α := fun _ => none

namespace Items

def readOne (items : Items α) (method : Bytes) (j : Json) : Option α × Option Log.Entry :=
  match items.read j with
  | .ok a => (some a, none)
  | .error fault =>
    let kept := items.unparsed? j
    let wording := if kept.isSome then text "Keeping unparsed " else text "Skipping malformed "
    (kept, some (debug (wording ++ method ++ text " item: " ++ fault.message)))

def readAll (items : Items α) (method : Bytes) (js : List Json) : List α × List Log.Entry :=
  (js.filterMap fun j => (items.readOne method j).1, js.filterMap fun j => (items.readOne method j).2)

end Items

/-! ## Asking -/

def malformed (method wording : Bytes) : Error :=
  .of .protocol (text "Malformed " ++ method ++ text " result: " ++ wording) none

def listIn (method : Bytes) : Json → Except Error (List Json)
  | .null => .ok []
  | .array items => .ok items
  | _ => .error (malformed method (text "expected an array"))

/-- A list of completions may be a member of the answer. -/
def completionsIn (method : Bytes) (answer : Json) : Except Error (List Json) :=
  match answer with
  | .null => .ok []
  | .array items => .ok items
  | other => (other.get? "items").elim (.error (malformed method other.written)) (listIn method)

/-- The diagnostics of a document are a member of the answer; other answers have none. -/
def diagnosticsIn (method : Bytes) (answer : Json) : Except Error (List Json) := listIn method (answer.get "items")

def requestList (method : Bytes) (params : Json) (found : Bytes → Json → Except Error (List Json)) (items : Items α) :
    Action η (Except Error (List α)) := do
  match ← request method params with
  | .error e => return .error e
  | .ok answer =>
    match found method answer with
    | .error e => return .error e
    | .ok js =>
      (items.readAll method js).2.forM Routine.log
      return .ok (items.readAll method js).1

/-- Ask for a list when the server offers it. -/
def askForList (offer : Capability) (method : Bytes) (params : Json)
    (found : Bytes → Json → Except Error (List Json)) (items : Items α) : Action η (Except Error (List α)) := do
  let c : Client η ← get
  if c.declared.supports offer then requestList method params found items else return .ok []

def documentMember (uri : Bytes) : String × Json := ("textDocument", .ofMembers [("uri", .str uri)])

def completions (uri : Bytes) (position : Position) : Action η (Except Error (List CompletionItem)) :=
  let params := Json.ofMembers [documentMember uri, ("position", position.toJson),
    ("context", .ofMembers [("triggerKind", .int 1)])]
  askForList .completion (text "textDocument/completion") params completionsIn
    ⟨CompletionItem.ofJson, fun j => some (.unparsed j)⟩

def codeActions (uri : Bytes) (diagnostics : List Diagnostic) (range : Range) :
    Action η (Except Error (List CodeAction)) :=
  let params := Json.ofMembers [documentMember uri, ("range", range.toJson),
    ("context", .ofMembers [("diagnostics", .array (diagnostics.map Diagnostic.toJson))])]
  askForList .codeAction (text "textDocument/codeAction") params listIn
    ⟨CodeAction.ofJson, fun j => some (.unparsed j)⟩

def formatEdits (uri : Bytes) (choice : FormattingChoice) : Action η (Except Error (List TextEdit)) :=
  let params := Json.ofMembers [documentMember uri, ("options", choice.resolve.toJson)]
  askForList .formatting (text "textDocument/formatting") params listIn { read := TextEdit.ofJson }

/-- Ask for the diagnostics of a document; whatever goes wrong, there are none then. -/
def pullDiagnostics (uri : Bytes) : Action η (List Diagnostic) := do
  let c : Client η ← get
  if c.declared.supports .diagnostic then
    let params := Json.ofMembers [documentMember uri]
    match ← requestList (text "textDocument/diagnostic") params diagnosticsIn { read := Diagnostic.ofJson } with
    | .ok diagnostics => return diagnostics
    | .error e =>
      Routine.log (debug (text "Pull diagnostics failed for " ++ uri ++ text ": " ++ e.message))
      return []
  else return []

end LanguageClient.Client
