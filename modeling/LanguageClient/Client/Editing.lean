import LanguageClient.Client.Features
/-
  LanguageClient.Client.Editing — the documents a client works on.

  The version of a document moves on whether or not there is a server to be told about it; a
  client that is not ready tells nobody. What a server is told is made from the version the
  document has then: it is told the whole text each time.
-/

namespace LanguageClient.Client

variable {η : Type}

/-- Move the documents on and tell the server about the version that one of them has now. -/
def revise (move : Documents → Nat × Documents) (method : Bytes) (params : Nat → Json) : Aside η Unit := do
  let c : Client η ← get
  let (version, documents) := move c.documents
  set { c with documents := documents }
  sendNotification method (params version)

def openDocument (uri : Bytes) (params : Nat → Json) : Aside η Unit :=
  revise (·.opened uri) (text "textDocument/didOpen") params

def updateDocument (uri : Bytes) (params : Nat → Json) : Aside η Unit :=
  revise (·.changed uri) (text "textDocument/didChange") params

def closeDocument (uri : Bytes) (params : Json) : Aside η Unit := do
  let c : Client η ← get
  set { c with documents := (c.documents.closed uri).2, published := c.published.forget uri }
  sendNotification (text "textDocument/didClose") params

/-! ## What a server is told -/

def openText (uri languageId content : Bytes) : Aside η Unit :=
  openDocument uri fun version => .ofMembers [("textDocument", .ofMembers [("uri", .str uri),
    ("languageId", .str languageId), ("version", .int version), ("text", .str content)])]

def updateText (uri content : Bytes) : Aside η Unit :=
  updateDocument uri fun version => .ofMembers [
    ("textDocument", .ofMembers [("uri", .str uri), ("version", .int version)]),
    ("contentChanges", .array [.ofMembers [("text", .str content)]])]

def closeText (uri : Bytes) : Aside η Unit := closeDocument uri (.ofMembers [documentMember uri])

end LanguageClient.Client
