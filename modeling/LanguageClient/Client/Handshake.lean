import LanguageClient.Client.Features
import LanguageClient.Path.FileUri
/-
  LanguageClient.Client.Handshake — bringing a server up to where it can be used.

  A server that has been started is greeted: it is asked to initialise, its answer says what
  it can do, and it is told that it was heard. What goes wrong on the way gives the session
  up, and the error that went wrong is reported with the end of the server's error output.

  What is said in a greeting, and how its answer is read, is for a `Greeting` to say; the standard
  one tells a server who the client is, what it can do and where the project is.
-/

namespace LanguageClient.Client

variable {η : Type}

structure Greeting where
  /-- What the client says about itself when it asks a server to initialise. -/
  params : Json
  /-- What it says when the server has answered. -/
  heard : Json
  /-- What the answer says about the server; a malformed one is an error. -/
  read : Json → Except Error ServerInfo

def declare (capabilities : ServerCapabilities) : Aside η Unit := do
  let c : Client η ← get
  let (_, entries, declared) := c.declared.set capabilities
  entries.forM Routine.log
  set { c with declared := declared }

/-! ## The standard greeting -/

def version : String := "0.1.0"

def abilities : Json :=
  let fixed : List (String × Json) := [("dynamicRegistration", .bool false)]
  let formats := Json.ofTexts [text "markdown", text "plaintext"]
  let kinds := Json.ofTexts [text "quickfix", text "refactor", text "refactor.extract", text "refactor.inline",
    text "refactor.rewrite", text "source", text "source.organizeImports"]
  .ofMembers [
    ("textDocument", .ofMembers [
      ("synchronization", .ofMembers (fixed ++ [("willSave", .bool false), ("willSaveWaitUntil", .bool false),
        ("didSave", .bool true)])),
      ("completion", .ofMembers (fixed ++ [("completionItem", .ofMembers [("snippetSupport", .bool true),
        ("commitCharactersSupport", .bool true), ("documentationFormat", formats), ("deprecatedSupport", .bool true)])])),
      ("hover", .ofMembers (fixed ++ [("contentFormat", formats)])),
      ("publishDiagnostics", .ofMembers [("relatedInformation", .bool true), ("versionSupport", .bool true)]),
      ("codeAction", .ofMembers (fixed ++ [("codeActionLiteralSupport", .ofMembers [("codeActionKind",
        .ofMembers [("valueSet", kinds)])])])),
      ("formatting", .ofMembers fixed)]),
    ("workspace", .ofMembers [("applyEdit", .bool true),
      ("workspaceEdit", .ofMembers [("documentChanges", .bool true)]),
      ("didChangeConfiguration", .ofMembers fixed), ("workspaceFolders", .bool true)])]

def readServerInfo (answer : Json) : Except Error ServerInfo :=
  if answer.isObject then
    (ServerInfo.ofJson answer).mapError fun fault => malformed (text "initialize") fault.message
  else .error (malformed (text "initialize") answer.written)

/-- The greeting of a client that runs as a process in a directory. A configuration without a
project is for the project in that directory. -/
def Greeting.standard (processId : Int) (here : Bytes) (config : ServerConfig) : Greeting where
  params := .ofMembers [("processId", .int processId),
    ("clientInfo", .ofMembers [("name", .str (text "nanolsp")), ("version", .str (text version))]),
    ("rootUri", .str (config.rootUri.getD (Path.toUri here here))),
    ("capabilities", abilities), ("workspaceFolders", workspaceFolders config.rootUri)]
  heard := .ofMembers []
  read := readServerInfo

/-! ## Greeting -/

def exitedEarly : Error := .of .processExit (text "LSP process exited during initialization") none

def readyMessage (c : Client η) (info : ServerInfo) : Bytes :=
  text "LSP server '" ++ c.config.name ++ text "' ready"
    ++ match info.name with
      | some name => text " (" ++ name ++ text ")"
      | none => []

def greet (g : Greeting) : Action η (Except Error ServerInfo) := do
  match ← converse (text "initialize") g.params with
  | .error e => return .error e
  | .ok answer =>
    match g.read answer with
    | .error e => return .error e
    | .ok info =>
      aside (declare info.capabilities)
      if ← aside (post (.notification ⟨text "initialized", g.heard⟩)) then
        modify (fun c : Client η => { c with phase := .ready })
        let c : Client η ← get
        Routine.log (Log.info "client" (c.readyMessage info))
        return .ok info
      else return .error exitedEarly

def ungreeted (c : Client η) (e : Error) : Error :=
  .of e.kind (c.withStderrTail
    (text "LSP server '" ++ c.config.name ++ text "' failed to initialize: " ++ e.message)) e.code

/-- Give up a server that could not be greeted, and report why. -/
def abandon (e : Error) : Action η Error := do
  let c : Client η ← get
  if c.link.running then discard (Action.call (.terminate c.options.terminateGrace))
  discard (aside (onPending (Pending.rejectAll .stopped)))
  modify (fun c : Client η => { c with declared := {}, decoder := {}, phase := .errored })
  Routine.log (Log.error "client" (c.ungreeted e).message)
  aside (emitError (c.ungreeted e))
  return c.ungreeted e

def connect (g : Greeting) : Action η (Except Error ServerInfo) := do
  match ← Client.start with
  | .error e => return .error e
  | .ok () =>
    match ← greet g with
    | .ok info => return .ok info
    | .error e => return .error (← abandon e)

end LanguageClient.Client
