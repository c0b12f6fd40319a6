import LanguageClient.Client
/-
  LanguageClient.Client.Inbound — what a client does when its server's process speaks or ends.

  Standard output carries messages. Error output is kept in two ways: its last bytes, for
  error messages, and line by line, for the log. The end of the process, when nobody asked
  for it, closes the session: every pending request is rejected and the subscribers are told.
-/

namespace LanguageClient.Client

variable {η : Type}

/-! ## Writing -/

/-- Send a message; false when there is no process or the writing fails. -/
def post (m : Message) : Aside η Bool := do
  let c : Client η ← get
  if c.link.running then
    if ← Aside.call (.send (Frame.encode m.written)) then return true
    else
      Routine.log (debug (text "Write to '" ++ c.config.name ++ text "' failed"))
      return false
  else return false

/-! ## Standard output -/

/-- The requests of a server that need no more than to be acknowledged. -/
def acknowledged : List Bytes :=
  [text "window/workDoneProgress/create", text "client/registerCapability",
    text "client/unregisterCapability", text "window/showMessageRequest"]

def workspaceFolders (root : Option Bytes) : Json :=
  root.elim .null fun uri => .array [.ofMembers [("uri", .str uri), ("name", .str (text "workspace"))]]

/-- What a request of the server is answered with, if it can be served. Nothing is configured, so
each item of a configuration is null. -/
def answerTo? (config : ServerConfig) (r : Request) : Option Json :=
  if r.method = text "workspace/configuration" then
    some (.array (((r.params.get "items").items?.getD []).map fun _ => .null))
  else if acknowledged.contains r.method then some .null
  else if r.method = text "workspace/workspaceFolders" then some (workspaceFolders config.rootUri)
  else none

def serve (r : Request) : Aside η Unit := do
  let c : Client η ← get
  match answerTo? c.config r with
  | some answer => discard (post (.response (.success r.id answer)))
  | none =>
    Routine.log (debug (text "Unsupported server request: " ++ r.method))
    discard (post (.response (.failure r.id Message.methodNotFound (text "Method not found: " ++ r.method))))

def handle : Message → Aside η Unit
  | .response r => do
    unless ← onPending (Pending.complete r) do
      Routine.log (debug (text "Discarding response with no pending request: " ++ r.id.written))
  | .request r => serve r
  | .notification n => discard (dispatch n)

def onStdout (chunk : Bytes) : Aside η Unit := do
  let c : Client η ← get
  let (blocks, decoder) := c.decoder.feed chunk
  set { c with decoder := decoder }
  (Frame.complaints blocks).forM Routine.log
  (Frame.messages blocks).forM handle

/-! ## Error output -/

/-- A complete line without the carriage return it may end in. -/
def chomp (line : Bytes) : Bytes := if line.getLast? = some Byte.cr then line.dropLast else line

def splitLines (s : Bytes) : List Bytes × Bytes :=
  let parts := s.splitOn Byte.lf
  (parts.dropLast, (parts.getLast?).getD [])

def stderrEntry (c : Client η) (line : Bytes) : Log.Entry :=
  Log.debug "stderr" (c.config.name ++ text ": " ++ line)

def onStderr (chunk : Bytes) : Aside η Unit := do
  let c : Client η ← get
  let (lines, rest) := splitLines (c.stderrLine ++ chunk)
  set { c with stderrTail := Bytes.lastN c.options.stderrTailBytes (c.stderrTail ++ chunk), stderrLine := rest }
  ((lines.map chomp).filter (· ≠ [])).forM (fun line => Routine.log (c.stderrEntry line))

/-! ## The end of the process -/

def exitMessage : Option Int → Bytes
  | some code => text "LSP process exited with code " ++ Bytes.ofInt code
  | none => text "LSP process exited (killed by signal)"

/-- Take in that the server's process has ended; a killed process has no exit code. -/
def onExit (code : Option Int) : Aside η Unit := do
  let c : Client η ← get
  set { c with lastExit := code, stderrLine := [] }
  unless c.stderrLine = [] do Routine.log (c.stderrEntry c.stderrLine)
  if c.phase = .stopped then
    Routine.log (debug (text "LSP server '" ++ c.config.name ++ text "' exited during stop"))
  else
    Routine.log (Log.warn "client" (text "'" ++ c.config.name ++ text "': " ++ exitMessage code))
    set { c with lastExit := code, stderrLine := [], phase := .errored, declared := {}, decoder := {} }
    discard (onPending (Pending.rejectAll (.of .processExit (c.withStderrTail (exitMessage code)) none)))
    emitExit code

end LanguageClient.Client
