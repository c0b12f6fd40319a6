import LanguageClient.Cli.Choice
import LanguageClient.Cli.Help
import LanguageClient.Client.Editing
import LanguageClient.Client.Handshake
/-
  LanguageClient.Cli.Commands — what the commands of the command line do.

  A command reads its options, opens a session on its file, prints what the server says and
  closes the session. Each failure is said on the error output and ends with status 1.
-/

namespace LanguageClient.Cli

/-! ## The client -/

def withClient {α : Type} (otherwise : α) (p : Client.Action Listener α) : Work α := do
  let c : Option (Client Listener) ← get
  match c with
  | none => return otherwise
  | some c =>
    p.within (fun now => now.getD c) (fun c _ => some c) (fun call => request (.client call))

def newClient (config : ServerConfig) : Client Listener :=
  { config := config
    router := ⟨Client.Listener.router.registrations.map fun r => (r.1, .own r.2)⟩ }

inductive Obstacle where
  | unreadable (file : Bytes)
  | lack (l : Lack)
  | failed (e : Error)

def Obstacle.message : Obstacle → Bytes
  | unreadable file => text "Error: Cannot open file: " ++ file ++ [Byte.lf]
  | lack l => l.message
  | failed e => text "Error: " ++ e.message ++ [Byte.lf]

/-- Read a file, start the server for it and open it there; the result is its URI. -/
def openSession (o : Options) (file : Bytes) : Work (Except Obstacle Bytes) := do
  let s ← request .surroundings
  match s.files.read? file with
  | none => return .error (.unreadable file)
  | some content =>
    match ← serverFor o file with
    | .error l => return .error (.lack l)
    | .ok config =>
      let here := s.files.current
      let uri := Path.toUri here file
      let greeting := Client.Greeting.standard (← request .processId) here config
      set (some (newClient config))
      match ← withClient (.ok {}) (Client.connect greeting) with
      | .error e => return .error (.failed e)
      | .ok _ =>
        withClient () (Client.aside (Client.openText uri (LanguageId.ofFile file) content))
        return .ok uri

/-- Open a session on a file, print the lines that a request gives, and close it; the result is the
exit status. A client whose request fails is given up before the failure is said. -/
def session (o : Options) (file : Bytes) (lines : Bytes → Work (Except Error (List Bytes))) : Work Nat := do
  match ← openSession o file with
  | .error obstacle =>
    complain obstacle.message
    return 1
  | .ok uri =>
    match ← lines uri with
    | .error e =>
      withClient () Client.close
      complain (Obstacle.failed e).message
      return 1
    | .ok ls =>
      ls.forM (fun l => print (l ++ [Byte.lf]))
      withClient () Client.stop
      return 0

/-! ## Commands -/

def refuse (message : Bytes) : Work Nat := do
  complain message
  return 1

def diagnosticLine (file : Bytes) (d : Diagnostic) : Bytes :=
  file ++ Byte.colon :: d.range.start.written ++ text ": "
    ++ ((d.severity.map Severity.name).getD (text "error")) ++ text ": " ++ d.message

def diagnosticsUsage : Bytes := text "Error: Missing file\nUsage: nanolsp diagnostics <file> [--wait-ms N]\n"

def now : Work Int := do
  let c : Option (Client Listener) ← get
  return (c.map (·.link.now)).getD 0

def awaitStep (deadline : Int) : Work (Unit ⊕ Unit) := do
  if ← request .hasReceived then return .inr ()
  else if deadline ≤ (← now) then return .inr ()
  else if ← withClient false (Client.poll 50) then return .inl ()
  else return .inr ()

def awaitDiagnostics (o : Options) : Work Unit := do
  let rounds := ({} : ClientOptions).rounds
  let deadline := (← now) + o.waitMs
  match ← Routine.loop (fun () => awaitStep deadline) rounds () with
  | .inr () => pure ()
  | .inl () => request (.client .spent)

/-- The diagnostics of a document: those that the server gives when it is asked, else those that it
publishes. -/
def diagnosticsOf (o : Options) (uri : Bytes) : Work (List Diagnostic) := do
  withClient () (modify fun c => { c with publications := (c.publications.on (.waiting uri)).2 })
  match ← withClient [] (Client.pullDiagnostics uri) with
  | [] =>
    awaitDiagnostics o
    withClient [] do return (← get).published.of uri
  | ds => return ds

def diagnostics (o : Options) : Work Nat :=
  match o.positional with
  | [file] => session o file fun uri => do return .ok ((← diagnosticsOf o uri).map (diagnosticLine file))
  | _ => refuse diagnosticsUsage

def completeUsage : Bytes :=
  text "Error: Expected <file> <line> <character>\nUsage: nanolsp complete <file> <line> <character>\n"

def completionLine (item : CompletionItem) : Bytes :=
  match item.detail with
  | none => item.label
  | some [] => item.label
  | some detail => item.label ++ Byte.tab :: detail

def complete (o : Options) : Work Nat :=
  match o.positional with
  | [file, line, character] =>
    match int32? line, int32? character with
    | some line, some character =>
      session o file fun uri => withClient (.ok []) do
        return (← Client.completions uri ⟨line, character⟩).map (·.map completionLine)
    | _, _ => refuse completeUsage
  | _ => refuse completeUsage

def formatUsage : Bytes := text "Error: Missing file\nUsage: nanolsp format <file> [--tab-size N] [--use-tabs]\n"

def editLine (e : TextEdit) : Bytes := e.range.written ++ text ": " ++ Json.quoted e.newText

def format (o : Options) : Work Nat :=
  match o.positional with
  | [file] =>
    let choice : FormattingChoice :=
      { tabSize := o.tabSize, insertSpaces := if o.useTabs then some false else none }
    session o file fun uri => withClient (.ok []) do
      return (← Client.formatEdits uri choice).map (·.map editLine)
  | _ => refuse formatUsage

def statusLine (s : Catalog.Status) : Bytes :=
  (if s.available then text "[x] " else text "[ ] ") ++ s.server.name
    ++ text " (" ++ Bytes.joinWith (text ",") s.server.languages ++ text ")"
    ++ (if s.available ∨ s.server.installHint = [] then [] else text "\n      " ++ s.server.installHint) ++ [Byte.lf]

def servers : Work Nat := do
  let s ← request .surroundings
  (Catalog.statuses s s.files.current).forM (fun status => print (statusLine status))
  return 0

def optioned? (name : Bytes) : Option (Options → Work Nat) :=
  if name = text "diagnostics" then some diagnostics
  else if name = text "complete" then some complete
  else if name = text "format" then some format
  else none

def plain (name : Bytes) : Work Nat := do
  if name = text "servers" then servers
  else if [text "version", text "-v", text "--version"].contains name then
    print versionText
    return 0
  else if [text "help", text "-h", text "--help"].contains name then
    complain usage
    return 0
  else refuse (text "Error: Unknown command '" ++ name ++ text "'\n" ++ usage)

end LanguageClient.Cli
