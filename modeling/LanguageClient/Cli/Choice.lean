import LanguageClient.Cli.Options
import LanguageClient.Catalog.Search
import LanguageClient.Catalog.Discovery
import LanguageClient.Client.Listening
import LanguageClient.Client.Session
import LanguageClient.LanguageId
import LanguageClient.ServerConfig.File
/-
  LanguageClient.Cli.Choice — which server the command line uses for a file.

  A server list that is named, or found at or above the current directory, has to be
  readable. Where there is none, the servers of the project are discovered. Of these the
  one of a given name is taken, or the first that serves the extension of the file.

  What a command cannot do alone it asks for by the calls of this module: it looks at the
  files, lets a server be checked, uses a client and prints.
-/

namespace LanguageClient.Cli

inductive Listener where
  /-- What the client listens for by itself. -/
  | own (l : Client.Listener)
  /-- The command that waits for the diagnostics of a document. -/
  | waiting (uri : Bytes)
  deriving DecidableEq, Repr

inductive Call where
  | surroundings
  /-- Check a server that was found. -/
  | check (server : KnownServer) (command : Bytes)
  | client (c : Client.Call Listener)
  | processId
  /-- Whether diagnostics have come for the document that somebody waits for. -/
  | hasReceived
  | print (b : Bytes)
  | complain (b : Bytes)

abbrev Call.Reply : Call → Type
  | surroundings => Surroundings
  | check .. => Bool
  | client c => c.Reply
  | processId => Int
  | hasReceived => Bool
  | print _ => Unit
  | complain _ => Unit

abbrev Calls : Surface := ⟨Call, Call.Reply⟩

/-- What the command line does; its state is the client it uses, once it has one. -/
abbrev Work (α : Type) := Routine (Option (Client Listener)) Calls α

def request (c : Call) : Work c.Reply := Routine.ask (S := Calls) c

def print (b : Bytes) : Work Unit := request (.print b)

def complain (b : Bytes) : Work Unit := request (.complain b)

/-! ## Servers -/

def inquire : (q : Catalog.Inquiry) → Work q.Reply
  | .find command => do
    let s ← request .surroundings
    return Catalog.findCommand s s.files.current command
  | .check server command => request (.check server command)

def discovered : Work (List ServerConfig) := do
  let s ← request .surroundings
  (Catalog.discover (Catalog.orderedFor s.files s.files.current)).relay inquire

/-- The server list that counts: the one that is named, else the nearest one. -/
def listPath (o : Options) (s : Surroundings) : Option Bytes :=
  if o.config = [] then ServerConfig.File.nearest s.files s.files.current else some o.config

def candidates (o : Options) : Work (Except ServerConfig.File.Fault (List ServerConfig)) := do
  let s ← request .surroundings
  match listPath o s with
  | none => return .ok (← discovered)
  | some path =>
    match ServerConfig.File.load s.files path with
    | .error fault => return .error fault
    | .ok [] => return .ok (← discovered)
    | .ok servers => return .ok servers

/-! ## Choosing -/

inductive Lack where
  | list (f : ServerConfig.File.Fault)
  | unnamed (name : Bytes)
  /-- No server serves the file; these lines say which could. -/
  | unserved (file : Bytes) (hints : List Bytes)

def Lack.message : Lack → Bytes
  | list f => text "Error: Failed to load config: " ++ f.message ++ [Byte.lf]
  | unnamed name => text "Error: No server named '" ++ name ++ text "'\n"
  | unserved file hints =>
    text "Error: No language server available for " ++ file ++ [Byte.lf]
      ++ hints.flatMap (fun hint => text "  " ++ hint ++ [Byte.lf])

/-- The extension that a server is chosen by; a file without one goes by its language. -/
def extensionFor (file : Bytes) : Bytes :=
  if Path.extension file = [] then LanguageId.ofFile file else Path.extension file

def choose (o : Options) (s : Surroundings) (file : Bytes) (servers : List ServerConfig) : Except Lack ServerConfig :=
  if o.server ≠ [] then
    match servers.find? (·.name == o.server) with
    | some c => .ok c
    | none => .error (.unnamed o.server)
  else
    match Catalog.serverFor? servers (extensionFor file) with
    | some c => .ok c
    | none => .error (.unserved file (Catalog.missingHints s s.files.current [extensionFor file]))

/-- A configuration whose project is the current directory unless it names another. -/
def rooted (f : Host.Files) (c : ServerConfig) : ServerConfig :=
  { c with rootUri := some (c.rootUri.getD (Path.toUri f.current f.current)) }

def serverFor (o : Options) (file : Bytes) : Work (Except Lack ServerConfig) := do
  match ← candidates o with
  | .error fault => return .error (.list fault)
  | .ok servers =>
    let s ← request .surroundings
    return (choose o s file servers).map (rooted s.files)

end LanguageClient.Cli
