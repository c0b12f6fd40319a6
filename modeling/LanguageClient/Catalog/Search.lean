import LanguageClient.Catalog
import LanguageClient.ServerProcess.Launch
/-
  LanguageClient.Catalog.Search — which known servers are installed.

  A server is installed when its command is found: in the search path, or among the tools
  that the project has installed for itself. Whoever misses a server is told how to get it.

  - `findCommand` and `findLocalServer` look a command up for a project.
  - `missingHints` has a line for each server that is missing for a list of extensions.
  - `statuses` says of each known server whether it is installed.
-/

namespace LanguageClient.Catalog

open Host (Files)

def packages (root : Bytes) : Bytes := Path.join root (text "node_modules")

def localTool (root name : Bytes) : Bytes := Path.join (Path.join (packages root) (text ".bin")) name

/-- The file of a command: an executable of the search path, else a tool of the project. -/
def findCommand (s : Surroundings) (root command : Bytes) : Option Bytes :=
  (Executable.find s.files s.searchPath command).or
    (if s.files.has (localTool root command) then some (localTool root command) else none)

/-- A server that a project has installed: as a tool, or in the package of its name. -/
def findLocalServer (f : Files) (root name : Bytes) : Option Bytes :=
  [localTool root name, Path.join (Path.join (Path.join (packages root) name) (text "bin")) name].find? f.has

def isDenoProject (f : Files) (root : Bytes) : Bool :=
  [text "deno.json", text "deno.jsonc"].any (fun name => f.has (Path.join root name))

def orderedFor (f : Files) (root : Bytes) : List KnownServer := ordered (isDenoProject f root)

def isInstalled (s : Surroundings) (root : Bytes) (server : KnownServer) : Bool :=
  (findCommand s root server.command).isSome

/-! ## Hints -/

def hintLine (server : KnownServer) : Bytes := server.name ++ text ": " ++ server.installHint

def unseen (seen : List Bytes) (extension : Bytes) : List KnownServer :=
  known.filter (fun server => !seen.contains server.name && server.serves (Path.dropDot extension))

def hintsFrom (installed : KnownServer → Bool) (seen : List Bytes) : List Bytes → List Bytes
  | [] => []
  | extension :: rest =>
    let servers := unseen seen extension
    (servers.filter (fun server => !installed server && server.installHint != [])).map hintLine
      ++ hintsFrom installed (seen ++ servers.map (·.name)) rest

/-- A line for each server that serves one of the extensions and is not installed, in the
order of the extensions. -/
def missingHints (s : Surroundings) (root : Bytes) (extensions : List Bytes) : List Bytes :=
  hintsFrom (isInstalled s root) [] extensions

/-! ## Statuses -/

structure Status where
  server : KnownServer
  available : Bool

def statuses (s : Surroundings) (root : Bytes) : List Status :=
  known.map (fun server => ⟨server, isInstalled s root server⟩)

end LanguageClient.Catalog
