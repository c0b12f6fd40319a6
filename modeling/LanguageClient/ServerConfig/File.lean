import LanguageClient.Json.Text
import LanguageClient.ServerConfig
import LanguageClient.Host.Tree
/-
  LanguageClient.ServerConfig.File — the file that lists the servers of a project.

  The file stands in the directory of the project or above it; the nearest one counts. It holds
  an object that has the list as a member, or has it within the settings of another program.
-/

namespace LanguageClient.ServerConfig.File

open Host (Files)

def name : Bytes := text "agents.config.json"

/-- The nearest file of that name: in a directory or in one of those it lies in. -/
def nearest (f : Files) (start : Bytes) : Option Bytes :=
  let dir := Path.absolute f.current start
  if dir = [] then none else ((Path.ancestors dir).map (Path.join · name)).find? f.isFile

inductive Fault where
  | unreadable (path : Bytes)
  | malformed (path : Bytes)
  /-- The text holds a value that is no object. -/
  | noObject (path : Bytes)
  | noList
  /-- An entry of the list is refused. -/
  | entry (fault : Bytes)
  deriving DecidableEq, Repr

def Fault.message : Fault → Bytes
  | unreadable path => text "cannot open: " ++ path
  | malformed path => text "invalid JSON: " ++ path
  | noObject path => text "expected a JSON object: " ++ path
  | noList => text "'lspServers' must be an array"
  | entry fault => fault

def listOf (root : Json) : Json :=
  match root.get? "lspServers" with
  | some list => list
  | none => (root.get "nanocoder").get "lspServers"

def ofList : Json → Except Fault (List ServerConfig)
  | .null => .ok []
  | .array entries => (entries.mapM ServerConfig.ofJson).mapError .entry
  | _ => .error .noList

def load (f : Files) (path : Bytes) : Except Fault (List ServerConfig) :=
  match f.read? path with
  | none => .error (.unreadable path)
  | some content =>
    match Json.read? content with
    | none => .error (.malformed path)
    | some root => if root.isObject then ofList (listOf root) else .error (.noObject path)

end LanguageClient.ServerConfig.File
