import LanguageClient.Catalog.Search
import LanguageClient.Host.Standard
import LanguageClient.ServerConfig.File
/-
  LanguageClient.Cli.Snapshot — the part of a file system that the command line looks at.

  Which files a run looks at is known before it starts: those it is given, the server list
  and the marks of a project, and each place where the command of a known server may stand.
  They are put together to a machine that the run works on.
-/

namespace LanguageClient.Cli.Snapshot

open Host (Files Machine Node Place)

def toolDirectories (searchPath : Option Bytes) (here : Bytes) : List Bytes :=
  (Executable.directories searchPath).map (Path.join here) ++ [Path.join (Catalog.packages here) (text ".bin")]

/-- The absolute paths of the files that a run from a directory looks at. -/
def paths (searchPath : Option Bytes) (here : Bytes) (args : List Bytes) : List Bytes :=
  let given := args.map (Path.join here)
  let lists := (Path.ancestors here).map (Path.join · ServerConfig.File.name)
  let marks := [text "deno.json", text "deno.jsonc"].map (Path.join here)
  let tools := (toolDirectories searchPath here).flatMap
    (fun dir => Catalog.known.map (fun server => Path.join dir server.command))
  (given ++ lists ++ marks ++ tools).map Path.normal

def looksExecutable (content : Bytes) : Bool :=
  (text "#!").isPrefixOf content || (127 :: text "ELF").isPrefixOf content

def fileNode (content : Bytes) : Node := .file ⟨true, true, looksExecutable content⟩ (.bytes content)

def placeOf (path : Bytes) : Place := Path.names path

/-- The machine that a run works on, with the nodes found at some paths. -/
def machine (here : Bytes) (environment : List Bytes) (found : List (Bytes × Node)) : Machine :=
  found.foldl (fun m (path, n) => { m with tree := m.tree.plant [] path n })
    (Machine.standard (placeOf here) environment)

end LanguageClient.Cli.Snapshot
