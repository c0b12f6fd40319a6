import LanguageClient.Json
/-
  LanguageClient.ServerConfig — how a language server is run.

  A configuration names the server, the command that runs it with its arguments and what is
  set in its environment, the extensions of the files it serves, and the URI of the project.
-/

namespace LanguageClient

structure ServerConfig where
  name : Bytes
  command : Bytes
  args : List Bytes := []
  /-- The extensions it serves, without their dots. -/
  languages : List Bytes := []
  /-- What is set in its environment, one value for each name. -/
  env : List (Bytes × Bytes) := []
  rootUri : Option Bytes := none
  deriving DecidableEq, Repr

namespace ServerConfig

def serves (c : ServerConfig) (extension : Bytes) : Bool := c.languages.contains extension

/-! ## Reading

What is wrong with an entry is said in words that name the server, once its name is known. -/

def textsOf (j : Json) (key : String) : Except Bytes (List Bytes) :=
  let fault := text "'" ++ text key ++ text "' must be an array of strings"
  match j.present? key with
  | none => .ok []
  | some v => (v.items?.bind (·.mapM Json.text?)).elim (.error fault) .ok

/-- A text that may not be empty. -/
def wordOf? (j : Json) (key : String) : Option Bytes := ((j.get key).text?).filter (· ≠ [])

def withoutDot : Bytes → Bytes
  | Byte.dot :: r => r
  | s => s

def settingOf (member : Bytes × Json) : Except Bytes (Bytes × Bytes) :=
  match member.2 with
  | .str value => .ok (member.1, value)
  | _ => .error (text "env value for '" ++ member.1 ++ text "' must be a string")

def settingsOf (j : Json) : Except Bytes (List (Bytes × Bytes)) :=
  match j.present? "env" with
  | none => .ok []
  | some (.object members) => members.mapM settingOf
  | some _ => .error (text "'env' must be an object")

def rootOf (j : Json) : Except Bytes (Option Bytes) :=
  match j.present? "rootUri" with
  | none => .ok none
  | some v => v.text?.elim (.error (text "'rootUri' must be a string")) fun root => .ok (some root)

def ofNamed (name : Bytes) (j : Json) : Except Bytes ServerConfig := do
  let command ← (wordOf? j "command").elim (.error (text "missing 'command'")) .ok
  let args ← textsOf j "args"
  if (j.get? "languages").isNone then .error (text "missing 'languages'")
  let languages ← textsOf j "languages"
  let env ← settingsOf j
  let rootUri ← rootOf j
  return ⟨name, command, args, languages.map withoutDot, env, rootUri⟩

def ofJson (j : Json) : Except Bytes ServerConfig :=
  if !j.isObject then .error (text "server entry must be an object")
  else
    match wordOf? j "name" with
    | none => .error (text "missing 'name'")
    | some name => (ofNamed name j).mapError fun fault => text "server '" ++ name ++ text "': " ++ fault

end ServerConfig

end LanguageClient
