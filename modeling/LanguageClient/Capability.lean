import LanguageClient.Log
import LanguageClient.Json
/-
  LanguageClient.Capability — what a server can do, as it declared when it was initialised.

  A session holds the capabilities from the one declaration it accepts: once they are set, a
  second declaration is refused until they are cleared.
-/

namespace LanguageClient

inductive Capability where
  | completion
  | codeAction
  | formatting
  | diagnostic
  /-- A capability number that none of the names above stands for. -/
  | other (code : Int)
  deriving DecidableEq, Repr

namespace Capability

def all : List Capability := [completion, codeAction, formatting, diagnostic]

def ofCode (n : Int) : Capability := if n < 0 then other n else (all[n.toNat]?).getD (other n)

def name : Capability → Bytes
  | completion => text "completionProvider"
  | codeAction => text "codeActionProvider"
  | formatting => text "documentFormattingProvider"
  | diagnostic => text "diagnosticProvider"
  | other _ => text "unknown"

end Capability

structure ServerCapabilities where
  completion : Bool := false
  codeAction : Bool := false
  formatting : Bool := false
  diagnostic : Bool := false
  /-- The number of the way in which documents are kept in step. -/
  sync : Option Int := none
  /-- The characters after which completions are asked for. -/
  triggers : List Bytes := []
  deriving DecidableEq, Repr

namespace ServerCapabilities

def offers (c : ServerCapabilities) : Capability → Bool
  | .completion => c.completion
  | .codeAction => c.codeAction
  | .formatting => c.formatting
  | .diagnostic => c.diagnostic
  | .other _ => false

/-- How documents are kept in step: a number, or an object that has it for changes. -/
def syncOf (j : Json) : Option Int :=
  let code := j.integer?.or (j.get "change").integer?
  (code.map (·.bmod (Nat.pow 2 32))).filter fun n => 0 ≤ n ∧ n ≤ 2

/-- What a declaration declares. It offers what it has a truthy value for; one that is no object
declares nothing. -/
def ofJson (j : Json) : ServerCapabilities :=
  { completion := (j.get "completionProvider").truthy
    codeAction := (j.get "codeActionProvider").truthy
    formatting := (j.get "documentFormattingProvider").truthy
    diagnostic := (j.get "diagnosticProvider").truthy
    sync := syncOf (j.get "textDocumentSync")
    triggers := (((j.get "completionProvider").get "triggerCharacters").items?.getD []).filterMap Json.text? }

end ServerCapabilities

structure ServerInfo where
  capabilities : ServerCapabilities := {}
  name : Option Bytes := none
  version : Option Bytes := none
  deriving DecidableEq, Repr

def ServerInfo.ofJson (j : Json) : Json.Reading ServerInfo := do
  let info := j.get "serverInfo"
  let name ← info.optional "name" Json.asText
  let version ← info.optional "version" Json.asText
  return ⟨.ofJson (j.get "capabilities"), name, version⟩

structure Declared where
  capabilities : Option ServerCapabilities := none
  deriving DecidableEq, Repr

namespace Declared

def alreadySet : Log.Entry :=
  Log.warn "capabilities" (text "Server capabilities already set; ignoring")

/-- Accept a declaration if there is none yet; else refuse it and say so. -/
def set (d : Declared) (c : ServerCapabilities) : Bool × List Log.Entry × Declared :=
  match d.capabilities with
  | none => (true, [], ⟨some c⟩)
  | some _ => (false, [alreadySet], d)

def supports (d : Declared) (c : Capability) : Bool :=
  match d.capabilities with
  | none => false
  | some caps => caps.offers c

end Declared

end LanguageClient
