import LanguageClient.Catalog
import LanguageClient.Routine
/-
  LanguageClient.Catalog.Discovery — which servers a project can use.

  The servers are tried in order. One that serves only languages for which a server was
  discovered already is passed over; of the others those count whose command is found and
  who pass their check. Finding and checking are left to whoever answers the inquiries.
-/

namespace LanguageClient.Catalog

inductive Inquiry where
  | find (command : Bytes)
  /-- Check a server that was found. -/
  | check (server : KnownServer) (command : Bytes)

abbrev Inquiry.Reply : Inquiry → Type
  | find _ => Option Bytes
  | check .. => Bool

abbrev Inquiries : Surface := ⟨Inquiry, Inquiry.Reply⟩

variable {σ : Type}

def note (message : Bytes) : Routine σ Inquiries Unit := Routine.log (Log.debug "catalog" message)

/-- Try a server: the command it runs with, if it is found and passes its check. -/
def attempt (server : KnownServer) : Routine σ Inquiries (Option Bytes) := do
  match ← Routine.ask (S := Inquiries) (.find server.command) with
  | none => return none
  | some command =>
    if ← Routine.ask (S := Inquiries) (.check server command) then
      note (text "Discovered " ++ server.name ++ text " at " ++ command)
      return some command
    else
      note (text "Verification failed for " ++ server.name)
      return none

def brings (covered : List Bytes) (server : KnownServer) : Bool := server.languages.any (fun l => !covered.contains l)

/-- The configurations of the servers that can be used, when some languages are covered. -/
def discoverFrom (covered : List Bytes) : List KnownServer → Routine σ Inquiries (List ServerConfig)
  | [] => pure []
  | server :: rest => do
    if brings covered server then
      match ← attempt server with
      | some command =>
        let others ← discoverFrom (covered ++ server.languages) rest
        return server.configured command :: others
      | none => discoverFrom covered rest
    else discoverFrom covered rest

def discover (servers : List KnownServer) : Routine σ Inquiries (List ServerConfig) := discoverFrom [] servers

end LanguageClient.Catalog
