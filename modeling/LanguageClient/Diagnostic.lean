import LanguageClient.Formatting
/-
  LanguageClient.Diagnostic — what a server says about places in a document.

  A server publishes the diagnostics of a document as one list, which replaces the list it
  published before.
-/

namespace LanguageClient

structure Diagnostic where
  range : Range
  severity : Option Severity := none
  /-- A number or a text; null when there is none. -/
  code : Json := .null
  source : Option Bytes := none
  message : Bytes
  relatedInformation : Json := .null
  deriving DecidableEq, Repr

namespace Diagnostic

def toJson (d : Diagnostic) : Json :=
  .ofMembers ([("range", d.range.toJson), ("message", .str d.message)]
    ++ Json.given "severity" (d.severity.elim .null fun s => .int s.code)
    ++ Json.given "code" d.code
    ++ Json.given "source" (d.source.elim .null .str)
    ++ Json.given "relatedInformation" d.relatedInformation)

/-- A number that stands for no severity counts for none. -/
def ofJson (j : Json) : Json.Reading Diagnostic := do
  let range ← Range.ofJson (← j.need "range")
  let message ← (← j.need "message").asText
  let severity ← j.optional "severity" Json.asNumber
  let source ← j.optional "source" Json.asText
  return { range := range
           severity := severity.bind Severity.ofCode?
           code := j.get "code"
           source := source
           message := message
           relatedInformation := j.get "relatedInformation" }

end Diagnostic

structure Publication where
  uri : Bytes
  version : Option Int := none
  diagnostics : List Diagnostic := []
  deriving DecidableEq, Repr

def Publication.ofJson (j : Json) : Json.Reading Publication := do
  let uri ← (← j.need "uri").asText
  let version ← j.optional "version" Json.asNumber
  let diagnostics ← j.optional "diagnostics" (Json.asList Diagnostic.ofJson)
  return ⟨uri, version, diagnostics.getD []⟩

structure Published where
  lists : List (Bytes × List Diagnostic) := []
  deriving DecidableEq, Repr

namespace Published

def of (p : Published) (uri : Bytes) : List Diagnostic := (p.lists.lookup uri).getD []

def forget (p : Published) (uri : Bytes) : Published := ⟨p.lists.filter (·.1 != uri)⟩

def put (p : Published) (uri : Bytes) (ds : List Diagnostic) : Published := ⟨(uri, ds) :: (p.forget uri).lists⟩

end Published

end LanguageClient
