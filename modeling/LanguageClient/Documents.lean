import LanguageClient.Bytes
/-
  LanguageClient.Documents — the version of every open document.

  A document gets version 1 when it is opened, also when it was open before, and the next
  version with each change; a change to a document that is not open opens it. The table
  keeps its documents in byte order of their names.
-/

namespace LanguageClient

structure Documents where
  versions : List (Bytes × Nat) := []
  deriving DecidableEq, Repr

namespace Documents

def put (uri : Bytes) (version : Nat) : List (Bytes × Nat) → List (Bytes × Nat)
  | [] => [(uri, version)]
  | (u, v) :: r =>
    if Bytes.before uri u then (uri, version) :: (u, v) :: r
    else if uri = u then (uri, version) :: r
    else (u, v) :: put uri version r

def version? (d : Documents) (uri : Bytes) : Option Nat := d.versions.lookup uri

def isOpen (d : Documents) (uri : Bytes) : Bool := (d.version? uri).isSome

def set (d : Documents) (uri : Bytes) (version : Nat) : Documents := ⟨put uri version d.versions⟩

/-- Open a document at version 1. -/
def opened (d : Documents) (uri : Bytes) : Nat × Documents := (1, d.set uri 1)

def changed (d : Documents) (uri : Bytes) : Nat × Documents :=
  let v := (d.version? uri).getD 0 + 1
  (v, d.set uri v)

def closed (d : Documents) (uri : Bytes) : Bool × Documents :=
  (d.isOpen uri, ⟨d.versions.filter (·.1 != uri)⟩)

def uris (d : Documents) : List Bytes := d.versions.map (·.1)

def size (d : Documents) : Nat := d.versions.length

end Documents

end LanguageClient
