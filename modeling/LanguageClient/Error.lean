import LanguageClient.Bytes
/-
  LanguageClient.Error — what can go wrong for a caller of the client.

  An error has a kind, so that a caller can tell a failure of the server from a timeout or
  a dead process, a wording, and the number the server gave it, if it came from the server.
  The wording is handed on as a C string, so a NUL ends it.
-/

namespace LanguageClient

inductive ErrorKind where
  /-- The server's process could not be started. -/
  | spawnFailure
  /-- A request was made of a client that is not ready. -/
  | notRunning
  /-- No answer came within the time allowed. -/
  | timeout
  /-- The server answered with an error. -/
  | serverError
  /-- The server's answer does not have the form it must have. -/
  | protocol
  /-- The client was stopped while the request was pending. -/
  | clientShutdown
  /-- The server's process went away. -/
  | processExit
  /-- The client was started while it was already at work. -/
  | invalidState
  deriving DecidableEq, Repr

namespace ErrorKind

def name : ErrorKind → Bytes
  | spawnFailure => text "SpawnFailure"
  | notRunning => text "NotRunning"
  | timeout => text "Timeout"
  | serverError => text "ServerError"
  | protocol => text "Protocol"
  | clientShutdown => text "ClientShutdown"
  | processExit => text "ProcessExit"
  | invalidState => text "InvalidState"

def all : List ErrorKind :=
  [spawnFailure, notRunning, timeout, serverError, protocol, clientShutdown, processExit, invalidState]

def ofName? (s : Bytes) : Option ErrorKind := all.find? (fun k => k.name == s)

def nameOf (code : Int) : Bytes :=
  if code < 0 then text "Unknown" else (all[code.toNat]?.map name).getD (text "Unknown")

end ErrorKind

structure Error where
  kind : ErrorKind
  message : Bytes
  code : Option Int := none
  deriving DecidableEq, Repr

namespace Error

/-- An error with a wording, which ends at its first NUL as every C string does. -/
def of (kind : ErrorKind) (wording : Bytes) (code : Option Int) : Error := ⟨kind, wording.beforeNul, code⟩

def notRunning : Error := of .notRunning (text "LSP process not running") none

def stopped : Error := of .clientShutdown (text "LSP client stopped") none

def timedOut (method : Bytes) : Error := of .timeout (text "LSP request timeout: " ++ method) none

def fromServer (code : Int) (message : Bytes) : Error := of .serverError message (some code)

def notStarted (server why : Bytes) : Error :=
  of .spawnFailure (text "Failed to start LSP server '" ++ server ++ text "': " ++ why) none

def alreadyStarted (phase : Bytes) : Error :=
  of .invalidState (text "LSP client already started (" ++ phase ++ text ")") none

end Error

end LanguageClient
