import LanguageClient.Environment
import LanguageClient.Executable
import LanguageClient.Path.FileUri
import LanguageClient.ServerConfig
/-
  LanguageClient.ServerProcess.Launch — what has to be done to start a server.

  A launch names the file that is executed, its arguments, its environment and the directory
  it is executed in. It is planned where the client is: the command is looked up from
  there, and the directory of the project counts only if its URI is a file URI and it is a
  directory seen from there.
-/

namespace LanguageClient

open Host (Files Errno)

structure Surroundings where
  files : Files
  environment : List Bytes := []
  deriving DecidableEq, Repr

def Surroundings.searchPath (s : Surroundings) : Option Bytes := Environment.value? (text "PATH") s.environment

structure Launch where
  file : Bytes
  /-- The arguments, with the command before them. -/
  arguments : List Bytes
  /-- The entries of the environment. -/
  environment : List Bytes
  /-- The directory to enter first. -/
  directory : Option Bytes
  deriving DecidableEq, Repr

inductive Launch.Refusal where
  | alreadyRunning
  | notFound (command : Bytes)
  | noPipe (why : Errno)
  | noFork (why : Errno)
  /-- The system would not execute the command. -/
  | notExecuted (command : Bytes) (why : Errno)
  deriving DecidableEq, Repr

def Launch.Refusal.message : Launch.Refusal → Bytes
  | alreadyRunning => text "process already running"
  | notFound command => text "command not found: " ++ command
  | noPipe why => text "pipe failed: " ++ why.message
  | noFork why => text "fork failed: " ++ why.message
  | notExecuted command why => text "failed to start '" ++ command ++ text "': " ++ why.message

namespace Launch

/-- The directory of a project, when its URI names one by its path. -/
def directoryOf (files : Files) (rootUri : Option Bytes) : Option Bytes :=
  rootUri.bind fun uri =>
    if Path.fileScheme.isPrefixOf uri ∧ files.isDirectory (Path.ofUri uri) then some (Path.ofUri uri) else none

def plan (s : Surroundings) (c : ServerConfig) : Except Refusal Launch :=
  match Executable.find s.files s.searchPath c.command with
  | none => .error (.notFound c.command)
  | some file =>
    .ok
      { file := file
        arguments := c.command :: c.args
        environment := Environment.merge s.environment c.env
        directory := directoryOf s.files c.rootUri }

end Launch

end LanguageClient
