import LanguageClient.Cli.Run
import LanguageClient.Cli.Snapshot
/-
  LanguageClient.Main — the command line program.

  It takes a snapshot of the files that the run looks at, runs the command line on it, and
  writes what the run has printed.
-/

open LanguageClient

def readLimit : USize := 1048576

def nodeAt (path : Bytes) : IO (Option Host.Node) := do
  let here ← IO.currentDir
  match String.fromUTF8? (ByteArray.mk path.toArray) with
  | none => return none
  | some name =>
    try
      let found ← (here / name).metadata
      match found.type with
      | .dir => return some (.directory true)
      | _ =>
        let content ← IO.FS.withFile (here / name) .read (fun h => h.read readLimit)
        return some (Cli.Snapshot.fileNode content.toList)
    catch _ => return none

def environment : IO (List Bytes) := do
  let entries ← ["PATH", "HOME", "NANOLSP_LOG_LEVEL"].filterMapM (fun name => do
    return (← IO.getEnv name).map (fun value => Environment.entry (text name) (text value)))
  return entries

def main (args : List String) : IO UInt32 := do
  let here := text (← IO.currentDir).toString
  let entries ← environment
  let paths := Cli.Snapshot.paths (Environment.value? (text "PATH") entries) here (args.map text)
  let found ← paths.filterMapM (fun path => do return (← nodeAt path).map (fun n => (path, n)))
  let outcome := Cli.run (Cli.Snapshot.machine here entries found) (args.map text)
  (← IO.getStdout).write (ByteArray.mk outcome.output.toArray)
  (← IO.getStderr).write (ByteArray.mk outcome.errors.toArray)
  return UInt32.ofNat outcome.status
