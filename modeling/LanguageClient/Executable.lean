import LanguageClient.Host.Tree
/-
  LanguageClient.Executable — the file that a command names.

  A command with a slash is a path and has to be an executable file itself. Any other
  command is looked for in the directories of the search path, in order; an empty entry
  stands for the current directory.
-/

namespace LanguageClient.Executable

open Host (Files)

/-- Where commands are looked for when no search path is set, or an empty one. -/
def standardPath : Bytes := text "/usr/local/bin:/usr/bin:/bin"

def directories (searchPath : Option Bytes) : List Bytes :=
  let path := match searchPath with
    | none => standardPath
    | some [] => standardPath
    | some p => p
  (path.splitOn Byte.colon).map (fun dir => if dir = [] then Path.dotName else dir)

def isRunnable (f : Files) (path : Bytes) : Bool := f.isFile path && f.isExecutable path

def find (f : Files) (searchPath : Option Bytes) (command : Bytes) : Option Bytes :=
  if command = [] then none
  else if command.contains Byte.slash then
    if isRunnable f command then some command else none
  else ((directories searchPath).map (Path.join · command)).find? (isRunnable f)

end LanguageClient.Executable
