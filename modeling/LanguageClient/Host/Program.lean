import LanguageClient.Host.Image
import LanguageClient.Host.Program.Copy
import LanguageClient.Host.Program.Remove
import LanguageClient.Host.Program.Sleep
import LanguageClient.Host.Shell.Session
/-
  LanguageClient.Host.Program — what the tools of the host do when they are run.

  Servers are mostly started by shell scripts, and to run them a host needs a shell and the few
  tools that such scripts call. What is proved of the client holds for every system that answers
  its calls as it should. A machine with these programs is such a system whatever they do
  (`LanguageClient.Proofs.Host.Children`); of the programs it is proved what the patterns of the
  shell fit (`LanguageClient.Proofs.Host.Pattern`) and that `cat` writes what it reads
  (`LanguageClient.Proofs.Host.Copy`).
-/

namespace LanguageClient.Host

def Tool.code (t : Tool) (argv : List Bytes) : Code Nat :=
  let name := argv.head?.getD []
  match t with
  | shell => Shell.Session.main argv
  | cat => Program.cat name (argv.drop 1)
  | sleep => Program.sleep name (argv.drop 1)
  | remove => Program.remove name (argv.drop 1)

end LanguageClient.Host
