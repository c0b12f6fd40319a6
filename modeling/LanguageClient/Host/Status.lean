import LanguageClient.Host.SignalNumber
/-
  LanguageClient.Host.Status — how processes end.
-/

namespace LanguageClient.Host

inductive Status where
  | exited (code : Nat)
  | killed (signal : SignalNumber)
  deriving DecidableEq, Repr

namespace Status

/-- What the shell calls the status of a command that ended so. -/
def code : Status → Nat
  | exited code => code
  | killed signal => 128 + signal

def description : Status → Bytes
  | exited _ => []
  | killed signal => SignalNumber.description signal

end Status

end LanguageClient.Host
