import LanguageClient.Bytes
/-
  LanguageClient.Host.SignalNumber — the signals a process can be sent, by number and by name.

  A signal is named without `SIG` before its name and in letters of either case; some have
  no name of their own and go by their number. Number 0 stands for the end of the shell.
-/

namespace LanguageClient.Host

/-- A number of a signal; 0 stands for the end of the shell. -/
abbrev SignalNumber := Nat

namespace SignalNumber

def hangup : Nat := 1

def interrupt : Nat := 2

def quit : Nat := 3

def kill : Nat := 9

def pipe : Nat := 13

def terminate : Nat := 15

def child : Nat := 17

def resume : Nat := 18

def stop : Nat := 19

def count : Nat := 65

/-! ## Names -/

def fixedNames : List Bytes :=
  (["EXIT", "HUP", "INT", "QUIT", "ILL", "TRAP", "ABRT", "BUS", "FPE", "KILL", "USR1", "SEGV", "USR2", "PIPE", "ALRM",
    "TERM", "16", "CHLD", "CONT", "STOP", "TSTP", "TTIN", "TTOU", "URG", "XCPU", "XFSZ", "VTALRM", "PROF", "WINCH",
    "IO", "PWR", "SYS", "32", "33"]).map text

/-- The signals that are free for programs to use, named by how far they are from the first or
the last of them. -/
def freeName (n : Nat) : Bytes :=
  if n = 34 then text "RTMIN"
  else if n < 50 then text "RTMIN+" ++ Bytes.decimal (n - 34)
  else if n < 64 then text "RTMAX-" ++ Bytes.decimal (64 - n)
  else text "RTMAX"

def name (n : Nat) : Bytes := fixedNames[n]?.getD (freeName n)

def ofNumber? (s : Bytes) : Option Nat := (Bytes.toNat? s).filter (· < count)

/-- The signal that a number or a name stands for, where names count from `least` on. -/
def ofText? (least : Nat) (s : Bytes) : Option Nat :=
  (ofNumber? s).or ((List.range count).find? (fun n => least ≤ n && Bytes.sameName (name n) s))

def descriptions : List Bytes :=
  (["Unknown signal 0", "Hangup", "Interrupt", "Quit", "Illegal instruction", "Trace/breakpoint trap", "Aborted",
    "Bus error", "Floating point exception", "Killed", "User defined signal 1", "Segmentation fault",
    "User defined signal 2", "Broken pipe", "Alarm clock", "Terminated", "Stack fault", "Child exited", "Continued",
    "Stopped (signal)", "Stopped", "Stopped (tty input)", "Stopped (tty output)", "Urgent I/O condition",
    "CPU time limit exceeded", "File size limit exceeded", "Virtual timer expired", "Profiling timer expired",
    "Window changed", "I/O possible", "Power failure", "Bad system call", "Unknown signal 32",
    "Unknown signal 33"]).map text

def description (n : Nat) : Bytes := descriptions[n]?.getD (text "Real-time signal " ++ Bytes.decimal (n - 34))

/-! ## What signals do -/

/-- The signals that do nothing to a process that has asked for nothing; a process that belongs to
no terminal is not stopped by one either. -/
def isQuiet (n : Nat) : Bool := [0, 17, 18, 20, 21, 22, 23, 28].contains n

/-- The signals about which nothing can be asked for. -/
def isFirm (n : Nat) : Bool := n == kill || n == stop

end SignalNumber

end LanguageClient.Host
