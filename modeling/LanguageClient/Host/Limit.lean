import LanguageClient.Host.Tree
/-
  LanguageClient.Host.Limit — how much of each thing a process may use.

  A process may use as much as it has asked for, and ask for as much as it is allowed to. What
  it is allowed to ask for it may only make less.
-/

namespace LanguageClient.Host

structure Limit where
  letter : UInt8
  /-- What is limited, with its unit. -/
  name : Bytes
  /-- How much may be used; nothing where there is no limit. -/
  soft : Option Nat
  /-- How much may be asked for. -/
  hard : Option Nat
  deriving DecidableEq, Repr

namespace Limit

def usual : List Limit :=
  ([('t', "time(seconds)", none, none), ('f', "file(blocks)", none, none), ('d', "data(kbytes)", none, none),
    ('s', "stack(kbytes)", some 8192, none), ('c', "coredump(blocks)", some 0, none),
    ('m', "memory(kbytes)", none, none), ('l', "locked memory(kbytes)", some 8192, some 8192),
    ('p', "process", some 128604, some 128604), ('n', "nofiles", some 20000, some 20000),
    ('v', "vmemory(kbytes)", none, none), ('w', "locks", none, none), ('r', "rtprio", some 0, some 0)] :
    List (Char × String × Option Nat × Option Nat)).map
      (fun (c, name, soft, hard) => ⟨UInt8.ofNat c.toNat, text name, soft, hard⟩)

def isLess : Option Nat → Option Nat → Bool
  | some a, some b => decide (a < b)
  | some _, none => true
  | none, _ => false

def set (l : Limit) (soft hard : Option (Option Nat)) : Except Errno Limit :=
  let new := { l with soft := soft.getD l.soft, hard := hard.getD l.hard }
  if isLess new.hard new.soft then .error .invalid
  else if isLess l.hard new.hard then .error .notPermitted
  else .ok new

end Limit

end LanguageClient.Host
