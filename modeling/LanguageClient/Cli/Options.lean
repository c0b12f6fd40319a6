import LanguageClient.Log
import LanguageClient.Bytes
/-
  LanguageClient.Cli.Options — the options of the command line.

  Arguments are read from left to right. An option that takes a value takes the next
  argument, whatever it looks like; without one it is unknown. The last value given counts.
  At the first argument that cannot be accepted reading stops, and what was read so far
  stays read.
-/

namespace LanguageClient.Cli

/-- The number a text denotes: an optional sign and digits, after white space, of 32 bits. -/
def int32? (s : Bytes) : Option Int :=
  let body := s.dropWhile Byte.isSpace
  let value := match body with
    | Byte.minus :: digits => (Bytes.toNat? digits).map (fun n => -(n : Int))
    | Byte.plus :: digits => (Bytes.toNat? digits).map (fun n => (n : Int))
    | digits => (Bytes.toNat? digits).map (fun n => (n : Int))
  value.filter (fun n => -2147483648 ≤ n && n ≤ 2147483647)

structure Options where
  positional : List Bytes := []
  /-- The server list to read; none when it is empty. -/
  config : Bytes := []
  /-- The server to use; none when it is empty. -/
  server : Bytes := []
  /-- How long to wait for diagnostics, in milliseconds. -/
  waitMs : Int := 3000
  tabSize : Option Int := none
  useTabs : Bool := false
  logLevel : Log.Level := .warn
  deriving DecidableEq, Repr

inductive Refusal where
  | waitMs
  | tabSize
  | unknown (arg : Bytes)
  deriving DecidableEq, Repr

def Refusal.message : Refusal → Bytes
  | waitMs => text "Error: --wait-ms expects a non-negative number\n"
  | tabSize => text "Error: --tab-size expects a positive number\n"
  | unknown arg => text "Error: Unknown option '" ++ arg ++ text "'\n"

inductive Key where
  | config
  | server
  | logLevel
  | waitMs
  | tabSize
  deriving DecidableEq, Repr

def Key.ofArg? (arg : Bytes) : Option Key :=
  if arg = text "--config" then some .config
  else if arg = text "--server" then some .server
  else if arg = text "--log-level" then some .logLevel
  else if arg = text "--wait-ms" then some .waitMs
  else if arg = text "--tab-size" then some .tabSize
  else none

namespace Options

/-- Give an option its value. A time to wait is stored before its sign is looked at. -/
def give (o : Options) (value : Bytes) : Key → Options × Option Refusal
  | .config => ({ o with config := value }, none)
  | .server => ({ o with server := value }, none)
  | .logLevel => ({ o with logLevel := Log.Level.ofTextOr o.logLevel value }, none)
  | .waitMs =>
    match int32? value with
    | none => (o, some .waitMs)
    | some n => ({ o with waitMs := n }, if n < 0 then some .waitMs else none)
  | .tabSize =>
    match (int32? value).filter (0 < ·) with
    | none => (o, some .tabSize)
    | some n => ({ o with tabSize := some n }, none)

def take (o : Options) (arg : Bytes) : Options × Option Refusal :=
  if arg = text "--use-tabs" then ({ o with useTabs := true }, none)
  else if (text "--").isPrefixOf arg then (o, some (.unknown arg))
  else ({ o with positional := o.positional ++ [arg] }, none)

def readAll (o : Options) : List Bytes → Options × Option Refusal
  | [] => (o, none)
  | [arg] => o.take arg
  | arg :: value :: rest =>
    match Key.ofArg? arg with
    | some key =>
      match o.give value key with
      | (o', some refusal) => (o', some refusal)
      | (o', none) => o'.readAll rest
    | none =>
      match o.take arg with
      | (o', some refusal) => (o', some refusal)
      | (o', none) => o'.readAll (value :: rest)

/-- Read a list of arguments, each of which ends at its first NUL. -/
def read (o : Options) (args : List Bytes) : Options × Option Refusal := o.readAll (args.map Bytes.beforeNul)

end Options

end LanguageClient.Cli
