import LanguageClient.Bytes
/-
  LanguageClient.Log — log entries and the level that lets them through.

  What the client has to say is a list of entries; which of them are written is decided
  when they are written, by the level in force then. An entry passes when its level is at
  least that level, and an entry of level `off` never passes.
-/

namespace LanguageClient.Log

inductive Level where
  | debug
  | info
  | warn
  | error
  | off
  /-- A level number that none of the names above stands for. -/
  | other (code : Int)
  deriving DecidableEq, Repr

namespace Level

def code : Level → Int
  | debug => 0
  | info => 1
  | warn => 2
  | error => 3
  | off => 4
  | other n => n

def ofCode (n : Int) : Level :=
  if n = 0 then debug
  else if n = 1 then info
  else if n = 2 then warn
  else if n = 3 then error
  else if n = 4 then off
  else other n

def name : Level → Bytes
  | debug => text "debug"
  | info => text "info"
  | warn => text "warn"
  | error => text "error"
  | off => text "off"
  | other _ => text "unknown"

def spellings : List (Bytes × Level) :=
  [(text "debug", debug), (text "trace", debug), (text "info", info), (text "warn", warn),
    (text "warning", warn), (text "error", error), (text "off", off), (text "none", off), (text "silent", off)]

def ofText? (s : Bytes) : Option Level := spellings.lookup (Bytes.lower s)

def ofTextOr (fallback : Level) (s : Bytes) : Level := (ofText? s).getD fallback

/-- Whether an entry of level `entry` is written while the level in force is `current`. -/
def passes (current entry : Level) : Bool := entry != off && current.code ≤ entry.code

end Level

structure Entry where
  level : Level
  /-- The part of the client that speaks. -/
  source : Bytes
  message : Bytes
  deriving DecidableEq, Repr

def debug (source : String) (message : Bytes) : Entry := ⟨.debug, text source, message⟩

def info (source : String) (message : Bytes) : Entry := ⟨.info, text source, message⟩

def warn (source : String) (message : Bytes) : Entry := ⟨.warn, text source, message⟩

def error (source : String) (message : Bytes) : Entry := ⟨.error, text source, message⟩

def Entry.line (e : Entry) : Bytes :=
  text "[nanolsp:" ++ e.source ++ text "] " ++ e.level.name ++ text ": " ++ e.message ++ [Byte.lf]

def Entry.written (current : Level) (e : Entry) : Bytes := if current.passes e.level then e.line else []

def written (current : Level) (es : List Entry) : Bytes := es.flatMap (Entry.written current)

end LanguageClient.Log
