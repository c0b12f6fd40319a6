import LanguageClient.Host.Shell.State
/-
  LanguageClient.Host.Shell.Listing — what a shell says about itself.

  Variables, aliases, options and actions for signals are listed as the commands that would
  set them. Variables are listed by name; aliases and commands that have been found are kept
  in drawers, by the sum of the bytes of their names, and listed drawer by drawer.

  - `quoted` writes a text so that the shell reads it as one word.
-/

namespace LanguageClient.Host.Shell.Listing

/-- The rest of a text of which the quotes are open: double ones among single quotes. -/
def quotedFrom (isDouble : Bool) : Bytes → Bytes
  | [] => [if isDouble then 34 else 39]
  | b :: r =>
    if b = 39 then (if isDouble then 39 :: quotedFrom true r else 39 :: 34 :: 39 :: quotedFrom true r)
    else if isDouble then 34 :: 39 :: b :: quotedFrom false r
    else b :: quotedFrom false r

def quoted (s : Bytes) : Bytes := 39 :: quotedFrom false s

def line (b : Bytes) : Bytes := b ++ [Byte.lf]

/-! ## Variables -/

def binding (name : Bytes) (v : Variable) : Bytes :=
  match v.value with
  | some value => name ++ Byte.equals :: quoted value
  | none => name

def variableLines (s : Shell) (before : Bytes) (isMeant : Variable → Bool) : Bytes :=
  (Bytes.sortDistinct (s.vars.map (·.1))).flatMap (fun name =>
    match s.vars.lookup name with
    | some v => if isMeant v then line (before ++ binding name v) else []
    | none => [])

/-! ## Drawers -/

def drawer (count : Nat) (name : Bytes) : Nat :=
  ((name.head?.map UInt8.toNat).getD 0 * 16 + name.foldl (fun n b => n + b.toNat) 0) % count

def byDrawer {α : Type} (count : Nat) (entries : List (Bytes × α)) : List (Bytes × α) :=
  (List.range count).flatMap (fun k => entries.filter (fun e => drawer count e.1 == k))

def aliasDrawers : Nat := 39

def commandDrawers : Nat := 31

def aliasLine (name value : Bytes) : Bytes := line (name ++ Byte.equals :: quoted value)

def aliases (s : Shell) : Bytes := (byDrawer aliasDrawers s.aliases).flatMap (fun (name, value) => aliasLine name value)

/-! ## Options and actions -/

def optionTable (s : Shell) : Bytes :=
  line (text "Current option settings") ++
    optionNames.flatMap (fun (name, letter) =>
      line (name ++ List.replicate (16 - name.length) Byte.space
        ++ text (if s.options.contains letter then "on" else "off")))

def optionCommands (s : Shell) : Bytes :=
  optionNames.flatMap (fun (name, letter) =>
    line (text "set " ++ text (if s.options.contains letter then "-o " else "+o ") ++ name))

def traps (s : Shell) : Bytes :=
  (List.range SignalNumber.count).flatMap (fun n =>
    match s.traps.lookup n with
    | some action => line (text "trap -- " ++ quoted action ++ Byte.space :: SignalNumber.name n)
    | none => [])

def signals : Bytes :=
  line (text "0") ++ ((List.range SignalNumber.count).drop 1).flatMap (fun n => line (SignalNumber.name n))

end LanguageClient.Host.Shell.Listing
