import LanguageClient.Host.System
/-
  LanguageClient.Host.Shell.Arguments — the options before the arguments of a builtin.

  Options are letters after a minus sign, several of which may stand together. Some take an
  argument, which is the rest of theirs or the next one. Options end at `--` and at the first
  argument that is none.

  - `next?` reads one option, `options` all of them.
-/

namespace LanguageClient.Host.Shell

structure Arguments where
  /-- The letters that stand together with the option read last. -/
  letters : Bytes := []
  args : List Bytes

namespace Arguments

def take (allowed : Bytes) (letter : UInt8) (letters : Bytes) (args : List Bytes) :
    Act (Option (UInt8 × Bytes) × Arguments) :=
  match (allowed.dropWhile (· != letter)).head?.filter (· != Byte.colon) with
  | none => Act.fail (text "Illegal option -" ++ [letter])
  | some _ =>
    if ((allowed.dropWhile (· != letter)).drop 1).head? ≠ some Byte.colon then
      return (some (letter, []), ⟨letters, args⟩)
    else if letters ≠ [] then return (some (letter, letters), ⟨[], args⟩)
    else
      match args with
      | [] => Act.fail (text "No arg for -" ++ letter :: text " option")
      | arg :: args => return (some (letter, arg), ⟨[], args⟩)

/-- The next option, if there is one; after some letters comes a colon if they take an argument. -/
def next? (allowed : Bytes) (a : Arguments) : Act (Option (UInt8 × Bytes) × Arguments) :=
  match a.letters, a.args with
  | letter :: letters, args => take allowed letter letters args
  | [], (45 :: letter :: letters) :: args =>
    if letter = Byte.minus ∧ letters = [] then pure (none, ⟨[], args⟩) else take allowed letter letters args
  | [], _ => pure (none, a)

def optionsFrom (allowed : Bytes) : Nat → Arguments → Act (List (UInt8 × Bytes) × List Bytes)
  | 0, a => pure ([], a.args)
  | n + 1, a => do
    match ← next? allowed a with
    | (none, a) => return ([], a.args)
    | (some option, a) =>
      let (options, args) ← optionsFrom allowed n a
      return (option :: options, args)

def options (allowed : String) (args : List Bytes) : Act (List (UInt8 × Bytes) × List Bytes) :=
  optionsFrom (text allowed) (args.foldl (fun n a => n + a.length) 1) ⟨[], args⟩

def plain (args : List Bytes) : Act (List Bytes) := do return (← options "" args).2

end Arguments

end LanguageClient.Host.Shell
