import LanguageClient.Bytes
/-
  LanguageClient.Table — lists of values that stand in byte order of their keys.
-/

namespace LanguageClient.Table

variable {β : Type}

/-- Give a key a value, in the place where its order puts it. -/
def assign (key : Bytes) (value : β) : List (Bytes × β) → List (Bytes × β)
  | [] => [(key, value)]
  | (k, v) :: rest =>
    if Bytes.before key k then (key, value) :: (k, v) :: rest
    else if key = k then (key, value) :: rest
    else (k, v) :: assign key value rest

/-- The table of some pairs, of which a later one takes the place of an earlier one with its key. -/
def ofPairs (pairs : List (Bytes × β)) : List (Bytes × β) := pairs.foldl (fun t p => assign p.1 p.2 t) []

end LanguageClient.Table
