import LanguageClient.Bytes
/-
  LanguageClient.Environment — the names and values a process is started with.

  An environment is written as entries `name=value`; the name ends at the first `=` and may
  not be empty. Entries need not be well formed and a name may come up again; of several
  entries with one name a lookup takes the first and a merge the last.

  - `assign` gives a name a value in a list that is sorted by distinct names.
  - `merge` makes one such list of the entries of a parent and of what is set over them.
-/

namespace LanguageClient.Environment

def split? (entry : Bytes) : Option (Bytes × Bytes) :=
  match Bytes.cutAt Byte.equals entry with
  | some ([], _) => none
  | other => other

def entry (name value : Bytes) : Bytes := name ++ Byte.equals :: value

def value? (name : Bytes) (entries : List Bytes) : Option Bytes := (entries.filterMap split?).lookup name

/-- Give a name a value, in the place where the order of the names puts it. -/
def assign (name value : Bytes) : List (Bytes × Bytes) → List (Bytes × Bytes)
  | [] => [(name, value)]
  | (n, v) :: rest =>
    if Bytes.before name n then (name, value) :: (n, v) :: rest
    else if name = n then (name, value) :: rest
    else (n, v) :: assign name value rest

def assignAll (env : List (Bytes × Bytes)) (settings : List (Bytes × Bytes)) : List (Bytes × Bytes) :=
  settings.foldl (fun env s => assign s.1 s.2 env) env

/-- The entries of a child: those of its parent that have a name, and over them what is set for it. -/
def merge (parent : List Bytes) (settings : List (Bytes × Bytes)) : List Bytes :=
  (assignAll (assignAll [] (parent.filterMap split?)) settings).map (fun s => entry s.1 s.2)

end LanguageClient.Environment
