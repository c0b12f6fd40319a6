import LanguageClient.Executable
import LanguageClient.Proofs.Host.Tree
/-
  LanguageClient.Proofs.Executable — which file a command is found to name.

  A search path is parted by its colons into entries. The directory of an entry is asked for
  the command only when those of all the entries before it have no executable file of that
  name (`FoundAlong`). What is found is a path with a slash: it is looked up again as it is,
  whatever search path there is then.

  - `CanRun`: a path leads to a regular file, and that may be executed.
  - `Entries`: the entries of a search path, and `within`, the path of a command in one.
  - `find_again`: what is found is found again.
-/

namespace LanguageClient.Executable

open Host (Files)

/-! ## What is found -/

/-- What a command is found to name may be run, and is the command itself or lies in a directory of the search path. -/
theorem found_cases {f : Files} {searchPath : Option Bytes} {command file : Bytes}
    (h : find f searchPath command = some file) : isRunnable f file = true ∧
      (Byte.slash ∈ command ∧ file = command ∨ ∃ dir ∈ directories searchPath, file = Path.join dir command) := by
  unfold find at h
  split at h
  next => cases h
  next =>
    split at h
    next hslash =>
      split at h
      next hrunnable =>
        cases h
        exact ⟨hrunnable, Or.inl ⟨by simpa using hslash, rfl⟩⟩
      next => cases h
    next =>
      obtain ⟨dir, hdir, rfl⟩ := List.mem_map.1 (List.mem_of_find?_eq_some h)
      exact ⟨List.find?_some h, Or.inr ⟨dir, hdir, rfl⟩⟩

/-- A path leads to a regular file that may be executed. -/
def CanRun (f : Files) (path : Bytes) : Prop :=
  ∃ place access content, f.find path = .ok (place, .file access content) ∧ access.canExecute = true

theorem file_of_isRunnable {f : Files} {path : Bytes} (h : isRunnable f path = true) : CanRun f path := by
  obtain ⟨hfile, hexecutable⟩ := Bool.and_eq_true_iff.1 h
  obtain ⟨n, hnode, hfile⟩ := (Option.any_eq_true ..).1 hfile
  obtain ⟨place, hfind⟩ := Files.find_of_node? hnode
  rw [Files.isExecutable, hnode, Option.any_some, hfile, Bool.true_and] at hexecutable
  cases n with
  | file access content => exact ⟨place, access, content, hfind, hexecutable⟩
  | directory _ => cases hfile
  | device _ => cases hfile
  | link _ => cases hfile

theorem isRunnable_iff {f : Files} {path : Bytes} : isRunnable f path = true ↔ CanRun f path := by
  refine ⟨file_of_isRunnable, ?_⟩
  rintro ⟨place, access, content, hfind, hexecute⟩
  have hnode : f.node? path = some (.file access content) := by rw [Files.node?, hfind]; rfl
  simpa [isRunnable, Files.isFile, Files.isExecutable, hnode, Host.Node.isFile, Host.Node.access] using hexecute

/-- A path with a slash is found where it leads to a file that may be executed, and is then found as it is. -/
theorem find_of_slash (f : Files) (searchPath : Option Bytes) {path : Bytes} (h : Byte.slash ∈ path) :
    find f searchPath path = if isRunnable f path then some path else none := by
  have hne : path ≠ [] := List.ne_nil_of_mem h
  have hslash : path.contains Byte.slash = true := by simpa using h
  rw [find, if_neg hne, if_pos hslash]

/-! ## Search paths -/

/-- What is read as the search path: one that is not set, or empty, stands for the standard one. -/
def effective (searchPath : Option Bytes) : Bytes := (searchPath.filter (· != [])).getD standardPath

/-- The path of a command in the directory of an entry; an empty entry names the current directory. -/
def within (entry command : Bytes) : Bytes :=
  if entry = [] then Byte.dot :: Byte.slash :: command
  else if entry.getLast? = some Byte.slash then entry ++ command
  else entry ++ Byte.slash :: command

theorem directories_eq (searchPath : Option Bytes) :
    directories searchPath =
      ((effective searchPath).splitOn Byte.colon).map fun e => if e = [] then Path.dotName else e := by
  rcases searchPath with _ | _ | ⟨c, rest⟩ <;> rfl

theorem filename_eq_nil_iff {p : Bytes} (hne : p ≠ []) : Path.filename p = [] ↔ p.getLast? = some Byte.slash := by
  constructor
  · intro hfile
    obtain ⟨a, rfl⟩ := (Path.eq_append_slash_of_filename hfile).resolve_left hne
    exact List.getLast?_concat
  · intro hlast
    obtain ⟨a, rfl⟩ := List.getLast?_eq_some_iff.1 hlast
    exact Path.filename_append_slash a

theorem join_directory (entry : Bytes) {command : Bytes} (h : Byte.slash ∉ command) :
    Path.join (if entry = [] then Path.dotName else entry) command = within entry command := by
  have hrel : Path.isAbsolute command = false := by
    cases command with
    | nil => rfl
    | cons c r => simpa [Path.isAbsolute] using fun heq : c = Byte.slash => h (heq ▸ List.mem_cons_self)
  have hjoin : ∀ a : Bytes, a ≠ [] → Path.join a command =
      if a.getLast? = some Byte.slash then a ++ command else a ++ Byte.slash :: command := by
    intro a hne
    simp only [Path.join, hrel, Bool.false_eq_true, if_false, filename_eq_nil_iff hne]
  unfold within
  split
  · exact hjoin Path.dotName (by decide)
  next hne => exact hjoin entry hne

theorem slash_mem_within (entry command : Bytes) : Byte.slash ∈ within entry command := by
  unfold within
  split
  · simp
  · split
    next hlast => exact List.mem_append_left _ (List.mem_of_getLast? hlast)
    next => simp

/-- A name is looked for in one directory after another. -/
theorem find_of_name (f : Files) (searchPath : Option Bytes) {command : Bytes} (hne : command ≠ [])
    (hslash : Byte.slash ∉ command) :
    find f searchPath command =
      (((effective searchPath).splitOn Byte.colon).map (within · command)).find? (isRunnable f) := by
  have hcontains : ¬ command.contains Byte.slash = true := by simpa using hslash
  rw [find, if_neg hne, if_neg hcontains, directories_eq, List.map_map]
  congr 2
  funext entry
  exact join_directory entry hslash

/-- What is found is a path with a slash. -/
theorem slash_mem_of_find {f : Files} {searchPath : Option Bytes} {command file : Bytes}
    (h : find f searchPath command = some file) : Byte.slash ∈ file := by
  by_cases hslash : Byte.slash ∈ command
  · rw [find_of_slash f searchPath hslash] at h
    split at h
    next => exact Option.some.inj h ▸ hslash
    next => cases h
  · by_cases hne : command = []
    · rw [find, if_pos hne] at h
      cases h
    · rw [find_of_name f searchPath hne hslash] at h
      obtain ⟨entry, -, rfl⟩ := List.mem_map.1 (List.mem_of_find?_eq_some h)
      exact slash_mem_within entry command

/-- What is found is found again as it is, whatever search path there is. -/
theorem find_again {f : Files} {searchPath : Option Bytes} {command file : Bytes}
    (h : find f searchPath command = some file) (otherPath : Option Bytes) : find f otherPath file = some file := by
  rw [find_of_slash f otherPath (slash_mem_of_find h), if_pos (found_cases h).1]

end LanguageClient.Executable
