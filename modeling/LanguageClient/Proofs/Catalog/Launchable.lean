import LanguageClient.Proofs.Catalog.Hints
/-
  LanguageClient.Proofs.Catalog.Launchable — whether a server can be started from what was found for it.

  A command is found in the search path or else among the tools of the project, and what was
  found is looked up once more when a server is started from it. The search path gives files
  that may be executed, which are found again. Of a tool of the project it is only asked
  whether it is there. So a server can be started from what was found for it exactly where
  the tool that had to be taken may be executed (`ToolCanRun`, `find_found`). Then those
  who are discovered, those who are said to be installed and those whom nobody is told how
  to install can be started (`found_is_startable`). Where the tool may not be executed, it
  is found all the same, and refused (`a_tool_that_may_not_be_executed`).
-/

namespace LanguageClient.Catalog

open Host (Files)

variable {s : Surroundings} {root command file : Bytes}

/-! ## Looking up again what was found -/

/-- A tool of the project that has to be taken for a command may be executed. -/
def ToolCanRun (s : Surroundings) (root command : Bytes) : Prop :=
  Executable.find s.files s.searchPath command = none → s.files.has (localTool root command) = true →
    Executable.CanRun s.files (localTool root command)

/-- Whatever has a file as its command is started from that file. -/
def Startable (s : Surroundings) (file : Bytes) : Prop :=
  ∀ c : ServerConfig, c.command = file → ∃ l, Launch.plan s c = .ok l ∧ l.file = file

/-- Whatever has a file as its command is refused, since that file is not found. -/
def Refused (s : Surroundings) (file : Bytes) : Prop :=
  ∀ c : ServerConfig, c.command = file → Launch.plan s c = .error (.notFound file)

theorem slash_mem_localTool (root name : Bytes) : Byte.slash ∈ localTool root name := by
  have hbin : Path.filename (Path.join (packages root) (text ".bin")) = text ".bin" :=
    Path.filename_join (packages root) (by decide)
  cases habs : Path.isAbsolute name with
  | true =>
    rw [localTool, Path.join, if_pos habs]
    cases name with
    | nil => cases habs
    | cons c r =>
      obtain rfl : c = Byte.slash := by simpa [Path.isAbsolute] using habs
      exact List.mem_cons_self
  | false =>
    rw [localTool, Path.join, if_neg (by simp [habs]), hbin, if_neg (by decide)]
    simp

/-- What is found is an executable file of the search path or, where there is none, what the project has. -/
theorem findCommand_cases (h : findCommand s root command = some file) :
    Executable.find s.files s.searchPath command = some file ∨
      Executable.find s.files s.searchPath command = none ∧ s.files.has (localTool root command) = true ∧
        file = localTool root command := by
  unfold findCommand at h
  cases hfind : Executable.find s.files s.searchPath command with
  | some found =>
    rw [hfind] at h
    exact Or.inl h
  | none =>
    rw [hfind, Option.none_or] at h
    split at h
    next hhas => exact Or.inr ⟨rfl, hhas, (Option.some.inj h).symm⟩
    next => cases h

theorem find_localTool (s : Surroundings) (root command : Bytes) :
    Executable.find s.files s.searchPath (localTool root command) =
      if Executable.isRunnable s.files (localTool root command) then some (localTool root command) else none :=
  Executable.find_of_slash _ _ (slash_mem_localTool root command)

/-- Nothing but a tool that may not be executed keeps a file from being found again. -/
theorem find_found (h : findCommand s root command = some file) :
    (ToolCanRun s root command → Executable.find s.files s.searchPath file = some file) ∧
      (¬ ToolCanRun s root command → Executable.find s.files s.searchPath file = none) := by
  rcases findCommand_cases h with hfind | ⟨hnone, hhas, rfl⟩
  · refine ⟨fun _ => Executable.find_again hfind _, fun htool => absurd (fun hnone => ?_) htool⟩
    rw [hfind] at hnone
    cases hnone
  · rw [find_localTool]
    refine ⟨fun htool => if_pos (Executable.isRunnable_iff.2 (htool hnone hhas)), fun htool => if_neg fun hruns => ?_⟩
    exact htool fun _ _ => Executable.isRunnable_iff.1 hruns

theorem startable_of_find (h : Executable.find s.files s.searchPath file = some file) : Startable s file := by
  rintro c rfl
  rw [Launch.plan, h]
  exact ⟨_, rfl, rfl⟩

theorem refused_of_find (h : Executable.find s.files s.searchPath file = none) : Refused s file := by
  rintro c rfl
  rw [Launch.plan, h]

/-! ## What is said of a server -/

/-- Whoever is discovered runs with the command that was found for a known server of its name. -/
theorem found_of_discovered {t : Site} {c : ServerConfig} (h : c ∈ t.discovery.1) :
    ∃ server ∈ known, c.name = server.name ∧ findCommand t.around t.root server.command = some c.command := by
  have hfaithful := discovery_faithful t
  rw [hfaithful.found_eq] at h
  obtain ⟨⟨server, found⟩, hcheck, rfl⟩ := List.mem_map.1 h
  obtain ⟨hcheck, -⟩ := List.mem_filter.1 hcheck
  obtain ⟨before, after, hsplit⟩ := List.append_of_mem hcheck
  have hserver : server ∈ t.servers := hfaithful.checked_ordered.subset (List.mem_map_of_mem hcheck)
  exact ⟨server, (ordered_perm _).mem_iff.1 hserver, rfl, (hfaithful.checked_useful before _ after hsplit).1⟩

/-- Wherever a server is said to be there, there is a file that it can be started from. -/
structure Reliable (t : Site) (server : KnownServer) : Prop where
  discovered : ∀ c ∈ t.discovery.1, c.name = server.name → Startable t.around c.command
  available : ∀ st ∈ statuses t.around t.root, st.server = server → st.available = true →
    ∃ file, findCommand t.around t.root server.command = some file ∧ Startable t.around file
  /-- Nobody who asks for a language of the server is told how to install it. -/
  unhinted : ∀ extensions, (∃ e ∈ extensions, server.serves (Path.dropDot e) = true) →
    hintLine server ∉ missingHints t.around t.root extensions →
    ∃ file, findCommand t.around t.root server.command = some file ∧ Startable t.around file

theorem startable_of_installed {server : KnownServer} (htool : ToolCanRun s root server.command)
    (h : isInstalled s root server = true) :
    ∃ file, findCommand s root server.command = some file ∧ Startable s file := by
  obtain ⟨file, hfound⟩ := Option.isSome_iff_exists.1 h
  exact ⟨file, hfound, startable_of_find ((find_found hfound).1 htool)⟩

theorem reliable {t : Site} {server : KnownServer} (hknown : server ∈ known)
    (htool : ToolCanRun t.around t.root server.command) : Reliable t server := by
  refine ⟨fun c hc hname => ?_, fun st hst hserver havailable => ?_, fun extensions hserves hhint => ?_⟩
  · obtain ⟨other, hother, hotherName, hfound⟩ := found_of_discovered hc
    obtain rfl := List.inj_on_of_nodup_map known_names hother hknown (hotherName.symm.trans hname)
    exact startable_of_find ((find_found hfound).1 htool)
  · obtain ⟨other, -, rfl⟩ := List.mem_map.1 hst
    obtain rfl : other = server := hserver
    exact startable_of_installed htool havailable
  · cases hinstalled : isInstalled t.around t.root server with
    | true => exact startable_of_installed htool hinstalled
    | false =>
      have hnone := Option.not_isSome_iff_eq_none.1 (Bool.eq_false_iff.1 hinstalled)
      exact absurd (hintLine_mem_missingHints ⟨hknown, hserves, hnone, known_hints server hknown⟩) hhint

/-- What is found for a command is found again, and a server is started from it, unless it is a tool of the
project that may not be executed: then it is refused. So where the tools that have to be taken may be
executed, nothing that is said of the known servers refers to a file that would be refused. -/
theorem found_is_startable (t : Site) :
    (∀ command file, findCommand t.around t.root command = some file →
      (ToolCanRun t.around t.root command →
        Executable.find t.around.files t.around.searchPath file = some file ∧ Startable t.around file) ∧
      (¬ ToolCanRun t.around t.root command →
        Executable.find t.around.files t.around.searchPath file = none ∧ Refused t.around file)) ∧
    ∀ server ∈ known, ToolCanRun t.around t.root server.command → Reliable t server := by
  refine ⟨fun command file hfound => ⟨fun htool => ?_, fun htool => ?_⟩, fun server => reliable⟩
  · have hagain := (find_found hfound).1 htool
    exact ⟨hagain, startable_of_find hagain⟩
  · have hnone := (find_found hfound).2 htool
    exact ⟨hnone, refused_of_find hnone⟩

def withTool (canExecute : Bool) : Site where
  around := { files := { tree := ⟨[([text "node_modules"], .directory true),
    ([text "node_modules", text ".bin"], .directory true),
    ([text "node_modules", text ".bin", text "gopls"], .file ⟨true, true, canExecute⟩ (.bytes []))]⟩ } }
  root := text "."
  verify := fun _ _ => true

def toolPath : Bytes := text "./node_modules/.bin/gopls"

theorem findCommand_withTool (canExecute : Bool) :
    findCommand (withTool canExecute).around (withTool canExecute).root (text "gopls") = some toolPath ∧
      Executable.isRunnable (withTool canExecute).around.files toolPath = canExecute := by
  have hlinks : (withTool canExecute).around.files.tree.Linkless := by cases canExecute <;> decide +kernel
  unfold findCommand Executable.find Executable.isRunnable Files.has Files.isFile Files.isExecutable Files.node? Files.find
    Files.place
  simp only [Host.Tree.walk_eq_foldlM hlinks]
  cases canExecute <;> decide +kernel

/-- A tool of the project that may be executed: a server is started from it. -/
theorem found_is_startable_of_tool :
    findCommand (withTool true).around (withTool true).root (text "gopls") = some toolPath ∧
    ToolCanRun (withTool true).around (withTool true).root (text "gopls") ∧ Startable (withTool true).around toolPath ∧
    ∃ server ∈ known, server.command = text "gopls" ∧ Reliable (withTool true) server := by
  obtain ⟨hfound, hruns⟩ := findCommand_withTool true
  have htool : ToolCanRun (withTool true).around (withTool true).root (text "gopls") :=
    fun _ _ => Executable.isRunnable_iff.1 hruns
  obtain ⟨server, hknown, hcommand⟩ : ∃ server ∈ known, server.command = text "gopls" := by decide +kernel
  exact ⟨hfound, htool, ((found_is_startable (withTool true)).1 _ _ hfound).1 htool |>.2, server, hknown, hcommand,
    (found_is_startable (withTool true)).2 server hknown (hcommand ▸ htool)⟩

/-- A tool of the project that may not be executed is found, and no server can be started from it: it
is not found again. -/
theorem a_tool_that_may_not_be_executed :
    findCommand (withTool false).around (withTool false).root (text "gopls") = some toolPath ∧
    Executable.find (withTool false).around.files (withTool false).around.searchPath toolPath = none ∧
    ∀ c : ServerConfig, c.command = toolPath → Launch.plan (withTool false).around c = .error (.notFound toolPath) := by
  obtain ⟨hfound, hruns⟩ := findCommand_withTool false
  have hnone : Executable.find (withTool false).around.files (withTool false).around.searchPath toolPath = none := by
    rw [Executable.find_of_slash _ _ (by decide), hruns]
    rfl
  exact ⟨hfound, hnone, refused_of_find hnone⟩

end LanguageClient.Catalog
