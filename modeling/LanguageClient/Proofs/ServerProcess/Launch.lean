import LanguageClient.Host.Parent
import LanguageClient.Proofs.Executable
/-
  LanguageClient.Proofs.ServerProcess.Launch — which file a server is run from.

  The command of a server is looked up from the directory of the client; the file found is
  executed from the directory of the project, where there is one. An absolute path names
  the same file from everywhere, and nothing changes where no other directory is entered
  (`executes_what_was_found`). A relative path is followed anew from the directory of the
  project, and can lead to another file there (`another_file_is_executed`).
-/

namespace LanguageClient

namespace Host

/-- A file that may be executed is what is executed at its path. -/
theorem Image.target_of_find {f : Files} {path : Bytes} {place : Place} {access : Access} {content : Content}
    (h : f.find path = .ok (place, .file access content)) (hexecute : access.canExecute = true) :
    Image.target f path = .ok content := by
  rw [Image.target, h]
  exact if_pos hexecute

namespace Machine

/-- A launch that is planned enters a directory that is there. -/
theorem startingPlace_planned (m : Machine) (rootUri : Option Bytes) :
    ∃ here, m.startingPlace (Launch.directoryOf (m.files m.here) rootUri) = .ok here := by
  cases hdir : Launch.directoryOf (m.files m.here) rootUri with
  | none => exact ⟨m.here, rfl⟩
  | some path =>
    obtain ⟨uri, -, huri⟩ := Option.bind_eq_some_iff.1 hdir
    split at huri
    next hcond =>
      cases huri
      obtain ⟨place, w, hfind⟩ := Files.find_of_isDirectory hcond.2
      exact ⟨place, by simp only [startingPlace, hfind]⟩
    next => cases huri

/-- A planned launch enters its directory, and what it executes there is the file that the command was found to
name, if the path of the file is absolute or the directory is the one that the client is in. -/
theorem executes_what_was_found (m : Machine) (c : ServerConfig) {l : Launch}
    (hplan : Launch.plan ⟨m.files m.here, m.environment⟩ c = .ok l)
    (hsame : Path.isAbsolute l.file = true ∨ m.startingPlace l.directory = .ok m.here) :
    ∃ here place access content,
      m.startingPlace l.directory = .ok here ∧
      (m.files m.here).find l.file = .ok (place, .file access content) ∧ access.canExecute = true ∧
      (m.files here).find (Bytes.beforeNul l.file) = .ok (place, .file access content) ∧
      Image.target (m.files here) (Bytes.beforeNul l.file) = .ok content := by
  unfold Launch.plan at hplan
  split at hplan
  next => cases hplan
  next file hfind =>
    cases hplan
    obtain ⟨here, hhere⟩ := m.startingPlace_planned c.rootUri
    have hrunnable := (Executable.found_cases hfind).1
    obtain ⟨place, access, content, hfound, hexecute⟩ := Executable.file_of_isRunnable hrunnable
    have hthere : (m.files here).find (Bytes.beforeNul file) = .ok (place, .file access content) := by
      rw [Files.find_beforeNul, ← hfound]
      rcases hsame with habs | hstays
      · exact Files.find_of_isAbsolute habs m.tree here m.here
      · rw [Except.ok.inj (hhere.symm.trans hstays)]
    exact ⟨here, place, access, content, hhere, hfound, hexecute, hthere, Image.target_of_find hthere hexecute⟩

def twoServers : Machine where
  tree := ⟨[([text "ls"], .file ⟨true, true, true⟩ (.tool .cat)), ([text "sub"], .directory true),
    ([text "sub", text "ls"], .file ⟨true, true, true⟩ (.tool .sleep))]⟩

def inProject (command : Bytes) : ServerConfig where
  name := text "ls"
  command := command
  rootUri := some (text "file:///sub")

def launchInProject (command : Bytes) : Launch where
  file := command
  arguments := [command]
  environment := []
  directory := some (text "/sub")

theorem plan_inProject {command : Bytes} (h : command = text "/ls" ∨ command = text "./ls") :
    Launch.plan ⟨twoServers.files twoServers.here, twoServers.environment⟩ (inProject command)
      = .ok (launchInProject command) := by
  have hlinks : twoServers.tree.Linkless := by decide +kernel
  unfold Launch.plan Executable.find Executable.isRunnable Launch.directoryOf Files.isFile Files.isExecutable
    Files.isDirectory Files.node? Files.find Files.place
  simp only [files, Tree.walk_eq_foldlM hlinks]
  rcases h with rfl | rfl <;> decide +kernel

/-- Found by its absolute path, the server of the client is executed in the project too. -/
theorem executes_what_was_found_in_a_project :
    Path.isAbsolute (launchInProject (text "/ls")).file = true ∧
    ∃ here place access content,
      twoServers.startingPlace (some (text "/sub")) = .ok here ∧
      (twoServers.files []).find (text "/ls") = .ok (place, .file access content) ∧ access.canExecute = true ∧
      (twoServers.files here).find (text "/ls") = .ok (place, .file access content) ∧
      Image.target (twoServers.files here) (text "/ls") = .ok content := by
  have habs : Path.isAbsolute (launchInProject (text "/ls")).file = true := by decide
  exact ⟨habs, executes_what_was_found twoServers (inProject (text "/ls")) (plan_inProject (Or.inl rfl)) (Or.inl habs)⟩

/-- Found by a relative path, it is not: in the project that path leads to another server. -/
theorem another_file_is_executed :
    Launch.plan ⟨twoServers.files twoServers.here, twoServers.environment⟩ (inProject (text "./ls"))
      = .ok (launchInProject (text "./ls")) ∧
    (twoServers.files twoServers.here).find (text "./ls") = .ok ([text "ls"], .file ⟨true, true, true⟩ (.tool .cat)) ∧
    twoServers.startingPlace (some (text "/sub")) = .ok [text "sub"] ∧
    (twoServers.files [text "sub"]).find (text "./ls")
      = .ok ([text "sub", text "ls"], .file ⟨true, true, true⟩ (.tool .sleep)) ∧
    Image.target (twoServers.files [text "sub"]) (text "./ls") = .ok (.tool .sleep) := by
  have hlinks : twoServers.tree.Linkless := by decide +kernel
  refine ⟨plan_inProject (Or.inr rfl), ?_⟩
  unfold startingPlace Image.target Files.find Files.place
  simp only [files, Tree.walk_eq_foldlM hlinks]
  decide +kernel

end Machine

end Host

end LanguageClient
