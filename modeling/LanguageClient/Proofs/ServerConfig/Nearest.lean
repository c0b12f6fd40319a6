import LanguageClient.ServerConfig.File
import LanguageClient.Proofs.Host.Tree
/-
  LanguageClient.Proofs.ServerConfig.Nearest — the search for the server list of a project.

  The search climbs by the text of the path, the directories of a project lie in one another
  by the tree. Both ways up agree as long as the text has no `..`: each name that is taken off
  is the name of a directory, or a `.`, and then the path leads where it led before
  (`Leads.parent`). Behind a `..` the text leads down again, into the directory that the path
  had gone into and out of. So

  - no directory that the start lies in is ever passed over (`isSome_climb`), and without a
    `..` no other one is looked into, so that the list found is the nearest
    (`found_in_nearest`);
  - with a `..` the list of a directory beside the start can be taken for the project's
    (`a_list_beside_the_start`).
-/

namespace LanguageClient.ServerConfig.File

open Host (Files Place Tree)

def enclosing (d : Place) : List Place := d.inits.reverse

def holds (f : Files) (d : Place) : Bool := (f.tree.node? (d ++ [name])).any (·.isFile)

def climb (f : Files) (p : Bytes) : Option Bytes := ((Path.ancestors p).map (Path.join · name)).find? f.isFile

theorem nearest_eq {f : Files} {start : Bytes} (habs : Path.isAbsolute (Path.absolute f.current start) = true) :
    nearest f start = climb f (Path.absolute f.current start) := by
  have hne : Path.absolute f.current start ≠ [] := by
    intro heq
    rw [heq] at habs
    cases habs
  rw [nearest]
  simp only [hne, if_false]
  rfl

theorem mem_enclosing {d here : Place} : d ∈ enclosing here ↔ d <+: here := by simp [enclosing]

theorem enclosing_root : enclosing [] = [[]] := rfl

theorem enclosing_concat (d : Place) (n : Bytes) : enclosing (d ++ [n]) = (d ++ [n]) :: enclosing d := by
  simp [enclosing, List.inits_append]

theorem enclosing_eq_cons (d : Place) : ∃ above, enclosing d = d :: above := by
  induction d using List.reverseRecOn with
  | nil => exact ⟨[], rfl⟩
  | append_singleton d n _ => exact ⟨enclosing d, enclosing_concat d n⟩

theorem name_proper : Tree.IsProper name := by decide

theorem climb_eq {f : Files} {p : Bytes} (habs : Path.isAbsolute p = true) :
    climb f p = if f.isFile (Path.join p name) then some (Path.join p name)
      else if Path.names p = [] then none else climb f (Path.parent p) := by
  unfold climb
  split
  next hfile =>
    obtain ⟨rest, hrest⟩ : ∃ rest, Path.ancestors p = p :: rest := by
      rw [Path.ancestors_eq]
      split <;> exact ⟨_, rfl⟩
    rw [hrest, List.map_cons, List.find?_cons_of_pos hfile]
  next hfile =>
    split
    next hnames =>
      rw [Path.ancestors_of_names_nil hnames, List.map_singleton, List.find?_cons_of_neg hfile]
      rfl
    next hnames => rw [Path.ancestors_of_names habs hnames, List.map_cons, List.find?_cons_of_neg hfile]

/-! ## One step up -/

structure Passes (f : Files) (p : Bytes) (here : Place) : Prop where
  isAbsolute : Path.isAbsolute p = true
  no_nul : 0 ∉ p
  short : p.length + 1 + name.length ≤ Tree.maxPath
  leads : f.tree.Leads (Path.names p) here

theorem Passes.place_join {f : Files} (hlinks : f.tree.Linkless) {p : Bytes} {here : Place} (h : Passes f p here) :
    f.place true (Path.join p name)
      = if (f.tree.node? (here ++ [name])).isSome then .ok (here ++ [name]) else .error .noEntry :=
  Files.place_join hlinks h.isAbsolute h.no_nul h.leads name_proper h.short true

/-- A list is seen where the directory holds one. -/
theorem Passes.isFile_join {f : Files} (hlinks : f.tree.Linkless) {p : Bytes} {here : Place} (h : Passes f p here) :
    f.isFile (Path.join p name) = holds f here := by
  unfold Files.isFile Files.node? Files.find holds
  rw [h.place_join hlinks]
  cases hnode : f.tree.node? (here ++ [name]) with
  | none => rfl
  | some n => simp [hnode, Except.toOption]

/-- What a step up by the text is in the tree: none at all, one up, or, off a `..`, one down. -/
inductive Up (p : Bytes) : Place → Place → Prop
  | stays (here : Place) : Up p here here
  | leaves (above : Place) (n : Bytes) : Up p (above ++ [n]) above
  | returns (into : Place) : Path.dotDotName ∈ Path.names p → Up p into.dropLast into

theorem Passes.parent {f : Files} {p : Bytes} {here : Place} (h : Passes f p here) (hnames : Path.names p ≠ []) :
    ∃ above, Passes f (Path.parent p) above ∧ Up p here above := by
  have hbegins := Path.parent_prefix p
  have hpasses : ∀ above, f.tree.Leads (Path.names (Path.parent p)) above → Passes f (Path.parent p) above := by
    intro above hleads
    refine ⟨Path.isAbsolute_parent h.isAbsolute, fun hnul => h.no_nul (hbegins.subset hnul), ?_, hleads⟩
    have hle := hbegins.length_le
    have hshort := h.short
    omega
  have hall := Path.names_eq_names_parent_append hnames
  have hleads := h.leads
  by_cases hfile : Path.filename p = []
  · -- a slash at the end is all that is taken off
    rw [hall, hfile, Path.names_nil, List.append_nil] at hleads
    exact ⟨here, hpasses here hleads, .stays here⟩
  · rw [Path.names_of_isName ⟨hfile, (Path.eq_or_append_filename p).1⟩] at hall
    rw [hall] at hleads
    obtain ⟨above, habove, hlast⟩ := hleads.last
    refine ⟨above, hpasses above habove, ?_⟩
    obtain ⟨-, ⟨-, rfl⟩ | ⟨hdd, rfl⟩ | ⟨-, rfl⟩⟩ := Tree.enter_cases hlast
    · exact .stays _
    · refine .returns above ?_
      rw [hall, hdd]
      exact List.mem_append_right _ List.mem_cons_self
    · exact .leaves above _

/-- A path without names leads to the root. -/
theorem Passes.root {f : Files} {p : Bytes} {here : Place} (h : Passes f p here) (hnames : Path.names p = []) :
    here = [] := by
  have hreached := h.leads.reached
  rw [hnames] at hreached
  exact (Except.ok.inj hreached).symm

/-! ## The whole way up -/

/-- No directory is passed over that the start lies in. -/
theorem isSome_climb {f : Files} (hlinks : f.tree.Linkless) {p : Bytes} (habs : Path.isAbsolute p = true) :
    ∀ here, Passes f p here → ∀ d ∈ enclosing here, holds f d = true → (climb f p).isSome := by
  induction p, habs using Path.parent_induction with
  | root p habs hnames =>
    intro here hpasses d hd hholds
    obtain rfl := hpasses.root hnames
    obtain rfl : d = [] := by simpa [enclosing_root] using hd
    rw [climb_eq habs, if_pos (hpasses.isFile_join hlinks ▸ hholds)]
    rfl
  | up p habs hnames ih =>
    intro here hpasses d hd hholds
    rw [climb_eq habs, hpasses.isFile_join hlinks, if_neg hnames]
    split
    next => rfl
    next hhere =>
      obtain ⟨above, habove, hup⟩ := hpasses.parent hnames
      refine ih above habove d ?_ hholds
      -- the directory looked for is not the one that was looked into, so it is still ahead
      cases hup with
      | stays => exact hd
      | leaves above n =>
        rw [enclosing_concat] at hd
        rcases List.mem_cons.1 hd with rfl | hd
        · exact absurd hholds hhere
        · exact hd
      | returns into _ => exact mem_enclosing.2 ((mem_enclosing.1 hd).trans (List.dropLast_prefix _))

/-- The list in the directory that the path leads to is the first that is found. -/
theorem Passes.found_here {f : Files} (hlinks : f.tree.Linkless) {p : Bytes} {here : Place} (h : Passes f p here)
    (hhere : holds f here = true) :
    (climb f p).map (f.place true) = ((enclosing here).find? (holds f)).map fun d => .ok (d ++ [name]) := by
  obtain ⟨above, heq⟩ := enclosing_eq_cons here
  have hthere : (f.tree.node? (here ++ [name])).isSome = true := Option.isSome_of_any hhere
  rw [climb_eq h.isAbsolute, h.isFile_join hlinks, if_pos hhere, heq, List.find?_cons_of_pos hhere, Option.map_some,
    Option.map_some, h.place_join hlinks, if_pos hthere]

/-- Without a `..` the list found is the one in the nearest directory that the start lies in. -/
theorem climb_leads_to_nearest {f : Files} (hlinks : f.tree.Linkless) {p : Bytes} (habs : Path.isAbsolute p = true) :
    ∀ here, Passes f p here → Path.dotDotName ∉ Path.names p →
      (climb f p).map (f.place true) = ((enclosing here).find? (holds f)).map fun d => .ok (d ++ [name]) := by
  induction p, habs using Path.parent_induction with
  | root p habs hnames =>
    intro here hpasses _
    obtain rfl := hpasses.root hnames
    by_cases hhere : holds f [] = true
    · exact hpasses.found_here hlinks hhere
    · rw [climb_eq habs, hpasses.isFile_join hlinks, if_neg hhere, if_pos hnames, enclosing_root,
        List.find?_cons_of_neg hhere]
      rfl
  | up p habs hnames ih =>
    intro here hpasses hdd
    by_cases hhere : holds f here = true
    · exact hpasses.found_here hlinks hhere
    · obtain ⟨above, habove, hup⟩ := hpasses.parent hnames
      have hnext := ih above habove fun hmem => hdd (by
        rw [Path.names_eq_names_parent_append hnames]
        exact List.mem_append_left _ hmem)
      rw [climb_eq habs, hpasses.isFile_join hlinks, if_neg hhere, if_neg hnames, hnext]
      cases hup with
      | stays => rfl
      | leaves above n => rw [enclosing_concat, List.find?_cons_of_neg hhere]
      | returns _ hmem => exact absurd hmem hdd

/-- From any directory in a tree without links, the search finds a list whenever the directory or one that it lies
in holds one. When the path to the directory has no `..`, it finds the nearest of these lists and nothing else. -/
theorem found_in_nearest {f : Files} (hlinks : f.tree.Linkless) (hstanding : f.Standing) {start : Bytes}
    (hnul : 0 ∉ start) {q : Place} {w : Bool} (hstart : f.find start = .ok (q, .directory w))
    (hshort : (Path.absolute f.current start).length + 1 + name.length ≤ Tree.maxPath) :
    ((∃ d ∈ enclosing q, holds f d = true) → (nearest f start).isSome) ∧
    (Path.dotDotName ∉ Path.names start →
      (nearest f start).map (f.place true) = ((enclosing q).find? (holds f)).map fun d => .ok (d ++ [name])) := by
  obtain ⟨hne, -⟩ := Files.ne_nil_of_place hnul (Files.find_eq_ok hstart).1
  have habs := Path.isAbsolute_absolute f.isAbsolute_current hne
  have hpasses : Passes f (Path.absolute f.current start) q :=
    ⟨habs, hstanding.no_nul_absolute hne hnul, hshort, hstanding.leads hlinks hnul hstart⟩
  rw [nearest_eq habs]
  refine ⟨fun ⟨d, hd, hholds⟩ => isSome_climb hlinks habs q hpasses d hd hholds, fun hdd => ?_⟩
  refine climb_leads_to_nearest hlinks habs q hpasses ?_
  rw [Path.absolute_eq _ hne]
  split
  next => exact hdd
  next hrel =>
    rw [Path.names_join _ (by simpa using hrel), hstanding.names_current, List.mem_append, not_or]
    exact ⟨fun hmem => (hstanding.proper _ hmem).ne_dotDot rfl, hdd⟩

def nested : Files where
  tree := ⟨[([text "p"], .directory true), ([text "p", text "src"], .directory true),
    ([text "p", name], .file {} (.bytes [])), ([name], .file {} (.bytes []))]⟩
  here := [text "p"]

theorem found_in_nearest_of_nested :
    nested.find (text "./src//") = .ok ([text "p", text "src"], .directory true) ∧
    (nearest nested (text "./src//")).map (nested.place true) = some (.ok [text "p", name]) := by
  have hstart : nested.find (text "./src//") = .ok ([text "p", text "src"], .directory true) := by
    rw [Files.find, Files.place, Tree.walk_eq_foldlM (by decide +kernel)]
    decide +kernel
  have hfound := (found_in_nearest (by decide +kernel) (by decide +kernel) (by decide) hstart (by decide +kernel)).2
    (by decide +kernel)
  exact ⟨hstart, hfound.trans (by decide +kernel)⟩

def beside : Files where
  tree := ⟨[([text "b"], .directory true), ([text "b", name], .file {} (.bytes [])), ([text "c"], .directory true)]⟩

/-- The list beside the start is found by way of a `..`, though no directory that the start lies in holds one. -/
theorem a_list_beside_the_start :
    beside.tree.Linkless ∧ beside.Standing ∧ beside.find (text "b/../c") = .ok ([text "c"], .directory true) ∧
    (∀ d ∈ enclosing [text "c"], holds beside d = false) ∧
    nearest beside (text "b/../c") = some (text "/b/agents.config.json") := by
  have hlinks : beside.tree.Linkless := by decide +kernel
  refine ⟨hlinks, by decide +kernel, ?_, by decide +kernel, ?_⟩
  · rw [Files.find, Files.place, Tree.walk_eq_foldlM hlinks]
    decide +kernel
  · unfold nearest Files.isFile Files.node? Files.find Files.place
    simp only [Tree.walk_eq_foldlM hlinks]
    decide +kernel

end LanguageClient.ServerConfig.File
