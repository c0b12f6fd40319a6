import LanguageClient.Host.Tree
import LanguageClient.Proofs.Path.Ancestors
/-
  LanguageClient.Proofs.Host.Tree — where paths lead in a tree without links.

  Without links a path is followed name by name, each from the place where the one before it
  led. So where a path leads is where its last names lead from the place of the others.

  - `walk_eq_foldlM`: following names, a step for each.
  - `Leads`: names that lead from the root to a directory; `Leads.last` and `enter_cases` take
    the last of them off.
  - `Standing`: a working directory that is there, so that the names to it lead to it.
-/

namespace LanguageClient.Host

def Node.isLink : Node → Bool
  | link _ => true
  | _ => false

namespace Tree

def Linkless (t : Tree) : Prop := ∀ x ∈ t.nodes, x.2.isLink = false

instance (t : Tree) : Decidable t.Linkless := inferInstanceAs (Decidable (∀ x ∈ t.nodes, x.2.isLink = false))

def enter (t : Tree) (here : Place) (name : Bytes) : Except Errno Place :=
  if !t.isDirectory here then .error .notDirectory
  else if name = Path.dotName then .ok here
  else if name = Path.dotDotName then .ok here.dropLast
  else if maxName < name.length then .error .nameTooLong
  else if (t.node? (here ++ [name])).isSome then .ok (here ++ [name])
  else .error .noEntry

theorem mem_of_node? {t : Tree} {p : Place} {n : Node} (hp : p ≠ []) (h : t.node? p = some n) : (p, n) ∈ t.nodes := by
  rw [node?, if_neg hp, List.lookup_eq_some_iff] at h
  obtain ⟨before, after, heq, _⟩ := h
  rw [heq]
  exact List.mem_append_right _ List.mem_cons_self

theorem Linkless.node? {t : Tree} (h : t.Linkless) {p : Place} {target : Bytes} :
    t.node? p ≠ some (.link target) := by
  intro hnode
  by_cases hp : p = []
  · rw [Tree.node?, if_pos hp] at hnode
    cases hnode
  · cases h _ (mem_of_node? hp hnode)

/-- Without links, following names is following them one by one. -/
theorem walk_eq_foldlM {t : Tree} (h : t.Linkless) (follow : Bool) (links : Nat) (here : Place) (ns : List Bytes) :
    t.walk follow links here ns = ns.foldlM t.enter here := by
  induction ns generalizing here with
  | nil => rw [walk]; rfl
  | cons n ns ih =>
    rw [walk, List.foldlM_cons, enter]
    by_cases hdir : t.isDirectory here = true
    · by_cases hdot : n = Path.dotName
      · simpa [hdir, hdot, bind, Except.bind] using ih here
      · by_cases hdd : n = Path.dotDotName
        · subst hdd
          simpa [hdir, hdot, bind, Except.bind] using ih here.dropLast
        · by_cases hlong : maxName < n.length
          · simp [hdir, hdot, hdd, hlong, bind, Except.bind]
          · cases hnode : t.node? (here ++ [n]) with
            | none => simp [hdir, hdot, hdd, hlong, bind, Except.bind]
            | some node =>
              cases node with
              | link target => exact absurd hnode h.node?
              | _ => simpa [hdir, hdot, hdd, hlong, bind, Except.bind] using ih (here ++ [n])
    · simp [hdir, bind, Except.bind]

/-- Where one name leads: it stays, goes up or goes down by itself. -/
theorem enter_cases {t : Tree} {here there : Place} {n : Bytes} (h : t.enter here n = .ok there) :
    t.isDirectory here = true ∧
    ((n = Path.dotName ∧ there = here) ∨ (n = Path.dotDotName ∧ there = here.dropLast) ∨
      (n ≠ Path.dotName ∧ there = here ++ [n])) := by
  unfold enter at h
  split at h
  next => cases h
  next hdir =>
    refine ⟨by simpa using hdir, ?_⟩
    split at h
    next hdot => exact Or.inl ⟨hdot, (Except.ok.inj h).symm⟩
    next hdot =>
      split at h
      next hdd => exact Or.inr (Or.inl ⟨hdd, (Except.ok.inj h).symm⟩)
      next =>
        split at h
        next => cases h
        next =>
          split at h
          next => exact Or.inr (Or.inr ⟨hdot, (Except.ok.inj h).symm⟩)
          next => cases h

structure IsProper (n : Bytes) : Prop where
  isName : Path.IsName n
  ne_dot : n ≠ Path.dotName
  ne_dotDot : n ≠ Path.dotDotName
  no_nul : 0 ∉ n
  short : n.length ≤ maxName

instance (n : Bytes) : Decidable (IsProper n) :=
  decidable_of_iff (Path.IsName n ∧ n ≠ Path.dotName ∧ n ≠ Path.dotDotName ∧ 0 ∉ n ∧ n.length ≤ maxName)
    ⟨fun ⟨hname, hdot, hdd, hnul, hshort⟩ => ⟨hname, hdot, hdd, hnul, hshort⟩,
      fun h => ⟨h.isName, h.ne_dot, h.ne_dotDot, h.no_nul, h.short⟩⟩

theorem enter_proper {t : Tree} {here : Place} {n : Bytes} (hdir : t.isDirectory here = true) (hn : IsProper n) :
    t.enter here n = if (t.node? (here ++ [n])).isSome then .ok (here ++ [n]) else .error .noEntry := by
  simp [enter, hdir, hn.ne_dot, hn.ne_dotDot, Nat.not_lt.2 hn.short]

theorem foldlM_concat (t : Tree) (here : Place) (ns : List Bytes) (n : Bytes) :
    (ns ++ [n]).foldlM t.enter here = (ns.foldlM t.enter here).bind (t.enter · n) := by
  rw [List.foldlM_append]
  cases ns.foldlM t.enter here with
  | error e => rfl
  | ok there => exact bind_pure (t.enter there n)

/-- A slash at the end of a path leads nowhere else. -/
theorem foldlM_names_of_steps {t : Tree} {p : Bytes} {here there : Place}
    (h : (steps p).foldlM t.enter here = .ok there) : (Path.names p).foldlM t.enter here = .ok there := by
  unfold steps at h
  split at h
  next =>
    rw [foldlM_concat] at h
    cases hnames : (Path.names p).foldlM t.enter here with
    | error e => rw [hnames] at h; cases h
    | ok last =>
      -- the last step is a `.`, which stays
      rw [hnames] at h
      obtain ⟨-, ⟨-, rfl⟩ | ⟨hdd, -⟩ | ⟨hdot, -⟩⟩ := enter_cases h
      · rfl
      · exact absurd hdd (by decide)
      · exact absurd rfl hdot
  next => rwa [List.append_nil] at h

structure Leads (t : Tree) (ns : List Bytes) (here : Place) : Prop where
  reached : ns.foldlM t.enter [] = .ok here
  isDirectory : t.isDirectory here = true

/-- Before its last name a path leads to a directory, from which the name leads on. -/
theorem Leads.last {t : Tree} {ns : List Bytes} {n : Bytes} {here : Place} (h : t.Leads (ns ++ [n]) here) :
    ∃ mid, t.Leads ns mid ∧ t.enter mid n = .ok here := by
  have hreached := h.reached
  rw [foldlM_concat] at hreached
  cases hns : ns.foldlM t.enter [] with
  | error e => rw [hns] at hreached; cases hreached
  | ok mid =>
    rw [hns] at hreached
    exact ⟨mid, ⟨hns, (enter_cases hreached).1⟩, hreached⟩

/-- The names of a place lead to it when all above it are directories. -/
theorem leads_self {t : Tree} {here : Place} (hproper : ∀ n ∈ here, IsProper n)
    (hdirs : ∀ d ∈ here.inits, t.isDirectory d = true) : t.Leads here here := by
  induction here using List.reverseRecOn with
  | nil => exact ⟨rfl, hdirs [] (by simp)⟩
  | append_singleton ns n ih =>
    have hbefore : t.Leads ns ns := by
      refine ih (fun m hm => hproper m (List.mem_append_left _ hm)) fun d hd => hdirs d ?_
      rw [List.mem_inits] at hd ⊢
      exact hd.trans (List.prefix_append _ _)
    have hhere : t.isDirectory (ns ++ [n]) = true := hdirs _ ((List.mem_inits _ _).2 List.prefix_rfl)
    have hsome : (t.node? (ns ++ [n])).isSome = true := Option.isSome_of_any hhere
    refine ⟨?_, hhere⟩
    rw [foldlM_concat, hbefore.reached]
    show t.enter ns n = _
    rw [enter_proper hbefore.isDirectory (hproper n (by simp)), if_pos hsome]

end Tree

namespace Files

theorem find_of_node? {f : Files} {p : Bytes} {n : Node} (h : f.node? p = some n) : ∃ q, f.find p = .ok (q, n) := by
  unfold node? at h
  cases hfind : f.find p with
  | error e => rw [hfind] at h; cases h
  | ok found =>
    rw [hfind] at h
    cases h
    exact ⟨found.1, rfl⟩

theorem find_of_isDirectory {f : Files} {p : Bytes} (h : f.isDirectory p = true) :
    ∃ q w, f.find p = .ok (q, .directory w) := by
  obtain ⟨n, hnode, hdir⟩ := (Option.any_eq_true ..).1 h
  obtain ⟨q, hfind⟩ := find_of_node? hnode
  cases n with
  | directory w => exact ⟨q, w, hfind⟩
  | file _ _ => cases hdir
  | device _ => cases hdir
  | link _ => cases hdir

theorem beforeNul_beforeNul (p : Bytes) : Bytes.beforeNul (Bytes.beforeNul p) = Bytes.beforeNul p :=
  Bytes.beforeNul_eq_self fun hmem => by simpa using List.mem_takeWhile_imp hmem

/-- What stands behind a NUL is not looked at. -/
theorem find_beforeNul (f : Files) (p : Bytes) : f.find (Bytes.beforeNul p) = f.find p := by
  unfold find place
  rw [beforeNul_beforeNul]

/-- An absolute path leads to the same place from everywhere. -/
theorem find_of_isAbsolute {p : Bytes} (habs : Path.isAbsolute p = true) (t : Tree) (here there : Place) :
    (⟨t, here⟩ : Files).find p = (⟨t, there⟩ : Files).find p := by
  have hcut : Path.isAbsolute (Bytes.beforeNul p) = true := by
    cases p with
    | nil => cases habs
    | cons c r =>
      obtain rfl : c = Byte.slash := by simpa [Path.isAbsolute] using habs
      rfl
  unfold find place
  simp only [hcut, if_true]

/-- Short text without a NUL is followed name by name, from the root or from the working directory. -/
theorem place_eq {f : Files} (hlinks : f.tree.Linkless) {p : Bytes} (hne : p ≠ []) (hnul : 0 ∉ p)
    (hlen : p.length ≤ Tree.maxPath) (follow : Bool) :
    f.place follow p = (Tree.steps p).foldlM f.tree.enter (if Path.isAbsolute p then [] else f.here) := by
  rw [place, Bytes.beforeNul_eq_self hnul, if_neg hne, if_neg (Nat.not_lt.2 hlen), Tree.walk_eq_foldlM hlinks]

/-- What a path leads to stands where it leads. -/
theorem find_eq_ok {f : Files} {p : Bytes} {q : Place} {n : Node} (h : f.find p = .ok (q, n)) :
    f.place true p = .ok q ∧ f.tree.node? q = some n := by
  unfold find at h
  split at h
  next => cases h
  next here hplace =>
    split at h
    next node hnode =>
      obtain ⟨rfl, rfl⟩ := Prod.mk.inj (Except.ok.inj h)
      exact ⟨hplace, hnode⟩
    next => cases h

/-- A path that leads somewhere is not empty, and it ends before a NUL and before it is too long. -/
theorem ne_nil_of_place {f : Files} {follow : Bool} {p : Bytes} {q : Place} (hnul : 0 ∉ p)
    (h : f.place follow p = .ok q) :
    p ≠ [] ∧ p.length ≤ Tree.maxPath := by
  rw [place, Bytes.beforeNul_eq_self hnul] at h
  split at h
  next => cases h
  next hne =>
    split at h
    next => cases h
    next hlen => exact ⟨hne, Nat.not_lt.1 hlen⟩

/-- The working directory is there, under names that places can have. -/
structure Standing (f : Files) : Prop where
  proper : ∀ n ∈ f.here, Tree.IsProper n
  directories : ∀ d ∈ f.here.inits, f.tree.isDirectory d = true

instance (f : Files) : Decidable f.Standing :=
  decidable_of_iff ((∀ n ∈ f.here, Tree.IsProper n) ∧ ∀ d ∈ f.here.inits, f.tree.isDirectory d = true)
    ⟨fun ⟨hproper, hdirs⟩ => ⟨hproper, hdirs⟩, fun h => ⟨h.proper, h.directories⟩⟩

theorem Standing.names_current {f : Files} (h : f.Standing) : Path.names f.current = f.here := by
  have hspelled : f.current = Path.spelled true f.here false := by simp [current, pathOf, Path.spelled]
  rw [hspelled]
  exact Path.names_spelled true false fun n hn => (h.proper n hn).isName

theorem Standing.no_nul {f : Files} (h : f.Standing) : 0 ∉ f.current := by
  intro hmem
  rcases List.mem_cons.1 hmem with hslash | hmem
  · exact absurd hslash (by decide)
  · rcases Bytes.mem_joinWith hmem with hslash | ⟨n, hn, hnul⟩
    · exact absurd (List.mem_singleton.1 hslash) (by decide)
    · exact (h.proper n hn).no_nul hnul

theorem isAbsolute_current (f : Files) : Path.isAbsolute f.current = true := rfl

theorem no_nul_join {p n : Bytes} (hp : 0 ∉ p) (hn : 0 ∉ n) (hrel : Path.isAbsolute n = false) :
    0 ∉ Path.join p n := by
  obtain ⟨between, hbetween, heq⟩ := Path.join_eq_append p hrel
  have hslash : (0 : UInt8) ≠ Byte.slash := by decide
  rcases hbetween with rfl | rfl <;> simp [heq, hp, hn, hslash]

theorem Standing.no_nul_absolute {f : Files} (h : f.Standing) {p : Bytes} (hne : p ≠ []) (hnul : 0 ∉ p) :
    0 ∉ Path.absolute f.current p := by
  rw [Path.absolute_eq _ hne]
  split
  next => exact hnul
  next habs => exact no_nul_join h.no_nul hnul (by simpa using habs)

/-- The absolute form of a path leads where the path leads. -/
theorem Standing.leads {f : Files} (h : f.Standing) (hlinks : f.tree.Linkless) {p : Bytes} (hnul : 0 ∉ p) {q : Place}
    {w : Bool} (hfind : f.find p = .ok (q, .directory w)) :
    f.tree.Leads (Path.names (Path.absolute f.current p)) q := by
  obtain ⟨hplace, hnode⟩ := find_eq_ok hfind
  obtain ⟨hne, hlen⟩ := ne_nil_of_place hnul hplace
  rw [place_eq hlinks hne hnul hlen] at hplace
  have hnames := Tree.foldlM_names_of_steps hplace
  refine ⟨?_, by rw [Tree.isDirectory, hnode]; rfl⟩
  rw [Path.absolute_eq _ hne]
  split
  next habs => rwa [if_pos habs] at hnames
  next habs =>
    rw [Path.names_join _ (by simpa using habs), h.names_current, List.foldlM_append,
      (Tree.leads_self h.proper h.directories).reached]
    rwa [if_neg habs] at hnames

/-- A name under an absolute path that leads to a directory leads into the directory. -/
theorem place_join {f : Files} (hlinks : f.tree.Linkless) {p : Bytes} (habs : Path.isAbsolute p = true) (hnul : 0 ∉ p)
    {here : Place} (hleads : f.tree.Leads (Path.names p) here) {n : Bytes} (hn : Tree.IsProper n)
    (hlen : p.length + 1 + n.length ≤ Tree.maxPath) (follow : Bool) :
    f.place follow (Path.join p n)
      = if (f.tree.node? (here ++ [n])).isSome then .ok (here ++ [n]) else .error .noEntry := by
  have hrel := Path.isAbsolute_of_isName hn.isName
  have hjoin : Path.isAbsolute (Path.join p n) = true := Path.isAbsolute_join habs n
  have hne : Path.join p n ≠ [] := by
    intro heq
    rw [heq] at hjoin
    cases hjoin
  have hno : 0 ∉ Path.join p n := no_nul_join hnul hn.no_nul hrel
  have hsteps : Tree.steps (Path.join p n) = Path.names p ++ [n] := by
    rw [Tree.steps, Path.filename_join p hn.isName, if_neg hn.isName.1, List.append_nil, Path.names_join p hrel,
      Path.names_of_isName hn.isName]
  rw [place_eq hlinks hne hno ((Path.length_join_le p hrel).trans hlen), hsteps, if_pos hjoin, Tree.foldlM_concat,
    hleads.reached]
  exact Tree.enter_proper hleads.isDirectory hn

end Files

end LanguageClient.Host
