import LanguageClient.Proofs.Path.FileUri
/-
  LanguageClient.Proofs.Path.Extension — a file has one extension, however it is addressed.

  The extension is read off the last component (`IsExtension`). The normal form keeps the last
  component when it is a name. When it is none (a slash at the end, a `.` or a `..`), the path
  has no extension, and the normal form ends in a slash or in a `..` and has none either: the
  name that a `..` uncovers is followed by a slash. Percent coding is undone before an extension
  is looked for, so a coded dot counts as what it stands for.

  - `extension_normal`, `extension_absolute`: what is done to a path on the way to its URI.
  - `dropDot_nameExtension_eq_iff`: where the extension of a name begins.
  - `one_extension`: a path and its URI have one extension.
-/

namespace LanguageClient.Path

def endings : List Bytes := [[], dotName, dotDotName]

theorem nameExtension_ending {n : Bytes} (h : n ∈ endings) : nameExtension n = [] := by
  rcases h with _ | ⟨_, _ | ⟨_, _ | ⟨_, ⟨⟩⟩⟩⟩ <;> decide

/-- The normal form of a path that ends in a name ends in it. -/
theorem Draft.filename_push_name (s : Draft) {n : Bytes} (hn : IsName n) (hending : n ∉ endings) :
    filename (s.push n).written = n := by
  have hdot : n ≠ dotName := fun heq => hending (by simp [heq, endings])
  have hdd : n ≠ dotDotName := fun heq => hending (by simp [heq, endings])
  have hkept : (s.push n).kept = n :: s.kept := Draft.push_name hn.1 hdot hdd
  have hslash : (s.push n).slash = false := by simp [Draft.push, hn.1, hdot, hdd]
  rw [Draft.written_eq, hkept, hslash, List.reverse_cons, if_neg (by simp)]
  simpa using filename_spelled (s.push n).rooted s.kept.reverse hn

/-- After an ending there is no name behind the last slash, unless it is a `..`. -/
theorem Draft.filename_push_ending (s : Draft) {n : Bytes} (h : n ∈ endings) :
    filename (s.push n).written ∈ endings := by
  rw [Draft.written_eq]
  cases hkept : (s.push n).kept with
  | nil =>
    rw [List.reverse_nil, if_pos rfl]
    cases (s.push n).rooted <;> decide
  | cons last rest =>
    rw [List.reverse_cons, if_neg (by simp)]
    by_cases hlast : last = dotDotName
    · have hname : IsName dotDotName := by decide
      have hfile := filename_spelled (s.push n).rooted rest.reverse hname
      simp [hlast, hfile, endings]
    · have hslash : (s.push n).slash = true := by
        rw [Draft.push_slash hkept hlast]
        exact decide_eq_true h
      have hfile : filename (spelled (s.push n).rooted (rest.reverse ++ [last]) true) = [] := filename_append_slash _
      simp [hslash, hlast, hfile, endings]

theorem extension_normal (p : Bytes) : extension (normal p) = extension p := by
  by_cases hp : p = []
  · rw [hp]
    rfl
  obtain ⟨s, heq, -, -⟩ := normal_eq hp
  unfold extension
  rw [heq]
  by_cases hending : filename p ∈ endings
  · rw [nameExtension_ending hending, nameExtension_ending (s.filename_push_ending hending)]
  · have hne : filename p ≠ [] := fun hnone => hending (by simp [hnone, endings])
    rw [s.filename_push_name ⟨hne, (eq_or_append_filename p).1⟩ hending]

theorem filename_append_slash_name (a : Bytes) {n : Bytes} (hn : Byte.slash ∉ n) : filename (a ++ Byte.slash :: n) = n := by
  rw [← List.singleton_append, ← List.append_assoc, filename_append_name hn, filename_append_slash, List.nil_append]

/-- What is put behind a slash, or behind nothing, keeps its last component. -/
theorem filename_append_of_end {a : Bytes} (ha : filename a = []) (b : Bytes) : filename (a ++ b) = filename b := by
  obtain ⟨hslash, hb | ⟨front, hb⟩⟩ := eq_or_append_filename b
  · calc filename (a ++ b) = filename (a ++ filename b) := by rw [← hb]
      _ = filename b := by rw [filename_append_name hslash, ha, List.nil_append]
  · calc filename (a ++ b) = filename (a ++ front ++ Byte.slash :: filename b) := by rw [List.append_assoc, ← hb]
      _ = filename b := filename_append_slash_name _ hslash

theorem extension_absolute (dir p : Bytes) : extension (absolute dir p) = extension p := by
  unfold absolute
  split
  · rfl
  next h =>
    rw [join, if_neg (fun habs => h (Or.inr habs))]
    unfold extension
    split
    next hend => rw [filename_append_of_end hend]
    next => rw [← List.singleton_append, ← List.append_assoc, filename_append_of_end (filename_append_slash dir)]

/-! ## Where the extension begins -/

/-- The extension of a file name is what is behind its last dot. A dot that starts the name does not count,
and `..` has none. -/
def IsExtension (name e : Bytes) : Prop :=
  if Byte.dot ∈ name.tail ∧ name ≠ dotDotName then
    ∃ stem, stem ≠ [] ∧ name = stem ++ Byte.dot :: e ∧ Byte.dot ∉ e
  else e = []

theorem nameExtension_of_dot {stem e : Bytes} (hstem : stem ≠ []) (hname : stem ++ Byte.dot :: e ≠ dotDotName)
    (he : Byte.dot ∉ e) : nameExtension (stem ++ Byte.dot :: e) = Byte.dot :: e := by
  obtain ⟨c, stem, rfl⟩ := List.exists_cons_of_ne_nil hstem
  rw [nameExtension, if_neg hname, Bytes.cutAtLast_append he]

theorem nameExtension_without_dot {name : Bytes} (h : ¬ (Byte.dot ∈ name.tail ∧ name ≠ dotDotName)) :
    nameExtension name = [] := by
  unfold nameExtension
  split
  · rfl
  next hname =>
    split
    next c stem e hcut =>
      obtain ⟨rfl, -⟩ := Bytes.cutAtLast_eq_some_iff.1 hcut
      exact absurd ⟨by simp, hname⟩ h
    next => rfl

theorem dropDot_nameExtension_eq_iff {name e : Bytes} : dropDot (nameExtension name) = e ↔ IsExtension name e := by
  unfold IsExtension
  split
  next hdot =>
    have hstem : ∀ {stem e : Bytes}, stem ≠ [] → name = stem ++ Byte.dot :: e → Byte.dot ∉ e →
        dropDot (nameExtension name) = e := fun hstem hname he => by
      rw [hname, nameExtension_of_dot hstem (hname ▸ hdot.2) he]
      rfl
    constructor
    · -- the last dot is the first one from behind
      obtain ⟨c, tail, rfl⟩ := List.exists_cons_of_ne_nil (List.ne_nil_of_mem (List.mem_of_mem_tail hdot.1))
      obtain ⟨after, before, hrev, hafter⟩ := List.eq_append_cons_of_mem (List.mem_reverse.2 hdot.1)
      have htail : c :: tail = (c :: before.reverse) ++ Byte.dot :: after.reverse := by
        rw [List.cons_append, ← List.reverse_reverse tail, show tail.reverse = after ++ Byte.dot :: before from hrev]
        simp
      have hlast : Byte.dot ∉ after.reverse := mt List.mem_reverse.1 hafter
      rintro rfl
      rw [hstem (by simp) htail hlast]
      exact ⟨_, by simp, htail, hlast⟩
    · rintro ⟨stem, hne, hname, he⟩
      exact hstem hne hname he
  next hdot =>
    rw [nameExtension_without_dot hdot]
    exact eq_comm

/-! ## Both ways to address a file -/

theorem ofUri_path {p : Bytes} (h : ¬ fileScheme <+: p) : ofUri p = p := by
  rw [ofUri, if_neg (mt List.isPrefixOf_iff_prefix.1 h)]

theorem not_fileScheme_of_isAbsolute {p : Bytes} (h : isAbsolute p = true) : ¬ fileScheme <+: p := by
  rintro ⟨r, rfl⟩
  cases h

theorem extensionOf_toUri {dir p : Bytes} (habs : absolute dir p = [] ∨ isAbsolute (absolute dir p) = true)
    (hp : ¬ fileScheme <+: p) : extensionOf (toUri dir p) = extensionOf p := by
  have hnormal : normal (absolute dir p) = [] ∨ isAbsolute (normal (absolute dir p)) = true := by
    rw [isAbsolute_normal]
    exact habs.imp_left fun hnone => by rw [hnone]; rfl
  rw [extensionOf, toUri, ofUri_fileScheme hnormal, extension_normal, extension_absolute, extensionOf, ofUri_path hp]

/-- The URI of an absolute path has the extension of the path, whatever the path consists of, and that is the
extension of its last component. So has the URI of a relative path that is seen from a directory, unless the
path itself reads as a URI. -/
theorem one_extension (dir : Bytes) :
    (∀ p, isAbsolute p = true → extensionOf (toUri dir p) = extensionOf p) ∧
    (∀ front name e, isAbsolute (front ++ Byte.slash :: name) = true → Byte.slash ∉ name →
      (extensionOf (front ++ Byte.slash :: name) = e ↔ IsExtension name e)) ∧
    (isAbsolute dir = true → ∀ p, ¬ fileScheme <+: p → extensionOf (toUri dir p) = extensionOf p) := by
  refine ⟨fun p hp => ?_, fun front name e hp hname => ?_, fun hdir p hp => extensionOf_toUri (absolute_cases hdir p) hp⟩
  · have habs : isAbsolute (absolute dir p) = true := by rwa [absolute_of_isAbsolute dir (Or.inr hp)]
    exact extensionOf_toUri (Or.inr habs) (not_fileScheme_of_isAbsolute hp)
  · rw [extensionOf, ofUri_path (not_fileScheme_of_isAbsolute hp), extension, filename_append_slash_name front hname]
    exact dropDot_nameExtension_eq_iff

/-- A last component with several dots and a percent sign, reached over `..`, and one that a `..` uncovers. -/
theorem one_extension_behind_dots :
    isAbsolute (text "/w//x.y/.././100%/.conf.b.%74s") = true ∧
    toUri (text "/home") (text "/w//x.y/.././100%/.conf.b.%74s") = text "file:///w/100%25/.conf.b.%2574s" ∧
    IsExtension (text ".conf.b.%74s") (text "%74s") ∧ extensionOf (text "file:///w/100%25/.conf.b.%2574s") = text "%74s" ∧
    isAbsolute (text "/w/x.y/z/..") = true ∧
    toUri (text "/home") (text "/w/x.y/z/..") = text "file:///w/x.y/" ∧ extensionOf (text "file:///w/x.y/") = [] := by
  have hdots : toUri (text "/home") (text "/w//x.y/.././100%/.conf.b.%74s") = text "file:///w/100%25/.conf.b.%2574s" := by
    decide +kernel
  have hback : toUri (text "/home") (text "/w/x.y/z/..") = text "file:///w/x.y/" := by decide +kernel
  have hlast : IsExtension (text ".conf.b.%74s") (text "%74s") := by
    rw [IsExtension, if_pos (by decide +kernel)]
    exact ⟨text ".conf.b", by decide, by decide +kernel, by decide +kernel⟩
  refine ⟨by decide +kernel, hdots, hlast, ?_, by decide +kernel, hback, ?_⟩
  · rw [← hdots, (one_extension _).1 _ (by decide +kernel)]
    exact ((one_extension (text "/home")).2.1 (text "/w//x.y/.././100%") (text ".conf.b.%74s") _ (by decide +kernel)
      (by decide +kernel)).2 hlast
  · rw [← hback, (one_extension _).1 _ (by decide +kernel)]
    exact ((one_extension (text "/home")).2.1 (text "/w/x.y/z") dotDotName _ (by decide +kernel) (by decide)).2
      (by rw [IsExtension, if_neg (by decide)])

end LanguageClient.Path
