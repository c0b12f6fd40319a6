import LanguageClient.Proofs.Bytes
import LanguageClient.Proofs.Path.Normal
/-
  LanguageClient.Proofs.Path.Ancestors — the way up from a path, by its text.

  `parent` looks at nothing but the text of a path: it takes the last component off, with the
  slashes before it. So each step up from an absolute path takes at most one name off, leaves
  an absolute path, and makes the path shorter until no name is left.

  - `ancestors_eq`: the way up goes on until a path is its own parent, and it ends there.
  - `names_eq_names_parent_append`: a step up takes off the last component and no more.
  - `names_join`: the names of a path put under another.
-/

namespace LanguageClient.Path

/-! ## Joining -/

/-- A path that ends in no name is empty or ends in a slash. -/
theorem eq_append_slash_of_filename {p : Bytes} (h : filename p = []) : p = [] ∨ ∃ a, p = a ++ [Byte.slash] := by
  rcases (eq_or_append_filename p).2 with heq | ⟨a, heq⟩
  · exact Or.inl (heq.trans h)
  · exact Or.inr ⟨a, by rw [h] at heq; exact heq⟩

theorem names_append_slashes (a : Bytes) : names (a ++ [Byte.slash]) = names a := by
  rw [names_append_slash, names_nil, List.append_nil]

theorem names_join (a : Bytes) {b : Bytes} (hb : isAbsolute b = false) : names (join a b) = names a ++ names b := by
  rw [join, if_neg (by simp [hb])]
  split
  next hfile =>
    rcases eq_append_slash_of_filename hfile with rfl | ⟨front, rfl⟩
    · rw [names_nil, List.nil_append, List.nil_append]
    · rw [names_append_slashes, List.append_assoc, List.singleton_append, names_append_slash]
  next => exact names_append_slash a b

theorem isAbsolute_append {a : Bytes} (ha : isAbsolute a = true) (b : Bytes) : isAbsolute (a ++ b) = true := by
  cases a with
  | nil => cases ha
  | cons c r => exact ha

theorem isAbsolute_join {a : Bytes} (ha : isAbsolute a = true) (b : Bytes) : isAbsolute (join a b) = true := by
  unfold join
  split
  · assumption
  · split <;> exact isAbsolute_append ha _

/-- What joins two paths is a slash or nothing. -/
theorem join_eq_append (a : Bytes) {b : Bytes} (hb : isAbsolute b = false) :
    ∃ between, (between = [] ∨ between = [Byte.slash]) ∧ join a b = a ++ between ++ b := by
  rw [join, if_neg (by simp [hb])]
  split
  · exact ⟨[], Or.inl rfl, by simp⟩
  · exact ⟨[Byte.slash], Or.inr rfl, by simp⟩

theorem length_join_le (a : Bytes) {b : Bytes} (hb : isAbsolute b = false) :
    (join a b).length ≤ a.length + 1 + b.length := by
  obtain ⟨between, hbetween, heq⟩ := join_eq_append a hb
  rcases hbetween with rfl | rfl
  all_goals
    simp only [heq, List.length_append, List.length_cons, List.length_nil]
    omega

theorem isAbsolute_of_isName {n : Bytes} (h : IsName n) : isAbsolute n = false := by
  cases n with
  | nil => rfl
  | cons c r => simpa [isAbsolute] using fun heq : c = Byte.slash => h.2 (heq ▸ List.mem_cons_self)

theorem filename_join (a : Bytes) {n : Bytes} (hn : IsName n) : filename (join a n) = n := by
  rw [join, if_neg (by simp [isAbsolute_of_isName hn])]
  split
  next hfile => rw [filename_append_name hn.2, hfile, List.nil_append]
  next =>
    rw [← List.singleton_append, ← List.append_assoc, filename_append_name hn.2, filename_append_slash, List.nil_append]

/-- The absolute form of a path is the path, or the path under the directory it is relative to. -/
theorem absolute_eq (dir : Bytes) {p : Bytes} (hne : p ≠ []) :
    absolute dir p = if isAbsolute p = true then p else join dir p := by
  unfold absolute
  split
  next h => rw [if_pos (h.resolve_left hne)]
  next h => rw [if_neg (not_or.1 h).2]

theorem isAbsolute_absolute {dir : Bytes} (hdir : isAbsolute dir = true) {p : Bytes} (hne : p ≠ []) :
    isAbsolute (absolute dir p) = true := by
  rw [absolute_eq dir hne]
  split
  next habs => exact habs
  next => exact isAbsolute_join hdir p

/-! ## One step up -/

theorem names_dropEnd_slash (a : Bytes) : names (Bytes.dropEnd (· == Byte.slash) a) = names a := by
  induction a using List.reverseRecOn with
  | nil => rfl
  | append_singleton a c ih =>
    rw [Bytes.dropEnd_eq_rdropWhile] at ih ⊢
    by_cases hc : c = Byte.slash
    · subst hc
      rw [List.rdropWhile_concat_pos _ _ _ (by simp), ih, names_append_slashes]
    · rw [List.rdropWhile_concat_neg _ _ _ (by simpa using hc)]

def kept (p : Bytes) : Bytes := Bytes.dropEnd (· == Byte.slash) (Bytes.dropEnd (· != Byte.slash) p)

theorem parent_eq (p : Bytes) :
    parent p = if names p = [] then p else if kept p = [] ∧ isAbsolute p = true then [Byte.slash] else kept p := rfl

theorem dropEnd_name {n : Bytes} (hn : Byte.slash ∉ n) : Bytes.dropEnd (· != Byte.slash) n = [] := by
  rw [Bytes.dropEnd_eq_rdropWhile, List.rdropWhile_eq_nil_iff]
  intro c hc
  exact bne_iff_ne.2 fun heq => hn (heq ▸ hc)

/-- Nothing is left of a path of one component. -/
theorem kept_of_slash_not_mem {p : Bytes} (h : Byte.slash ∉ p) : kept p = [] := by
  rw [kept, dropEnd_name h]
  rfl

/-- What is left ends before the slashes that the last component stands behind. -/
theorem kept_append (a : Bytes) {n : Bytes} (hn : Byte.slash ∉ n) :
    kept (a ++ Byte.slash :: n) = Bytes.dropEnd (· == Byte.slash) a := by
  rw [kept, Bytes.dropEnd_append_cons (by simp), dropEnd_name hn, Bytes.dropEnd_eq_rdropWhile,
    List.rdropWhile_concat_pos _ _ _ (by simp), Bytes.dropEnd_eq_rdropWhile]

/-- A path is one component, or it has a last one. -/
theorem kept_cases (p : Bytes) :
    (kept p = [] ∧ filename p = p) ∨
    ∃ a, p = a ++ Byte.slash :: filename p ∧ kept p = Bytes.dropEnd (· == Byte.slash) a := by
  obtain ⟨hslash, heq | ⟨a, heq⟩⟩ := eq_or_append_filename p
  · exact Or.inl ⟨kept_of_slash_not_mem (heq ▸ hslash), heq.symm⟩
  · refine Or.inr ⟨a, heq, ?_⟩
    rw [heq]
    exact kept_append a hslash

/-- The last component is all that is taken off. -/
theorem names_kept_append (p : Bytes) : names (kept p) ++ names (filename p) = names p := by
  rcases kept_cases p with ⟨hkept, hfile⟩ | ⟨a, heq, hkept⟩
  · rw [hkept, hfile, names_nil, List.nil_append]
  · rw [hkept, names_dropEnd_slash, ← names_append_slash, ← heq]

theorem length_kept_lt {p : Bytes} (hne : p ≠ []) : (kept p).length < p.length := by
  rcases kept_cases p with ⟨hkept, _⟩ | ⟨a, heq, hkept⟩
  · rw [hkept]
    exact List.length_pos_of_ne_nil hne
  · have hlen : p.length = a.length + 1 + (filename p).length := by
      rw [heq, List.length_append, List.length_cons, ← heq]
      omega
    have hle : (Bytes.dropEnd (· == Byte.slash) a).length ≤ a.length := (List.rdropWhile_prefix _ _).length_le
    rw [hkept]
    omega

theorem parent_of_names_nil {p : Bytes} (h : names p = []) : parent p = p := if_pos h

/-- A step up takes off the last component and no more. -/
theorem names_eq_names_parent_append {p : Bytes} (h : names p ≠ []) :
    names p = names (parent p) ++ names (filename p) := by
  have hroot : names [Byte.slash] = [] := names_append_slashes []
  rw [parent_eq, if_neg h]
  split
  next hkept => rw [← names_kept_append p, hkept.1, names_nil, hroot]
  next => exact (names_kept_append p).symm

/-- A step up makes a path shorter as long as a name is left. -/
theorem length_parent_lt {p : Bytes} (h : names p ≠ []) : (parent p).length < p.length := by
  have hne : p ≠ [] := fun heq => h (by rw [heq, names_nil])
  rw [parent_eq, if_neg h]
  split
  next hkept =>
    -- the path is not the root alone, which has no name
    obtain ⟨c, r, rfl⟩ := List.exists_cons_of_ne_nil hne
    obtain rfl : c = Byte.slash := by simpa [isAbsolute] using hkept.2
    have hr : r ≠ [] := fun heq => h (by rw [heq]; exact names_append_slashes [])
    have hlen : 0 < r.length := List.length_pos_of_ne_nil hr
    simp only [List.length_cons, List.length_nil]
    omega
  next => exact length_kept_lt hne

theorem kept_prefix (p : Bytes) : kept p <+: p := (List.rdropWhile_prefix _ _).trans (List.rdropWhile_prefix _ p)

/-- A path begins with its parent. -/
theorem parent_prefix (p : Bytes) : parent p <+: p := by
  rw [parent_eq]
  split
  next => exact List.prefix_rfl
  next =>
    split
    next hkept =>
      obtain ⟨c, r, rfl⟩ := List.exists_cons_of_ne_nil (l := p) (by rintro rfl; cases hkept.2)
      obtain rfl : c = Byte.slash := by simpa [isAbsolute] using hkept.2
      exact ⟨r, rfl⟩
    next => exact kept_prefix p

/-- Above an absolute path are absolute paths. -/
theorem isAbsolute_parent {p : Bytes} (h : isAbsolute p = true) : isAbsolute (parent p) = true := by
  have hne : parent p ≠ [] := by
    rw [parent_eq]
    split
    next => rintro rfl; cases h
    next =>
      split
      next => exact List.cons_ne_nil _ _
      next hkept => exact fun hnone => hkept ⟨hnone, h⟩
  obtain ⟨c, r, heq⟩ := List.exists_cons_of_ne_nil hne
  obtain ⟨rest, hrest⟩ := parent_prefix p
  rw [← hrest, heq] at h
  rw [heq]
  exact h

/-! ## The whole way -/

/-- The way up from a path goes on until a path is its own parent, or until nothing is left of it. -/
theorem ancestors_eq (p : Bytes) :
    ancestors p = if parent p = [] ∨ parent p = p then [p] else p :: ancestors (parent p) := by
  rw [ancestors]
  by_cases hnames : names p = []
  · simp [parent_of_names_nil hnames]
  · have hlt := length_parent_lt hnames
    have hne : parent p ≠ p := fun heq => absurd hlt (by rw [heq]; exact lt_irrefl _)
    by_cases hnil : parent p = [] <;> simp [hnil, hne, hlt]

theorem ancestors_of_names_nil {p : Bytes} (h : names p = []) : ancestors p = [p] := by
  rw [ancestors_eq, if_pos (Or.inr (parent_of_names_nil h))]

theorem ancestors_of_names {p : Bytes} (habs : isAbsolute p = true) (h : names p ≠ []) :
    ancestors p = p :: ancestors (parent p) := by
  have hlt := length_parent_lt h
  rw [ancestors_eq, if_neg]
  rintro (hnil | hself)
  · have habs := isAbsolute_parent habs
    rw [hnil] at habs
    cases habs
  · rw [hself] at hlt
    exact lt_irrefl _ hlt

/-- What holds of the root, however it is written, and of a path when it holds of its parent, holds of every
absolute path. -/
theorem parent_induction {motive : ∀ p, isAbsolute p = true → Prop}
    (root : ∀ p habs, names p = [] → motive p habs)
    (up : ∀ p habs, names p ≠ [] → motive (parent p) (isAbsolute_parent habs) → motive p habs)
    (p : Bytes) (habs : isAbsolute p = true) : motive p habs := by
  induction hn : p.length using Nat.strong_induction_on generalizing p with
  | _ n ih =>
    by_cases hnames : names p = []
    · exact root p habs hnames
    · exact up p habs hnames (ih _ (hn ▸ length_parent_lt hnames) _ (isAbsolute_parent habs) rfl)

end LanguageClient.Path
