import LanguageClient.Environment
import LanguageClient.Proofs.Table
/-
  LanguageClient.Proofs.Environment — what a child finds in its environment.

  An entry gives a value to the name before its first `=`, if there is one (`Gives`). A child is
  due what is set for it, and the value that the last entry of its parent gives to any other
  name (`Due`). Merging goes through the entries of the parent and then through what is set, and
  keeps a table in order of the names, in which the last value of a name replaces the others.

  - `lookup_assignAll`: of many values that a name is given, it has the last.
  - `lookup_merged`: the table holds what is due.
  - `eq_merge_iff`: the entries of a child are those that give what is due, each name once, in
    the order of the names. No other list of entries is such.
-/

namespace LanguageClient.Environment

variable {parent entries : List Bytes} {settings : List (Bytes × Bytes)} {e name value : Bytes}

/-! ## Entries -/

structure Gives (e name value : Bytes) : Prop where
  eq_entry : e = entry name value
  name_ne_nil : name ≠ []
  equals_not_mem : Byte.equals ∉ name

theorem split?_eq_some_iff : split? e = some (name, value) ↔ Gives e name value := by
  constructor
  · intro h
    rw [split?] at h
    split at h
    · cases h
    · rename_i hnamed
      obtain ⟨heq, hnot⟩ := Bytes.cutAt_eq_some_iff.1 h
      refine ⟨heq, ?_, hnot⟩
      rintro rfl
      exact hnamed value h
  · rintro ⟨heq, hne, hnot⟩
    rw [split?, Bytes.cutAt_eq_some_iff.2 ⟨heq, hnot⟩]
    split
    · rename_i heq
      obtain ⟨rfl, -⟩ := Prod.mk.inj (Option.some.inj heq)
      exact absurd rfl hne
    · rfl

/-- An entry gives one value to one name. -/
theorem Gives.unique {name' value' : Bytes} (h : Gives e name value) (h' : Gives e name' value') :
    name = name' ∧ value = value' := by
  have heq := (split?_eq_some_iff.2 h).symm.trans (split?_eq_some_iff.2 h')
  exact Prod.mk.inj (Option.some.inj heq)

/-- The last of the entries that have a name gives it its value. -/
def GivenLast (entries : List Bytes) (name value : Bytes) : Prop :=
  ∃ before e after, entries = before ++ e :: after ∧ Gives e name value ∧ ∀ e' ∈ after, ∀ v, ¬ Gives e' name v

theorem givenLast_concat : GivenLast (entries ++ [e]) name value ↔
    Gives e name value ∨ (∀ v, ¬ Gives e name v) ∧ GivenLast entries name value := by
  constructor
  · rintro ⟨before, e', after, heq, hgives, hlast⟩
    rcases List.eq_nil_or_concat after with rfl | ⟨after, e'', rfl⟩
    · obtain ⟨-, hsame⟩ := List.append_inj' heq rfl
      obtain rfl := List.singleton_inj.1 hsame
      exact Or.inl hgives
    · have hassoc : entries ++ [e] = (before ++ e' :: after) ++ [e''] := by simpa using heq
      obtain ⟨rfl, hsame⟩ := List.append_inj' hassoc rfl
      obtain rfl := List.singleton_inj.1 hsame
      refine Or.inr ⟨hlast e (by simp), before, e', after, rfl, hgives, fun x hx => hlast x ?_⟩
      simp [hx]
  · rintro (hgives | ⟨hnot, before, e', after, rfl, hgives, hlast⟩)
    · exact ⟨entries, e, [], rfl, hgives, by simp⟩
    · refine ⟨before, e', after ++ [e], by simp, hgives, fun x hx => ?_⟩
      rcases List.mem_append.1 hx with hx | hx
      · exact hlast x hx
      · obtain rfl := List.mem_singleton.1 hx
        exact hnot

/-- Read from their end, entries give a name the value that the last of them gives it. -/
theorem lookup_reverse_split? :
    (entries.filterMap split?).reverse.lookup name = some value ↔ GivenLast entries name value := by
  induction entries using List.reverseRecOn with
  | nil => simp [GivenLast]
  | append_singleton entries e ih =>
    rw [givenLast_concat, ← ih, List.filterMap_append, List.reverse_append]
    cases hsplit : split? e with
    | none =>
      have hnot : ∀ v, ¬ Gives e name v := by
        intro v hv
        rw [split?_eq_some_iff.2 hv] at hsplit
        cases hsplit
      simp [hsplit, hnot]
    | some s =>
      obtain ⟨n, v⟩ := s
      have hgives : Gives e n v := split?_eq_some_iff.1 hsplit
      rw [List.filterMap_cons_some hsplit, List.filterMap_nil, List.reverse_singleton, List.singleton_append,
        Table.lookup_cons_eq]
      by_cases hname : name = n
      · subst hname
        have hvalue : v = value ↔ Gives e name value := ⟨fun h => h ▸ hgives, fun h => (hgives.unique h).2⟩
        have hhas : ¬ ∀ w, ¬ Gives e name w := fun h => h v hgives
        simp [hvalue, hhas]
      · have hnot : ∀ w, ¬ Gives e name w := fun w hw => hname (hw.unique hgives).1
        simp [hname, hnot]

/-! ## The table -/

theorem assign_eq (name value : Bytes) (env : List (Bytes × Bytes)) :
    assign name value env = Table.assign name value env := by
  induction env with
  | nil => rfl
  | cons s env ih => rw [assign, Table.assign, ih]

theorem sorted_assignAll {env : List (Bytes × Bytes)} (h : Table.Sorted env) (settings : List (Bytes × Bytes)) :
    Table.Sorted (assignAll env settings) := by
  induction settings generalizing env with
  | nil => exact h
  | cons s settings ih =>
    have hfirst : Table.Sorted (assign s.1 s.2 env) := by
      rw [assign_eq]
      exact h.assign s.1 s.2
    exact ih hfirst

/-- Of many values that a name is given, it has the last. -/
theorem lookup_assignAll (name : Bytes) (env settings : List (Bytes × Bytes)) :
    (assignAll env settings).lookup name = (settings.reverse.lookup name).or (env.lookup name) := by
  induction settings generalizing env with
  | nil => rfl
  | cons s settings ih =>
    have hfirst : (assign s.1 s.2 env).lookup name = ([s].lookup name).or (env.lookup name) := by
      rw [assign_eq, Table.lookup_assign, Table.lookup_cons_eq]
      split <;> rfl
    calc (assignAll (assign s.1 s.2 env) settings).lookup name
        = (settings.reverse.lookup name).or (([s].lookup name).or (env.lookup name)) := by rw [ih, hfirst]
      _ = ((s :: settings).reverse.lookup name).or (env.lookup name) := by
        rw [List.reverse_cons, List.lookup_append, Option.or_assoc]

def merged (parent : List Bytes) (settings : List (Bytes × Bytes)) : List (Bytes × Bytes) :=
  assignAll (assignAll [] (parent.filterMap split?)) settings

theorem sorted_merged (parent : List Bytes) (settings : List (Bytes × Bytes)) : Table.Sorted (merged parent settings) :=
  sorted_assignAll (sorted_assignAll List.Pairwise.nil _) _

/-! ## What is due -/

/-- What is set is due, and for every other name the last value in the parent. -/
def Due (parent : List Bytes) (settings : List (Bytes × Bytes)) (name value : Bytes) : Prop :=
  (name, value) ∈ settings ∨ (∀ v, (name, v) ∉ settings) ∧ GivenLast parent name value

structure Settable (settings : List (Bytes × Bytes)) : Prop where
  nodup : (settings.map (·.1)).Nodup
  name_ne_nil : ∀ s ∈ settings, s.1 ≠ []
  equals_not_mem : ∀ s ∈ settings, Byte.equals ∉ s.1

/-- Where a name is set once, it is found from either end. -/
theorem Settable.lookup_reverse (h : Settable settings) :
    settings.reverse.lookup name = some value ↔ (name, value) ∈ settings := by
  have hnodup : (settings.reverse.map (·.1)).Nodup := by
    rw [List.map_reverse]
    exact List.nodup_reverse.2 h.nodup
  rw [← Table.mem_iff_of_nodup hnodup, List.mem_reverse]

/-- The table holds what is due. -/
theorem lookup_merged (h : Settable settings) :
    (merged parent settings).lookup name = some value ↔ Due parent settings name value := by
  have hset : settings.reverse.lookup name = none ↔ ∀ v, (name, v) ∉ settings := by
    simp only [Option.eq_none_iff_forall_ne_some, ne_eq, h.lookup_reverse]
  rw [merged, lookup_assignAll, lookup_assignAll, Option.or_eq_some_iff, h.lookup_reverse, hset, Due]
  refine or_congr_right (and_congr_right fun _ => ?_)
  rw [List.lookup_nil, Option.or_none]
  exact lookup_reverse_split?

/-- What is due is given by an entry. -/
theorem Due.gives (h : Settable settings) (hdue : Due parent settings name value) :
    Gives (entry name value) name value := by
  rcases hdue with hset | ⟨-, before, e, after, -, hgives, -⟩
  · exact ⟨rfl, h.name_ne_nil _ hset, h.equals_not_mem _ hset⟩
  · exact ⟨rfl, hgives.name_ne_nil, hgives.equals_not_mem⟩

/-! ## The entries of a child -/

def Precedes (a b : Bytes) : Prop := ∀ m v n w, Gives a m v → Gives b n w → m < n

/-- Entries that give what is due and nothing else, each name once and in the order of the names. -/
structure IsMerge (parent : List Bytes) (settings : List (Bytes × Bytes)) (entries : List Bytes) : Prop where
  mem_iff : ∀ e, e ∈ entries ↔ ∃ name value, Gives e name value ∧ Due parent settings name value
  increasing : entries.Pairwise Precedes

theorem isMerge_merge (h : Settable settings) : IsMerge parent settings (merge parent settings) := by
  have hgives : ∀ s ∈ merged parent settings, Gives (entry s.1 s.2) s.1 s.2 := fun s hs =>
    ((lookup_merged h).1 ((sorted_merged parent settings).mem_iff.1 hs)).gives h
  constructor
  · intro e
    show e ∈ (merged parent settings).map (fun s => entry s.1 s.2) ↔ _
    rw [List.mem_map]
    constructor
    · rintro ⟨⟨name, value⟩, hmem, rfl⟩
      exact ⟨name, value, hgives _ hmem, (lookup_merged h).1 ((sorted_merged parent settings).mem_iff.1 hmem)⟩
    · rintro ⟨name, value, heq, hdue⟩
      exact ⟨(name, value), (sorted_merged parent settings).mem_iff.2 ((lookup_merged h).2 hdue), heq.eq_entry.symm⟩
  · refine List.pairwise_map.2 ((sorted_merged parent settings).imp_of_mem ?_)
    intro s t hs ht hlt m v n w hm hn
    rw [(hm.unique (hgives s hs)).1, (hn.unique (hgives t ht)).1]
    exact hlt

theorem Gives.not_precedes (h : Gives e name value) : ¬ Precedes e e := fun hlt =>
  List.lt_irrefl name (hlt name value name value h h)

theorem IsMerge.nodup (h : IsMerge parent settings entries) : entries.Nodup := by
  refine h.increasing.imp_of_mem ?_
  rintro e _ he - hlt rfl
  obtain ⟨name, value, hgives, -⟩ := (h.mem_iff e).1 he
  exact hgives.not_precedes hlt

/-- There is one such list: its members are known, and so is their order. -/
theorem IsMerge.unique {entries' : List Bytes} (h : IsMerge parent settings entries)
    (h' : IsMerge parent settings entries') : entries = entries' := by
  have hperm : entries.Perm entries' := by
    rw [List.perm_ext_iff_of_nodup h.nodup h'.nodup]
    intro e
    rw [h.mem_iff, h'.mem_iff]
  refine hperm.eq_of_pairwise (fun a b ha hb hab hba => ?_) h.increasing h'.increasing
  obtain ⟨m, v, hm, -⟩ := (h.mem_iff a).1 ha
  obtain ⟨n, w, hn, -⟩ := (h'.mem_iff b).1 hb
  exact absurd (hba n w m v hn hm) (List.lt_asymm (hab m v n w hm hn))

/-- The entries of a child are those that give what is due to it, each name once, in the order
of the names: what is set, and for every other name the last value in the parent. -/
theorem eq_merge_iff (h : Settable settings) :
    entries = merge parent settings ↔ IsMerge parent settings entries :=
  ⟨fun heq => heq ▸ isMerge_merge h, fun hentries => hentries.unique (isMerge_merge h)⟩

/-- A name that comes up twice, values with more of the signs, an empty name and no name at all. -/
def crowded : List Bytes :=
  [text "PATH=/bin", text "=hidden", text "A=1", text "note", text "OPTS=a=b", text "A=2=3", text "EMPTY="]

def setForServer : List (Bytes × Bytes) := [(text "MODE", text "x=y"), (text "PATH", text "/opt")]

theorem eq_merge_of_crowded : Settable setForServer ∧
    IsMerge crowded setForServer [text "A=2=3", text "EMPTY=", text "MODE=x=y", text "OPTS=a=b", text "PATH=/opt"] := by
  have hset : Settable setForServer := ⟨by decide, by decide, by decide⟩
  exact ⟨hset, (eq_merge_iff hset).1 (by decide)⟩

end LanguageClient.Environment
