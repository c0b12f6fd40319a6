import Mathlib.Data.List.Nodup
import LanguageClient.Proofs.Bytes
import LanguageClient.Table
/-
  LanguageClient.Proofs.Table — tables of values, in byte order of their keys.

  A key is given a value in the place where its order puts it, in the place of the value that
  it had. Looking up asks for nothing but the key, so this changes no other key, whatever the
  order of the table (`lookup_assign`). A table that is in order stays so (`Sorted.assign`),
  and two of them are equal when they give every key the same value (`Sorted.eq_of_lookup`).
  A table made of pairs is in order (`sorted_ofPairs`) and has the last value of each key
  (`lookup_ofPairs`); pairs that are in order are a table already (`ofPairs_of_sorted`).
-/

namespace LanguageClient.Table

variable {β : Type}

def Sorted (l : List (Bytes × β)) : Prop := l.Pairwise fun a b => a.1 < b.1

/-! ## Looking up -/

theorem lookup_cons_eq (key k : Bytes) (v : β) (l : List (Bytes × β)) :
    ((k, v) :: l).lookup key = if key = k then some v else l.lookup key := by
  rw [List.lookup_cons]
  by_cases h : key = k
  · simp [h]
  · simp [beq_eq_false_iff_ne.2 h, h]

theorem lookup_assign (key other : Bytes) (value : β) (l : List (Bytes × β)) :
    (assign key value l).lookup other = if other = key then some value else l.lookup other := by
  induction l with
  | nil => simp [assign, lookup_cons_eq]
  | cons x l ih =>
    obtain ⟨k, v⟩ := x
    rw [assign]
    split
    · rw [lookup_cons_eq]
    · split
      next heq =>
        subst heq
        rw [lookup_cons_eq, lookup_cons_eq]
        split <;> rfl
      next hne =>
        rw [lookup_cons_eq, lookup_cons_eq, ih]
        by_cases hother : other = k
        · rw [if_pos hother, if_pos hother, if_neg (fun heq => hne (heq.symm.trans hother))]
        · rw [if_neg hother, if_neg hother]

/-- Of several values for a key the last one counts. -/
theorem lookup_ofPairs (key : Bytes) (pairs : List (Bytes × β)) :
    (ofPairs pairs).lookup key = pairs.reverse.lookup key := by
  induction pairs using List.reverseRecOn with
  | nil => rfl
  | append_singleton l x ih =>
    obtain ⟨k, v⟩ := x
    rw [ofPairs, List.foldl_append, ← ofPairs, List.reverse_append, List.reverse_singleton, List.singleton_append,
      lookup_cons_eq, ← ih]
    exact lookup_assign k key v (ofPairs l)

/-- A key that is removed has no value any more, and every other key has the one it had. -/
theorem lookup_remove (key other : Bytes) (l : List (Bytes × β)) :
    (l.filter (·.1 != key)).lookup other = if other = key then none else l.lookup other := by
  induction l with
  | nil => simp
  | cons x l ih =>
    obtain ⟨k, v⟩ := x
    rw [List.filter_cons, lookup_cons_eq]
    by_cases hk : k = key
    · subst hk
      simp only [bne_self_eq_false, Bool.false_eq_true, if_false, ih]
      split <;> rfl
    · rw [if_pos (by simpa using hk), lookup_cons_eq, ih]
      by_cases hother : other = k
      · rw [if_pos hother, if_pos hother, if_neg (fun heq => hk (hother.symm.trans heq))]
      · rw [if_neg hother, if_neg hother]

theorem isSome_lookup_iff {key : Bytes} {l : List (Bytes × β)} :
    (l.lookup key).isSome = true ↔ key ∈ l.map (·.1) := by
  rw [List.lookup_isSome_iff, List.mem_map]
  simp only [beq_iff_eq, @eq_comm _ key]

/-- Where no key comes up twice, what stands under a key is what is found under it. -/
theorem mem_iff_of_nodup {l : List (Bytes × β)} (h : (l.map (·.1)).Nodup) {key : Bytes} {value : β} :
    (key, value) ∈ l ↔ l.lookup key = some value := by
  induction l with
  | nil => simp
  | cons x l ih =>
    obtain ⟨k, v⟩ := x
    obtain ⟨hk, hl⟩ := List.nodup_cons.1 h
    rw [lookup_cons_eq, List.mem_cons]
    by_cases heq : key = k
    · subst heq
      have hnot : (key, value) ∉ l := fun hmem => hk (List.mem_map.2 ⟨_, hmem, rfl⟩)
      simp [hnot, eq_comm]
    · simp [heq, ih hl]

/-! ## Tables in order -/

theorem mem_assign {key : Bytes} {value : β} {x : Bytes × β} {l : List (Bytes × β)}
    (h : x ∈ assign key value l) : x = (key, value) ∨ x ∈ l := by
  induction l with
  | nil => exact Or.inl (List.mem_singleton.1 h)
  | cons y l ih =>
    obtain ⟨k, v⟩ := y
    rw [assign] at h
    split at h
    · exact List.mem_cons.1 h
    · split at h
      · exact (List.mem_cons.1 h).imp_right (List.mem_cons_of_mem _)
      · rcases List.mem_cons.1 h with rfl | h
        · exact Or.inr List.mem_cons_self
        · exact (ih h).imp_right (List.mem_cons_of_mem _)

theorem Sorted.assign {l : List (Bytes × β)} (h : Sorted l) (key : Bytes) (value : β) :
    Sorted (assign key value l) := by
  induction l with
  | nil => exact List.pairwise_singleton _ _
  | cons x l ih =>
    obtain ⟨k, v⟩ := x
    obtain ⟨hk, hl⟩ := List.pairwise_cons.1 h
    rw [Table.assign]
    split
    next hbefore =>
      have hlt : key < k := Bytes.before_iff_lt.1 hbefore
      refine List.Pairwise.cons (fun y hy => ?_) h
      rcases List.mem_cons.1 hy with rfl | hy
      · exact hlt
      · exact Std.lt_trans hlt (hk y hy)
    next hbefore =>
      split
      next heq =>
        subst heq
        exact List.Pairwise.cons hk hl
      next hne =>
        have hlt : k < key := Std.lt_of_le_of_ne (List.not_lt.1 (mt Bytes.before_iff_lt.2 hbefore)) (Ne.symm hne)
        refine List.Pairwise.cons (fun y hy => ?_) (ih hl)
        rcases mem_assign hy with rfl | hy
        · exact hlt
        · exact hk y hy

/-- A key that comes after all others stands at the end. -/
theorem assign_last {key : Bytes} {l : List (Bytes × β)} (h : ∀ x ∈ l, x.1 < key) (value : β) :
    assign key value l = l ++ [(key, value)] := by
  induction l with
  | nil => rfl
  | cons x l ih =>
    obtain ⟨k, v⟩ := x
    have hlt : k < key := h _ List.mem_cons_self
    have hbefore : ¬Bytes.before key k = true := fun hb => List.lt_asymm hlt (Bytes.before_iff_lt.1 hb)
    have hne : key ≠ k := by
      rintro rfl
      exact List.lt_irrefl key hlt
    rw [assign, if_neg hbefore, if_neg hne, ih fun y hy => h y (List.mem_cons_of_mem _ hy)]
    rfl

theorem mem_ofPairs {x : Bytes × β} {pairs : List (Bytes × β)} (h : x ∈ ofPairs pairs) : x ∈ pairs := by
  induction pairs using List.reverseRecOn with
  | nil => exact h
  | append_singleton l y ih =>
    rw [ofPairs, List.foldl_append, ← ofPairs] at h
    rw [List.mem_append, List.mem_singleton]
    exact (mem_assign h).symm.imp_left ih

theorem ofPairs_of_sorted {l : List (Bytes × β)} (h : Sorted l) : ofPairs l = l := by
  induction l using List.reverseRecOn with
  | nil => rfl
  | append_singleton l x ih =>
    obtain ⟨hl, -, hlast⟩ := List.pairwise_append.1 h
    rw [ofPairs, List.foldl_append, ← ofPairs, ih hl]
    exact assign_last (fun y hy => hlast y hy x List.mem_cons_self) x.2

theorem sorted_ofPairs (pairs : List (Bytes × β)) : Sorted (ofPairs pairs) := by
  induction pairs using List.reverseRecOn with
  | nil => exact List.Pairwise.nil
  | append_singleton l x ih =>
    rw [ofPairs, List.foldl_append, ← ofPairs]
    exact ih.assign x.1 x.2

theorem Sorted.sublist {l l' : List (Bytes × β)} (h : Sorted l) (hsub : l'.Sublist l) : Sorted l' :=
  List.Pairwise.sublist hsub h

theorem Sorted.keys {l : List (Bytes × β)} (h : Sorted l) : (l.map (·.1)).Pairwise (· < ·) :=
  List.pairwise_map.2 h

theorem Sorted.nodup_keys {l : List (Bytes × β)} (h : Sorted l) : (l.map (·.1)).Nodup := by
  refine List.Pairwise.imp ?_ h.keys
  rintro a _ hlt rfl
  exact List.lt_irrefl a hlt

theorem Sorted.nodup {l : List (Bytes × β)} (h : Sorted l) : l.Nodup := h.nodup_keys.of_map

/-- In a table in order, what stands under a key is what is found under it. -/
theorem Sorted.mem_iff {l : List (Bytes × β)} (h : Sorted l) {key : Bytes} {value : β} :
    (key, value) ∈ l ↔ l.lookup key = some value :=
  mem_iff_of_nodup h.nodup_keys

/-- A table in order is told by the values of the keys. -/
theorem Sorted.eq_of_lookup {l l' : List (Bytes × β)} (h : Sorted l) (h' : Sorted l')
    (hlookup : ∀ key, l.lookup key = l'.lookup key) : l = l' := by
  have hperm : l.Perm l' := by
    rw [List.perm_ext_iff_of_nodup h.nodup h'.nodup]
    rintro ⟨key, value⟩
    rw [h.mem_iff, h'.mem_iff, hlookup]
  exact hperm.eq_of_pairwise (fun a b _ _ hab hba => absurd hba (List.lt_asymm hab)) h h'

end LanguageClient.Table
