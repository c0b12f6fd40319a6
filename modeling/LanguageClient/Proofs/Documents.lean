import Mathlib.Data.List.DropRight
import LanguageClient.Documents
import LanguageClient.Proofs.Table
/-
  LanguageClient.Proofs.Documents — the versions of documents, read off what was done to them.

  Of all that was done, only what came after a document was last forgotten counts for it: after
  it was closed, or all documents were cleared (`since`). Its version is the number of its
  changes since then; only the last opening counts, and it counts for one (`Follows`).

  - `version?_perform`: what a use does to the version of a document. It moves no other one.
  - `version?_after`: so a version is what the uses since the last forgetting make of nothing.
  - `History`: the table is in order of the names and told by its versions. So different
    documents are used in any order, and listing the table lists what has a version.
-/

namespace LanguageClient.Documents

/-! ## Uses -/

inductive Use where
  | opened (uri : Bytes)
  | changed (uri : Bytes)
  | closed (uri : Bytes)
  | cleared
  deriving DecidableEq

inductive Answer where
  | version (n : Nat)
  | wasOpen (b : Bool)
  | nothing
  deriving DecidableEq

def perform (d : Documents) : Use → Answer × Documents
  | .opened uri => (.version (d.opened uri).1, (d.opened uri).2)
  | .changed uri => (.version (d.changed uri).1, (d.changed uri).2)
  | .closed uri => (.wasOpen (d.closed uri).1, (d.closed uri).2)
  | .cleared => (.nothing, {})

def after (h : List Use) : Documents := h.foldl (fun d u => (d.perform u).2) {}

namespace Use

def uri? : Use → Option Bytes
  | opened uri => some uri
  | changed uri => some uri
  | closed uri => some uri
  | cleared => none

def forgets (uri : Bytes) : Use → Bool
  | closed u => u == uri
  | cleared => true
  | _ => false

def moves (uri : Bytes) (version : Option Nat) : Use → Option Nat
  | opened u => if uri = u then some 1 else version
  | changed u => if uri = u then some (version.getD 0 + 1) else version
  | closed u => if uri = u then none else version
  | cleared => none

theorem moves_of_forgets {uri : Bytes} {u : Use} (h : u.forgets uri = true) (version : Option Nat) :
    u.moves uri version = none := by
  cases u with
  | opened _ => cases h
  | changed _ => cases h
  | closed u => exact if_pos (beq_iff_eq.1 h).symm
  | cleared => rfl

theorem moves_of_other {uri other : Bytes} {u : Use} (hu : u.uri? = some other) (h : uri ≠ other)
    (version : Option Nat) : u.moves uri version = version := by
  cases u with
  | cleared => cases hu
  | _ =>
    obtain rfl := Option.some.inj hu
    exact if_neg h

end Use

theorem after_concat (h : List Use) (u : Use) : after (h ++ [u]) = ((after h).perform u).2 := by
  rw [after, List.foldl_append]
  rfl

/-! ## One use -/

theorem put_eq_assign (uri : Bytes) (v : Nat) (l : List (Bytes × Nat)) : put uri v l = Table.assign uri v l := by
  induction l with
  | nil => rfl
  | cons x l ih => rw [put, Table.assign, ih]

theorem version?_set (d : Documents) (uri w : Bytes) (v : Nat) :
    (d.set uri v).version? w = if w = uri then some v else d.version? w := by
  rw [version?, set, put_eq_assign]
  exact Table.lookup_assign uri w v d.versions

theorem version?_perform (d : Documents) (u : Use) (uri : Bytes) :
    (d.perform u).2.version? uri = u.moves uri (d.version? uri) := by
  cases u with
  | opened u => exact version?_set d u uri 1
  | changed u =>
    refine (version?_set d u uri _).trans ?_
    rw [Use.moves]
    split
    next heq => rw [heq]
    next => rfl
  | closed u => exact Table.lookup_remove u uri d.versions
  | cleared => rfl

/-- What is answered depends on the version of the document that is used only. -/
theorem answer_congr {d d' : Documents} {u : Use} {uri : Bytes} (hu : u.uri? = some uri)
    (h : d.version? uri = d'.version? uri) : (d.perform u).1 = (d'.perform u).1 := by
  cases u with
  | opened _ => rfl
  | changed _ =>
    obtain rfl := Option.some.inj hu
    exact congrArg (fun v => Answer.version (v.getD 0 + 1)) h
  | closed _ =>
    obtain rfl := Option.some.inj hu
    exact congrArg (fun v => Answer.wasOpen v.isSome) h
  | cleared => cases hu

theorem sorted_perform {d : Documents} (h : Table.Sorted d.versions) (u : Use) :
    Table.Sorted (d.perform u).2.versions := by
  cases u with
  | opened uri =>
    show Table.Sorted (put uri 1 d.versions)
    rw [put_eq_assign]
    exact h.assign _ _
  | changed uri =>
    show Table.Sorted (put uri _ d.versions)
    rw [put_eq_assign]
    exact h.assign _ _
  | closed uri => exact h.sublist List.filter_sublist
  | cleared => exact List.Pairwise.nil

theorem sorted_after (h : List Use) : Table.Sorted (after h).versions := by
  induction h using List.reverseRecOn with
  | nil => exact List.Pairwise.nil
  | append_singleton h u ih =>
    rw [after_concat]
    exact sorted_perform ih u

/-- Documents are told by their versions. -/
theorem eq_of_version? {d d' : Documents} (h : Table.Sorted d.versions) (h' : Table.Sorted d'.versions)
    (hversion : ∀ uri, d.version? uri = d'.version? uri) : d = d' :=
  congrArg Documents.mk (h.eq_of_lookup h' hversion)

/-! ## Since the last forgetting -/

/-- What was done since a document was last forgotten. -/
def since (uri : Bytes) (h : List Use) : List Use := h.rtakeWhile fun u => !u.forgets uri

theorem version?_after (h : List Use) (uri : Bytes) :
    (after h).version? uri = (since uri h).foldl (Use.moves uri) none := by
  induction h using List.reverseRecOn with
  | nil => rfl
  | append_singleton h u ih =>
    rw [after_concat, version?_perform, since, List.rtakeWhile_concat]
    cases hu : u.forgets uri with
    | true =>
      rw [Use.moves_of_forgets hu]
      rfl
    | false =>
      rw [ih]
      simp [since]

theorem forgets_of_mem_since {uri : Bytes} {h : List Use} {u : Use} (hu : u ∈ since uri h) : u.forgets uri = false := by
  simpa using List.mem_rtakeWhile_imp hu

/-- A document of which nothing counts has no version. -/
theorem foldl_moves_eq_none {uri : Bytes} (l : List Use) (h : ∀ u ∈ l, u.forgets uri = false) :
    l.foldl (Use.moves uri) none = none ↔ .opened uri ∉ l ∧ .changed uri ∉ l := by
  induction l using List.reverseRecOn with
  | nil => simp
  | append_singleton l u ih =>
    have ih := ih fun u hu => h u (List.mem_append_left _ hu)
    have hu := h u (by simp)
    rw [List.foldl_append, List.foldl_cons, List.foldl_nil]
    cases u with
    | opened w => by_cases hw : uri = w <;> simp [Use.moves, hw, ih]
    | changed w => by_cases hw : uri = w <;> simp [Use.moves, hw, ih]
    | closed w =>
      have hw : uri ≠ w := fun heq => by simp [Use.forgets, heq] at hu
      simp [Use.moves, hw, ih]
    | cleared => cases hu

/-- While a document is neither opened nor forgotten, its changes are counted. -/
theorem foldl_moves_of_unopened {uri : Bytes} (l : List Use) (h : ∀ u ∈ l, u.forgets uri = false)
    (hopened : .opened uri ∉ l) (v : Option Nat) :
    l.foldl (Use.moves uri) v =
      if .changed uri ∈ l then some (v.getD 0 + l.count (.changed uri)) else v := by
  induction l generalizing v with
  | nil => simp
  | cons u l ih =>
    obtain ⟨hu, hl⟩ := List.forall_mem_cons.1 h
    rw [List.foldl_cons, ih hl (fun hin => hopened (List.mem_cons_of_mem _ hin))]
    cases u with
    | opened w =>
      have hw : uri ≠ w := fun heq => hopened (by simp [heq])
      simp [Use.moves, hw]
    | changed w =>
      by_cases hw : uri = w
      · subst hw
        by_cases hin : Use.changed uri ∈ l
        · simp [Use.moves, hin]
          omega
        · simp [Use.moves, hin, List.count_eq_zero_of_not_mem hin]
      · have hne : Use.changed w ≠ Use.changed uri := fun heq => hw (Use.changed.inj heq).symm
        simp [Use.moves, hw, List.count_cons_of_ne hne]
    | closed w =>
      have hw : uri ≠ w := fun heq => by simp [Use.forgets, heq] at hu
      simp [Use.moves, hw]
    | cleared => cases hu

/-! ## Histories -/

structure Follows (h : List Use) (uri : Bytes) : Prop where
  absent : (after h).version? uri = none ↔ .opened uri ∉ since uri h ∧ .changed uri ∉ since uri h
  reopened : ∀ before rest, since uri h = before ++ .opened uri :: rest → .opened uri ∉ rest →
    (after h).version? uri = some (1 + rest.count (.changed uri))
  unopened : .opened uri ∉ since uri h → .changed uri ∈ since uri h →
    (after h).version? uri = some ((since uri h).count (.changed uri))
  /-- No version is greater than the number of all changes of the document and one. -/
  bounded : ∀ n, (after h).version? uri = some n → 0 < n ∧ n ≤ h.count (.changed uri) + 1

theorem bounded (h : List Use) (uri : Bytes) :
    ∀ n, (after h).version? uri = some n → 0 < n ∧ n ≤ h.count (.changed uri) + 1 := by
  induction h using List.reverseRecOn with
  | nil => intro n hn; cases hn
  | append_singleton h u ih =>
    intro n hn
    rw [after_concat, version?_perform] at hn
    rw [List.count_append]
    cases u with
    | opened w =>
      rw [Use.moves] at hn
      split at hn
      · cases hn
        omega
      · have := ih n hn
        omega
    | changed w =>
      rw [Use.moves] at hn
      split at hn
      next heq =>
        subst heq
        have hone : [Use.changed uri].count (.changed uri) = 1 := List.count_singleton_self
        obtain rfl := Option.some.inj hn
        cases hv : (after h).version? uri with
        | none => exact ⟨Nat.succ_pos _, by simp only [Option.getD_none]; omega⟩
        | some v =>
          have := (ih v hv).2
          exact ⟨Nat.succ_pos _, by simp only [Option.getD_some]; omega⟩
      next =>
        have := ih n hn
        omega
    | closed w =>
      rw [Use.moves] at hn
      split at hn
      · cases hn
      · have := ih n hn
        omega
    | cleared => cases hn

theorem follows (h : List Use) (uri : Bytes) : Follows h uri := by
  have hnot : ∀ u ∈ since uri h, u.forgets uri = false := fun u hu => forgets_of_mem_since hu
  refine ⟨?_, fun before rest hsince hlast => ?_, fun hopened hchanged => ?_, bounded h uri⟩
  · rw [version?_after]
    exact foldl_moves_eq_none _ hnot
  · -- whatever came before, the last opening starts again at one
    have hrest : ∀ u ∈ rest, u.forgets uri = false := fun u hu => hnot u (hsince ▸ by simp [hu])
    have hstart : ∀ v, Use.moves uri v (.opened uri) = some 1 := fun v => if_pos rfl
    rw [version?_after, hsince, List.foldl_append, List.foldl_cons, hstart, foldl_moves_of_unopened rest hrest hlast]
    split
    · rfl
    next hin => rw [List.count_eq_zero_of_not_mem hin]
  · rw [version?_after, foldl_moves_of_unopened _ hnot hopened, if_pos hchanged, Option.getD_none, Nat.zero_add]

/-- Uses of different documents are done in any order. -/
theorem perform_comm {d : Documents} (hd : Table.Sorted d.versions) {a b : Use} {u w : Bytes} (ha : a.uri? = some u)
    (hb : b.uri? = some w) (hne : u ≠ w) :
    ((d.perform a).2.perform b).2 = ((d.perform b).2.perform a).2 ∧
      ((d.perform b).2.perform a).1 = (d.perform a).1 := by
  constructor
  · refine eq_of_version? (sorted_perform (sorted_perform hd a) b) (sorted_perform (sorted_perform hd b) a) fun uri => ?_
    simp only [version?_perform]
    by_cases hu : uri = u
    · have hw : uri ≠ w := hu ▸ hne
      rw [Use.moves_of_other hb hw, Use.moves_of_other hb hw]
    · rw [Use.moves_of_other ha hu, Use.moves_of_other ha hu]
  · refine answer_congr ha ?_
    rw [version?_perform, Use.moves_of_other hb hne]

structure History (h : List Use) : Prop where
  follows : ∀ uri, Follows h uri
  /-- Opening and changing answer the new version. -/
  renewed : ∀ u uri, u = .opened uri ∨ u = .changed uri →
    ∃ n, ((after h).perform u).1 = .version n ∧ (after (h ++ [u])).version? uri = some n
  /-- Closing answers whether there was a version. -/
  closed : ∀ uri, ∃ b, ((after h).perform (.closed uri)).1 = .wasOpen b ∧
    (b = true ↔ .opened uri ∈ since uri h ∨ .changed uri ∈ since uri h)
  commute : ∀ a b u w, a.uri? = some u → b.uri? = some w → u ≠ w →
    after (h ++ [a, b]) = after (h ++ [b, a]) ∧
      ((after (h ++ [b])).perform a).1 = ((after h).perform a).1
  increasing : (after h).uris.Pairwise (· < ·)
  listed : ∀ uri, uri ∈ (after h).uris ↔ ((after h).version? uri).isSome = true
  size : (after h).uris.length = (after h).size

/-- Versions follow the history; different documents are used in any order. -/
theorem history (h : List Use) : History h where
  follows := follows h
  renewed := by
    intro u uri hu
    rw [after_concat, version?_perform]
    rcases hu with rfl | rfl
    · exact ⟨1, rfl, if_pos rfl⟩
    · exact ⟨_, rfl, if_pos rfl⟩
  closed := by
    intro uri
    refine ⟨((after h).version? uri).isSome, rfl, ?_⟩
    rw [Option.isSome_iff_ne_none, Ne, (follows h uri).absent, not_and_or, not_not, not_not]
  commute := by
    intro a b u w ha hb hne
    have hpair : ∀ x y, after (h ++ [x, y]) = (((after h).perform x).2.perform y).2 := by
      intro x y
      rw [after, List.foldl_append]
      rfl
    rw [hpair, hpair, after_concat]
    exact perform_comm (sorted_after h) ha hb hne
  increasing := (sorted_after h).keys
  listed := fun _ => Table.isSome_lookup_iff.symm
  size := List.length_map _

/-- A document that is opened again starts again at one, and the changes since then count. -/
example : (after [.changed [97], .closed [97], .opened [97], .changed [97], .opened [97], .changed [97]]).version? [97]
    = some 2 := by decide

end LanguageClient.Documents
