import Mathlib.Logic.Relation
import Mathlib.Data.List.Induction
import Mathlib.Data.List.TakeWhile
import LanguageClient.Path
import LanguageClient.Proofs.Bytes
/-
  LanguageClient.Proofs.Path.Normal — the normal form of a path.

  The normal form of a path is what is left of it when its `.` are removed, then a name with
  the `..` after it as long as there is one, and then, behind the root, every `..`
  (`IsNormalOf`). The running definition looks at each component once and keeps a stack of
  names. Both agree since what is kept is at every moment what the removals leave of the
  names that were read.

  - `names_append_slash`, `filename_append`: the components of a path that is put together.
  - `normal_isNormalOf`: the names that are kept are those that the removals leave.
  - `normal_normal`: a path in normal form is its own normal form.
-/

namespace LanguageClient.Path

/-! ## Components -/

def IsName (n : Bytes) : Prop := n ≠ [] ∧ Byte.slash ∉ n

instance (n : Bytes) : Decidable (IsName n) := inferInstanceAs (Decidable (n ≠ [] ∧ Byte.slash ∉ n))

theorem names_append_slash (a b : Bytes) : names (a ++ Byte.slash :: b) = names a ++ names b := by
  rw [names, List.splitOn_append_cons_self, List.filter_append]
  rfl

theorem names_nil : names [] = [] := by simp [names]

theorem names_of_isName {n : Bytes} (h : IsName n) : names n = [n] := by
  simp [names, List.splitOn_eq_singleton h.2, h.1]

theorem isName_of_mem_names {p n : Bytes} (h : n ∈ names p) : IsName n := by
  obtain ⟨hmem, hne⟩ := List.mem_filter.1 h
  exact ⟨by simpa using hne, Bytes.not_mem_of_mem_splitOn hmem⟩

def spelled (rooted : Bool) (ns : List Bytes) (slash : Bool) : Bytes :=
  (if rooted then [Byte.slash] else []) ++ Bytes.joinWith [Byte.slash] ns ++ (if slash then [Byte.slash] else [])

theorem joinWith_concat {ns : List Bytes} (hne : ns ≠ []) (n : Bytes) :
    Bytes.joinWith [Byte.slash] (ns ++ [n]) = Bytes.joinWith [Byte.slash] ns ++ Byte.slash :: n := by
  induction ns with
  | nil => exact absurd rfl hne
  | cons a ns ih =>
    cases ns with
    | nil => simp [Bytes.joinWith]
    | cons b ns =>
      have ih := ih (List.cons_ne_nil b ns)
      simp only [List.cons_append, Bytes.joinWith, List.append_assoc, List.nil_append] at ih ⊢
      rw [ih]

theorem names_joinWith {ns : List Bytes} (h : ∀ n ∈ ns, IsName n) : names (Bytes.joinWith [Byte.slash] ns) = ns := by
  induction ns with
  | nil => exact names_nil
  | cons a ns ih =>
    obtain ⟨ha, hns⟩ := List.forall_mem_cons.1 h
    cases ns with
    | nil => exact names_of_isName ha
    | cons b ns =>
      show names (a ++ [Byte.slash] ++ Bytes.joinWith [Byte.slash] (b :: ns)) = _
      rw [List.append_assoc, List.singleton_append, names_append_slash, names_of_isName ha, ih hns]
      rfl

theorem names_spelled (rooted slash : Bool) {ns : List Bytes} (h : ∀ n ∈ ns, IsName n) :
    names (spelled rooted ns slash) = ns := by
  have hfront : ∀ s : Bytes, names ((if rooted then [Byte.slash] else []) ++ s) = names s := by
    intro s
    cases rooted with
    | false => rfl
    | true => exact (names_append_slash [] s).trans (by rw [names_nil, List.nil_append])
  have hend : ∀ s : Bytes, names (s ++ (if slash then [Byte.slash] else [])) = names s := by
    intro s
    cases slash with
    | false => simp
    | true => exact (names_append_slash s []).trans (by rw [names_nil, List.append_nil])
  rw [spelled, hend, hfront, names_joinWith h]

theorem filename_append_name {n : Bytes} (h : Byte.slash ∉ n) (a : Bytes) : filename (a ++ n) = filename a ++ n := by
  have hn : ∀ c ∈ n.reverse, (c != Byte.slash) = true := by
    intro c hc
    exact bne_iff_ne.2 fun heq => h (heq ▸ List.mem_reverse.1 hc)
  rw [filename, List.reverse_append, List.takeWhile_append_of_pos hn, List.reverse_append, List.reverse_reverse]
  rfl

theorem filename_append_slash (a : Bytes) : filename (a ++ [Byte.slash]) = [] := by
  simp [filename]

/-- A path is its last component behind a slash, or nothing but that. -/
theorem eq_or_append_filename (p : Bytes) :
    Byte.slash ∉ filename p ∧ (p = filename p ∨ ∃ a, p = a ++ Byte.slash :: filename p) := by
  have hsplit := List.takeWhile_append_dropWhile (p := (· != Byte.slash)) (l := p.reverse)
  have hp : p = (p.reverse.dropWhile (· != Byte.slash)).reverse ++ filename p := by
    rw [filename, ← List.reverse_append, hsplit, List.reverse_reverse]
  refine ⟨fun hmem => ?_, ?_⟩
  · have hne := List.mem_takeWhile_imp (List.mem_reverse.1 hmem)
    simp at hne
  · cases hdrop : p.reverse.dropWhile (· != Byte.slash) with
    | nil => exact Or.inl (by rw [hdrop] at hp; exact hp)
    | cons c r =>
      have hc := List.head_dropWhile_not (· != Byte.slash) (l := p.reverse) (by rw [hdrop]; exact List.cons_ne_nil c r)
      obtain rfl : c = Byte.slash := by simpa [hdrop] using hc
      refine Or.inr ⟨r.reverse, ?_⟩
      rw [hdrop, List.reverse_cons, List.append_assoc] at hp
      exact hp

/-- The last component of a path is what follows its last slash. -/
theorem components_eq (p : Bytes) : ∃ front, components p = front ++ [filename p] := by
  obtain ⟨hslash, hcases⟩ := eq_or_append_filename p
  by_cases hfile : filename p = []
  · exact ⟨names p, by rw [components, if_pos hfile, hfile]⟩
  · have hname : names (filename p) = [filename p] := names_of_isName ⟨hfile, hslash⟩
    rw [components, if_neg hfile, List.append_nil]
    rcases hcases with heq | ⟨a, heq⟩
    · refine ⟨[], ?_⟩
      rw [← heq] at hname
      rw [hname, ← heq, List.nil_append]
    · refine ⟨names a, ?_⟩
      have hall := congrArg names heq
      rwa [names_append_slash, hname] at hall

/-! ## What the normal form is -/

inductive TakesBack : List Bytes → List Bytes → Prop
  | intro (a b : List Bytes) {name : Bytes} : name ≠ dotDotName → TakesBack (a ++ name :: dotDotName :: b) (a ++ b)

def below (rooted : Bool) (ns : List Bytes) : List Bytes := if rooted then ns.filter (· ≠ dotDotName) else ns

/-- What is left of the names of a path when all has been taken out that its normal form does without. -/
def IsLeft (rooted : Bool) (ns out : List Bytes) : Prop :=
  ∃ short, Relation.ReflTransGen TakesBack (ns.filter (· ≠ dotName)) short ∧ (∀ next, ¬ TakesBack short next) ∧
    out = below rooted short

/-- `q` is the normal form of `p`. A slash at its end is left when the path ended in one, or in
a `.` or a `..` that was taken out, but never after a `..`. -/
def IsNormalOf (p q : Bytes) : Prop :=
  if p = [] then q = []
  else ∃ out, IsLeft (isAbsolute p) (names p) out ∧
    q = if out = [] then (if isAbsolute p then [Byte.slash] else dotName)
      else spelled (isAbsolute p) out
        (filename p ∈ [[], dotName, dotDotName] ∧ out.getLast? ≠ some dotDotName)

/-- Names of which nothing is to be taken out: a `..` stands behind `..` only. -/
structure Short (ns : List Bytes) : Prop where
  isName : ∀ n ∈ ns, IsName n
  no_dot : dotName ∉ ns
  climbs : ns.Pairwise fun a b => b = dotDotName → a = dotDotName

theorem Short.nil : Short [] := ⟨by simp, by simp, List.Pairwise.nil⟩

theorem Short.sublist {ns ms : List Bytes} (h : Short ns) (hsub : ms.Sublist ns) : Short ms :=
  ⟨fun n hn => h.isName n (hsub.subset hn), fun hdot => h.no_dot (hsub.subset hdot), h.climbs.sublist hsub⟩

theorem Short.concat {ns : List Bytes} (h : Short ns) {n : Bytes} (hn : IsName n) (hdot : n ≠ dotName)
    (hclimbs : n = dotDotName → ∀ m ∈ ns, m = dotDotName) : Short (ns ++ [n]) := by
  refine ⟨?_, ?_, ?_⟩
  · intro m hm
    rcases List.mem_append.1 hm with hm | hm
    · exact h.isName m hm
    · rw [List.mem_singleton.1 hm]
      exact hn
  · intro hmem
    rcases List.mem_append.1 hmem with hmem | hmem
    · exact h.no_dot hmem
    · exact hdot (List.mem_singleton.1 hmem).symm
  · rw [List.pairwise_append]
    refine ⟨h.climbs, List.pairwise_singleton _ _, fun a ha b hb heq => ?_⟩
    rw [List.mem_singleton.1 hb] at heq
    exact hclimbs heq a ha

/-- With a `..` at their end they are `..` throughout. -/
theorem Short.climbing {ns : List Bytes} (h : Short (ns ++ [dotDotName])) : ∀ m ∈ ns, m = dotDotName := by
  intro m hm
  exact (List.pairwise_append.1 h.climbs).2.2 m hm dotDotName List.mem_cons_self rfl

theorem Short.stuck {ns : List Bytes} (h : Short ns) (next : List Bytes) : ¬ TakesBack ns next := by
  rintro ⟨a, b, hname⟩
  have hpair := (List.pairwise_append.1 h.climbs).2.1
  exact hname ((List.pairwise_cons.1 hpair).1 dotDotName List.mem_cons_self rfl)

theorem TakesBack.concat {ns ms : List Bytes} (h : Relation.ReflTransGen TakesBack ns ms) (n : Bytes) :
    Relation.ReflTransGen TakesBack (ns ++ [n]) (ms ++ [n]) := by
  refine h.lift (· ++ [n]) ?_
  rintro _ _ ⟨a, b, hname⟩
  have hstep := TakesBack.intro a (b ++ [n]) hname
  simpa [Function.onFun] using hstep

/-! ## What the running definition keeps -/

def Draft.Holds (s : Draft) (read : List Bytes) : Prop :=
  ∃ short, Relation.ReflTransGen TakesBack (read.filter (· ≠ dotName)) short ∧ Short short ∧
    s.kept.reverse = below s.rooted short

theorem Draft.push_rooted (s : Draft) (n : Bytes) : (s.push n).rooted = s.rooted := by
  unfold Draft.push
  split
  · split
    · split <;> rfl
    · split <;> rfl
  · split <;> rfl

theorem below_concat (rooted : Bool) (ns : List Bytes) {n : Bytes} (hn : n ≠ dotDotName) :
    below rooted (ns ++ [n]) = below rooted ns ++ [n] := by
  cases rooted <;> simp [below, hn]

theorem below_sublist (rooted : Bool) (ns : List Bytes) : (below rooted ns).Sublist ns := by
  cases rooted with
  | false => exact List.Sublist.refl _
  | true => exact List.filter_sublist

theorem below_climbs {ns : List Bytes} (h : ∀ m ∈ ns, m = dotDotName) : below true ns = [] := by
  show ns.filter (· ≠ dotDotName) = []
  rw [List.filter_eq_nil_iff]
  intro m hm
  simp [h m hm]

/-- What becomes of the stack by a name that is read. -/
theorem Draft.push_name {s : Draft} {n : Bytes} (hn : n ≠ []) (hdot : n ≠ dotName) (hdd : n ≠ dotDotName) :
    (s.push n).kept = n :: s.kept := by
  simp [Draft.push, hn, hdot, hdd]

theorem Draft.push_dot (s : Draft) : (s.push dotName).kept = s.kept := by
  have hdd : dotName ≠ dotDotName := by decide
  simp [Draft.push, hdd]

theorem Draft.push_empty (s : Draft) : s.push [] = { s with slash := true } := by
  have hdd : ([] : Bytes) ≠ dotDotName := by decide
  simp [Draft.push, hdd]

theorem Draft.push_back {s : Draft} {last : Bytes} {rest : List Bytes} (hkept : s.kept = last :: rest)
    (hlast : last ≠ dotDotName) : (s.push dotDotName).kept = rest := by
  simp [Draft.push, hkept, hlast]

theorem Draft.push_climb {s : Draft} (hkept : ∀ m ∈ s.kept, m = dotDotName) (hroot : s.rooted = true → s.kept = []) :
    (s.push dotDotName).kept = if s.rooted then [] else dotDotName :: s.kept := by
  cases hs : s.kept with
  | nil => cases hr : s.rooted <;> simp [Draft.push, hs, hr]
  | cons last rest =>
    have hr : s.rooted = false := by
      by_contra hr
      have hnone := hroot (by simpa using hr)
      rw [hs] at hnone
      cases hnone
    have hlast : last = dotDotName := hkept last (hs ▸ List.mem_cons_self)
    simp [Draft.push, hs, hlast, hr]

/-- A `..` behind nothing but `..` stays, or is above the root. -/
theorem Draft.kept_climb {s : Draft} {short : List Bytes} (hall : ∀ m ∈ short, m = dotDotName)
    (hkept : s.kept.reverse = below s.rooted short) :
    (s.push dotDotName).kept.reverse = below s.rooted (short ++ [dotDotName]) := by
  have hkeptall : ∀ m ∈ s.kept, m = dotDotName := by
    intro m hm
    have hmem : m ∈ below s.rooted short := hkept ▸ List.mem_reverse.2 hm
    exact hall m ((below_sublist _ _).subset hmem)
  have hroot : s.rooted = true → s.kept = [] := by
    intro hr
    rw [hr, below_climbs hall] at hkept
    exact List.reverse_eq_nil_iff.1 hkept
  rw [Draft.push_climb hkeptall hroot]
  cases hr : s.rooted with
  | true =>
    have hall' : ∀ m ∈ short ++ [dotDotName], m = dotDotName := by
      intro m hm
      rcases List.mem_append.1 hm with hm | hm
      · exact hall m hm
      · exact List.mem_singleton.1 hm
    rw [below_climbs hall']
    rfl
  | false =>
    rw [hr] at hkept
    show (dotDotName :: s.kept).reverse = short ++ [dotDotName]
    rw [List.reverse_cons, hkept]
    rfl

/-- A `..` behind a name goes with it. -/
theorem Draft.kept_back {s : Draft} {front : List Bytes} {last : Bytes} (hlast : last ≠ dotDotName)
    (hkept : s.kept.reverse = below s.rooted (front ++ [last])) :
    (s.push dotDotName).kept.reverse = below s.rooted front := by
  rw [below_concat _ _ hlast] at hkept
  have hs : s.kept = last :: (below s.rooted front).reverse := by
    rw [← List.reverse_reverse s.kept, hkept, List.reverse_append]
    rfl
  rw [Draft.push_back hs hlast, List.reverse_reverse]

theorem Short.climbing_or_named {ns : List Bytes} (h : Short ns) :
    (∀ m ∈ ns, m = dotDotName) ∨ ∃ front last, ns = front ++ [last] ∧ last ≠ dotDotName := by
  induction ns using List.reverseRecOn with
  | nil => exact Or.inl (by simp)
  | append_singleton front last _ =>
    by_cases hlast : last = dotDotName
    · subst hlast
      refine Or.inl fun m hm => ?_
      rcases List.mem_append.1 hm with hm | hm
      · exact h.climbing m hm
      · exact List.mem_singleton.1 hm
    · exact Or.inr ⟨front, last, rfl, hlast⟩

/-- Reading one more name keeps it so. -/
theorem Draft.Holds.push {s : Draft} {read : List Bytes} (h : s.Holds read) {n : Bytes} (hn : IsName n) :
    (s.push n).Holds (read ++ [n]) := by
  obtain ⟨short, hred, hshort, hkept⟩ := h
  unfold Draft.Holds
  rw [s.push_rooted n]
  by_cases hdot : n = dotName
  · subst hdot
    refine ⟨short, ?_, hshort, by rw [s.push_dot, hkept]⟩
    rw [List.filter_append]
    simpa using hred
  have hgrow : Relation.ReflTransGen TakesBack ((read ++ [n]).filter (· ≠ dotName)) (short ++ [n]) := by
    have hfilter : (read ++ [n]).filter (· ≠ dotName) = read.filter (· ≠ dotName) ++ [n] := by
      simp [List.filter_append, hdot]
    rw [hfilter]
    exact TakesBack.concat hred n
  by_cases hdd : n = dotDotName
  · subst hdd
    rcases hshort.climbing_or_named with hall | ⟨front, last, rfl, hlast⟩
    · exact ⟨short ++ [dotDotName], hgrow, hshort.concat hn hdot fun _ => hall, Draft.kept_climb hall hkept⟩
    · have hstep : TakesBack (front ++ [last] ++ [dotDotName]) front := by
        have hstep := TakesBack.intro front [] hlast
        simpa using hstep
      exact ⟨front, hgrow.tail hstep, hshort.sublist (List.sublist_append_left _ _), Draft.kept_back hlast hkept⟩
  · refine ⟨short ++ [n], hgrow, hshort.concat hn hdot fun heq => absurd heq hdd, ?_⟩
    rw [Draft.push_name hn.1 hdot hdd, List.reverse_cons, hkept, below_concat _ _ hdd]

theorem Draft.holds_foldl (rooted : Bool) {ns : List Bytes} (h : ∀ n ∈ ns, IsName n) :
    (ns.foldl Draft.push { rooted := rooted }).Holds ns := by
  induction ns using List.reverseRecOn with
  | nil => exact ⟨[], .refl, Short.nil, by cases rooted <;> rfl⟩
  | append_singleton ns n ih =>
    rw [List.foldl_append]
    have hns : ∀ m ∈ ns, IsName m := fun m hm => h m (List.mem_append_left _ hm)
    exact (ih hns).push (h n (by simp))

theorem Draft.foldl_rooted (s : Draft) (ns : List Bytes) : (ns.foldl Draft.push s).rooted = s.rooted := by
  induction ns generalizing s with
  | nil => rfl
  | cons n ns ih => exact (ih (s.push n)).trans (s.push_rooted n)

/-- A slash follows the last name that is kept when a name was taken back after it. -/
theorem Draft.push_slash {s : Draft} {n last : Bytes} {rest : List Bytes} (hkept : (s.push n).kept = last :: rest)
    (hlast : last ≠ dotDotName) : (s.push n).slash = decide (n ∈ [[], dotName, dotDotName]) := by
  by_cases hdd : n = dotDotName
  · subst hdd
    cases hs : s.kept with
    | nil =>
      cases hr : s.rooted <;> simp_all [Draft.push]
    | cons m ms =>
      by_cases hm : m = dotDotName
      · simp_all [Draft.push]
      · simp [Draft.push, hs, hm]
  · by_cases hdot : n = dotName ∨ n = []
    · have hmem : n ∈ [[], dotName, dotDotName] := by
        rcases hdot with rfl | rfl <;> simp
      simp [Draft.push, hdd, hdot, hmem]
    · obtain ⟨hdot, hne⟩ := not_or.1 hdot
      simp [Draft.push, hdd, hdot, hne]

/-- The components but for the last, read. -/
theorem normal_eq {p : Bytes} (hp : p ≠ []) : ∃ s : Draft, normal p = (s.push (filename p)).written ∧
    (s.push (filename p)).rooted = isAbsolute p ∧ (s.push (filename p)).Holds (names p) := by
  obtain ⟨front, hfront⟩ := components_eq p
  let start : Draft := { rooted := isAbsolute p }
  have hall : (components p).foldl Draft.push start = (front.foldl Draft.push start).push (filename p) := by
    rw [hfront, List.foldl_append]
    rfl
  have hholds : ((components p).foldl Draft.push start).Holds (names p) := by
    have hall : ∀ n ∈ names p, IsName n := fun n hn => isName_of_mem_names hn
    have hnames := Draft.holds_foldl (isAbsolute p) hall
    rw [components, List.foldl_append]
    split
    · -- the empty component at the end takes nothing out
      rw [List.foldl_cons, List.foldl_nil, Draft.push_empty]
      exact hnames
    · exact hnames
  refine ⟨front.foldl Draft.push start, ?_, ?_, hall ▸ hholds⟩
  · rw [normal, if_neg hp, ← hall]
  · rw [← hall, Draft.foldl_rooted]

theorem Draft.written_eq (s : Draft) : s.written =
    if s.kept.reverse = [] then (if s.rooted then [Byte.slash] else dotName)
    else spelled s.rooted s.kept.reverse (s.slash ∧ s.kept.reverse.getLast? ≠ some dotDotName) := by
  cases hs : s.kept with
  | nil => simp [Draft.written, hs]
  | cons last rest => simp [Draft.written, hs, spelled]

/-- The normal form is what is left of a path. -/
theorem normal_isNormalOf (p : Bytes) : IsNormalOf p (normal p) := by
  unfold IsNormalOf
  split
  next hp => rw [hp]; rfl
  next hp =>
    obtain ⟨s, heq, hroot, short, hred, hshort, hkept⟩ := normal_eq hp
    rw [hroot] at hkept
    refine ⟨_, ⟨short, hred, hshort.stuck, hkept⟩, ?_⟩
    rw [heq, Draft.written_eq, hroot]
    split
    · rfl
    · cases hs : (s.push (filename p)).kept with
      | nil => simp_all
      | cons last rest =>
        by_cases hlast : last = dotDotName
        · simp [hlast]
        · rw [Draft.push_slash hs hlast]
          simp

/-! ## Normal forms as they are read -/

theorem Draft.foldl_short {rooted : Bool} {out : List Bytes} (h : Short out)
    (hroot : rooted = true → dotDotName ∉ out) :
    out.foldl Draft.push { rooted := rooted } = { rooted := rooted, kept := out.reverse } := by
  induction out using List.reverseRecOn with
  | nil => rfl
  | append_singleton out n ih =>
    have hout : Short out := h.sublist (List.sublist_append_left _ _)
    have hn : IsName n := h.isName n (by simp)
    have hdot : n ≠ dotName := fun heq => h.no_dot (by simp [heq])
    rw [List.foldl_append, ih hout fun hr hmem => hroot hr (List.mem_append_left _ hmem), List.reverse_append]
    by_cases hdd : n = dotDotName
    · subst hdd
      have hr : rooted = false := by
        by_contra hr
        exact hroot (by simpa using hr) (by simp)
      have hall := h.climbing
      cases hlast : out.reverse with
      | nil => simp [Draft.push, hr]
      | cons last rest =>
        have hmem : last ∈ out := List.mem_reverse.1 (hlast ▸ List.mem_cons_self)
        simp [Draft.push, hr, hall last hmem]
    · simp [Draft.push, hdd, hdot, hn.1]

theorem isAbsolute_spelled (rooted slash : Bool) {n : Bytes} {ns : List Bytes} (h : IsName n) :
    isAbsolute (spelled rooted (n :: ns) slash) = rooted := by
  cases rooted with
  | true => rfl
  | false =>
    obtain ⟨c, r, rfl⟩ := List.exists_cons_of_ne_nil h.1
    have hc : c ≠ Byte.slash := fun heq => h.2 (heq ▸ List.mem_cons_self)
    cases ns <;> simp [spelled, Bytes.joinWith, isAbsolute, hc]

/-- A path of names without a slash at its end ends in the last of them. -/
theorem filename_spelled (rooted : Bool) (front : List Bytes) {last : Bytes} (h : IsName last) :
    filename (spelled rooted (front ++ [last]) false) = last := by
  obtain ⟨a, hsplit, ha⟩ : ∃ a, spelled rooted (front ++ [last]) false = a ++ last ∧ filename a = [] := by
    by_cases hfront : front = []
    · subst hfront
      cases rooted with
      | false => exact ⟨[], by simp [spelled, Bytes.joinWith], rfl⟩
      | true => exact ⟨[Byte.slash], by simp [spelled, Bytes.joinWith], rfl⟩
    · refine ⟨(if rooted then [Byte.slash] else []) ++ Bytes.joinWith [Byte.slash] front ++ [Byte.slash], ?_,
        filename_append_slash _⟩
      simp [spelled, joinWith_concat hfront]
  rw [hsplit, filename_append_name h.2, ha, List.nil_append]

theorem components_spelled (rooted slash : Bool) {ns : List Bytes} (h : ∀ n ∈ ns, IsName n) (hne : ns ≠ []) :
    components (spelled rooted ns slash) = ns ++ if slash then [[]] else [] := by
  rw [components, names_spelled rooted slash h]
  cases slash with
  | true =>
    have hfile : filename (spelled rooted ns true) = [] := filename_append_slash _
    rw [hfile]
    rfl
  | false =>
    obtain ⟨front, last, rfl⟩ : ∃ front last, ns = front ++ [last] :=
      ⟨_, _, (List.dropLast_concat_getLast hne).symm⟩
    have hlast : IsName last := h last (by simp)
    rw [filename_spelled rooted front hlast, if_neg hlast.1]
    rfl

theorem normal_spelled {rooted slash : Bool} {out : List Bytes} (h : Short out) (hne : out ≠ [])
    (hroot : rooted = true → dotDotName ∉ out) (hslash : slash = true → out.getLast? ≠ some dotDotName) :
    normal (spelled rooted out slash) = spelled rooted out slash := by
  have habs : isAbsolute (spelled rooted out slash) = rooted := by
    obtain ⟨n, ns, rfl⟩ := List.exists_cons_of_ne_nil hne
    exact isAbsolute_spelled rooted slash (h.isName n List.mem_cons_self)
  have hsome : spelled rooted out slash ≠ [] := by
    intro hnone
    have hnames := names_spelled rooted slash h.isName
    rw [hnone, names_nil] at hnames
    exact hne hnames.symm
  have hread : (components (spelled rooted out slash)).foldl Draft.push { rooted := rooted }
      = { rooted := rooted, kept := out.reverse, slash := slash } := by
    rw [components_spelled rooted slash h.isName hne, List.foldl_append, Draft.foldl_short h hroot]
    cases slash with
    | true => exact Draft.push_empty _
    | false => rfl
  rw [normal, if_neg hsome, habs, hread, Draft.written_eq]
  have hend : (slash = true ∧ out.getLast? ≠ some dotDotName) ↔ slash = true := and_iff_left_of_imp hslash
  simp [hne, hend]

theorem not_mem_below (ns : List Bytes) : dotDotName ∉ below true ns := by
  simp [below]

/-- A path in normal form is its own normal form. -/
theorem normal_normal (p : Bytes) : normal (normal p) = normal p := by
  by_cases hp : p = []
  · rw [hp]
    rfl
  obtain ⟨s, heq, hroot, short, _, hshort, hkept⟩ := normal_eq hp
  rw [heq, Draft.written_eq, hkept]
  split
  · split <;> decide
  next hsome =>
    refine normal_spelled (hshort.sublist (below_sublist _ _)) hsome (fun hr => ?_) fun hslash => ?_
    · rw [hr]
      exact not_mem_below short
    · exact (of_decide_eq_true hslash).2

/-- The normal form of an absolute path is absolute, and no other is. -/
theorem isAbsolute_normal (p : Bytes) : isAbsolute (normal p) = isAbsolute p := by
  by_cases hp : p = []
  · rw [hp]
    rfl
  obtain ⟨s, heq, hroot, short, _, hshort, hkept⟩ := normal_eq hp
  rw [heq, Draft.written_eq, hkept, hroot]
  split
  · cases isAbsolute p <;> rfl
  next hsome =>
    obtain ⟨n, ns, hns⟩ := List.exists_cons_of_ne_nil hsome
    have hname : IsName n := hshort.isName n ((below_sublist _ _).subset (hns ▸ List.mem_cons_self))
    rw [hns]
    exact isAbsolute_spelled _ _ hname

end LanguageClient.Path
