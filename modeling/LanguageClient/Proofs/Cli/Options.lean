import Mathlib.Data.List.Induction
import Mathlib.Data.List.TakeWhile
import Mathlib.Logic.Relation
import LanguageClient.Cli.Options
import LanguageClient.Proofs.Bytes
/-
  LanguageClient.Proofs.Cli.Options — which arguments are accepted, and what they set.

  A list of arguments is accepted when it is a sequence of groups: an option with a value
  that it takes, `--use-tabs`, or an argument that does not begin with two dashes. A reader
  who goes from left to right sees them: no group begins like another, and a value is never
  looked at as a group of its own. So any list of arguments is a sequence of groups with
  nothing behind it, or with something that no group begins with (`parted`).

  - `int32?_eq_some_iff`: which texts are numbers, and which number each is.
  - `readAll_words`: reading groups is applying one after another.
  - `sets_foldl`: what groups set by their last values.
  - `apply_comm`: groups of different kinds do not hear of each other.
  - `accepted_by_groups`: the three together, for the arguments of a command.
-/

namespace LanguageClient.Cli

/-! ## Numbers -/

inductive Sign where
  | unsigned
  | plus
  | minus

def Sign.written : Sign → Bytes
  | unsigned => []
  | plus => [Byte.plus]
  | minus => [Byte.minus]

def Sign.applied : Sign → Nat → Int
  | minus, n => -n
  | _, n => n

/-- A text is an integer of 32 bits: white space, a sign, and decimal digits to its end. -/
def Denotes (s : Bytes) (n : Int) : Prop :=
  (∃ blanks sign digits, s = blanks ++ Sign.written sign ++ digits ∧ (∀ c ∈ blanks, Byte.isSpace c = true) ∧
    digits ≠ [] ∧ (∀ c ∈ digits, Byte.isDigit c = true) ∧
    n = sign.applied (Nat.ofDigits 10 (digits.reverse.map Byte.digitValue))) ∧
  -2 ^ 31 ≤ n ∧ n < 2 ^ 31

/-- A digit is no white space and no sign. -/
theorem digit_is_no_mark {c : UInt8} (h : Byte.isDigit c = true) :
    Byte.isSpace c = false ∧ c ≠ Byte.minus ∧ c ≠ Byte.plus := by
  have hrange : 48 ≤ c ∧ c ≤ 57 := by simpa [Byte.isDigit] using h
  refine ⟨?_, ?_, ?_⟩
  · have hblank : c ≠ 32 := by rintro rfl; exact absurd h (by decide)
    have hcontrol : ¬ c ≤ 13 := by
      intro hle
      exact absurd (UInt8.le_trans hrange.1 hle) (by decide)
    simp [Byte.isSpace, hblank, hcontrol]
  · rintro rfl
    exact absurd h (by decide)
  · rintro rfl
    exact absurd h (by decide)

/-- Behind white space a number is read from its sign on. -/
theorem dropWhile_number {blanks digits : Bytes} (sign : Sign) (hblanks : ∀ c ∈ blanks, Byte.isSpace c = true)
    (hne : digits ≠ []) (hdigits : ∀ c ∈ digits, Byte.isDigit c = true) :
    (blanks ++ sign.written ++ digits).dropWhile Byte.isSpace = sign.written ++ digits := by
  obtain ⟨d, ds, rfl⟩ := List.exists_cons_of_ne_nil hne
  have hd := (digit_is_no_mark (hdigits d List.mem_cons_self)).1
  rw [List.append_assoc, List.dropWhile_append_of_pos hblanks]
  cases sign with
  | unsigned => exact List.dropWhile_cons_of_neg (by simp [hd])
  | plus => rfl
  | minus => rfl

def signed? : Bytes → Option Int
  | Byte.minus :: digits => (Bytes.toNat? digits).map Sign.minus.applied
  | Byte.plus :: digits => (Bytes.toNat? digits).map Sign.plus.applied
  | digits => (Bytes.toNat? digits).map Sign.unsigned.applied

theorem int32?_eq (s : Bytes) :
    int32? s = (signed? (s.dropWhile Byte.isSpace)).filter (fun n => -2147483648 ≤ n && n ≤ 2147483647) := by
  simp only [int32?, signed?]
  congr 1
  split
  next digits hbody =>
    rw [hbody]
    show _ = (Bytes.toNat? digits).map Sign.minus.applied
    cases Bytes.toNat? digits <;> rfl
  next digits hbody =>
    rw [hbody]
    show _ = (Bytes.toNat? digits).map Sign.plus.applied
    cases Bytes.toNat? digits <;> rfl
  next hminus hplus =>
    split
    next hbody => exact (hminus _ hbody).elim
    next hbody => exact (hplus _ hbody).elim
    next => cases Bytes.toNat? (s.dropWhile Byte.isSpace) <;> rfl

/-- A number is read from a sign and digits, and from nothing else. -/
theorem signed?_eq_some_iff {t : Bytes} {n : Int} : signed? t = some n ↔
    ∃ sign digits, t = Sign.written sign ++ digits ∧ digits ≠ [] ∧ (∀ c ∈ digits, Byte.isDigit c = true) ∧
      n = sign.applied (Nat.ofDigits 10 (digits.reverse.map Byte.digitValue)) := by
  have hmap : ∀ (sign : Sign) (digits : Bytes), (Bytes.toNat? digits).map sign.applied = some n ↔
      digits ≠ [] ∧ (∀ c ∈ digits, Byte.isDigit c = true) ∧
        n = sign.applied (Nat.ofDigits 10 (digits.reverse.map Byte.digitValue)) := by
    intro sign digits
    simp only [Option.map_eq_some_iff, Bytes.toNat?_eq_some_iff]
    exact ⟨fun ⟨_, ⟨hne, hall, heq⟩, hn⟩ => ⟨hne, hall, by rw [← hn, heq]⟩,
      fun ⟨hne, hall, hn⟩ => ⟨_, ⟨hne, hall, rfl⟩, hn.symm⟩⟩
  constructor
  · intro h
    unfold signed? at h
    split at h
    next digits => exact ⟨.minus, digits, rfl, (hmap _ _).1 h⟩
    next digits => exact ⟨.plus, digits, rfl, (hmap _ _).1 h⟩
    next => exact ⟨.unsigned, t, rfl, (hmap _ _).1 h⟩
  · rintro ⟨sign, digits, rfl, hdigits⟩
    cases sign with
    | minus => exact (hmap .minus digits).2 hdigits
    | plus => exact (hmap .plus digits).2 hdigits
    | unsigned =>
      -- without a sign the first digit must not be taken for one
      obtain ⟨d, ds, rfl⟩ := List.exists_cons_of_ne_nil hdigits.1
      obtain ⟨-, hminus, hplus⟩ := digit_is_no_mark (hdigits.2.1 d List.mem_cons_self)
      have hread : signed? (d :: ds) = (Bytes.toNat? (d :: ds)).map Sign.unsigned.applied := by
        rw [signed?]
        · exact fun _ heq => hminus (List.cons.inj heq).1
        · exact fun _ heq => hplus (List.cons.inj heq).1
      exact hread.trans ((hmap .unsigned _).2 hdigits)

/-- The numbers that are read are the integers of 32 bits. -/
theorem int32?_eq_some_iff {s : Bytes} {n : Int} : int32? s = some n ↔ Denotes s n := by
  have hfits : (-2147483648 ≤ n && n ≤ 2147483647) = true ↔ -2 ^ 31 ≤ n ∧ n < 2 ^ 31 := by
    rw [Bool.and_eq_true, decide_eq_true_iff, decide_eq_true_iff]
    omega
  rw [int32?_eq, Option.filter_eq_some_iff, hfits, signed?_eq_some_iff, Denotes]
  refine and_congr_left fun _ => ⟨?_, ?_⟩
  · rintro ⟨sign, digits, hbody, hdigits⟩
    refine ⟨s.takeWhile Byte.isSpace, sign, digits, ?_, fun c hc => List.mem_takeWhile_imp hc, hdigits⟩
    rw [List.append_assoc, ← hbody, List.takeWhile_append_dropWhile]
  · rintro ⟨blanks, sign, digits, rfl, hblanks, hne, hall, hn⟩
    exact ⟨sign, digits, dropWhile_number sign hblanks hne hall, hne, hall, hn⟩

/-! ## Groups -/

def Key.name : Key → Bytes
  | config => text "--config"
  | server => text "--server"
  | logLevel => text "--log-level"
  | waitMs => text "--wait-ms"
  | tabSize => text "--tab-size"

def tabsName : Bytes := text "--use-tabs"

def dashes : Bytes := text "--"

/-- The values that an option takes: a time is not negative, a tab size is positive, all else is any text. -/
def Key.Takes : Key → Bytes → Prop
  | waitMs, v => ∃ n, Denotes v n ∧ 0 ≤ n
  | tabSize, v => ∃ n, Denotes v n ∧ 0 < n
  | _, _ => True

theorem any_int32?_iff {p : Int → Bool} {v : Bytes} :
    (int32? v).any p = true ↔ ∃ n, Denotes v n ∧ p n = true := by
  simp only [Option.any_eq_true, int32?_eq_some_iff]

instance (key : Key) (v : Bytes) : Decidable (key.Takes v) :=
  match key with
  | .waitMs => decidable_of_iff ((int32? v).any (0 ≤ ·) = true) (by simp only [any_int32?_iff, decide_eq_true_iff, Key.Takes])
  | .tabSize => decidable_of_iff ((int32? v).any (0 < ·) = true) (by simp only [any_int32?_iff, decide_eq_true_iff, Key.Takes])
  | .config => isTrue trivial
  | .server => isTrue trivial
  | .logLevel => isTrue trivial

inductive Group where
  | given (key : Key) (value : Bytes)
  | useTabs
  | positional (arg : Bytes)
  deriving DecidableEq

namespace Group

def words : Group → List Bytes
  | given key value => [key.name, value]
  | useTabs => [tabsName]
  | positional arg => [arg]

def IsSound : Group → Prop
  | given key value => key.Takes value
  | useTabs => True
  | positional arg => ¬ dashes <+: arg

instance (g : Group) : Decidable g.IsSound :=
  match g with
  | given key value => inferInstanceAs (Decidable (key.Takes value))
  | useTabs => isTrue trivial
  | positional arg => inferInstanceAs (Decidable (¬ dashes <+: arg))

/-- Two groups are of one kind when they give the same option, or when they both give none. -/
inductive Kind where
  | option (key : Key)
  | useTabs
  | positional
  deriving DecidableEq

def kind : Group → Kind
  | given key _ => .option key
  | useTabs => .useTabs
  | positional _ => .positional

def positional? : Group → Option Bytes
  | positional arg => some arg
  | _ => none

def value? (key : Key) : Group → Option Bytes
  | given k value => if k = key then some value else none
  | _ => none

/-- The level that a group names; a name that is none counts as if it were not given. -/
def level? (g : Group) : Option Log.Level := (g.value? .logLevel).bind Log.Level.ofText?

end Group

def last? {α : Type} (part? : Group → Option α) (gs : List Group) : Option α := (gs.filterMap part?).getLast?

/-- The options `r` are the options `o` with what the groups set: the positional arguments in
order, and of each option the last value. -/
structure Sets (o : Options) (gs : List Group) (r : Options) : Prop where
  positional : r.positional = o.positional ++ gs.filterMap Group.positional?
  config : r.config = (last? (Group.value? .config) gs).getD o.config
  server : r.server = (last? (Group.value? .server) gs).getD o.server
  waitMs : match last? (Group.value? .waitMs) gs with
    | some v => Denotes v r.waitMs
    | none => r.waitMs = o.waitMs
  tabSize : match last? (Group.value? .tabSize) gs with
    | some v => ∃ n, Denotes v n ∧ r.tabSize = some n
    | none => r.tabSize = o.tabSize
  useTabs : r.useTabs = (o.useTabs || gs.contains .useTabs)
  /-- The last level that is known by its name. -/
  logLevel : r.logLevel = (last? Group.level? gs).getD o.logLevel

/-- The arguments are a sequence of sound groups. Each argument ends at its first NUL. -/
structure Spells (args : List Bytes) (gs : List Group) : Prop where
  words : args.map Bytes.beforeNul = gs.flatMap Group.words
  sound : ∀ g ∈ gs, g.IsSound

inductive Moved : List Group → List Group → Prop
  | intro (before after : List Group) {g h : Group} : g.kind ≠ h.kind →
      Moved (before ++ g :: h :: after) (before ++ h :: g :: after)

/-! ## Reading group by group -/

def Options.apply (o : Options) : Group → Options
  | .given .config v => { o with config := v }
  | .given .server v => { o with server := v }
  | .given .logLevel v => { o with logLevel := Log.Level.ofTextOr o.logLevel v }
  | .given .waitMs v => { o with waitMs := (int32? v).getD o.waitMs }
  | .given .tabSize v => { o with tabSize := (int32? v).or o.tabSize }
  | .useTabs => { o with useTabs := true }
  | .positional arg => { o with positional := o.positional ++ [arg] }

theorem Key.ofArg?_name (key : Key) : Key.ofArg? key.name = some key := by
  cases key <;> decide

theorem Key.name_of_ofArg? {arg : Bytes} {key : Key} (h : Key.ofArg? arg = some key) : arg = key.name := by
  unfold Key.ofArg? at h
  split_ifs at h with hname hname hname hname hname
  all_goals
    cases h
    exact hname

/-- Whatever begins with two dashes is no positional argument, and the names of the options do. -/
theorem dashes_prefix_name (key : Key) : dashes <+: key.name := by
  cases key <;> decide

theorem ofArg?_positional {arg : Bytes} (h : ¬ dashes <+: arg) : Key.ofArg? arg = none := by
  cases hkey : Key.ofArg? arg with
  | none => rfl
  | some key => exact absurd (Key.name_of_ofArg? hkey ▸ dashes_prefix_name key) h

theorem readAll_given (o : Options) (key : Key) (v : Bytes) (rest : List Bytes) :
    o.readAll (key.name :: v :: rest) = match o.give v key with
      | (o', some refusal) => (o', some refusal)
      | (o', none) => o'.readAll rest := by
  rcases hgive : o.give v key with ⟨o', _ | refusal⟩ <;> simp only [Options.readAll, Key.ofArg?_name, hgive]

theorem readAll_take (o : Options) {arg : Bytes} (h : Key.ofArg? arg = none) (rest : List Bytes) :
    o.readAll (arg :: rest) = match o.take arg with
      | (o', some refusal) => (o', some refusal)
      | (o', none) => o'.readAll rest := by
  cases rest with
  | cons v rest => rcases htake : o.take arg with ⟨o', _ | refusal⟩ <;> simp only [Options.readAll, h, htake]
  | nil => rcases htake : o.take arg with ⟨o', _ | refusal⟩ <;> simp only [Options.readAll, htake]

theorem give_of_takes (o : Options) {key : Key} {v : Bytes} (h : key.Takes v) :
    o.give v key = (o.apply (.given key v), none) := by
  cases key with
  | config => rfl
  | server => rfl
  | logLevel => rfl
  | waitMs =>
    obtain ⟨n, hn, hpos⟩ := h
    have hread := int32?_eq_some_iff.2 hn
    simp [Options.give, Options.apply, hread, Int.not_lt.2 hpos]
  | tabSize =>
    obtain ⟨n, hn, hpos⟩ := h
    have hread := int32?_eq_some_iff.2 hn
    simp [Options.give, Options.apply, hread, hpos, Option.filter_some]

/-- Reading a group is applying it. -/
theorem readAll_group (o : Options) {g : Group} (h : g.IsSound) (rest : List Bytes) :
    o.readAll (g.words ++ rest) = (o.apply g).readAll rest := by
  cases g with
  | given key v => exact (readAll_given o key v rest).trans (by rw [give_of_takes o h])
  | useTabs => exact readAll_take o (by decide) rest
  | positional arg =>
    have htake : o.take arg = (o.apply (.positional arg), none) := by
      have htabs : arg ≠ text "--use-tabs" := by
        rintro rfl
        exact h (by decide)
      have hdashes : ¬ (text "--").isPrefixOf arg = true := mt List.isPrefixOf_iff_prefix.1 h
      rw [Options.take, if_neg htabs, if_neg hdashes]
      rfl
    exact (readAll_take o (ofArg?_positional h) rest).trans (by rw [htake])

theorem readAll_words (o : Options) {gs : List Group} (h : ∀ g ∈ gs, g.IsSound) (rest : List Bytes) :
    o.readAll (gs.flatMap Group.words ++ rest) = (gs.foldl Options.apply o).readAll rest := by
  induction gs generalizing o with
  | nil => rfl
  | cons g gs ih =>
    obtain ⟨hg, hgs⟩ := List.forall_mem_cons.1 h
    rw [List.flatMap_cons, List.append_assoc, readAll_group o hg, ih _ hgs, List.foldl_cons]

theorem read_of_spells (o : Options) {args : List Bytes} {gs : List Group} (h : Spells args gs) :
    o.read args = (gs.foldl Options.apply o, none) := by
  have hread := readAll_words o h.sound []
  rwa [List.append_nil, ← h.words] at hread

/-! ## What no group begins with -/

/-- Arguments that begin with what is refused: a value that its option does not take, an option
without its value, or an unknown option. -/
inductive Offends : List Bytes → Refusal → Prop
  | waitMs {v : Bytes} (rest : List Bytes) : ¬ Key.Takes .waitMs v → Offends (Key.name .waitMs :: v :: rest) .waitMs
  | tabSize {v : Bytes} (rest : List Bytes) : ¬ Key.Takes .tabSize v → Offends (Key.name .tabSize :: v :: rest) .tabSize
  | bare (key : Key) : Offends [key.name] (.unknown key.name)
  | unknown {arg : Bytes} (rest : List Bytes) : dashes <+: arg → arg ≠ tabsName → (∀ key : Key, arg ≠ key.name) →
      Offends (arg :: rest) (.unknown arg)

def Parted (args : List Bytes) : Prop :=
  ∃ (gs : List Group) (rest : List Bytes), args = gs.flatMap Group.words ++ rest ∧ (∀ g ∈ gs, g.IsSound) ∧
    (rest = [] ∨ ∃ refusal, Offends rest refusal)

theorem Parted.group {rest : List Bytes} (h : Parted rest) {g : Group} (hg : g.IsSound) : Parted (g.words ++ rest) := by
  obtain ⟨gs, tail, rfl, hgs, htail⟩ := h
  exact ⟨g :: gs, tail, by rw [List.flatMap_cons, List.append_assoc], List.forall_mem_cons.2 ⟨hg, hgs⟩, htail⟩

theorem Offends.parted {args : List Bytes} {refusal : Refusal} (h : Offends args refusal) : Parted args :=
  ⟨[], args, rfl, by simp, Or.inr ⟨refusal, h⟩⟩

/-- Any arguments are groups up to their end, or up to something that is refused. -/
theorem parted : ∀ args : List Bytes, Parted args
  | [] => ⟨[], [], rfl, by simp, Or.inl rfl⟩
  | arg :: rest => by
    cases hkey : Key.ofArg? arg with
    | some key =>
      obtain rfl := Key.name_of_ofArg? hkey
      cases rest with
      | nil => exact (Offends.bare key).parted
      | cons v rest =>
        by_cases htakes : key.Takes v
        · exact (parted rest).group (g := .given key v) htakes
        · cases key with
          | waitMs => exact (Offends.waitMs rest htakes).parted
          | tabSize => exact (Offends.tabSize rest htakes).parted
          | config => exact absurd trivial htakes
          | server => exact absurd trivial htakes
          | logLevel => exact absurd trivial htakes
    | none =>
      by_cases htabs : arg = tabsName
      · rw [htabs]
        exact (parted rest).group (g := .useTabs) trivial
      · by_cases hdashes : dashes <+: arg
        · refine (Offends.unknown rest hdashes htabs fun key heq => ?_).parted
          rw [heq, Key.ofArg?_name] at hkey
          cases hkey
        · exact (parted rest).group (g := .positional arg) hdashes
  termination_by args => args.length

def NegativeTime (rest : List Bytes) (n : Int) : Prop :=
  ∃ v more, rest = Key.name .waitMs :: v :: more ∧ Denotes v n ∧ n < 0

/-- What is left of options when what comes next is refused: all of them, unless that is a negative
time, which stays in the place of the time there was. -/
inductive Leaves (o : Options) (rest : List Bytes) : Options → Prop
  | kept : (∀ n, ¬ NegativeTime rest n) → Leaves o rest o
  | negative {n : Int} : NegativeTime rest n → Leaves o rest { o with waitMs := n }

theorem not_negativeTime {arg : Bytes} (h : arg ≠ Key.name .waitMs) (rest : List Bytes) (n : Int) :
    ¬ NegativeTime (arg :: rest) n := by
  rintro ⟨v, more, heq, -⟩
  exact h (List.cons.inj heq).1

/-- What is refused is refused for its reason, and leaves what it has to. -/
theorem readAll_offending (o : Options) {rest : List Bytes} {refusal : Refusal} (h : Offends rest refusal) :
    (o.readAll rest).2 = some refusal ∧ Leaves o rest (o.readAll rest).1 := by
  cases h with
  | @waitMs v rest htakes =>
    rw [readAll_given, Options.give]
    cases hread : int32? v with
    | none =>
      refine ⟨rfl, .kept ?_⟩
      rintro n ⟨w, more, heq, hn, -⟩
      obtain ⟨rfl, rfl⟩ : v = w ∧ rest = more := by simpa using heq
      rw [int32?_eq_some_iff.2 hn] at hread
      cases hread
    | some n =>
      have hn := int32?_eq_some_iff.1 hread
      have hneg : n < 0 := Int.not_le.1 fun hpos => htakes ⟨n, hn, hpos⟩
      simp only [hneg, if_true, true_and]
      exact .negative ⟨v, rest, rfl, hn, hneg⟩
  | @tabSize v rest htakes =>
    have hnone : (int32? v).filter (0 < ·) = none := by
      rw [Option.filter_eq_none_iff]
      intro n hread
      simpa using fun hpos => htakes ⟨n, int32?_eq_some_iff.1 hread, hpos⟩
    rw [readAll_given, Options.give, hnone]
    exact ⟨rfl, .kept (not_negativeTime (by decide) _)⟩
  | bare key =>
    have hread : o.readAll [key.name] = (o, some (.unknown key.name)) := by
      rw [Options.readAll]
      cases key <;> rfl
    rw [hread]
    refine ⟨rfl, .kept ?_⟩
    rintro n ⟨v, more, heq, -⟩
    cases (List.cons.inj heq).2
  | @unknown arg rest hdashes htabs hnames =>
    have hkey : Key.ofArg? arg = none := by
      cases hkey : Key.ofArg? arg with
      | none => rfl
      | some key => exact absurd (Key.name_of_ofArg? hkey) (hnames key)
    have hprefix : (text "--").isPrefixOf arg = true := List.isPrefixOf_iff_prefix.2 hdashes
    have htake : o.take arg = (o, some (.unknown arg)) := by
      rw [Options.take, if_neg (by exact htabs), if_pos hprefix]
    rw [readAll_take o hkey, htake]
    exact ⟨rfl, .kept (not_negativeTime (hnames .waitMs) rest)⟩

/-- Arguments that are accepted are groups. -/
theorem spells_of_read {o : Options} {args : List Bytes} (h : (o.read args).2 = none) : ∃ gs, Spells args gs := by
  obtain ⟨gs, rest, hargs, hgs, rfl | ⟨refusal, hrefused⟩⟩ := parted (args.map Bytes.beforeNul)
  · exact ⟨gs, by rw [hargs, List.append_nil], hgs⟩
  · rw [Options.read, hargs, readAll_words o hgs, (readAll_offending _ hrefused).1] at h
    cases h

/-! ## What groups set -/

theorem last?_concat {α : Type} (part? : Group → Option α) (gs : List Group) (g : Group) :
    last? part? (gs ++ [g]) = (part? g).or (last? part? gs) := by
  rw [last?, List.filterMap_append, List.getLast?_append, last?]
  cases hpart : part? g <;> simp [hpart]

theorem takes_of_value? {g : Group} (hg : g.IsSound) {key : Key} {v : Bytes} (h : g.value? key = some v) :
    key.Takes v := by
  cases g with
  | given k w =>
    obtain ⟨rfl, rfl⟩ : k = key ∧ w = v := by simpa [Group.value?] using h
    exact hg
  | useTabs => cases h
  | positional arg => cases h

/-! Each field hears of the groups that give it. -/

section fields

variable (o : Options) (g : Group)

theorem apply_positional : (o.apply g).positional = o.positional ++ g.positional?.toList := by
  rcases g with ⟨_ | _ | _ | _ | _, v⟩ | _ | arg <;> simp [Options.apply, Group.positional?]

theorem apply_config : (o.apply g).config = (g.value? .config).getD o.config := by
  rcases g with ⟨_ | _ | _ | _ | _, v⟩ | _ | arg <;> rfl

theorem apply_server : (o.apply g).server = (g.value? .server).getD o.server := by
  rcases g with ⟨_ | _ | _ | _ | _, v⟩ | _ | arg <;> rfl

theorem apply_waitMs : (o.apply g).waitMs = ((g.value? .waitMs).bind int32?).getD o.waitMs := by
  rcases g with ⟨_ | _ | _ | _ | _, v⟩ | _ | arg <;> rfl

theorem apply_tabSize : (o.apply g).tabSize = ((g.value? .tabSize).bind int32?).or o.tabSize := by
  rcases g with ⟨_ | _ | _ | _ | _, v⟩ | _ | arg <;> rfl

theorem apply_useTabs : (o.apply g).useTabs = (o.useTabs || g == .useTabs) := by
  rcases g with ⟨_ | _ | _ | _ | _, v⟩ | _ | arg <;> simp [Options.apply]

theorem apply_logLevel : (o.apply g).logLevel = g.level?.getD o.logLevel := by
  rcases g with ⟨_ | _ | _ | _ | _, v⟩ | _ | arg <;> rfl

end fields

/-- One more group sets what it gives, and leaves all else. -/
theorem Sets.apply {o r : Options} {gs : List Group} (h : Sets o gs r) {g : Group} (hg : g.IsSound) :
    Sets o (gs ++ [g]) (r.apply g) := by
  refine ⟨?_, ?_, ?_, ?_, ?_, ?_, ?_⟩
  · rw [apply_positional, h.positional, List.filterMap_append, List.append_assoc]
    cases hg : g.positional? <;> simp [hg]
  · rw [apply_config, h.config, last?_concat, Option.getD_or]
  · rw [apply_server, h.server, last?_concat, Option.getD_or]
  · rw [last?_concat, apply_waitMs]
    cases hvalue : g.value? .waitMs with
    | none => exact h.waitMs
    | some v =>
      obtain ⟨n, hn, -⟩ := takes_of_value? hg hvalue
      simpa [int32?_eq_some_iff.2 hn] using hn
  · rw [last?_concat, apply_tabSize]
    cases hvalue : g.value? .tabSize with
    | none => exact h.tabSize
    | some v =>
      obtain ⟨n, hn, -⟩ := takes_of_value? hg hvalue
      exact ⟨n, hn, by simp [int32?_eq_some_iff.2 hn]⟩
  · rw [apply_useTabs, h.useTabs]
    cases g <;> simp
  · rw [apply_logLevel, h.logLevel, last?_concat, Option.getD_or]

theorem sets_foldl (o : Options) {gs : List Group} (h : ∀ g ∈ gs, g.IsSound) :
    Sets o gs (gs.foldl Options.apply o) := by
  induction gs using List.reverseRecOn with
  | nil => exact ⟨by simp, rfl, rfl, rfl, rfl, by simp, rfl⟩
  | append_singleton gs g ih =>
    rw [List.foldl_append]
    exact (ih fun g hg => h g (List.mem_append_left _ hg)).apply (h g (by simp))

/-! ## Order -/

/-- Groups of different kinds do not hear of each other. -/
theorem apply_comm (o : Options) {g h : Group} (hkind : g.kind ≠ h.kind) :
    (o.apply g).apply h = (o.apply h).apply g := by
  cases g with
  | given key v =>
    cases h with
    | given other w =>
      cases key <;> cases other <;> first | rfl | exact absurd rfl hkind
    | useTabs => cases key <;> rfl
    | positional arg => cases key <;> rfl
  | useTabs =>
    cases h with
    | given other w => cases other <;> rfl
    | useTabs => exact absurd rfl hkind
    | positional arg => rfl
  | positional arg =>
    cases h with
    | given other w => cases other <;> rfl
    | useTabs => rfl
    | positional arg => exact absurd rfl hkind

theorem Moved.foldl_eq {gs gs' : List Group} (h : Moved gs gs') (o : Options) :
    gs'.foldl Options.apply o = gs.foldl Options.apply o := by
  obtain ⟨before, after, hkind⟩ := h
  simp only [List.foldl_append, List.foldl_cons, apply_comm _ hkind]

theorem Moved.sound {gs gs' : List Group} (h : Moved gs gs') (hgs : ∀ g ∈ gs, g.IsSound) : ∀ g ∈ gs', g.IsSound := by
  obtain ⟨before, after, hkind⟩ := h
  intro g hg
  refine hgs g ?_
  simp only [List.mem_append, List.mem_cons] at hg ⊢
  rcases hg with hg | rfl | rfl | hg <;> simp [*]

/-- Moving groups, one past its neighbour at a time, leaves them sound and sets the same. -/
theorem moves_foldl_eq {gs gs' : List Group} (h : Relation.ReflTransGen Moved gs gs') (hgs : ∀ g ∈ gs, g.IsSound) :
    (∀ g ∈ gs', g.IsSound) ∧ ∀ o : Options, gs'.foldl Options.apply o = gs.foldl Options.apply o := by
  induction h with
  | refl => exact ⟨hgs, fun _ => rfl⟩
  | tail _ hmoved ih => exact ⟨hmoved.sound ih.1, fun o => (hmoved.foldl_eq o).trans (ih.2 o)⟩

/-- Arguments are accepted exactly when they are a sequence of groups, and then they set what the
groups say. Moving groups past groups of other kinds changes nothing. -/
theorem accepted_by_groups (o : Options) (args : List Bytes) :
    ((o.read args).2 = none ↔ ∃ gs, Spells args gs) ∧
    (∀ gs, Spells args gs → Sets o gs (o.read args).1) ∧
    ∀ gs gs' args', Spells args gs → Relation.ReflTransGen Moved gs gs' →
      args'.map Bytes.beforeNul = gs'.flatMap Group.words → o.read args' = o.read args := by
  refine ⟨⟨spells_of_read, ?_⟩, fun gs hgs => ?_, fun gs gs' args' hgs hmoved hwords => ?_⟩
  · rintro ⟨gs, hgs⟩
    rw [read_of_spells o hgs]
  · rw [read_of_spells o hgs]
    exact sets_foldl o hgs.sound
  · obtain ⟨hsound, hsame⟩ := moves_foldl_eq hmoved hgs.sound
    rw [read_of_spells o ⟨hwords, hsound⟩, read_of_spells o hgs, hsame]

def mixedGroups : List Group :=
  [.positional (text "a.ts"), .given .waitMs (text " +50"), .given .config (text "--server"),
    .given .logLevel (text "OFF"), .given .logLevel (text "loud"), .given .waitMs (text "-0"), .positional (text "-x")]

def movedGroups : List Group :=
  [.given .config (text "--server"), .positional (text "a.ts"), .given .waitMs (text " +50"),
    .given .logLevel (text "OFF"), .given .logLevel (text "loud"), .given .waitMs (text "-0"), .positional (text "-x")]

/-- Fresh options take what was given last, and the default where nothing was given, wherever it stands. -/
theorem accepted_by_mixed_groups :
    Spells (mixedGroups.flatMap Group.words) mixedGroups ∧ Relation.ReflTransGen Moved mixedGroups movedGroups ∧
    ({} : Options).read (movedGroups.flatMap Group.words) =
      ({ positional := [text "a.ts", text "-x"], config := text "--server", server := [], waitMs := 0, tabSize := none,
         useTabs := false, logLevel := .off }, none) := by
  have hspells : Spells (mixedGroups.flatMap Group.words) mixedGroups := ⟨by decide +kernel, by decide +kernel⟩
  have hmoved : Relation.ReflTransGen Moved mixedGroups movedGroups :=
    .tail (.single (.intro [.positional (text "a.ts")] _ (by decide))) (.intro [] _ (by decide))
  refine ⟨hspells, hmoved, ?_⟩
  rw [(accepted_by_groups {} _).2.2 _ _ _ hspells hmoved (by decide +kernel)]
  decide +kernel

end LanguageClient.Cli
