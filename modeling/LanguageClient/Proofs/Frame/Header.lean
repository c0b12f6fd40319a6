import LanguageClient.Proofs.Bytes
import LanguageClient.Frame.Header
/-
  LanguageClient.Proofs.Frame.Header — which line of a header block declares the length.

  - `readLength_eq`: a value counts when it is a numeral of at most `maxLength`.
  - `endsInName_iff`: the name of a first line may come after bytes that cannot be part of it.
  - A `Field` is a line `name: value` that a sender may write, `header` the block of such
    lines, `declared` the length that the first line of the right name declares.
  - `contentLength_of_fields`: the length of a block is the one declared, unless the value of
    the first line hides its name (`Field.Plain`); a note that hides it so is taken for the
    length, though it is a line of another name (`a_note_on_length_declares_it`).
-/

namespace LanguageClient.Frame

/-! ## The value -/

/-- A digit more makes a numeral no smaller. -/
theorem le_foldl_digits (value : Bytes) : ∀ n : Nat, n ≤ value.foldl (fun n c => n * 10 + Byte.digitValue c) n := by
  induction value with
  | nil => intro n; exact Nat.le_refl n
  | cons c r ih =>
    intro n
    have := ih (n * 10 + Byte.digitValue c)
    rw [List.foldl_cons]
    omega

theorem readBounded_eq (value : Bytes) : ∀ n : Nat, n ≤ maxLength →
    readBounded n value = if value.all Byte.isDigit = true then
      (some (value.foldl (fun n c => n * 10 + Byte.digitValue c) n)).filter (· ≤ maxLength) else none := by
  induction value with
  | nil => intro n hn; simp [readBounded, Option.filter, hn]
  | cons c r ih =>
    intro n _
    by_cases hc : Byte.isDigit c = true
    · simp only [readBounded, hc, if_true, List.all_cons, Bool.true_and, List.foldl_cons]
      split
      · rename_i hbig
        have hle := le_foldl_digits r (n * 10 + Byte.digitValue c)
        have hout : ¬ r.foldl (fun n c => n * 10 + Byte.digitValue c) (n * 10 + Byte.digitValue c) ≤ maxLength := by
          omega
        simp [Option.filter, hout]
      · exact ih _ (by omega)
    · simp [readBounded, hc]

/-- A value counts when it is a numeral of at most `maxLength`. -/
theorem readLength_eq (value : Bytes) : readLength value = (Bytes.toNat? value).filter (· ≤ maxLength) := by
  cases value with
  | nil => rfl
  | cons c r =>
    rw [readLength, readBounded_eq _ _ (Nat.zero_le _), Bytes.toNat?]
    · by_cases h : (c :: r).all Byte.isDigit = true
      · rw [if_pos h, if_pos ⟨by simp, h⟩]; rfl
      · rw [if_neg h, if_neg fun hand => h hand.2]; rfl
    · simp

/-! ## Characters of names -/

def isBlank (c : UInt8) : Bool := c == Byte.space || c == Byte.tab

theorem trim_eq (s : Bytes) :
    trim s = Bytes.dropEnd (fun c => isBlank c || c == Byte.cr) (s.dropWhile isBlank) := rfl

theorem isTokenChar_colon : isTokenChar Byte.colon = false := by decide

theorem isTokenChar_cr : isTokenChar Byte.cr = false := by decide

theorem isTokenChar_of_isBlank {c : UInt8} (h : isBlank c = true) : isTokenChar c = false := by
  simp only [isBlank, Bool.or_eq_true, beq_iff_eq] at h
  rcases h with rfl | rfl <;> decide

theorem not_trimmed_of_isTokenChar {c : UInt8} (h : isTokenChar c = true) : (isBlank c || c == Byte.cr) = false := by
  rw [Bool.or_eq_false_iff, beq_eq_false_iff_ne]
  constructor
  · cases hb : isBlank c with
    | false => rfl
    | true => rw [isTokenChar_of_isBlank hb] at h; cases h
  · rintro rfl
    rw [isTokenChar_cr] at h; cases h

theorem not_mem_of_token {name : Bytes} (h : ∀ c ∈ name, isTokenChar c = true) {c : UInt8}
    (hc : isTokenChar c = false) : c ∉ name := by
  intro hin
  rw [h c hin] at hc
  cases hc

theorem nameText_ne_nil : nameText ≠ [] := by decide

theorem nameText_token : ∀ c ∈ nameText, isTokenChar c = true := List.all_eq_true.1 (by decide)

theorem isTokenChar_of_lower {c : UInt8} (h : Byte.lower c ∈ Bytes.lower nameText) : isTokenChar c = true := by
  unfold Byte.lower at h
  split at h
  · rename_i hup
    simp [isTokenChar, Byte.isAlnum, Byte.isAlpha, hup]
  · have hall : (Bytes.lower nameText).all isTokenChar = true := by decide
    exact List.all_eq_true.1 hall c h

/-- A name that differs from the right one in case only is made of token characters. -/
theorem token_of_sameName {name : Bytes} (h : Bytes.sameName name nameText = true) :
    ∀ c ∈ name, isTokenChar c = true := by
  intro c hc
  apply isTokenChar_of_lower
  rw [← beq_iff_eq.1 h]
  exact List.mem_map_of_mem hc

theorem length_of_sameName {a b : Bytes} (h : Bytes.sameName a b = true) : a.length = b.length := by
  have := congrArg List.length (beq_iff_eq.1 h)
  simpa [Bytes.lower] using this

/-! ## The name of a first line -/

/-- `key` ends in the right name, and what stands before cannot belong to that name. -/
def EndsInName (key : Bytes) : Prop :=
  ∃ before name, key = before ++ name ∧ Bytes.sameName name nameText = true ∧
    ∀ c ∈ before.getLast?, isTokenChar c = false

theorem endsInName_iff (key : Bytes) : endsInName key = true ↔ EndsInName key := by
  simp only [endsInName, Bool.and_eq_true, decide_eq_true_eq, Bool.not_eq_true']
  constructor
  · rintro ⟨⟨_, hname⟩, hbefore⟩
    refine ⟨_, _, (List.take_append_drop (key.length - nameText.length) key).symm, hname, fun c hc => ?_⟩
    cases ht : isTokenChar c with
    | false => rfl
    | true => rw [Option.mem_def.1 hc, Option.any_some, ht] at hbefore; cases hbefore
  · rintro ⟨before, name, rfl, hname, hbefore⟩
    have hlen := length_of_sameName hname
    have hstart : (before ++ name).length - nameText.length = before.length := by
      rw [List.length_append]; omega
    rw [hstart, List.drop_left, List.take_left]
    refine ⟨⟨by rw [List.length_append]; omega, hname⟩, ?_⟩
    cases hl : before.getLast? with
    | none => rfl
    | some c => exact hbefore c hl

instance (key : Bytes) : Decidable (EndsInName key) := decidable_of_iff _ (endsInName_iff key)

/-- A text of token characters ends in the name only when it is the name. -/
theorem endsInName_token {key : Bytes} (h : ∀ c ∈ key, isTokenChar c = true) :
    EndsInName key ↔ Bytes.sameName key nameText = true := by
  constructor
  · rintro ⟨before, name, rfl, hname, hbefore⟩
    rcases List.eq_nil_or_concat before with rfl | ⟨init, c, rfl⟩
    · exact hname
    · have hc : isTokenChar c = false := hbefore c (by simp)
      exact absurd hc (by simp [h c (by simp)])
  · intro hname
    exact ⟨[], key, rfl, hname, fun c hc => by cases hc⟩

/-- Whatever stands before a byte that no name contains does not matter. -/
theorem endsInName_append_cons {c : UInt8} (hc : isTokenChar c = false) (a u : Bytes) :
    EndsInName (a ++ c :: u) ↔ EndsInName u := by
  constructor
  · rintro ⟨before, name, heq, hname, hbefore⟩
    have hnot : c ∉ name := not_mem_of_token (token_of_sameName hname) hc
    rcases List.append_eq_append_iff.1 heq with ⟨x, rfl, hx⟩ | ⟨x, rfl, rfl⟩
    · cases x with
      | nil =>
        rw [List.nil_append] at hx
        exact absurd (hx ▸ List.mem_cons_self) hnot
      | cons y ys =>
        obtain ⟨rfl, rfl⟩ := List.cons.inj hx
        refine ⟨ys, name, rfl, hname, fun z hz => hbefore z ?_⟩
        rw [List.getLast?_append_of_ne_nil _ (by simp), List.getLast?_cons, Option.mem_def.1 hz]
        rfl
    · exact absurd (List.mem_append_right x List.mem_cons_self) hnot
  · rintro ⟨before, name, rfl, hname, hbefore⟩
    refine ⟨a ++ c :: before, name, by simp, hname, fun z hz => ?_⟩
    rw [List.getLast?_append_of_ne_nil _ (by simp), List.getLast?_cons, Option.mem_def, Option.some.injEq] at hz
    cases hl : before.getLast? with
    | none => rw [hl] at hz; exact hz ▸ hc
    | some y => rw [hl] at hz; exact hz ▸ hbefore y hl

/-- Blanks at the beginning do not matter either. -/
theorem endsInName_trim (u : Bytes) :
    EndsInName (trim u) ↔ EndsInName (Bytes.dropEnd (fun c => isBlank c || c == Byte.cr) u) := by
  induction u with
  | nil => rfl
  | cons c u ih =>
    rw [trim_eq] at ih ⊢
    by_cases hb : isBlank c = true
    · rw [List.dropWhile_cons_of_pos hb, ih, Bytes.dropEnd_cons]
      split
      · rename_i hnil; rw [hnil.1]
      · exact (endsInName_append_cons (isTokenChar_of_isBlank hb) [] _).symm
    · rw [List.dropWhile_cons_of_neg hb]

/-! ## Well-formed lines -/

structure Field where
  name : Bytes
  /-- What follows the colon, blanks included. -/
  value : Bytes
  name_ne_nil : name ≠ []
  name_token : ∀ c ∈ name, isTokenChar c = true
  cr_not_mem : Byte.cr ∉ value
  lf_not_mem : Byte.lf ∉ value

namespace Field

def line (f : Field) : Bytes := f.name ++ Byte.colon :: f.value

def isLength (f : Field) : Bool := Bytes.sameName f.name nameText

/-- What stands before the last colon of the value is not taken for the name. A first line is read
from there, since bytes left over from another frame may precede its name. -/
def Plain (f : Field) : Prop :=
  ∀ u w, f.value = u ++ Byte.colon :: w → Byte.colon ∉ w → f.isLength = false ∧ ¬ EndsInName (trim u)

theorem plain_of_not_mem {f : Field} (h : Byte.colon ∉ f.value) : f.Plain :=
  fun _ _ hv _ => absurd (hv ▸ List.mem_append_right _ List.mem_cons_self) h

theorem cr_not_mem_line (f : Field) : Byte.cr ∉ f.line := by
  rw [line, List.mem_append, List.mem_cons]
  rintro (h | h | h)
  · exact not_mem_of_token f.name_token isTokenChar_cr h
  · cases h
  · exact f.cr_not_mem h

end Field

def header (fs : List Field) : Bytes := Bytes.joinWith Bytes.lineBreak (fs.map Field.line)

def lengthIn (value : Bytes) : Option Nat := (Bytes.toNat? (trim value)).filter (· ≤ maxLength)

/-- What the first line of the right name declares. -/
def declared (fs : List Field) : Option Nat := (fs.find? Field.isLength).bind fun f => lengthIn f.value

theorem trim_token {name : Bytes} (h : ∀ c ∈ name, isTokenChar c = true) : trim name = name := by
  have hkeep : ∀ c ∈ name, (isBlank c || c == Byte.cr) = false := fun c hc => not_trimmed_of_isTokenChar (h c hc)
  have hblank : name.dropWhile isBlank = name := by
    cases name with
    | nil => rfl
    | cons c r => exact List.dropWhile_cons_of_neg (by simp [(Bool.or_eq_false_iff.1 (hkeep c (by simp))).1])
  rw [trim_eq, hblank, Bytes.dropEnd_eq_self hkeep]

theorem laterValue?_line (f : Field) : laterValue? f.line = if f.isLength then some (trim f.value) else none := by
  have hcolon : Byte.colon ∉ f.name := not_mem_of_token f.name_token isTokenChar_colon
  simp only [laterValue?, Field.line, Bytes.cutAt_append hcolon, trim_token f.name_token]
  rfl

/-- Without a colon in its value a first line is read as the later ones are. -/
theorem leadingValue?_line {f : Field} (h : Byte.colon ∉ f.value) : leadingValue? f.line = laterValue? f.line := by
  have hname : endsInName f.name = f.isLength :=
    Bool.eq_iff_iff.2 ((endsInName_iff f.name).trans (endsInName_token f.name_token))
  rw [laterValue?_line]
  simp only [leadingValue?, Field.line, Bytes.cutAtLast_append h, trim_token f.name_token, hname]

/-- With a colon in its value a first line is read as if the value stood alone. -/
theorem leadingValue?_line_colon {f : Field} {u w : Bytes} (hv : f.value = u ++ Byte.colon :: w) (h : Byte.colon ∉ w) :
    leadingValue? f.line = if EndsInName (trim u) then some (trim w) else none := by
  have hline : f.line = (f.name ++ Byte.colon :: u) ++ Byte.colon :: w := by simp [Field.line, hv]
  have htrim : trim (f.name ++ Byte.colon :: u)
      = f.name ++ Byte.colon :: Bytes.dropEnd (fun c => isBlank c || c == Byte.cr) u := by
    have hblank : (f.name ++ Byte.colon :: u).dropWhile isBlank = f.name ++ Byte.colon :: u := by
      cases hn : f.name with
      | nil => exact absurd hn f.name_ne_nil
      | cons c r =>
        have hc := not_trimmed_of_isTokenChar (f.name_token c (by simp [hn]))
        exact List.dropWhile_cons_of_neg (by simp [(Bool.or_eq_false_iff.1 hc).1])
    rw [trim_eq, hblank, Bytes.dropEnd_append_cons (by decide)]
  have hends : EndsInName (trim (f.name ++ Byte.colon :: u)) ↔ EndsInName (trim u) := by
    rw [htrim, endsInName_append_cons isTokenChar_colon, endsInName_trim]
  simp only [leadingValue?, hline, Bytes.cutAtLast_append h, endsInName_iff, hends]

theorem lines_header {fs : List Field} (h : fs ≠ []) : Bytes.lines (header fs) = fs.map Field.line := by
  apply Bytes.lines_joinWith (by simpa using h)
  intro l hl
  obtain ⟨f, _, rfl⟩ := List.mem_map.1 hl
  exact f.cr_not_mem_line

theorem findSome?_laterValue? (fs : List Field) :
    ((fs.map Field.line).findSome? laterValue?).bind readLength = declared fs := by
  induction fs with
  | nil => rfl
  | cons f fs ih =>
    rw [List.map_cons, List.findSome?_cons, laterValue?_line, declared, List.find?_cons]
    cases hf : f.isLength with
    | true => simp [readLength_eq, lengthIn]
    | false => simpa [declared] using ih

theorem contentLength_cons (f : Field) (fs : List Field) :
    contentLength (header (f :: fs)) = match leadingValue? f.line with
      | some value => readLength value
      | none => declared fs := by
  have hvalue : lengthValue? (header (f :: fs))
      = (leadingValue? f.line).or ((fs.map Field.line).findSome? laterValue?) := by
    rw [lengthValue?, lines_header (by simp)]; rfl
  rw [contentLength, hvalue]
  cases leadingValue? f.line with
  | some value => rfl
  | none => exact findSome?_laterValue? fs

/-- A plain first line is read as the later ones are. -/
theorem leadingValue?_plain {f : Field} (h : f.Plain) : leadingValue? f.line = laterValue? f.line := by
  cases hcut : Bytes.cutAtLast Byte.colon f.value with
  | none => exact leadingValue?_line (Bytes.not_mem_of_cutAtLast hcut)
  | some p =>
    obtain ⟨hv, hw⟩ := Bytes.cutAtLast_eq_some_iff.1 hcut
    obtain ⟨hname, hends⟩ := h _ _ hv hw
    rw [leadingValue?_line_colon hv hw, if_neg hends, laterValue?_line, hname]
    rfl

/-- When the first line is plain, the first line of the right name decides. -/
theorem contentLength_header {fs : List Field} (h : ∀ f ∈ fs.head?, f.Plain) :
    contentLength (header fs) = declared fs := by
  cases fs with
  | nil => decide
  | cons f fs =>
    rw [contentLength_cons, leadingValue?_plain (h f rfl), laterValue?_line]
    cases hf : f.isLength with
    | true => simp [declared, hf, readLength_eq, lengthIn]
    | false => simp [declared, hf]

theorem declared_append_cons {f : Field} (hf : f.isLength = false) (before after : List Field) :
    declared (before ++ f :: after) = declared (before ++ after) := by
  simp only [declared, List.find?_append, List.find?_cons, hf]

/-- Two lines of other names can stand for each other, whatever their values are. In the first
place they must be plain. -/
theorem contentLength_replace {f g : Field} (hf : f.isLength = false) (hg : g.isLength = false)
    {before : List Field} (h : before = [] → f.Plain ∧ g.Plain) (after : List Field) :
    contentLength (header (before ++ f :: after)) = contentLength (header (before ++ g :: after)) := by
  cases before with
  | nil =>
    obtain ⟨hfp, hgp⟩ := h rfl
    have hfirst : ∀ x ∈ ([] ++ f :: after).head?, x.Plain := by rintro x ⟨⟩; exact hfp
    have hfirst' : ∀ x ∈ ([] ++ g :: after).head?, x.Plain := by rintro x ⟨⟩; exact hgp
    rw [contentLength_header hfirst, contentLength_header hfirst', declared_append_cons hf, declared_append_cons hg]
  | cons x before =>
    rw [List.cons_append, List.cons_append, contentLength_cons, contentLength_cons, declared_append_cons hf,
      declared_append_cons hg]

/-- The length of a block of well-formed lines. Behind a plain first line it is the one that the first
line of the right name declares, and a line of another name can be exchanged for another. -/
theorem contentLength_of_fields (fs : List Field) :
    ((∀ f ∈ fs.head?, f.Plain) → contentLength (header fs) = declared fs) ∧
    ∀ (before after : List Field) (f g : Field), fs = before ++ f :: after →
      f.isLength = false → g.isLength = false → (before = [] → f.Plain ∧ g.Plain) →
      contentLength (header fs) = contentLength (header (before ++ g :: after)) := by
  refine ⟨contentLength_header, ?_⟩
  rintro before after f g rfl hf hg h
  exact contentLength_replace hf hg h after

def lengthTen : Field := ⟨nameText, text " 10", nameText_ne_nil, nameText_token, by decide, by decide⟩

theorem note_token : ∀ c ∈ text "X-Note", isTokenChar c = true := List.all_eq_true.1 (by decide)

def noteOnLength : Field := ⟨text "X-Note", text " see Content-Length: 5", by decide, note_token, by decide, by decide⟩

def noteOnPlace : Field := ⟨text "X-Note", text " localhost:80", by decide, note_token, by decide, by decide⟩

theorem noteOnPlace_plain : noteOnPlace.Plain := by
  intro u w hv hw
  have hcut : Bytes.cutAtLast Byte.colon noteOnPlace.value = some (text " localhost", text "80") := by decide
  rw [hv, Bytes.cutAtLast_append hw] at hcut
  obtain ⟨rfl, -⟩ := Prod.mk.inj (Option.some.inj hcut)
  exact ⟨by decide, by decide⟩

/-- A note on a place counts for nothing in the first place, and a note on a length in the second. -/
theorem contentLength_beside_a_note :
    noteOnPlace.Plain ∧ contentLength (header [noteOnPlace, lengthTen]) = some 10 ∧
    contentLength (header [lengthTen, noteOnLength]) = contentLength (header [lengthTen, noteOnPlace]) := by
  refine ⟨noteOnPlace_plain, ((contentLength_of_fields [noteOnPlace, lengthTen]).1 ?_).trans (by decide), ?_⟩
  · rintro f ⟨⟩
    exact noteOnPlace_plain
  · exact (contentLength_of_fields [lengthTen, noteOnLength]).2 [lengthTen] [] noteOnLength noteOnPlace rfl
      (by decide) (by decide) (by simp)

/-- A first line of another name whose value speaks of a length is taken for the length. -/
theorem a_note_on_length_declares_it :
    contentLength (header [noteOnLength, lengthTen]) = some 5 ∧ declared [noteOnLength, lengthTen] = some 10 := by
  decide

end LanguageClient.Frame
