import LanguageClient.Utf8
/-
  LanguageClient.Proofs.Utf8 — mended texts.

  Whatever the bytes, what mending makes of them is UTF-8 (`isText_mend`), and UTF-8 is what
  it leaves as it is (`mend_eq_self_iff`). The characters with a number, the surrogates
  excepted, are UTF-8 (`isText_character`), and so are all texts of the program (`isText_text`).
-/

namespace LanguageClient.Utf8

variable {s t : Bytes} {due : List Span} {b : UInt8}

/-! ## Texts one after another -/

theorem isTextAfter_open {spans : List Span} (h : tails? b = some spans) (s : Bytes) :
    isTextAfter [] (b :: s) = isTextAfter spans s := by
  rw [isTextAfter, h]

theorem isTextAfter_append (h : isTextAfter due s = true) (t : Bytes) : isTextAfter due (s ++ t) = isText t := by
  induction s generalizing due with
  | nil =>
    rw [List.isEmpty_iff.1 h]
    rfl
  | cons b s ih =>
    cases due with
    | nil =>
      cases htails : tails? b with
      | none => simp [isTextAfter, htails] at h
      | some spans =>
        rw [isTextAfter_open htails] at h
        rw [List.cons_append, isTextAfter_open htails, ih h]
    | cons span due =>
      obtain ⟨hb, hs⟩ := Bool.and_eq_true_iff.1 h
      rw [List.cons_append, isTextAfter, hb, Bool.true_and, ih hs]

theorem isText_append (h : isText s = true) (t : Bytes) : isText (s ++ t) = isText t := isTextAfter_append h t

theorem isText_of_ascii (h : ∀ c ∈ s, c < 0x80) : isText s = true := by
  induction s with
  | nil => rfl
  | cons c s ih =>
    have htails : tails? c = some [] := if_pos (h c List.mem_cons_self)
    rw [isText, isTextAfter_open htails]
    exact ih fun d hd => h d (List.mem_cons_of_mem c hd)

/-- Only bytes beyond the ASCII ones are due after a first byte. -/
theorem high_of_tails? {spans : List Span} (h : tails? b = some spans) : ∀ span ∈ spans, 0x80 ≤ span.low := by
  unfold tails? at h
  repeat' split at h
  all_goals cases h <;> decide

/-- Where an ASCII byte stands, nothing is due. -/
theorem of_isTextAfter_ascii (hdue : ∀ span ∈ due, 0x80 ≤ span.low) (hb : b < 0x80)
    (h : isTextAfter due (b :: s) = true) : due = [] ∧ isText s = true := by
  cases due with
  | nil =>
    have htails : tails? b = some [] := if_pos hb
    rw [isTextAfter_open htails] at h
    exact ⟨rfl, h⟩
  | cons span due =>
    have hhold := (Bool.and_eq_true_iff.1 h).1
    simp only [Span.holds, Bool.and_eq_true, decide_eq_true_eq] at hhold
    exact absurd (UInt8.le_trans (hdue span List.mem_cons_self) hhold.1) (UInt8.not_le.2 hb)

theorem isText_of_ascii_append (ht : ∀ c ∈ t, c < 0x80) (h : isText (t ++ s) = true) : isText s = true :=
  (isText_append (isText_of_ascii ht) s).symm.trans h

theorem isText_replacement : isText replacement = true := by decide

/-! ## Mending -/

/-- The bytes of a part are the beginning of a character, and what is due makes it complete. -/
def Part.Begun (p : Part) : Prop := ∀ r, isText (p.bytes ++ r) = isTextAfter p.due r

theorem Part.begun_nothing : Begun {} := fun _ => rfl

theorem opening_begun (b : UInt8) : isText (opening b).1 = true ∧ (opening b).2.Begun := by
  rw [opening]
  cases h : tails? b with
  | none => exact ⟨isText_replacement, Part.begun_nothing⟩
  | some spans =>
    cases spans with
    | nil => exact ⟨isTextAfter_open h [], Part.begun_nothing⟩
    | cons span due => exact ⟨rfl, isTextAfter_open h⟩

/-- What is handed on is UTF-8, and what is kept is the beginning of a character. -/
theorem Part.Begun.take {p : Part} (h : p.Begun) (b : UInt8) : isText (p.take b).1 = true ∧ (p.take b).2.Begun := by
  unfold Part.take
  split
  next => exact opening_begun b
  next span due hdue =>
    have hgoes : ∀ r, span.holds b = true → isText (p.bytes ++ [b] ++ r) = isTextAfter due r := by
      intro r hb
      rw [List.append_assoc, h, hdue, List.cons_append, isTextAfter, hb, Bool.true_and, List.nil_append]
    split
    next hb =>
      split
      next hnil =>
        subst hnil
        have hwhole := hgoes [] hb
        rw [List.append_nil] at hwhole
        exact ⟨hwhole, begun_nothing⟩
      next => exact ⟨rfl, fun r => hgoes r hb⟩
    next =>
      obtain ⟨hout, hbegun⟩ := opening_begun b
      exact ⟨(isText_append isText_replacement _).trans hout, hbegun⟩

theorem Part.Begun.isText_mendFrom {p : Part} (h : p.Begun) (s : Bytes) : isText (mendFrom p s) = true := by
  induction s generalizing p with
  | nil =>
    rw [mendFrom]
    split
    · rfl
    · exact isText_replacement
  | cons b s ih =>
    obtain ⟨hout, hbegun⟩ := h.take b
    rw [mendFrom, isText_append hout]
    exact ih hbegun

theorem isText_mend (s : Bytes) : isText (mend s) = true := Part.begun_nothing.isText_mendFrom s

theorem mendFrom_of_isTextAfter {p : Part} (hp : p.due = [] → p.bytes = []) (h : isTextAfter p.due s = true) :
    mendFrom p s = p.bytes ++ s := by
  induction s generalizing p with
  | nil =>
    have hdue : p.due = [] := List.isEmpty_iff.1 h
    rw [mendFrom, if_pos hdue, hp hdue, List.append_nil]
  | cons b s ih =>
    rw [mendFrom, Part.take]
    cases hdue : p.due with
    | nil =>
      rw [hdue] at h
      rw [hp hdue, opening]
      cases htails : tails? b with
      | none => simp [isTextAfter, htails] at h
      | some spans =>
        rw [isTextAfter_open htails] at h
        cases spans with
        | nil => simpa using ih (p := {}) (fun _ => rfl) h
        | cons span due => simpa using ih (p := ⟨[b], span :: due⟩) (fun hnil => by cases hnil) h
    | cons span due =>
      rw [hdue] at h
      obtain ⟨hb, hs⟩ := Bool.and_eq_true_iff.1 h
      simp only [hb, if_true]
      split
      next hnil =>
        subst hnil
        simpa using ih (p := {}) (fun _ => rfl) hs
      next hne => simpa using ih (p := ⟨p.bytes ++ [b], due⟩) (fun hnil => absurd hnil hne) hs

theorem mend_eq_self_iff : mend s = s ↔ isText s = true :=
  ⟨fun h => h ▸ isText_mend s, mendFrom_of_isTextAfter (p := {}) fun _ => rfl⟩

theorem mend_mend (s : Bytes) : mend (mend s) = mend s := mend_eq_self_iff.2 (isText_mend s)

/-! ## Characters by their numbers -/

theorem Span.holds_iff {span : Span} : span.holds b = true ↔ span.low.toNat ≤ b.toNat ∧ b.toNat ≤ span.high.toNat := by
  simp [holds, UInt8.le_iff_toNat_le]

theorem isTextAfter_due {span : Span} (hb : span.holds b = true) (due : List Span) (s : Bytes) :
    isTextAfter (span :: due) (b :: s) = isTextAfter due s := by
  rw [isTextAfter, hb, Bool.true_and]

/-- The byte after the first one of a character, as numbers have it. -/
theorem holds_tail {span : Span} {n : Nat} (hlow : span.low.toNat ≤ 0x80 + n % 64)
    (hhigh : 0x80 + n % 64 ≤ span.high.toNat) : span.holds (UInt8.ofNat (0x80 + n % 64)) = true := by
  have hm : 0x80 + n % 64 < 256 := by omega
  rw [Span.holds_iff, UInt8.toNat_ofNat_of_lt' hm]
  exact ⟨hlow, hhigh⟩

theorem anyTail_holds (n : Nat) : anyTail.holds (UInt8.ofNat (0x80 + n % 64)) = true :=
  holds_tail (by simp [anyTail]) (by simp [anyTail]; omega)

/-- The first bytes, told by their numbers. -/
theorem tails?_ofNat {m : Nat} (h : m < 256) : tails? (UInt8.ofNat m) =
    if m < 0x80 then some []
    else if m < 0xC2 then none
    else if m < 0xE0 then some [anyTail]
    else if m = 0xE0 then some [⟨0xA0, 0xBF⟩, anyTail]
    else if m = 0xED then some [⟨0x80, 0x9F⟩, anyTail]
    else if m < 0xF0 then some [anyTail, anyTail]
    else if m = 0xF0 then some [⟨0x90, 0xBF⟩, anyTail, anyTail]
    else if m < 0xF4 then some [anyTail, anyTail, anyTail]
    else if m = 0xF4 then some [⟨0x80, 0x8F⟩, anyTail, anyTail]
    else none := by
  simp only [tails?, UInt8.lt_iff_toNat_lt, ← UInt8.toNat_inj, UInt8.toNat_ofNat_of_lt' h, UInt8.reduceToNat]

theorem isText_two {n : Nat} (h : 0x80 ≤ n) (hn : n < 0x800) :
    isText [UInt8.ofNat (0xC0 + n / 64), UInt8.ofNat (0x80 + n % 64)] = true := by
  have htails : tails? (UInt8.ofNat (0xC0 + n / 64)) = some [anyTail] := by
    rw [tails?_ofNat (by omega), if_neg (by omega), if_neg (by omega), if_pos (by omega)]
  rw [isText, isTextAfter_open htails, isTextAfter_due (anyTail_holds n)]
  rfl

theorem isText_three {n : Nat} (h : 0x800 ≤ n) (hn : n < 0x10000) (hs : ¬(0xD800 ≤ n ∧ n < 0xE000)) :
    isText [UInt8.ofNat (0xE0 + n / 4096), UInt8.ofNat (0x80 + n / 64 % 64), UInt8.ofNat (0x80 + n % 64)] = true := by
  have htails : ∃ span, tails? (UInt8.ofNat (0xE0 + n / 4096)) = some [span, anyTail] ∧
      span.holds (UInt8.ofNat (0x80 + n / 64 % 64)) = true := by
    rw [tails?_ofNat (by omega), if_neg (by omega), if_neg (by omega), if_neg (by omega)]
    split
    · exact ⟨_, rfl, holds_tail (by simp; omega) (by simp; omega)⟩
    · split
      · exact ⟨_, rfl, holds_tail (by simp) (by simp; omega)⟩
      · rw [if_pos (by omega)]
        exact ⟨_, rfl, anyTail_holds _⟩
  obtain ⟨span, htails, hspan⟩ := htails
  rw [isText, isTextAfter_open htails, isTextAfter_due hspan, isTextAfter_due (anyTail_holds n)]
  rfl

theorem isText_four {n : Nat} (h : 0x10000 ≤ n) (hn : n < 0x110000) :
    isText [UInt8.ofNat (0xF0 + n / 262144), UInt8.ofNat (0x80 + n / 4096 % 64), UInt8.ofNat (0x80 + n / 64 % 64),
      UInt8.ofNat (0x80 + n % 64)] = true := by
  have htails : ∃ span, tails? (UInt8.ofNat (0xF0 + n / 262144)) = some [span, anyTail, anyTail] ∧
      span.holds (UInt8.ofNat (0x80 + n / 4096 % 64)) = true := by
    rw [tails?_ofNat (by omega), if_neg (by omega), if_neg (by omega), if_neg (by omega), if_neg (by omega),
      if_neg (by omega), if_neg (by omega)]
    split
    · exact ⟨_, rfl, holds_tail (by simp; omega) (by simp; omega)⟩
    · split
      · exact ⟨_, rfl, anyTail_holds _⟩
      · rw [if_pos (by omega)]
        exact ⟨_, rfl, holds_tail (by simp) (by simp; omega)⟩
  obtain ⟨span, htails, hspan⟩ := htails
  rw [isText, isTextAfter_open htails, isTextAfter_due hspan, isTextAfter_due (anyTail_holds (n / 64)),
    isTextAfter_due (anyTail_holds n)]
  rfl

theorem isText_character {n : Nat} (hn : n < 0x110000) (hs : ¬(0xD800 ≤ n ∧ n < 0xE000)) :
    isText (character n) = true := by
  unfold character
  split
  next h =>
    have htails : tails? (UInt8.ofNat n) = some [] := by rw [tails?_ofNat (by omega), if_pos h]
    exact isTextAfter_open htails []
  next h =>
    split
    next h' => exact isText_two (by omega) h'
    next h' =>
      split
      next h'' => exact isText_three (by omega) h'' hs
      next h'' => exact isText_four (by omega) hn

theorem character_toNat (c : Char) : character c.toNat = String.utf8EncodeChar c := by
  have hmax : c.toNat < 0x110000 := by
    rcases c.valid with h | ⟨-, h⟩
    · exact Nat.lt_trans h (by decide)
    · exact h
  simp only [character, String.utf8EncodeChar, show c.val.toNat = c.toNat from rfl, Nat.add_comm (_ % 64) 0x80]
  generalize c.toNat = n at hmax
  by_cases h1 : n < 0x80
  · rw [if_pos h1, if_pos (by omega)]
  by_cases h2 : n < 0x800
  · rw [if_neg h1, if_pos h2, if_neg (by omega), if_pos (by omega), Nat.mod_eq_of_lt (by omega : n / 64 < 32),
      Nat.add_comm 0xC0]
  by_cases h3 : n < 0x10000
  · rw [if_neg h1, if_neg h2, if_pos h3, if_neg (by omega), if_neg (by omega), if_pos (by omega),
      Nat.mod_eq_of_lt (by omega : n / 4096 < 16), Nat.add_comm 0xE0]
  · rw [if_neg h1, if_neg h2, if_neg h3, if_neg (by omega), if_neg (by omega), if_neg (by omega),
      Nat.mod_eq_of_lt (by omega : n / 262144 < 8), Nat.add_comm 0xF0]

theorem isText_utf8EncodeChar (c : Char) : isText (String.utf8EncodeChar c) = true := by
  rw [← character_toNat]
  rcases c.valid with h | ⟨hlow, hhigh⟩
  · exact isText_character (Nat.lt_trans h (by decide)) fun ⟨hs, _⟩ => absurd (Nat.lt_of_lt_of_le h hs) (Nat.lt_irrefl _)
  · exact isText_character hhigh fun ⟨_, hs⟩ => by
      have hcode : c.toNat = c.val.toNat := rfl
      omega

theorem isText_text (s : String) : isText (text s) = true := by
  have hchars : ∀ cs : List Char, isText (cs.flatMap String.utf8EncodeChar) = true := by
    intro cs
    induction cs with
    | nil => rfl
    | cons c cs ih => rw [List.flatMap_cons, isText_append (isText_utf8EncodeChar c), ih]
  have htext : text s = s.toList.flatMap String.utf8EncodeChar := by
    simp [text, String.toUTF8, ← String.utf8Encode_toList, List.utf8Encode]
  rw [htext]
  exact hchars _

end LanguageClient.Utf8
