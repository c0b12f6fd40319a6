import LanguageClient.Proofs.Json.Numeral
import LanguageClient.Proofs.Utf8
/-
  LanguageClient.Proofs.Json.Escape — the text between quotes.

  A byte stands between quotes as itself, as a letter after a backslash or as the two digits of
  a unit (`IsEscape`). Whatever the bytes, the text that was escaped is meant again
  (`unescape?_escapes`). Escapes are ASCII, and no ASCII byte stands within a longer character,
  so UTF-8 is escaped to UTF-8 (`isText_escapes`) and means UTF-8 (`isTextAfter_of_unescape?`).
-/

namespace LanguageClient.Json

variable {s r : Bytes} {c : UInt8}

/-! ## Escapes -/

theorem unescape?_plain (hc : c ≠ 92) (r : Bytes) : unescape? (c :: r) = (unescape? r).map (c :: ·) := by
  rw [unescape?.eq_def]
  split
  next heq => cases heq
  next heq => exact absurd (List.cons.inj heq).1 hc
  next heq => exact absurd (List.cons.inj heq).1 hc
  next heq =>
    obtain ⟨rfl, rfl⟩ := List.cons.inj heq
    rw [if_neg hc]
    cases unescape? r <;> rfl

theorem unescape?_letter {d : UInt8} (hc : c ≠ 117) (hd : unescaped? c = some d) (r : Bytes) :
    unescape? (92 :: c :: r) = (unescape? r).map (d :: ·) := by
  rw [unescape?.eq_def]
  split
  next heq => cases heq
  next heq => exact absurd (List.cons.inj (List.cons.inj heq).2).1 hc
  next heq =>
    obtain ⟨rfl, rfl⟩ := List.cons.inj (List.cons.inj heq).2
    rw [hd]
    cases unescape? r <;> rfl
  next hnot heq => exact absurd heq (by rintro ⟨⟩; exact hnot _ _ rfl rfl)

theorem unescape?_unit {a b c d : UInt8} {n : Nat} (hn : codeUnit? a b c d = some n) (hlow : isLow n = false)
    (hhigh : isHigh n = false) (r : Bytes) :
    unescape? (92 :: 117 :: a :: b :: c :: d :: r) = (unescape? r).map (Utf8.character n ++ ·) := by
  rw [unescape?, hn]
  simp only [Option.bind_eq_bind, Option.bind_some, hlow, hhigh, Bool.false_eq_true, if_false]
  cases unescape? r <;> rfl

theorem hexValue?_hexDigit {n : UInt8} (h : n < 16) : hexValue? (hexDigit n) = some n.toNat := by
  simp only [UInt8.lt_iff_toNat_lt, UInt8.reduceToNat] at h
  by_cases hn : n < 10
  · have hdigit : Byte.isDigit (n + 48) = true := by
      simp [UInt8.lt_iff_toNat_lt, Byte.isDigit, UInt8.le_iff_toNat_le] at hn ⊢
      omega
    rw [hexDigit, if_pos hn, hexValue?, if_pos hdigit, UInt8.toNat_add]
    simp only [UInt8.lt_iff_toNat_lt, UInt8.reduceToNat] at hn ⊢
    rw [Option.some.injEq]
    omega
  · have hletter : 97 ≤ n + 87 ∧ n + 87 ≤ 102 := by
      simp [UInt8.lt_iff_toNat_lt, UInt8.le_iff_toNat_le] at hn ⊢
      omega
    have hdigit : ¬ Byte.isDigit (n + 87) = true := by
      simp [UInt8.lt_iff_toNat_lt, Byte.isDigit, UInt8.le_iff_toNat_le] at hn ⊢
      omega
    rw [hexDigit, if_neg hn, hexValue?, if_neg hdigit, if_pos hletter, UInt8.toNat_add]
    simp only [UInt8.lt_iff_toNat_lt, UInt8.reduceToNat] at hn ⊢
    rw [Option.some.injEq]
    omega

theorem control_digits (hc : c < 32) : c / 16 < 16 ∧ c % 16 < 16 := by
  simp only [UInt8.lt_iff_toNat_lt, UInt8.toNat_div, UInt8.toNat_mod, UInt8.reduceToNat] at hc ⊢
  omega

/-- A control byte is the two digits of its escape. -/
theorem codeUnit?_of_lt (hc : c < 32) : codeUnit? 48 48 (hexDigit (c / 16)) (hexDigit (c % 16)) = some c.toNat := by
  obtain ⟨hdiv, hmod⟩ := control_digits hc
  have hzero : hexValue? 48 = some 0 := rfl
  simp only [codeUnit?, hexValue?_hexDigit hdiv, hexValue?_hexDigit hmod, hzero, UInt8.toNat_div, UInt8.toNat_mod,
    UInt8.reduceToNat, Option.bind_eq_bind, Option.bind_some, Option.pure_def, Option.some.injEq]
  omega

theorem character_of_lt (hc : c < 32) : Utf8.character c.toNat = [c] := by
  simp only [UInt8.lt_iff_toNat_lt, UInt8.reduceToNat] at hc
  rw [Utf8.character, if_pos (by omega), UInt8.ofNat_toNat]

/-- How a byte can stand between quotes. -/
inductive IsEscape (c : UInt8) : Bytes → Prop where
  | letter {x : UInt8} : unescaped? x = some c → x ≠ 117 → x < 0x80 → IsEscape c [92, x]
  | unit : c < 32 → IsEscape c [92, 117, 48, 48, hexDigit (c / 16), hexDigit (c % 16)]
  | plain : c ≠ 34 → c ≠ 92 → 32 ≤ c → IsEscape c [c]

theorem isEscape (c : UInt8) : IsEscape c (escape c) := by
  unfold escape
  split_ifs with hquote hslash hb ht hn hf hr hcontrol
  · exact .letter (x := 34) (by rw [hquote]; rfl) (by decide) (by decide)
  · exact .letter (x := 92) (by rw [hslash]; rfl) (by decide) (by decide)
  · exact .letter (x := 98) (by rw [hb]; rfl) (by decide) (by decide)
  · exact .letter (x := 116) (by rw [ht]; rfl) (by decide) (by decide)
  · exact .letter (x := 110) (by rw [hn]; rfl) (by decide) (by decide)
  · exact .letter (x := 102) (by rw [hf]; rfl) (by decide) (by decide)
  · exact .letter (x := 114) (by rw [hr]; rfl) (by decide) (by decide)
  · exact .unit hcontrol
  · exact .plain hquote hslash (UInt8.not_lt.1 hcontrol)

theorem IsEscape.unescape? {e : Bytes} (h : IsEscape c e) (r : Bytes) :
    unescape? (e ++ r) = (Json.unescape? r).map (c :: ·) := by
  cases h with
  | letter hx hu _ => exact unescape?_letter hu hx r
  | unit hc =>
    have hsmall : c.toNat < 32 := UInt8.lt_iff_toNat_lt.1 hc
    have hunit := unescape?_unit (codeUnit?_of_lt hc) (by simp [isLow]; omega) (by simp [isHigh]; omega) r
    rwa [character_of_lt hc] at hunit
  | plain _ hslash _ => exact unescape?_plain hslash r

theorem unescape?_escapes (s : Bytes) : unescape? (s.flatMap escape) = some s := by
  induction s with
  | nil => rfl
  | cons c s ih => rw [List.flatMap_cons, (isEscape c).unescape?, ih, Option.map_some]

theorem escape_high (hc : 0x80 ≤ c) : escape c = [c] := by
  have hne : ∀ d : UInt8, d < 0x80 → c ≠ d := by
    rintro d hd rfl
    exact absurd hc (by simpa using hd)
  have hcontrol : ¬c < 32 := by
    simp only [UInt8.lt_iff_toNat_lt, UInt8.le_iff_toNat_le, UInt8.reduceToNat] at hc ⊢
    omega
  unfold escape
  rw [if_neg (hne 34 (by decide)), if_neg (hne 92 (by decide)), if_neg (hne 8 (by decide)), if_neg (hne 9 (by decide)),
    if_neg (hne 10 (by decide)), if_neg (hne 12 (by decide)), if_neg (hne 13 (by decide)), if_neg hcontrol]

theorem hexDigit_bounds {n : UInt8} (h : n < 16) : 48 ≤ hexDigit n ∧ hexDigit n < 0x80 ∧ hexDigit n ≠ 92 := by
  simp only [UInt8.lt_iff_toNat_lt, UInt8.reduceToNat] at h
  unfold hexDigit
  split
  all_goals
    simp only [UInt8.lt_iff_toNat_lt, UInt8.le_iff_toNat_le, ne_eq, ← UInt8.toNat_inj, UInt8.toNat_add,
      UInt8.reduceToNat] at *
    omega

/-- A byte that is none of ASCII stands for itself, and the escape of any other is ASCII. -/
theorem IsEscape.isText {e : Bytes} (h : IsEscape c e) (hc : c < 0x80) : Utf8.isText e = true := by
  refine Utf8.isText_of_ascii fun d hd => ?_
  cases h with
  | letter _ _ hx =>
    rcases List.mem_pair.1 hd with rfl | rfl
    · decide
    · exact hx
  | unit hsmall =>
    obtain ⟨hdiv, hmod⟩ := control_digits hsmall
    simp only [List.mem_cons, List.not_mem_nil, or_false] at hd
    rcases hd with rfl | rfl | rfl | rfl | rfl | rfl
    all_goals first | decide | exact (hexDigit_bounds ‹_›).2.1
  | plain _ _ _ => exact List.mem_singleton.1 hd ▸ hc

theorem isTextAfter_escapes {due : List Utf8.Span} (hdue : ∀ span ∈ due, 0x80 ≤ span.low)
    (h : Utf8.isTextAfter due s = true) : Utf8.isTextAfter due (s.flatMap escape) = true := by
  induction s generalizing due with
  | nil => exact h
  | cons c s ih =>
    rw [List.flatMap_cons]
    cases due with
    | nil =>
      cases htails : Utf8.tails? c with
      | none => simp [Utf8.isTextAfter, htails] at h
      | some spans =>
        rw [Utf8.isTextAfter_open htails] at h
        by_cases hc : c < 0x80
        · have hnil : spans = [] := by
            rw [Utf8.tails?, if_pos hc] at htails
            exact (Option.some.inj htails).symm
          subst hnil
          exact (Utf8.isText_append ((isEscape c).isText hc) _).trans (ih (fun span hspan => by cases hspan) h)
        · rw [escape_high (UInt8.not_lt.1 hc), List.singleton_append, Utf8.isTextAfter_open htails]
          exact ih (Utf8.high_of_tails? htails) h
    | cons span due =>
      obtain ⟨hhold, hs⟩ := Bool.and_eq_true_iff.1 h
      have hhigh : 0x80 ≤ c := by
        have hlow := hdue span List.mem_cons_self
        rw [Utf8.Span.holds_iff] at hhold
        rw [UInt8.le_iff_toNat_le] at hlow ⊢
        omega
      rw [escape_high hhigh, List.singleton_append, Utf8.isTextAfter_due hhold]
      exact ih (fun other hother => hdue other (List.mem_cons_of_mem span hother)) hs

theorem isText_escapes (h : Utf8.isText s = true) : Utf8.isText (s.flatMap escape) = true :=
  isTextAfter_escapes (fun span hspan => by cases hspan) h

/-! ## What is meant -/

theorem hexValue?_lt {x : UInt8} {k : Nat} (h : hexValue? x = some k) : x < 0x80 ∧ k < 16 := by
  unfold hexValue? at h
  split_ifs at h
  all_goals
    rw [Option.some.injEq] at h
    simp only [Byte.isDigit, Bool.and_eq_true, decide_eq_true_eq, UInt8.le_iff_toNat_le, UInt8.lt_iff_toNat_lt,
      UInt8.reduceToNat] at *
    omega

theorem codeUnit?_lt {a b c d : UInt8} {n : Nat} (h : codeUnit? a b c d = some n) :
    (∀ x ∈ [a, b, c, d], x < 0x80) ∧ n < 0x10000 := by
  simp only [codeUnit?, Option.bind_eq_bind, Option.bind_eq_some_iff, Option.pure_def, Option.some.injEq] at h
  obtain ⟨ka, ha, kb, hb, kc, hc, kd, hd, rfl⟩ := h
  obtain ⟨ha, hka⟩ := hexValue?_lt ha
  obtain ⟨hb, hkb⟩ := hexValue?_lt hb
  obtain ⟨hc, hkc⟩ := hexValue?_lt hc
  obtain ⟨hd, hkd⟩ := hexValue?_lt hd
  exact ⟨by simp [ha, hb, hc, hd], by omega⟩

theorem unescaped?_lt {c d : UInt8} (h : unescaped? c = some d) : c < 0x80 ∧ d < 0x80 := by
  obtain ⟨l₁, l₂, htable, -⟩ := List.lookup_eq_some_iff.1 h
  have hmem := htable ▸ List.mem_append_right l₁ (List.mem_cons_self (a := (c, d)) (l := l₂))
  simp only [List.mem_cons, Prod.mk.injEq, List.not_mem_nil, or_false] at hmem
  rcases hmem with ⟨rfl, rfl⟩ | ⟨rfl, rfl⟩ | ⟨rfl, rfl⟩ | ⟨rfl, rfl⟩ | ⟨rfl, rfl⟩ | ⟨rfl, rfl⟩ | ⟨rfl, rfl⟩ | ⟨rfl, rfl⟩
  all_goals decide

/-- Behind the digits of a unit the text goes on. -/
theorem isText_of_unit {a b c d : UInt8} {n : Nat} (hn : codeUnit? a b c d = some n) {r : Bytes}
    (h : Utf8.isText (92 :: 117 :: a :: b :: c :: d :: r) = true) : Utf8.isText r = true := by
  refine Utf8.isText_of_ascii_append (t := [92, 117, a, b, c, d]) (fun x hx => ?_) h
  rcases List.mem_cons.1 hx with rfl | hx
  · decide
  · rcases List.mem_cons.1 hx with rfl | hx
    · decide
    · exact (codeUnit?_lt hn).1 x hx

/-- Two units make a character beyond those of one unit. -/
theorem isText_pair {high low : Nat} (hhigh : isHigh high = true) (hlow : isLow low = true) :
    Utf8.isText (Utf8.character (0x10000 + (high - 0xD800) * 1024 + (low - 0xDC00))) = true := by
  simp only [isHigh, isLow, Bool.and_eq_true, decide_eq_true_eq] at hhigh hlow
  exact Utf8.isText_character (by omega) (by omega)

theorem isText_unit {a b c d : UInt8} {n : Nat} (hn : codeUnit? a b c d = some n) (hlow : ¬isLow n = true)
    (hhigh : ¬isHigh n = true) : Utf8.isText (Utf8.character n) = true := by
  have hlt := (codeUnit?_lt hn).2
  simp only [isHigh, isLow, Bool.and_eq_true, decide_eq_true_eq] at hhigh hlow
  exact Utf8.isText_character (by omega) (by omega)

/-- The text that is meant is UTF-8 when what stands between the quotes is. -/
theorem isTextAfter_of_unescape? {due : List Utf8.Span} (hdue : ∀ span ∈ due, 0x80 ≤ span.low) {s t : Bytes}
    (hs : Utf8.isTextAfter due s = true) (h : unescape? s = some t) : Utf8.isTextAfter due t = true := by
  have hnone : ∀ span ∈ ([] : List Utf8.Span), 0x80 ≤ span.low := fun span hspan => by cases hspan
  fun_induction unescape? s generalizing due t with
  | case1 =>
    cases h
    exact hs
  | case2 a b c d r ihpair ih =>
    obtain ⟨rfl, -⟩ := Utf8.of_isTextAfter_ascii hdue (by decide) hs
    obtain ⟨n, hn, hn'⟩ := Option.bind_eq_some_iff.1 h
    have hrest := isText_of_unit hn hs
    split at hn'
    next => cases hn'
    next hlow =>
      split at hn'
      next hhigh =>
        split at hn'
        next r =>
          obtain ⟨low, hl, hl'⟩ := Option.bind_eq_some_iff.1 hn'
          split at hl'
          next hislow =>
            obtain ⟨t, ht, ht'⟩ := Option.bind_eq_some_iff.1 hl'
            obtain rfl := Option.some.inj ht'
            exact (Utf8.isText_append (isText_pair hhigh hislow) t).trans (ihpair hnone (isText_of_unit hl hrest) ht)
          next => cases hl'
        next => cases hn'
      next hhigh =>
        obtain ⟨t, ht, ht'⟩ := Option.bind_eq_some_iff.1 hn'
        obtain rfl := Option.some.inj ht'
        exact (Utf8.isText_append (isText_unit hn hlow hhigh) t).trans (ih hnone hrest ht)
  | case3 c r _ ih =>
    obtain ⟨rfl, hr⟩ := Utf8.of_isTextAfter_ascii hdue (by decide) hs
    obtain ⟨d, hd, hd'⟩ := Option.bind_eq_some_iff.1 h
    obtain ⟨t, ht, ht'⟩ := Option.bind_eq_some_iff.1 hd'
    obtain rfl := Option.some.inj ht'
    obtain ⟨hc, hd⟩ := unescaped?_lt hd
    have hrest := (Utf8.of_isTextAfter_ascii hnone hc hr).2
    exact (Utf8.isTextAfter_open (if_pos hd) t).trans (ih hnone hrest ht)
  | case4 => cases h
  | case5 c r _ _ hc ih =>
    obtain ⟨t, ht, ht'⟩ := Option.bind_eq_some_iff.1 h
    obtain rfl := Option.some.inj ht'
    cases due with
    | nil =>
      cases htails : Utf8.tails? c with
      | none => simp [Utf8.isTextAfter, htails] at hs
      | some spans =>
        rw [Utf8.isTextAfter_open htails] at hs ⊢
        exact ih (Utf8.high_of_tails? htails) hs ht
    | cons span due =>
      have hhold := (Bool.and_eq_true_iff.1 hs).1
      rw [Utf8.isTextAfter_due hhold] at hs ⊢
      exact ih (fun other hother => hdue other (List.mem_cons_of_mem span hother)) hs ht

end LanguageClient.Json
