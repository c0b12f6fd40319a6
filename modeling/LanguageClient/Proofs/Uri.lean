import Mathlib.Logic.Function.Defs
import LanguageClient.Uri
/-
  LanguageClient.Proofs.Uri — percent coding loses nothing.

  A byte is coded as itself or as an escape, and no coded byte but that of an escape is a `%`.
  A reader that starts at the beginning of a coded byte is therefore at the beginning of the
  next one when it goes on, and an escape at the very end is still seen whole.

  - `decode_encode`: every text is read back from its coding.
  - `percent_coding`: the codings are the texts in which escapes are written with capital
    digits and only where they are needed, and no two texts have one coding.
-/

namespace LanguageClient.Uri

/-! ## Digits -/

theorem hexValue?_hexDigit {n : UInt8} (h : n < 16) : hexValue? (hexDigit n) = some n := by
  simp only [UInt8.lt_iff_toNat_lt, UInt8.reduceToNat] at h
  by_cases hn : n < 10
  · have hdigit : Byte.isDigit (n + 48) = true := by
      simp [UInt8.lt_iff_toNat_lt, Byte.isDigit, UInt8.le_iff_toNat_le] at hn ⊢
      omega
    rw [hexDigit, if_pos hn, hexValue?, if_pos hdigit]
    simp
  · have hletter : 65 ≤ n + 55 ∧ n + 55 ≤ 70 := by
      simp [UInt8.lt_iff_toNat_lt, UInt8.le_iff_toNat_le] at hn ⊢
      omega
    have hdigit : ¬ Byte.isDigit (n + 55) = true := by
      simp [UInt8.lt_iff_toNat_lt, Byte.isDigit, UInt8.le_iff_toNat_le] at hn ⊢
      omega
    have hsmall : ¬ (97 ≤ n + 55 ∧ n + 55 ≤ 102) := by
      simp [UInt8.lt_iff_toNat_lt, UInt8.le_iff_toNat_le] at hn ⊢
      omega
    rw [hexDigit, if_neg hn, hexValue?, if_neg hdigit, if_neg hsmall, if_pos hletter]
    simp

/-- A byte is the two digits that it is written with. -/
theorem digits_of_byte (c : UInt8) : c / 16 < 16 ∧ c % 16 < 16 ∧ c / 16 * 16 + c % 16 = c := by
  have hc := c.toNat_lt
  refine ⟨?_, ?_, ?_⟩
  · rw [UInt8.lt_iff_toNat_lt]
    simp
    omega
  · rw [UInt8.lt_iff_toNat_lt]
    simp
    omega
  · refine UInt8.toNat_inj.1 ?_
    simp
    omega

/-! ## Reading back -/

theorem encode_cons (c : UInt8) (s : Bytes) : encode (c :: s) = encodeByte c ++ encode s := List.flatMap_cons

/-- A reader does not take a plain byte for the beginning of an escape. -/
theorem ne_percent_of_isPlain {c : UInt8} (h : isPlain c = true) : c ≠ Byte.percent := by
  rintro rfl
  exact absurd h (by decide)

theorem decode_plain {c : UInt8} (hc : c ≠ Byte.percent) (s : Bytes) : decode (c :: s) = c :: decode s := by
  rw [decode]
  intro _ _ _ heq _
  exact hc heq

theorem decode_digits {x y a b : UInt8} (hx : hexValue? x = some a) (hy : hexValue? y = some b) (s : Bytes) :
    decode (Byte.percent :: x :: y :: s) = (a * 16 + b) :: decode s := by
  refine (decode.eq_1 x y s).trans ?_
  rw [hx, hy]

theorem decode_encodeByte (c : UInt8) (s : Bytes) : decode (encodeByte c ++ s) = c :: decode s := by
  by_cases hplain : isPlain c = true
  · rw [encodeByte, if_pos hplain, List.singleton_append, decode_plain (ne_percent_of_isPlain hplain)]
  · obtain ⟨hhigh, hlow, hsum⟩ := digits_of_byte c
    rw [encodeByte, if_neg hplain]
    show decode (Byte.percent :: hexDigit (c / 16) :: hexDigit (c % 16) :: s) = _
    rw [decode_digits (hexValue?_hexDigit hhigh) (hexValue?_hexDigit hlow), hsum]

/-- Every text is read back from its percent coding. -/
theorem decode_encode (s : Bytes) : decode (encode s) = s := by
  induction s with
  | nil => simp [encode, decode]
  | cons c s ih => rw [encode_cons, decode_encodeByte, ih]

/-! ## What a coding looks like -/

def StandsForItself (c : UInt8) : Prop := Byte.isAlnum c = true ∨ c ∈ text "-._~/"

theorem isPlain_iff (c : UInt8) : isPlain c = true ↔ StandsForItself c := by
  have hmarks : text "-._~/" = [Byte.minus, Byte.dot, 95, 126, Byte.slash] := by decide
  simp [isPlain, StandsForItself, hmarks, or_assoc]

def IsCapitalDigit (c : UInt8) : Prop := Byte.isDigit c = true ∨ 65 ≤ c ∧ c ≤ 70

/-- A text of bytes that stand for themselves and of escapes with capital digits, where no
escape is written for a byte that needs none. -/
inductive IsCoded : Bytes → Prop
  | nil : IsCoded []
  | plain {c : UInt8} {s : Bytes} : StandsForItself c → IsCoded s → IsCoded (c :: s)
  | escape {x y a b : UInt8} {s : Bytes} : IsCapitalDigit x → IsCapitalDigit y → hexValue? x = some a →
      hexValue? y = some b → ¬ StandsForItself (a * 16 + b) → IsCoded s → IsCoded (Byte.percent :: x :: y :: s)

theorem isCapitalDigit_hexDigit {n : UInt8} (h : n < 16) : IsCapitalDigit (hexDigit n) := by
  unfold IsCapitalDigit hexDigit
  split
  · left
    simp [UInt8.lt_iff_toNat_lt, Byte.isDigit, UInt8.le_iff_toNat_le] at *
    omega
  · right
    simp [UInt8.lt_iff_toNat_lt, UInt8.le_iff_toNat_le] at *
    omega

/-- A capital digit is the one that its value is written with. -/
theorem hexDigit_of_hexValue? {x a : UInt8} (hx : IsCapitalDigit x) (ha : hexValue? x = some a) :
    a < 16 ∧ hexDigit a = x := by
  rcases hx with hdigit | ⟨hlow, hhigh⟩
  · have hrange : 48 ≤ x ∧ x ≤ 57 := by simpa [Byte.isDigit] using hdigit
    rw [hexValue?, if_pos hdigit] at ha
    obtain rfl := Option.some.inj ha
    have hvalue := UInt8.toNat_sub_of_le x 48 hrange.1
    simp only [UInt8.le_iff_toNat_le, UInt8.reduceToNat] at hrange hvalue
    have hsmall : x - 48 < 10 := by
      simp only [UInt8.lt_iff_toNat_lt, hvalue, UInt8.reduceToNat]
      omega
    exact ⟨UInt8.lt_trans hsmall (by decide), by rw [hexDigit, if_pos hsmall, UInt8.sub_add_cancel]⟩
  · have hdigit : ¬ Byte.isDigit x = true := by
      simp only [Byte.isDigit, Bool.and_eq_true, decide_eq_true_eq, UInt8.le_iff_toNat_le, UInt8.reduceToNat] at *
      omega
    have hsmall : ¬ (97 ≤ x ∧ x ≤ 102) := by
      simp only [UInt8.le_iff_toNat_le, UInt8.reduceToNat] at *
      omega
    rw [hexValue?, if_neg hdigit, if_neg hsmall, if_pos ⟨hlow, hhigh⟩] at ha
    obtain rfl := Option.some.inj ha
    have hlong : 55 ≤ x := UInt8.le_trans (by decide) hlow
    have hvalue := UInt8.toNat_sub_of_le x 55 hlong
    simp only [UInt8.le_iff_toNat_le, UInt8.reduceToNat] at hlow hhigh hvalue
    have hlarge : ¬ x - 55 < 10 := by
      simp only [UInt8.lt_iff_toNat_lt, hvalue, UInt8.reduceToNat]
      omega
    refine ⟨?_, by rw [hexDigit, if_neg hlarge, UInt8.sub_add_cancel]⟩
    simp only [UInt8.lt_iff_toNat_lt, hvalue, UInt8.reduceToNat]
    omega

/-- The two digits of a byte are its high and its low half. -/
theorem halves_of_digits {a b : UInt8} (ha : a < 16) (hb : b < 16) : (a * 16 + b) / 16 = a ∧ (a * 16 + b) % 16 = b := by
  simp only [UInt8.lt_iff_toNat_lt, UInt8.reduceToNat] at ha hb
  have hsum : (a * 16 + b).toNat = a.toNat * 16 + b.toNat := by
    simp
    omega
  constructor
  · refine UInt8.toNat_inj.1 ?_
    simp only [UInt8.toNat_div, hsum, UInt8.reduceToNat]
    omega
  · refine UInt8.toNat_inj.1 ?_
    simp only [UInt8.toNat_mod, hsum, UInt8.reduceToNat]
    omega

theorem isCoded_encode (s : Bytes) : IsCoded (encode s) := by
  induction s with
  | nil => exact .nil
  | cons c s ih =>
    rw [encode_cons]
    by_cases hplain : isPlain c = true
    · rw [encodeByte, if_pos hplain]
      exact .plain ((isPlain_iff c).1 hplain) ih
    · obtain ⟨hhigh, hlow, hsum⟩ := digits_of_byte c
      rw [encodeByte, if_neg hplain]
      refine .escape (isCapitalDigit_hexDigit hhigh) (isCapitalDigit_hexDigit hlow) (hexValue?_hexDigit hhigh)
        (hexValue?_hexDigit hlow) ?_ ih
      rw [hsum]
      exact mt (isPlain_iff c).2 hplain

/-- A coded text is the coding of what it is read as. -/
theorem IsCoded.encode_decode {t : Bytes} (h : IsCoded t) : encode (decode t) = t := by
  induction h with
  | nil => simp [encode, decode]
  | @plain c s hc _ ih =>
    have hplain := (isPlain_iff c).2 hc
    rw [decode_plain (ne_percent_of_isPlain hplain), encode_cons, encodeByte, if_pos hplain, ih]
    rfl
  | @escape x y a b s hx hy ha hb hc _ ih =>
    obtain ⟨hsmall, hhigh⟩ := hexDigit_of_hexValue? hx ha
    obtain ⟨hsmall', hlow⟩ := hexDigit_of_hexValue? hy hb
    obtain ⟨hdiv, hmod⟩ := halves_of_digits hsmall hsmall'
    rw [decode_digits ha hb, encode_cons, encodeByte, if_neg (mt (isPlain_iff _).1 hc), hdiv, hmod, hhigh, hlow, ih]
    rfl

/-- Every text is read back from its coding. A coding consists of unreserved characters, slashes,
and `%` with two capital digits, and is what every such text is in which no escape could be
spared. Different texts have different codings. -/
theorem percent_coding : (∀ s, decode (encode s) = s) ∧ (∀ t, IsCoded t ↔ ∃ s, encode s = t) ∧
    Function.Injective encode := by
  refine ⟨decode_encode, fun t => ⟨fun h => ⟨decode t, h.encode_decode⟩, ?_⟩, ?_⟩
  · rintro ⟨s, rfl⟩
    exact isCoded_encode s
  · exact Function.LeftInverse.injective decode_encode

end LanguageClient.Uri
