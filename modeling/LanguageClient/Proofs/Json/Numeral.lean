import LanguageClient.Proofs.Bytes
import LanguageClient.Json.Text
/-
  LanguageClient.Proofs.Json.Numeral — numbers are read as they are written.

  An integer of 64 bits comes back from its digits (`ofWord?_ofInt`), and a decimal number that
  is reduced from its digits with a point between them (`ofWord?_decimalText`). No other numbers
  are read (`isNumber_of_numeral?`), so whatever is read once is read again unchanged.
-/

namespace LanguageClient.Json

/-! ## Decimal numbers -/

/-- A number has as few places as it needs, but at least one, and a double can hold it. -/
structure IsReduced (n places : Nat) : Prop where
  pos : 1 ≤ places
  least : places = 1 ∨ n % 10 ≠ 0
  small : n < doubleLimit * 10 ^ places

theorem reduced_eq {n places : Nat} (h : IsReduced n places) : reduced n places = (n, places) := by
  match places, h with
  | 0, h => exact absurd h.pos (by omega)
  | 1, _ => rfl
  | places + 2, h =>
    rw [reduced, if_neg]
    exact h.least.resolve_left (by omega)

/-- A double has at most 309 digits before its point. -/
theorem length_decimal_of_small {n places : Nat} (h : n < doubleLimit * 10 ^ places) :
    (Bytes.decimal n).length ≤ 309 + places := by
  -- the power is not to be computed, so its exponent is kept under a name
  obtain ⟨k, heq, hk⟩ : ∃ k, 309 = k ∧ doubleLimit ≤ 10 ^ k := ⟨309, rfl, by decide +kernel⟩
  rw [heq]
  refine Bytes.length_decimal_le (by omega) (h.trans_le ?_)
  rw [Nat.pow_add]
  exact Nat.mul_le_mul_right _ hk

theorem scaled?_of_isReduced {n places : Nat} (h : IsReduced n places) : scaled? n (-places) = some (n, places) := by
  obtain ⟨hpos, hleast, hsmall⟩ := h
  unfold scaled?
  split
  next hn =>
    subst hn
    rw [hleast.resolve_right (by simp)]
  next hn =>
    have hlength := length_decimal_of_small hsmall
    have hplaces : (-(-(places : Int))).toNat = places := by omega
    have hfactor : (-(places : Int)).toNat = 0 := by omega
    rw [if_neg (by omega)]
    simp only [hplaces, hfactor, Nat.pow_eq, Nat.pow_zero, Nat.mul_one]
    rw [if_neg (by omega), reduced_eq ⟨hpos, hleast, hsmall⟩]

/-- Whatever is read of a number is reduced. -/
theorem isReduced_reduced {n places : Nat} (h : n < doubleLimit * 10 ^ places) :
    IsReduced (reduced n places).1 (reduced n places).2 := by
  fun_induction reduced n places with
  | case1 n => exact ⟨by omega, .inl rfl, by simp only [Nat.pow_zero, Nat.pow_one] at h ⊢; omega⟩
  | case2 n => exact ⟨by omega, .inl rfl, h⟩
  | case3 n places hzero ih =>
    refine ih ?_
    rw [Nat.pow_succ, ← Nat.mul_assoc] at h
    omega
  | case4 n places hne => exact ⟨by omega, .inr hne, h⟩

/-! ## Numerals -/

variable {isNegative : Bool} {s digits rest : Bytes}

/-- A number without its sign, and the sign. -/
def signed (isNegative : Bool) (n : Nat) : Int := if isNegative then -n else n

/-- No digit comes first. -/
def StartsOff (rest : Bytes) : Prop := ∀ c ∈ rest.head?, Byte.isDigit c = false

theorem startsOff_nil : StartsOff [] := fun c hc => by cases hc

theorem startsOff_point (s : Bytes) : StartsOff (Byte.dot :: s) := by
  rintro c ⟨⟩
  rfl

theorem span_digits (hdigits : digits.all Byte.isDigit = true) (hrest : StartsOff rest) :
    (digits ++ rest).span Byte.isDigit = (digits, rest) := by
  rw [List.span_eq_takeWhile_dropWhile]
  have hall := List.all_eq_true.1 hdigits
  rw [List.takeWhile_append_of_pos hall, List.dropWhile_append_of_pos hall]
  cases rest with
  | nil => simp
  | cons c r => simp [hrest c rfl]

/-- Digits that are no number written with leading zeros. -/
structure IsWhole (digits : Bytes) : Prop where
  ne_nil : digits ≠ []
  all_digits : digits.all Byte.isDigit = true
  no_zeros : digits.head? = some 48 → digits.length = 1

theorem isWhole_decimal (n : Nat) : IsWhole (Bytes.decimal n) := by
  refine ⟨Bytes.decimal_ne_nil n, Bytes.all_isDigit_decimal n, fun hhead => ?_⟩
  by_cases hn : n = 0
  · subst hn
    rfl
  · exact absurd hhead (Bytes.head?_decimal hn)

theorem numeral?_eq (hspan : s.span Byte.isDigit = (digits, rest)) (h : IsWhole digits) : numeral? isNegative s =
    if rest = [] ∧ Bytes.numeral digits < 2 ^ 64 ∧ (isNegative = true → Bytes.numeral digits ≤ 2 ^ 63) then
      some (int (signed isNegative (Bytes.numeral digits)))
    else (fraction? rest).bind fun f => (exponent? f.2).bind fun e =>
      (scaled? (Bytes.numeral (digits ++ f.1)) (e - f.1.length)).bind fun n =>
        some (decimal (signed isNegative n.1) n.2) := by
  have hzeros : ¬(digits = [] ∨ digits.head? = some 48 ∧ digits.length ≠ 1) := by
    rintro (hnil | ⟨hhead, hlength⟩)
    · exact h.ne_nil hnil
    · exact hlength (h.no_zeros hhead)
  unfold numeral?
  rw [hspan]
  dsimp only
  rw [if_neg hzeros]
  rfl

theorem numeral?_whole (h : IsWhole digits) (hsmall : Bytes.numeral digits < 2 ^ 64)
    (hnegative : isNegative = true → Bytes.numeral digits ≤ 2 ^ 63) :
    numeral? isNegative digits = some (int (signed isNegative (Bytes.numeral digits))) := by
  have hspan := span_digits h.all_digits startsOff_nil
  rw [List.append_nil] at hspan
  rw [numeral?_eq hspan h, if_pos ⟨rfl, hsmall, hnegative⟩]

theorem fraction?_point (s : Bytes) : fraction? (Byte.dot :: s) =
    if (s.span Byte.isDigit).1 = [] then none else some (s.span Byte.isDigit) := rfl

theorem numeral?_point {fraction : Bytes} (h : IsWhole digits) (hne : fraction ≠ [])
    (hfraction : fraction.all Byte.isDigit = true)
    (hreduced : IsReduced (Bytes.numeral (digits ++ fraction)) fraction.length) :
    numeral? isNegative (digits ++ Byte.dot :: fraction) =
      some (decimal (signed isNegative (Bytes.numeral (digits ++ fraction))) fraction.length) := by
  have hspan := span_digits h.all_digits (startsOff_point fraction)
  have hpoint : fraction? (Byte.dot :: fraction) = some (fraction, []) := by
    have hspan' := span_digits hfraction startsOff_nil
    rw [List.append_nil] at hspan'
    rw [fraction?_point, hspan', if_neg hne]
  rw [numeral?_eq hspan h, if_neg (by simp), hpoint, Option.bind_some, exponent?, Option.bind_some, Int.zero_sub,
    scaled?_of_isReduced hreduced, Option.bind_some]

/-! ## Numbers as words -/

theorem not_letters {c : UInt8} (hc : Byte.isLower c = false) (s : Bytes) :
    c :: s ≠ text "null" ∧ c :: s ≠ text "true" ∧ c :: s ≠ text "false" := by
  have hne : ∀ (d : UInt8) (t : Bytes), Byte.isLower d = true → c :: s ≠ d :: t := by
    rintro d t hd heq
    rw [(List.cons.inj heq).1, hd] at hc
    cases hc
  exact ⟨hne 110 _ rfl, hne 116 _ rfl, hne 102 _ rfl⟩

theorem ofWord?_minus (s : Bytes) : ofWord? (Byte.minus :: s) = numeral? true s := by
  obtain ⟨hnull, htrue, hfalse⟩ := not_letters (c := Byte.minus) rfl s
  unfold ofWord?
  rw [if_neg hnull, if_neg htrue, if_neg hfalse]
  rfl

theorem ofWord?_digit {c : UInt8} (hc : Byte.isDigit c = true) (s : Bytes) :
    ofWord? (c :: s) = numeral? false (c :: s) := by
  have hlower : Byte.isLower c = false := by
    simp only [Byte.isDigit, Byte.isLower, Bool.and_eq_true, decide_eq_true_eq, UInt8.le_iff_toNat_le,
      UInt8.reduceToNat, Bool.and_eq_false_iff, decide_eq_false_iff_not] at hc ⊢
    omega
  obtain ⟨hnull, htrue, hfalse⟩ := not_letters hlower s
  unfold ofWord?
  rw [if_neg hnull, if_neg htrue, if_neg hfalse]
  split
  next heq =>
    rw [(List.cons.inj heq).1] at hc
    cases hc
  next => rfl

/-- A word of digits, with a minus sign before it or without. -/
theorem ofWord?_signed (isNegative : Bool) (h : IsWhole digits) (rest : Bytes) :
    ofWord? ((if isNegative then [Byte.minus] else []) ++ (digits ++ rest)) = numeral? isNegative (digits ++ rest) := by
  cases isNegative with
  | true => exact ofWord?_minus _
  | false =>
    cases digits with
    | nil => exact absurd rfl h.ne_nil
    | cons c ds => exact ofWord?_digit (List.all_eq_true.1 h.all_digits c List.mem_cons_self) _

theorem ofInt_eq (n : Int) :
    Bytes.ofInt n = (if decide (n < 0) then [Byte.minus] else []) ++ Bytes.decimal n.natAbs := by
  cases n with
  | ofNat n => rw [if_neg (by simp)]; rfl
  | negSucc n => rw [if_pos (by simp)]; rfl

theorem signed_natAbs (n : Int) : signed (decide (n < 0)) n.natAbs = n := by
  by_cases hn : n < 0
  · simp only [signed, hn, decide_true, if_true]
    omega
  · simp only [signed, hn, decide_false, Bool.false_eq_true, if_false]
    omega

theorem ofWord?_ofInt {n : Int} (hlow : -2 ^ 63 ≤ n) (hhigh : n < 2 ^ 64) : ofWord? (Bytes.ofInt n) = some (int n) := by
  have hsigned := ofWord?_signed (decide (n < 0)) (isWhole_decimal n.natAbs) []
  rw [List.append_nil] at hsigned
  have hsmall : Bytes.numeral (Bytes.decimal n.natAbs) < 2 ^ 64 := by
    rw [Bytes.numeral_decimal]
    omega
  have hnegative : decide (n < 0) = true → Bytes.numeral (Bytes.decimal n.natAbs) ≤ 2 ^ 63 := by
    rw [Bytes.numeral_decimal, decide_eq_true_eq]
    omega
  rw [ofInt_eq, hsigned, numeral?_whole (isWhole_decimal _) hsmall hnegative, Bytes.numeral_decimal, signed_natAbs]

/-- The digits of a number, with zeros before them up to so many places and one digit more. -/
def padded (n places : Nat) : Bytes :=
  List.replicate (places + 1 - (Bytes.decimal n).length) 48 ++ Bytes.decimal n

theorem all_digits_padded (n places : Nat) : ∀ c ∈ padded n places, Byte.isDigit c = true := by
  intro c hc
  rcases List.mem_append.1 hc with hzero | hdigit
  · rw [List.eq_of_mem_replicate hzero]
    rfl
  · exact List.all_eq_true.1 (Bytes.all_isDigit_decimal n) c hdigit

theorem length_padded (n places : Nat) :
    (padded n places).length = max (places + 1) (Bytes.decimal n).length := by
  rw [padded, List.length_append, List.length_replicate]
  omega

/-- There are zeros at the front only if one digit stands before the point. -/
theorem isWhole_padded (n : Nat) {places : Nat} (hpos : 1 ≤ places) :
    IsWhole ((padded n places).take ((padded n places).length - places)) := by
  have hlength := length_padded n places
  refine ⟨List.ne_nil_of_length_pos ?_, List.all_eq_true.2 fun c hc => ?_, fun hhead => ?_⟩
  · rw [List.length_take]
    omega
  · exact all_digits_padded n places c (List.mem_of_mem_take hc)
  · rcases Nat.lt_or_ge places (Bytes.decimal n).length with hlong | hshort
    · have hplain : padded n places = Bytes.decimal n := by
        rw [padded, Nat.sub_eq_zero_of_le hlong, List.replicate_zero, List.nil_append]
      rw [List.head?_take, if_neg (by omega), hplain] at hhead
      by_cases hn : n = 0
      · subst hn
        rw [Bytes.decimal_of_lt (by omega), List.length_singleton] at hlong
        omega
      · exact absurd hhead (Bytes.head?_decimal hn)
    · rw [List.length_take]
      omega

/-- A number with a point is written with as many digits behind the point as it has places. -/
theorem decimalText_eq (m : Int) {places : Nat} (hpos : 1 ≤ places) : ∃ whole fraction : Bytes, IsWhole whole ∧
    fraction.all Byte.isDigit = true ∧ fraction.length = places ∧ Bytes.numeral (whole ++ fraction) = m.natAbs ∧
    decimalText m places = (if decide (m < 0) then [Byte.minus] else []) ++ (whole ++ Byte.dot :: fraction) := by
  have hlength := length_padded m.natAbs places
  refine ⟨_, (padded m.natAbs places).drop ((padded m.natAbs places).length - places), isWhole_padded m.natAbs hpos,
    List.all_eq_true.2 fun c hc => all_digits_padded _ _ c (List.mem_of_mem_drop hc), ?_, ?_, ?_⟩
  · rw [List.length_drop]
    omega
  · rw [List.take_append_drop, padded, Bytes.numeral_zeros, Bytes.numeral_decimal]
  · simp only [decimalText, decide_eq_true_eq, if_neg (show ¬places = 0 by omega), List.append_assoc]
    rfl

theorem ofWord?_decimalText {m : Int} {places : Nat} (h : IsReduced m.natAbs places) :
    ofWord? (decimalText m places) = some (decimal m places) := by
  obtain ⟨whole, fraction, hwhole, hfraction, rfl, hnumeral, htext⟩ := decimalText_eq m h.pos
  rw [htext, ofWord?_signed _ hwhole, numeral?_point hwhole (List.ne_nil_of_length_pos h.pos) hfraction (hnumeral ▸ h),
    hnumeral, signed_natAbs]

/-! ## What words mean -/

theorem ofWord?_null : ofWord? null.written = some null := if_pos rfl

theorem ofWord?_bool (b : Bool) : ofWord? (bool b).written = some (bool b) := by
  unfold ofWord?
  cases b with
  | false => rw [written, if_neg (by decide), if_neg (by decide), if_pos rfl]
  | true => rw [written, if_neg (by decide), if_pos rfl]

/-- What a number is: an integer of 64 bits, or a reduced number with a point. -/
inductive IsNumber : Json → Prop where
  | int {n : Int} : -2 ^ 63 ≤ n → n < 2 ^ 64 → IsNumber (int n)
  | decimal {m : Int} {places : Nat} : IsReduced m.natAbs places → IsNumber (decimal m places)

theorem natAbs_signed (isNegative : Bool) (n : Nat) : (signed isNegative n).natAbs = n := by
  cases isNegative <;> simp [signed]

theorem isReduced_of_scaled? {m n places : Nat} {e : Int} (h : scaled? m e = some (n, places)) :
    IsReduced n places := by
  unfold scaled? at h
  split at h
  next =>
    cases h
    exact ⟨by omega, .inl rfl, Nat.mul_pos (by decide +kernel) (by omega)⟩
  next =>
    split at h
    next => cases h
    next =>
      dsimp only at h
      split at h
      next => cases h
      next hsmall =>
        rw [Nat.pow_eq, Nat.pow_eq, Nat.not_le] at hsmall
        have hreduced := isReduced_reduced hsmall
        rw [Nat.pow_eq] at h
        rwa [Option.some.inj h] at hreduced

theorem isNumber_of_numeral? {v : Json} (h : numeral? isNegative s = some v) : IsNumber v := by
  unfold numeral? at h
  dsimp only at h
  split at h
  next => cases h
  next =>
    split at h
    next hsmall =>
      obtain ⟨-, hlt, hnegative⟩ := hsmall
      cases h
      rw [Nat.pow_eq] at hlt hnegative
      cases isNegative with
      | true =>
        have hle := hnegative rfl
        refine .int ?_ ?_
        all_goals
          simp only [if_true]
          omega
      | false =>
        refine .int ?_ ?_
        all_goals
          simp only [Bool.false_eq_true, if_false]
          omega
    next =>
      simp only [Option.bind_eq_bind, Option.bind_eq_some_iff] at h
      obtain ⟨f, -, e, -, n, hn, hv⟩ := h
      cases hv
      refine .decimal ?_
      show IsReduced (signed isNegative n.1).natAbs n.2
      rw [natAbs_signed]
      exact isReduced_of_scaled? hn

/-- A word is null, a truth value or a number. -/
theorem ofWord?_cases {v : Json} (h : ofWord? s = some v) : v = null ∨ (∃ b, v = bool b) ∨ IsNumber v := by
  unfold ofWord? at h
  split at h
  next =>
    cases h
    exact .inl rfl
  next =>
    split at h
    next =>
      cases h
      exact .inr (.inl ⟨_, rfl⟩)
    next =>
      split at h
      next =>
        cases h
        exact .inr (.inl ⟨_, rfl⟩)
      next =>
        split at h <;> exact .inr (.inr (isNumber_of_numeral? h))

/-- The bytes that numbers are written with. -/
def isNumeralByte (c : UInt8) : Bool := Byte.isDigit c || c == Byte.minus || c == Byte.dot

theorem lt_of_isNumeralByte {c : UInt8} (h : isNumeralByte c = true) : c < 0x80 := by
  simp only [isNumeralByte, Byte.isDigit, Bool.or_eq_true, Bool.and_eq_true, decide_eq_true_eq, beq_iff_eq] at h
  rcases h with (⟨-, hc⟩ | rfl) | rfl
  · exact UInt8.lt_of_le_of_lt hc (by decide)
  · decide
  · decide

theorem isNumeralByte_of_digits (h : digits.all Byte.isDigit = true) : ∀ c ∈ digits, isNumeralByte c = true := by
  intro c hc
  rw [isNumeralByte, List.all_eq_true.1 h c hc, Bool.true_or, Bool.true_or]

theorem isNumeralByte_of_sign {isNegative : Bool} :
    ∀ c ∈ (if isNegative then [Byte.minus] else [] : Bytes), isNumeralByte c = true := by
  cases isNegative <;> simp [isNumeralByte]

theorem isNumeralByte_ofInt (n : Int) : ∀ c ∈ Bytes.ofInt n, isNumeralByte c = true := by
  rw [ofInt_eq]
  intro c hc
  rcases List.mem_append.1 hc with hsign | hdigit
  · exact isNumeralByte_of_sign c hsign
  · exact isNumeralByte_of_digits (Bytes.all_isDigit_decimal _) c hdigit

theorem isNumeralByte_decimalText (m : Int) {places : Nat} (hpos : 1 ≤ places) :
    ∀ c ∈ decimalText m places, isNumeralByte c = true := by
  obtain ⟨whole, fraction, hwhole, hfraction, -, -, htext⟩ := decimalText_eq m hpos
  rw [htext]
  intro c hc
  rcases List.mem_append.1 hc with hsign | hc
  · exact isNumeralByte_of_sign c hsign
  · rcases List.mem_append.1 hc with hdigit | hc
    · exact isNumeralByte_of_digits hwhole.all_digits c hdigit
    · rcases List.mem_cons.1 hc with rfl | hdigit
      · rfl
      · exact isNumeralByte_of_digits hfraction c hdigit

end LanguageClient.Json
