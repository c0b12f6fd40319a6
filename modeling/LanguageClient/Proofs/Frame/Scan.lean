import LanguageClient.Proofs.Frame.Header
/-
  LanguageClient.Proofs.Frame.Scan — a header block read line by line, from its first byte on.

  A scan goes from line break to line break, up to the first line that declares a length, or past
  the end of the block. The value of that line is read digit by digit, in words of a machine, and
  given up as soon as it is larger than a length may be.

  - `trim_eq_iff`, `declares_iff`: what is trimmed off, and which line declares which value.
  - `valueFrom_eq_some_iff`: the value that counts is that of the first such line.
  - `readWord_eq`: no sum is too large for a word, so reading in words loses nothing.
  - `Scan.run_eq`: a scan takes a round for each line and one more at most, and comes to the
    length of the block.
  - `contentLength_by_lines`: the length of any block, told by its lines alone.
-/

namespace LanguageClient.Frame

/-! ## Trimming -/

/-- `t` is `s` without the blanks before it, and without the blanks and carriage returns behind it. -/
structure Trimmed (s t : Bytes) : Prop where
  around : ∃ a b, s = a ++ t ++ b ∧ (∀ c ∈ a, isBlank c = true) ∧ ∀ c ∈ b, isBlank c = true ∨ c = Byte.cr
  first : ∀ c ∈ t.head?, isBlank c = false
  last : ∀ c ∈ t.getLast?, isBlank c = false ∧ c ≠ Byte.cr

def isTrailing (c : UInt8) : Bool := isBlank c || c == Byte.cr

theorem isTrailing_iff {c : UInt8} : isTrailing c = true ↔ isBlank c = true ∨ c = Byte.cr := by
  rw [isTrailing, Bool.or_eq_true, beq_iff_eq]

theorem isTrailing_eq_false_iff {c : UInt8} : isTrailing c = false ↔ isBlank c = false ∧ c ≠ Byte.cr := by
  rw [isTrailing, Bool.or_eq_false_iff, beq_eq_false_iff_ne]

theorem trimmed_trim (s : Bytes) : Trimmed s (trim s) := by
  have hbehind : s.dropWhile isBlank = trim s ++ (s.dropWhile isBlank).rtakeWhile isTrailing :=
    List.rdropWhile_append_rtakeWhile.symm
  refine ⟨⟨s.takeWhile isBlank, (s.dropWhile isBlank).rtakeWhile isTrailing, ?_, ?_, ?_⟩, ?_, ?_⟩
  · rw [List.append_assoc, ← hbehind, List.takeWhile_append_dropWhile]
  · exact fun c hc => List.mem_takeWhile_imp hc
  · exact fun c hc => isTrailing_iff.1 (List.mem_rtakeWhile_imp hc)
  · intro c hc
    have hhead : (s.dropWhile isBlank).head? = some c := by rw [hbehind, List.head?_append, Option.mem_def.1 hc]; rfl
    have hnot := List.head?_dropWhile_not isBlank s
    rwa [hhead] at hnot
  · intro c hc
    obtain ⟨hne, rfl⟩ := List.mem_getLast?_eq_getLast hc
    have hnot := List.rdropWhile_last_not isTrailing (s.dropWhile isBlank) hne
    exact isTrailing_eq_false_iff.1 (Bool.eq_false_iff.2 hnot)

theorem Trimmed.unique {s t : Bytes} (h : Trimmed s t) : trim s = t := by
  obtain ⟨a, b, rfl, ha, hb⟩ := h.around
  have hbehind : ∀ c ∈ b, isTrailing c = true := fun c hc => isTrailing_iff.2 (hb c hc)
  have hdrop : Bytes.dropEnd isTrailing b = [] := List.rdropWhile_eq_nil_iff.2 hbehind
  show Bytes.dropEnd isTrailing ((a ++ t ++ b).dropWhile isBlank) = t
  rw [List.append_assoc, List.dropWhile_append_of_pos ha]
  rcases List.eq_nil_or_concat' t with rfl | ⟨r, d, rfl⟩
  · rw [List.nil_append]
    exact List.rdropWhile_eq_nil_iff.2 fun c hc => hbehind c ((List.dropWhile_suffix isBlank).mem hc)
  · have hd : isTrailing d = false := isTrailing_eq_false_iff.2 (h.last d (by simp))
    have hstart : (r ++ [d] ++ b).dropWhile isBlank = r ++ [d] ++ b := by
      obtain ⟨c, u, hcu⟩ := List.exists_cons_of_ne_nil (List.concat_ne_nil d r)
      have hc : isBlank c = false := h.first c (by rw [hcu]; rfl)
      rw [hcu]
      exact List.dropWhile_cons_of_neg (by simp [hc])
    rw [hstart, List.append_assoc, List.singleton_append, Bytes.dropEnd_append_cons hd, hdrop]

theorem trim_eq_iff {s t : Bytes} : trim s = t ↔ Trimmed s t :=
  ⟨fun h => h ▸ trimmed_trim s, Trimmed.unique⟩

/-! ## Lines that declare a length -/

/-- `line` declares a length by the text `value`. The first line of a block does by what stands
behind its last colon, a later one by what stands behind its first. -/
inductive Declares : Bool → Bytes → Bytes → Prop
  | first {before after key value : Bytes} : Byte.colon ∉ after → Trimmed before key → EndsInName key →
      Trimmed after value → Declares true (before ++ Byte.colon :: after) value
  | later {before after name value : Bytes} : Byte.colon ∉ before → Trimmed before name →
      Bytes.sameName name nameText = true → Trimmed after value → Declares false (before ++ Byte.colon :: after) value

def declared? (isFirst : Bool) (line : Bytes) : Option Bytes := if isFirst then leadingValue? line else laterValue? line

theorem leadingValue?_eq_some_iff {line value : Bytes} :
    leadingValue? line = some value ↔ Declares true line value := by
  constructor
  · intro h
    rw [leadingValue?] at h
    split at h
    · rename_i before after hcut
      obtain ⟨rfl, hcolon⟩ := Bytes.cutAtLast_eq_some_iff.1 hcut
      split at h
      · rename_i hends
        exact .first hcolon (trimmed_trim before) ((endsInName_iff _).1 hends) (trim_eq_iff.1 (Option.some.inj h))
      · cases h
    · cases h
  · intro h
    cases h with
    | first hcolon hkey hends hvalue =>
      obtain rfl := hkey.unique
      obtain rfl := hvalue.unique
      rw [leadingValue?, Bytes.cutAtLast_append hcolon]
      exact if_pos ((endsInName_iff _).2 hends)

theorem laterValue?_eq_some_iff {line value : Bytes} :
    laterValue? line = some value ↔ Declares false line value := by
  constructor
  · intro h
    rw [laterValue?] at h
    split at h
    · rename_i before after hcut
      obtain ⟨rfl, hcolon⟩ := Bytes.cutAt_eq_some_iff.1 hcut
      split at h
      · rename_i hname
        exact .later hcolon (trimmed_trim before) hname (trim_eq_iff.1 (Option.some.inj h))
      · cases h
    · cases h
  · intro h
    cases h with
    | later hcolon hname hsame hvalue =>
      obtain rfl := hname.unique
      obtain rfl := hvalue.unique
      rw [laterValue?, Bytes.cutAt_append hcolon]
      exact if_pos hsame

theorem declares_iff {isFirst : Bool} {line value : Bytes} :
    Declares isFirst line value ↔ declared? isFirst line = some value := by
  cases isFirst with
  | true => exact leadingValue?_eq_some_iff.symm
  | false => exact laterValue?_eq_some_iff.symm

/-! ## The first of them -/

def DeclaresAt (isFirst : Bool) (ls : List Bytes) (i : Nat) (value : Bytes) : Prop :=
  ∃ line, ls[i]? = some line ∧ Declares (isFirst && i == 0) line value

theorem declaresAt_zero {isFirst : Bool} {l value : Bytes} {ls : List Bytes} :
    DeclaresAt isFirst (l :: ls) 0 value ↔ declared? isFirst l = some value := by
  rw [← declares_iff]
  simp [DeclaresAt]

theorem declaresAt_succ {isFirst : Bool} {l value : Bytes} {ls : List Bytes} {i : Nat} :
    DeclaresAt isFirst (l :: ls) (i + 1) value ↔ DeclaresAt false ls i value := by
  simp [DeclaresAt]

/-- The value of the first line that declares a length. The first line of all may be that of a block. -/
def valueFrom (isFirst : Bool) : List Bytes → Option Bytes
  | [] => none
  | line :: rest => (declared? isFirst line).or (valueFrom false rest)

theorem valueFrom_false (ls : List Bytes) : valueFrom false ls = ls.findSome? laterValue? := by
  induction ls with
  | nil => rfl
  | cons l ls ih =>
    rw [valueFrom, ih, List.findSome?_cons]
    show (laterValue? l).or _ = _
    cases laterValue? l <;> rfl

theorem lengthValue?_eq (header : Bytes) : lengthValue? header = valueFrom true (Bytes.lines header) := by
  rw [lengthValue?]
  cases Bytes.lines header with
  | nil => rfl
  | cons first rest =>
    rw [valueFrom, valueFrom_false]
    rfl

/-- The value that counts is that of the first line that declares a length. -/
theorem valueFrom_eq_some_iff {isFirst : Bool} {ls : List Bytes} {value : Bytes} :
    valueFrom isFirst ls = some value ↔
      ∃ i, DeclaresAt isFirst ls i value ∧ ∀ j < i, ∀ v, ¬ DeclaresAt isFirst ls j v := by
  induction ls generalizing isFirst with
  | nil => simp [valueFrom, DeclaresAt]
  | cons l ls ih =>
    have hnone : declared? isFirst l = none ↔ ∀ v, ¬ DeclaresAt isFirst (l :: ls) 0 v := by
      simp only [Option.eq_none_iff_forall_ne_some, ne_eq, declaresAt_zero]
    rw [valueFrom, Option.or_eq_some_iff, ih, hnone, ← declaresAt_zero]
    constructor
    · rintro (hfirst | ⟨hnot, i, hi, hbefore⟩)
      · exact ⟨0, hfirst, by simp⟩
      · refine ⟨i + 1, declaresAt_succ.2 hi, ?_⟩
        rintro (_ | j) hj v
        · exact hnot v
        · exact mt declaresAt_succ.1 (hbefore j (by omega) v)
    · rintro ⟨_ | i, hi, hbefore⟩
      · exact Or.inl hi
      · refine Or.inr ⟨hbefore 0 (by omega), i, declaresAt_succ.1 hi, fun j hj v => ?_⟩
        exact mt declaresAt_succ.2 (hbefore (j + 1) (by omega) v)

/-! ## The value, digit by digit -/

/-- A sum that is formed while a value is read: what stands before was read to a number, and a
digit more makes the sum. -/
def IsSum (value : Bytes) (sum : Nat) : Prop :=
  ∃ front c rest n, value = front ++ c :: rest ∧ readBounded 0 front = some n ∧ Byte.isDigit c = true ∧
    sum = n * 10 + Byte.digitValue c

theorem digitValue_le {c : UInt8} (h : Byte.isDigit c = true) : Byte.digitValue c ≤ 9 := by
  have hrange : 48 ≤ c.toNat ∧ c.toNat ≤ 57 := by
    simpa [Byte.isDigit, UInt8.le_iff_toNat_le] using h
  rw [Byte.digitValue]
  omega

/-- No number that may be a length is so large that the sum with one digit more takes more than 32 bits. -/
theorem sum_lt {n : Nat} (hn : n ≤ maxLength) {c : UInt8} (hc : Byte.isDigit c = true) :
    n * 10 + Byte.digitValue c < 2 ^ 32 := by
  have hdigit := digitValue_le hc
  rw [maxLength] at hn
  omega

theorem le_of_readBounded {value : Bytes} {n : Nat} (h : readBounded 0 value = some n) : n ≤ maxLength := by
  rw [readBounded_eq value 0 (Nat.zero_le _)] at h
  split at h
  · exact of_decide_eq_true (Option.filter_eq_some_iff.1 h).2
  · cases h

theorem IsSum.lt {value : Bytes} {sum : Nat} (h : IsSum value sum) : sum < 2 ^ 32 := by
  obtain ⟨front, c, rest, n, -, hread, hc, rfl⟩ := h
  exact sum_lt (le_of_readBounded hread) hc

variable {w : Nat}

/-- Read on from `n` in words of `w` bits, in which a sum that is too large for them wraps around. -/
def readOn (n : BitVec w) : Bytes → Option Nat
  | [] => some n.toNat
  | c :: r =>
    if Byte.isDigit c then
      let m := n * BitVec.ofNat w 10 + BitVec.ofNat w (Byte.digitValue c)
      if BitVec.ofNat w maxLength < m then none else readOn m r
    else none

def readWord (w : Nat) (value : Bytes) : Option Nat := if value = [] then none else readOn (0 : BitVec w) value

theorem readOn_eq (hw : 32 ≤ w) (value : Bytes) : ∀ n : BitVec w, n.toNat ≤ maxLength →
    readOn n value = readBounded n.toNat value := by
  have hpow : 2 ^ 32 ≤ 2 ^ w := Nat.pow_le_pow_right (by omega) hw
  induction value with
  | nil => intro n _; rfl
  | cons c r ih =>
    intro n hn
    rw [readOn, readBounded]
    split
    · rename_i hc
      -- what was read so far may be a length, so a digit more does not make the word wrap around
      have hsum := sum_lt hn hc
      have hword : (n * BitVec.ofNat w 10 + BitVec.ofNat w (Byte.digitValue c)).toNat
          = n.toNat * 10 + Byte.digitValue c := by
        simp (disch := omega) only [BitVec.toNat_add, BitVec.toNat_mul, BitVec.toNat_ofNat, Nat.mod_eq_of_lt]
      have hbound : (BitVec.ofNat w maxLength).toNat = maxLength := by
        rw [BitVec.toNat_ofNat, Nat.mod_eq_of_lt]
        rw [maxLength]
        omega
      simp only [BitVec.lt_def, hword, hbound]
      split
      · rfl
      · rename_i hle
        rw [ih _ (by omega), hword]
    · rfl

/-- Reading in words of 32 bits or more loses nothing. -/
theorem readWord_eq (hw : 32 ≤ w) (value : Bytes) : readWord w value = readLength value := by
  cases value with
  | nil => rfl
  | cons c r => exact (readOn_eq hw (c :: r) 0 (by simp)).trans (by simp [readLength])

/-! ## A scan -/

/-- Where a scan of a block stands: how many bytes it has left behind, and whether it has yet to read a line. -/
structure Scan where
  pos : Nat := 0
  isFirst : Bool := true

def lineEnd (header : Bytes) (pos : Nat) : Nat :=
  match Bytes.cut Bytes.lineBreak (header.drop pos) with
  | some (line, _) => pos + line.length
  | none => header.length

/-- Read one line. If it declares a length the scan ends with the number it is read to, otherwise it
goes on behind the line; behind the block it ends with nothing. -/
def Scan.step (w : Nat) (header : Bytes) (s : Scan) : Scan ⊕ Option Nat :=
  if s.pos ≤ header.length then
    let stop := lineEnd header s.pos
    match declared? s.isFirst ((header.drop s.pos).take (stop - s.pos)) with
    | some value => .inr (readWord w value)
    | none => .inl { pos := stop + 2, isFirst := false }
  else .inr none

def Scan.run (w : Nat) (header : Bytes) : Nat → Scan → Scan ⊕ Option Nat
  | 0, s => .inl s
  | rounds + 1, s =>
    match s.step w header with
    | .inl s' => Scan.run w header rounds s'
    | .inr result => .inr result

namespace Scan

variable {header line rest : Bytes} {s : Scan}

theorem step_of_cut (hw : 32 ≤ w) (hpos : s.pos ≤ header.length)
    (h : Bytes.cut Bytes.lineBreak (header.drop s.pos) = some (line, rest)) :
    s.step w header = match declared? s.isFirst line with
      | some value => .inr (readLength value)
      | none => .inl { pos := s.pos + line.length + 2, isFirst := false } := by
  have hstop : lineEnd header s.pos = s.pos + line.length := by rw [lineEnd, h]
  have hline : (header.drop s.pos).take (s.pos + line.length - s.pos) = line := by
    rw [Bytes.append_of_cut h, Nat.add_sub_cancel_left, List.append_assoc, List.take_left]
  simp only [step, hpos, if_true, hstop, hline, readWord_eq hw]

theorem step_of_last (hw : 32 ≤ w) (hpos : s.pos ≤ header.length)
    (h : Bytes.cut Bytes.lineBreak (header.drop s.pos) = none) :
    s.step w header = match declared? s.isFirst (header.drop s.pos) with
      | some value => .inr (readLength value)
      | none => .inl { pos := header.length + 2, isFirst := false } := by
  have hstop : lineEnd header s.pos = header.length := by rw [lineEnd, h]
  have hline : (header.drop s.pos).take (header.length - s.pos) = header.drop s.pos :=
    List.take_of_length_le (by rw [List.length_drop])
  simp only [step, hpos, if_true, hstop, hline, readWord_eq hw]

theorem run_behind {rounds : Nat} (h : header.length < s.pos) : s.run w header (rounds + 1) = .inr none := by
  rw [run, step, if_neg (by omega)]

/-- A scan comes to the first line ahead of it that declares a length, after a round for each line
and one more at most. -/
theorem run_ahead (hw : 32 ≤ w) {ls : List Bytes} : ∀ {s : Scan} {rounds : Nat}, s.pos ≤ header.length →
    Bytes.lines (header.drop s.pos) = ls → ls.length < rounds →
    s.run w header rounds = .inr ((valueFrom s.isFirst ls).bind readLength) := by
  induction ls with
  | nil => exact fun _ hls => absurd hls (Bytes.linesFrom_ne_nil [] _)
  | cons l ls ih =>
    intro s rounds hpos hls hrounds
    obtain ⟨rounds, rfl⟩ : ∃ n, rounds = n + 1 := ⟨rounds - 1, by omega⟩
    rw [List.length_cons] at hrounds
    cases hcut : Bytes.cut Bytes.lineBreak (header.drop s.pos) with
    | none =>
      -- the last line; if it declares nothing, a round more finds the scan behind the block
      rw [Bytes.lines_of_unbroken ((Bytes.cut_eq_none_iff Bytes.lineBreak_ne_nil _).1 hcut)] at hls
      obtain ⟨rfl, rfl⟩ := List.cons.inj hls
      rw [run, step_of_last hw hpos hcut, valueFrom]
      cases declared? s.isFirst (header.drop s.pos) with
      | some value => rfl
      | none =>
        obtain ⟨rounds, rfl⟩ : ∃ n, rounds = n + 1 := ⟨rounds - 1, by rw [List.length_nil] at hrounds; omega⟩
        exact run_behind (by show header.length < header.length + 2; omega)
    | some p =>
      obtain ⟨line, rest⟩ := p
      rw [Bytes.lines_of_cut hcut] at hls
      obtain ⟨rfl, hrest⟩ := List.cons.inj hls
      have hdrop : header.drop s.pos = line ++ Bytes.lineBreak ++ rest := Bytes.append_of_cut hcut
      have hbehind : header.drop (s.pos + line.length + 2) = rest := by
        have hlen : line.length + 2 = (line ++ Bytes.lineBreak).length := by rw [List.length_append]; rfl
        rw [Nat.add_assoc, ← List.drop_drop, hdrop, hlen, List.drop_left]
      have hlen : s.pos + line.length + 2 ≤ header.length := by
        have := congrArg List.length hdrop
        rw [List.length_drop, List.length_append, List.length_append] at this
        have hbreak : Bytes.lineBreak.length = 2 := rfl
        omega
      rw [run, step_of_cut hw hpos hcut, valueFrom]
      cases declared? s.isFirst line with
      | some value => rfl
      | none => exact ih hlen (by rw [hbehind, hrest]) (by omega)

/-- A scan comes to its end, with the length of the block. -/
theorem run_eq (hw : 32 ≤ w) {header : Bytes} {rounds : Nat} (h : (Bytes.lines header).length < rounds) :
    run w header rounds {} = .inr (contentLength header) := by
  rw [contentLength, lengthValue?_eq]
  exact run_ahead hw (Nat.zero_le _) rfl h

end Scan

/-! ## The length of a block -/

def DeclaredFirst (header value : Bytes) : Prop :=
  ∃ ls i, Bytes.IsLines header ls ∧ DeclaresAt true ls i value ∧ ∀ j < i, ∀ v, ¬ DeclaresAt true ls j v

theorem lengthValue?_eq_some_iff {header value : Bytes} :
    lengthValue? header = some value ↔ DeclaredFirst header value := by
  rw [lengthValue?_eq, valueFrom_eq_some_iff]
  constructor
  · rintro ⟨i, hi, hbefore⟩
    exact ⟨_, i, Bytes.isLines_lines header, hi, hbefore⟩
  · rintro ⟨ls, i, hls, hi, hbefore⟩
    obtain rfl := hls.eq_lines
    exact ⟨i, hi, hbefore⟩

/-- A numeral, leading zeros or not, that denotes `n`, which is no larger than a length may be. -/
def Means (value : Bytes) (n : Nat) : Prop :=
  value ≠ [] ∧ (∀ c ∈ value, Byte.isDigit c = true) ∧ n = Nat.ofDigits 10 (value.reverse.map Byte.digitValue) ∧
    n ≤ 268435456

theorem readLength_eq_some_iff {value : Bytes} {n : Nat} : readLength value = some n ↔ Means value n := by
  rw [readLength_eq, Option.filter_eq_some_iff, Bytes.toNat?_eq_some_iff, decide_eq_true_iff, Means, maxLength,
    and_assoc, and_assoc]

/-- A block has the length `n` exactly when the first of its lines that declare a length declares
`n`. A scan of it comes to its end with that length, and no sum on the way takes more than 32 bits. -/
theorem contentLength_by_lines :
    (∀ (header : Bytes) (n : Nat),
      contentLength header = some n ↔ ∃ value, DeclaredFirst header value ∧ Means value n) ∧
    (∀ (w : Nat) (header : Bytes) (rounds : Nat), 32 ≤ w → (Bytes.lines header).length < rounds →
      Scan.run w header rounds {} = .inr (contentLength header)) ∧
    ∀ value sum, IsSum value sum → sum < 2 ^ 32 := by
  refine ⟨fun header n => ?_, fun w header rounds hw h => Scan.run_eq hw h, fun value sum h => h.lt⟩
  rw [contentLength, Option.bind_eq_some_iff]
  simp only [lengthValue?_eq_some_iff, readLength_eq_some_iff]

def cluttered : Bytes := text "[1:2]content-LENGTH \t:\t 0007 \t\r\r\nContent-Length: 9"

theorem contentLength_by_lines_of_cluttered :
    (∃ value, DeclaredFirst cluttered value ∧ Means value 7) ∧
    Scan.run 32 cluttered 3 {} = .inr (some 7) ∧
    IsSum (text "2684354569") 2684354569 ∧ 2684354569 < 2 ^ 32 := by
  have hlength : contentLength cluttered = some 7 := by decide
  have hsum : IsSum (text "2684354569") 2684354569 :=
    ⟨text "268435456", 57, [], 268435456, by decide, by decide, by decide, by decide⟩
  refine ⟨(contentLength_by_lines.1 cluttered 7).1 hlength, ?_, hsum, contentLength_by_lines.2.2 _ _ hsum⟩
  exact (contentLength_by_lines.2.1 32 cluttered 3 (by decide) (by decide)).trans (congrArg _ hlength)

end LanguageClient.Frame
