import Mathlib.Data.List.DropRight
import Mathlib.Data.List.Infix
import Mathlib.Data.Nat.Digits.Defs
import LanguageClient.Bytes
/-
  LanguageClient.Proofs.Bytes — where byte strings are cut, and what their numerals denote.

  - `cut_eq_some_iff`, `cut_eq_none_iff`: a cut is at the first occurrence of the separator,
    and there is none exactly when the separator does not occur.
  - `cutAt_append`, `cutAtLast_append`: cuts at the first and at the last of some byte.
  - `lines_joinWith`: lines that are joined are the lines of the block.
  - `isLines_lines`, `IsLines.eq_lines`: the lines of a block are what it is parted into at every line break.
  - `toNat?_eq_some_iff`, `toNat?_decimal`: which numerals there are, and what they denote; the
    digits of a number denote it.
  - `joinWith_splitOn`, `length_splitOn`: the parts of a text between the places of a byte.
  - `before_iff_lt`: byte order is the order of lists.
-/

namespace LanguageClient.Bytes

/-! ## Cutting at a separator -/

theorem cutFrom_eq (sep : Bytes) : ∀ (before s : Bytes),
    cutFrom sep before s = (cut sep s).map fun r => (before.reverse ++ r.1, r.2) := by
  intro before s
  induction s generalizing before with
  | nil => by_cases h : sep = [] <;> simp [cut, cutFrom, h]
  | cons c r ih =>
    simp only [cut, cutFrom]
    split
    · simp
    · rw [ih (c :: before), ih [c], Option.map_map]
      simp [Function.comp_def]

theorem cut_cons (sep : Bytes) (c : UInt8) (r : Bytes) :
    cut sep (c :: r) = if sep <+: c :: r then some ([], (c :: r).drop sep.length)
      else (cut sep r).map fun p => (c :: p.1, p.2) := by
  simp only [cut, cutFrom, List.isPrefixOf_iff_prefix, List.reverse_nil]
  rw [cutFrom_eq sep [c] r]
  rfl

/-- There is nothing to cut at exactly when the separator does not occur. -/
theorem cut_eq_none_iff {sep : Bytes} (hsep : sep ≠ []) (s : Bytes) : cut sep s = none ↔ ¬ sep <:+: s := by
  induction s with
  | nil => simp [cut, cutFrom, hsep]
  | cons c r ih =>
    rw [cut_cons, List.infix_cons_iff]
    by_cases h : sep <+: c :: r
    · simp [h]
    · simp [h, ih]

theorem dropLast_prefix_append (a sep b : Bytes) : a ++ sep.dropLast <+: a ++ sep ++ b := by
  rw [List.append_assoc]
  exact (List.prefix_append_right_inj a).2 ((List.dropLast_prefix sep).trans (List.prefix_append sep b))

/-- Before the end of the separator that was cut at, the separator does not occur. -/
theorem first_of_cut {sep : Bytes} (hsep : sep ≠ []) {s a b : Bytes} (h : cut sep s = some (a, b)) :
    ¬ sep <:+: a ++ sep.dropLast := by
  induction s generalizing a with
  | nil => simp [cut, cutFrom, hsep] at h
  | cons c r ih =>
    have happ := append_of_cut h
    rw [cut_cons] at h
    split at h
    · simp only [Option.some.injEq, Prod.mk.injEq] at h
      rw [← h.1, List.nil_append]
      intro hin
      have hle := hin.length_le
      have hpos := List.length_pos_of_ne_nil hsep
      rw [List.length_dropLast] at hle
      omega
    · rename_i hnot
      obtain ⟨⟨a', b'⟩, hr, heq⟩ := Option.map_eq_some_iff.1 h
      simp only [Prod.mk.injEq] at heq
      obtain ⟨rfl, rfl⟩ := heq
      rw [List.cons_append, List.infix_cons_iff]
      rintro (hpre | hin)
      · refine hnot (hpre.trans ?_)
        rw [happ]
        exact dropLast_prefix_append (c :: a') sep b'
      · exact ih hr hin

/-- Of two places of a separator in one text, one where it did not occur before comes first. -/
theorem length_le_of_first {sep a b a' b' : Bytes} (hsep : sep ≠ []) (he : a ++ sep ++ b = a' ++ sep ++ b')
    (h : ¬ sep <:+: a ++ sep.dropLast) : a.length ≤ a'.length := by
  apply Nat.le_of_not_lt
  intro hlt
  have hpos := List.length_pos_of_ne_nil hsep
  have hpre : a' ++ sep <+: a ++ sep.dropLast := by
    have hlate : a' ++ sep <+: a ++ sep ++ b := he ▸ List.prefix_append _ _
    apply List.prefix_of_prefix_length_le hlate (dropLast_prefix_append a sep b)
    simp only [List.length_append, List.length_dropLast]
    omega
  exact h ((List.suffix_append a' sep).isInfix.trans hpre.isInfix)

/-- A cut is at the first occurrence of the separator. -/
theorem cut_eq_some_iff {sep : Bytes} (hsep : sep ≠ []) {s a b : Bytes} :
    cut sep s = some (a, b) ↔ s = a ++ sep ++ b ∧ ¬ sep <:+: a ++ sep.dropLast := by
  constructor
  · intro h
    exact ⟨append_of_cut h, first_of_cut hsep h⟩
  · rintro ⟨rfl, hfirst⟩
    cases hc : cut sep (a ++ sep ++ b) with
    | none => exact absurd (List.infix_append a sep b) ((cut_eq_none_iff hsep _).1 hc)
    | some p =>
      obtain ⟨a', b'⟩ := p
      have he := append_of_cut hc
      have h1 := length_le_of_first hsep he hfirst
      have h2 := length_le_of_first hsep he.symm (first_of_cut hsep hc)
      rw [List.append_assoc, List.append_assoc] at he
      obtain ⟨rfl, hr⟩ := List.append_inj he (Nat.le_antisymm h1 h2)
      rw [List.append_cancel_left hr]

/-- Bytes that come later do not move a cut. -/
theorem cut_append {sep : Bytes} (hsep : sep ≠ []) {s a b : Bytes} (h : cut sep s = some (a, b)) (t : Bytes) :
    cut sep (s ++ t) = some (a, b ++ t) := by
  obtain ⟨rfl, hfirst⟩ := (cut_eq_some_iff hsep).1 h
  exact (cut_eq_some_iff hsep).2 ⟨by simp, hfirst⟩

/-- What does not contain a byte stands before it or after it. -/
theorem infix_append_cons {c : UInt8} {l a b : Bytes} (hc : c ∉ l) (h : l <:+: a ++ c :: b) :
    l <:+: a ∨ l <:+: b := by
  induction a with
  | nil =>
    rcases List.infix_cons_iff.1 h with hpre | hin
    · cases l with
      | nil => exact Or.inl List.nil_infix
      | cons x l =>
        rw [(List.cons_prefix_cons.1 hpre).1] at hc
        exact absurd List.mem_cons_self hc
    · exact Or.inr hin
  | cons x a ih =>
    rw [List.cons_append] at h
    rcases List.infix_cons_iff.1 h with hpre | hin
    · refine Or.inl (List.IsPrefix.isInfix ?_)
      rcases Nat.le_total l.length (x :: a).length with hle | hle
      · exact List.prefix_of_prefix_length_le hpre (List.prefix_append (x :: a) (c :: b)) hle
      · have hlong : x :: a <+: l := List.prefix_of_prefix_length_le (List.prefix_append (x :: a) (c :: b)) hpre hle
        obtain ⟨rest, rfl⟩ := hlong
        have hrest : rest <+: c :: b := (List.prefix_append_right_inj (x :: a)).1 hpre
        cases rest with
        | nil => rw [List.append_nil]
        | cons y rest =>
          rw [(List.cons_prefix_cons.1 hrest).1] at hc
          exact absurd (List.mem_append_right (x :: a) List.mem_cons_self) hc
    · exact (ih hin).imp_left fun hin' => List.infix_cons hin'

/-! ## Cutting at a byte -/

theorem cutAt_cons (b c : UInt8) (r : Bytes) :
    cutAt b (c :: r) = if c = b then some ([], r) else (cutAt b r).map fun p => (c :: p.1, p.2) := by
  simp only [cutAt, List.span_eq_takeWhile_dropWhile]
  by_cases h : c = b
  · simp [h]
  · simp only [List.takeWhile_cons, List.dropWhile_cons, bne_iff_ne, ne_eq, h, not_false_eq_true, if_true, if_false]
    generalize r.takeWhile (fun x => x != b) = t, r.dropWhile (fun x => x != b) = d
    cases d <;> rfl

theorem cutAt_append {b : UInt8} {a : Bytes} (h : b ∉ a) (r : Bytes) : cutAt b (a ++ b :: r) = some (a, r) := by
  induction a with
  | nil => simp [cutAt_cons]
  | cons c a ih =>
    obtain ⟨hc, ha⟩ := not_or.1 (mt List.mem_cons.2 h)
    rw [List.cons_append, cutAt_cons, if_neg (Ne.symm hc), ih ha]
    rfl

theorem cutAt_eq_none {b : UInt8} {s : Bytes} (h : b ∉ s) : cutAt b s = none := by
  induction s with
  | nil => rfl
  | cons c s ih =>
    obtain ⟨hc, hs⟩ := not_or.1 (mt List.mem_cons.2 h)
    rw [cutAt_cons, if_neg (Ne.symm hc), ih hs]
    rfl

/-- A cut is at the first of the bytes. -/
theorem cutAt_eq_some_iff {b : UInt8} {s a r : Bytes} : cutAt b s = some (a, r) ↔ s = a ++ b :: r ∧ b ∉ a := by
  constructor
  · intro h
    by_cases hb : b ∈ s
    · obtain ⟨a', r', rfl, ha'⟩ := List.eq_append_cons_of_mem hb
      rw [cutAt_append ha'] at h
      cases h
      exact ⟨rfl, ha'⟩
    · rw [cutAt_eq_none hb] at h
      cases h
  · rintro ⟨rfl, ha⟩
    exact cutAt_append ha r

theorem cutAtLast_append {b : UInt8} {r : Bytes} (h : b ∉ r) (a : Bytes) :
    cutAtLast b (a ++ b :: r) = some (a, r) := by
  have hr : (a ++ b :: r).reverse = r.reverse ++ b :: a.reverse := by simp
  rw [cutAtLast, hr, cutAt_append (mt List.mem_reverse.1 h)]
  simp

/-- A cut from behind is at the last of the bytes. -/
theorem cutAtLast_eq_some_iff {b : UInt8} {s a r : Bytes} : cutAtLast b s = some (a, r) ↔ s = a ++ b :: r ∧ b ∉ r := by
  refine ⟨fun h => ?_, fun ⟨heq, h⟩ => heq ▸ cutAtLast_append h a⟩
  obtain ⟨⟨r', a'⟩, hcut, heq⟩ := Option.map_eq_some_iff.1 h
  obtain ⟨rfl, rfl⟩ := Prod.mk.inj heq
  obtain ⟨hs, hr⟩ := cutAt_eq_some_iff.1 hcut
  exact ⟨by rw [← List.reverse_reverse s, hs]; simp, by simpa using hr⟩

theorem not_mem_of_cutAtLast {b : UInt8} {s : Bytes} (h : cutAtLast b s = none) : b ∉ s := by
  intro hin
  obtain ⟨r, a, hs, hr⟩ := List.eq_append_cons_of_mem (List.mem_reverse.2 hin)
  have hcut : s = a.reverse ++ b :: r.reverse := by rw [← List.reverse_reverse s, hs]; simp
  rw [hcut, cutAtLast_append (mt List.mem_reverse.1 hr)] at h
  cases h

/-! ## Lines -/

theorem linesFrom_append {a : Bytes} (h : Byte.cr ∉ a) :
    ∀ line r, linesFrom line (a ++ r) = linesFrom (a.reverse ++ line) r := by
  induction a with
  | nil => intro line r; rfl
  | cons c a ih =>
    obtain ⟨hc, ha⟩ := not_or.1 (mt List.mem_cons.2 h)
    intro line r
    have hstep : linesFrom line (c :: (a ++ r)) = linesFrom (c :: line) (a ++ r) := by
      rw [linesFrom]
      intro _ hcr
      exact absurd hcr (Ne.symm hc)
    rw [List.cons_append, hstep, ih ha]
    simp

def lineBreak : Bytes := [Byte.cr, Byte.lf]

theorem linesFrom_lineBreak (line r : Bytes) : linesFrom line (lineBreak ++ r) = line.reverse :: linesFrom [] r := rfl

/-- Lines that are joined by line breaks are the lines of the block. -/
theorem lines_joinWith {ls : List Bytes} (hne : ls ≠ []) (h : ∀ l ∈ ls, Byte.cr ∉ l) :
    lines (joinWith lineBreak ls) = ls := by
  induction ls with
  | nil => exact absurd rfl hne
  | cons l ls ih =>
    have hl := h l (by simp)
    cases ls with
    | nil =>
      have := linesFrom_append hl [] []
      simpa [lines, joinWith, linesFrom] using this
    | cons m ms =>
      have hrest : lines (joinWith lineBreak (m :: ms)) = m :: ms :=
        ih (by simp) fun x hx => h x (List.mem_cons_of_mem _ hx)
      rw [lines] at hrest ⊢
      rw [joinWith, List.append_assoc, linesFrom_append hl, linesFrom_lineBreak, hrest]
      · simp
      · simp

theorem linesFrom_ne_nil (line s : Bytes) : linesFrom line s ≠ [] := by
  induction line, s using linesFrom.induct with
  | case1 line => simp [linesFrom]
  | case2 line r ih => exact List.cons_ne_nil line.reverse (linesFrom [] r)
  | case3 line b r hbreak ih =>
    rw [linesFrom]
    · exact ih
    · exact hbreak

theorem joinWith_linesFrom (line s : Bytes) : joinWith lineBreak (linesFrom line s) = line.reverse ++ s := by
  induction line, s using linesFrom.induct with
  | case1 line => simp [linesFrom, joinWith]
  | case2 line r ih =>
    obtain ⟨l, ls, hls⟩ := List.exists_cons_of_ne_nil (linesFrom_ne_nil [] r)
    rw [linesFrom, hls, joinWith, ← hls, ih]
    · simp [lineBreak]
    · simp
  | case3 line b r hbreak ih =>
    rw [linesFrom, ih]
    · simp
    · exact hbreak

/-- The lines of a block, joined by line breaks, are the block. -/
theorem joinWith_lines (s : Bytes) : joinWith lineBreak (lines s) = s := joinWith_linesFrom [] s

theorem lineBreak_ne_nil : lineBreak ≠ [] := List.cons_ne_nil _ _

theorem linesFrom_eq (line s : Bytes) : linesFrom line s = match cut lineBreak s with
    | some (first, rest) => (line.reverse ++ first) :: lines rest
    | none => [line.reverse ++ s] := by
  induction line, s using linesFrom.induct with
  | case1 line => simp [linesFrom, cut, cutFrom, lineBreak]
  | case2 line r ih =>
    have hcut : cut lineBreak (lineBreak ++ r) = some ([], r) :=
      (cut_eq_some_iff lineBreak_ne_nil).2 ⟨rfl, by decide⟩
    show line.reverse :: linesFrom [] r = match cut lineBreak (lineBreak ++ r) with
      | some (first, rest) => (line.reverse ++ first) :: lines rest
      | none => [line.reverse ++ (lineBreak ++ r)]
    rw [hcut]
    simp [lines]
  | case3 line b r hbreak ih =>
    have hnot : ¬ lineBreak <+: b :: r := by
      intro hpre
      obtain ⟨rfl, hrest⟩ := List.cons_prefix_cons.1 hpre
      obtain ⟨t, rfl⟩ := hrest
      exact hbreak t rfl rfl
    rw [linesFrom, ih, cut_cons, if_neg hnot]
    · cases cut lineBreak r with
      | none => simp
      | some p => simp
    · exact hbreak

/-- The first line ends at the first line break. -/
theorem lines_of_cut {s first rest : Bytes} (h : cut lineBreak s = some (first, rest)) : lines s = first :: lines rest := by
  rw [lines, linesFrom_eq, h]
  rfl

theorem lines_of_unbroken {s : Bytes} (h : ¬ lineBreak <:+: s) : lines s = [s] := by
  rw [lines, linesFrom_eq, (cut_eq_none_iff lineBreak_ne_nil s).2 h]
  rfl

structure IsLines (s : Bytes) (ls : List Bytes) : Prop where
  ne_nil : ls ≠ []
  joined : joinWith lineBreak ls = s
  unbroken : ∀ l ∈ ls, ¬ lineBreak <:+: l

theorem lineBreak_infix_concat_cr {l : Bytes} : lineBreak <:+: l ++ [Byte.cr] ↔ lineBreak <:+: l := by
  rw [List.infix_concat_iff]
  refine or_iff_right ?_
  rintro ⟨t, ht⟩
  have hassoc : (t ++ [Byte.cr]) ++ [Byte.lf] = l ++ [Byte.cr] := by rw [← ht, List.append_assoc]; rfl
  exact absurd (List.append_inj' hassoc rfl).2 (by decide)

theorem isLines_lines (s : Bytes) : IsLines s (lines s) := by
  refine ⟨linesFrom_ne_nil [] s, joinWith_lines s, ?_⟩
  induction hlen : s.length using Nat.strong_induction_on generalizing s with
  | _ n ih =>
  subst hlen
  cases hcut : cut lineBreak s with
  | none =>
    have hs := (cut_eq_none_iff lineBreak_ne_nil s).1 hcut
    rw [lines_of_unbroken hs]
    simpa using hs
  | some p =>
    obtain ⟨first, rest⟩ := p
    obtain ⟨rfl, hfirst⟩ := (cut_eq_some_iff lineBreak_ne_nil).1 hcut
    rw [lines_of_cut hcut]
    intro l hl
    rcases List.mem_cons.1 hl with rfl | hl
    · exact mt lineBreak_infix_concat_cr.2 hfirst
    · exact ih rest.length (by simp [lineBreak]; omega) rest rfl l hl

theorem IsLines.eq_lines {s : Bytes} {ls : List Bytes} (h : IsLines s ls) : ls = lines s := by
  induction ls generalizing s with
  | nil => exact absurd rfl h.ne_nil
  | cons l ls ih =>
    have hl := h.unbroken l List.mem_cons_self
    cases ls with
    | nil =>
      obtain rfl : l = s := h.joined
      exact (lines_of_unbroken hl).symm
    | cons m ms =>
      have hcut : cut lineBreak s = some (l, joinWith lineBreak (m :: ms)) := by
        rw [cut_eq_some_iff lineBreak_ne_nil]
        exact ⟨h.joined.symm, mt lineBreak_infix_concat_cr.1 hl⟩
      rw [lines_of_cut hcut, ← ih ⟨by simp, rfl, fun x hx => h.unbroken x (List.mem_cons_of_mem _ hx)⟩]

theorem infix_joinWith {sep l : Bytes} {ls : List Bytes} (h : l ∈ ls) : l <:+: joinWith sep ls := by
  induction ls with
  | nil => cases h
  | cons p ls ih =>
    cases ls with
    | nil =>
      rw [List.mem_singleton.1 h, joinWith]
    | cons q ls =>
      rw [joinWith]
      · rcases List.mem_cons.1 h with rfl | h
        · rw [List.append_assoc]
          exact (List.prefix_append l _).isInfix
        · exact (ih h).trans (List.suffix_append _ _).isInfix
      · simp

/-- What is joined holds the bytes of its parts and of the separator. -/
theorem mem_joinWith {sep : Bytes} {c : UInt8} {ls : List Bytes} (h : c ∈ joinWith sep ls) :
    c ∈ sep ∨ ∃ l ∈ ls, c ∈ l := by
  induction ls with
  | nil => cases h
  | cons l ls ih =>
    cases ls with
    | nil => exact Or.inr ⟨l, by simp, h⟩
    | cons m ms =>
      rw [joinWith, List.mem_append, List.mem_append] at h
      · rcases h with (h | h) | h
        · exact Or.inr ⟨l, by simp, h⟩
        · exact Or.inl h
        · exact (ih h).imp_right fun ⟨k, hk, hc⟩ => ⟨k, List.mem_cons_of_mem _ hk, hc⟩
      · simp

/-- A line of a block stands in the block. -/
theorem infix_of_mem_lines {l s : Bytes} (h : l ∈ lines s) : l <:+: s := by
  have hjoin : l <:+: joinWith lineBreak (lines s) := infix_joinWith h
  rwa [joinWith_lines] at hjoin

/-- Text without a line break is added to the last line. -/
theorem linesFrom_append_line {c : UInt8} {t : Bytes} (hc : c ≠ Byte.lf) (ht : Byte.cr ∉ c :: t) (line s : Bytes) :
    ∃ front last, linesFrom line s = front ++ [last] ∧ linesFrom line (s ++ c :: t) = front ++ [last ++ c :: t] := by
  induction line, s using linesFrom.induct with
  | case1 line =>
    refine ⟨[], line.reverse, rfl, ?_⟩
    have hend := linesFrom_append ht line []
    rw [List.append_nil] at hend
    rw [List.nil_append, hend, linesFrom, List.reverse_append, List.reverse_reverse]
    rfl
  | case2 line r ih =>
    obtain ⟨front, last, hr, hrt⟩ := ih
    refine ⟨line.reverse :: front, last, ?_, ?_⟩
    · rw [linesFrom, hr]
      rfl
    · rw [List.cons_append, List.cons_append, linesFrom, hrt]
      rfl
  | case3 line b r hbreak ih =>
    obtain ⟨front, last, hr, hrt⟩ := ih
    refine ⟨front, last, ?_, ?_⟩
    · rw [linesFrom, hr]
      exact hbreak
    · rw [List.cons_append, linesFrom, hrt]
      -- the first byte of the text does not complete a line break
      intro r' hcr hlf
      cases r with
      | nil => exact hc (List.cons.inj hlf).1
      | cons d r =>
        obtain ⟨rfl, _⟩ := List.cons.inj hlf
        exact hbreak r hcr rfl

/-! ## Trimming -/

theorem dropEnd_eq_rdropWhile (p : UInt8 → Bool) (s : Bytes) : dropEnd p s = s.rdropWhile p := rfl

/-- Trimming stops at the last byte that is to be kept. -/
theorem dropEnd_append_cons {p : UInt8 → Bool} {c : UInt8} (hc : p c = false) (a u : Bytes) :
    dropEnd p (a ++ c :: u) = a ++ c :: dropEnd p u := by
  induction u using List.reverseRecOn with
  | nil =>
    rw [dropEnd_eq_rdropWhile, dropEnd_eq_rdropWhile, List.rdropWhile_concat_neg _ _ _ (by simp [hc])]
    rfl
  | append_singleton u x ih =>
    have hassoc : a ++ c :: (u ++ [x]) = (a ++ c :: u) ++ [x] := by simp
    rw [hassoc, dropEnd_eq_rdropWhile, dropEnd_eq_rdropWhile]
    by_cases hx : p x = true
    · rw [List.rdropWhile_concat_pos _ _ _ hx, List.rdropWhile_concat_pos _ _ _ hx]
      exact ih
    · rw [List.rdropWhile_concat_neg _ _ _ hx, List.rdropWhile_concat_neg _ _ _ hx, hassoc]

theorem dropEnd_cons (p : UInt8 → Bool) (c : UInt8) (u : Bytes) :
    dropEnd p (c :: u) = if dropEnd p u = [] ∧ p c = true then [] else c :: dropEnd p u := by
  simp only [dropEnd, List.reverse_cons, List.dropWhile_append, List.isEmpty_iff]
  by_cases hu : u.reverse.dropWhile p = []
  · by_cases hc : p c = true <;> simp [hu, hc]
  · simp [hu]

/-- Nothing is dropped of a text that ends in a text without a byte to drop. -/
theorem dropEnd_append {p : UInt8 → Bool} {u : Bytes} (hne : u ≠ []) (hu : ∀ c ∈ u, p c = false) (a : Bytes) :
    dropEnd p (a ++ u) = a ++ u := by
  rw [dropEnd_eq_rdropWhile, List.rdropWhile_eq_self_iff]
  intro happ
  rw [List.getLast_append_of_ne_nil happ hne, hu _ (List.getLast_mem hne)]
  exact Bool.false_ne_true

/-- Text without a byte to drop is kept whole. -/
theorem dropEnd_eq_self {p : UInt8 → Bool} {s : Bytes} (h : ∀ c ∈ s, p c = false) : dropEnd p s = s := by
  rw [dropEnd_eq_rdropWhile, List.rdropWhile_eq_self_iff]
  intro hne
  simp [h _ (List.getLast_mem hne)]

/-! ## Numerals -/

theorem toNat_ofChar {c : Char} (h : c.isDigit = true) :
    (UInt8.ofNat c.toNat).toNat = c.toNat ∧ 48 ≤ c.toNat ∧ c.toNat ≤ 57 := by
  have hc : 48 ≤ c.toNat ∧ c.toNat ≤ 57 := Char.isDigit_iff_toNat.1 h
  refine ⟨?_, hc⟩
  rw [UInt8.toNat_ofNat']
  omega

theorem all_isDigit_decimal (n : Nat) : (decimal n).all Byte.isDigit = true := by
  rw [List.all_eq_true]
  intro b hb
  obtain ⟨c, hc, rfl⟩ := List.mem_map.1 hb
  obtain ⟨htoNat, hlow, hhigh⟩ := toNat_ofChar (Nat.isDigit_of_mem_toDigits (by omega) (by omega) hc)
  simp only [Byte.isDigit, Bool.and_eq_true, decide_eq_true_eq, UInt8.le_iff_toNat_le, htoNat]
  exact ⟨hlow, hhigh⟩

theorem decimal_ne_nil (n : Nat) : decimal n ≠ [] := by
  rw [decimal, Ne, List.map_eq_nil_iff]
  exact Nat.toDigits_ne_nil

theorem foldl_digits {cs : List Char} (h : ∀ c ∈ cs, c.isDigit = true) : ∀ n : Nat,
    (cs.map fun c => UInt8.ofNat c.toNat).foldl (fun n c => n * 10 + Byte.digitValue c) n
      = Nat.ofDigitChars 10 cs n := by
  induction cs with
  | nil => intro n; rfl
  | cons c cs ih =>
    intro n
    have hc := (toNat_ofChar (h c (by simp))).1
    rw [List.map_cons, List.foldl_cons, ih (fun x hx => h x (List.mem_cons_of_mem _ hx)), Nat.ofDigitChars_cons,
      Byte.digitValue, hc, Nat.mul_comm]
    rfl

theorem numeral_decimal (n : Nat) : numeral (decimal n) = n := by
  rw [numeral, decimal, foldl_digits fun c hc => Nat.isDigit_of_mem_toDigits (by omega) (by omega) hc]
  exact Nat.ofDigitChars_ten_toDigits

/-- The digits of a number denote it. -/
theorem toNat?_decimal (n : Nat) : toNat? (decimal n) = some n := by
  rw [toNat?, if_pos ⟨decimal_ne_nil n, all_isDigit_decimal n⟩, numeral_decimal]

theorem decimal_of_lt {n : Nat} (h : n < 10) : decimal n = [UInt8.ofNat (48 + n)] := by
  rw [decimal, Nat.toDigits_of_lt_base h, List.map_singleton, Nat.toNat_digitChar_of_lt_ten h]

theorem decimal_of_le {n : Nat} (h : 10 ≤ n) : decimal n = decimal (n / 10) ++ [UInt8.ofNat (48 + n % 10)] := by
  rw [decimal, Nat.toDigits_of_base_le (by omega) h, List.map_append, ← decimal, List.map_singleton,
    Nat.toNat_digitChar_of_lt_ten (Nat.mod_lt n (by omega))]

/-- Numbers are written without leading zeros. -/
theorem head?_decimal {n : Nat} (h : n ≠ 0) : (decimal n).head? ≠ some 48 := by
  induction n using Nat.strongRecOn with
  | ind n ih =>
    rcases Nat.lt_or_ge n 10 with hlt | hle
    · rw [decimal_of_lt hlt, List.head?_cons, Ne, Option.some.injEq, ← UInt8.toNat_inj, UInt8.toNat_ofNat']
      simp only [UInt8.reduceToNat]
      omega
    · rw [decimal_of_le hle, List.head?_append_of_ne_nil _ (decimal_ne_nil _)]
      exact ih (n / 10) (by omega) (by omega)

theorem length_decimal_le {n k : Nat} (hk : 0 < k) (h : n < 10 ^ k) : (decimal n).length ≤ k := by
  rw [decimal, List.length_map]
  exact (Nat.length_toDigits_le_iff (by omega) hk).2 h

theorem numeral_zeros (k : Nat) (s : Bytes) : numeral (List.replicate k 48 ++ s) = numeral s := by
  induction k with
  | zero => rfl
  | succ k ih => exact ih

theorem numeral_eq_ofDigits (s : Bytes) : numeral s = Nat.ofDigits 10 (s.reverse.map Byte.digitValue) := by
  induction s using List.reverseRecOn with
  | nil => rfl
  | append_singleton s c ih =>
    rw [List.reverse_append, List.reverse_singleton, List.singleton_append, List.map_cons, Nat.ofDigits_cons, ← ih,
      numeral, List.foldl_append, ← numeral]
    simp only [List.foldl_cons, List.foldl_nil]
    omega

theorem toNat?_eq_some_iff {s : Bytes} {n : Nat} : toNat? s = some n ↔
    s ≠ [] ∧ (∀ c ∈ s, Byte.isDigit c = true) ∧ n = Nat.ofDigits 10 (s.reverse.map Byte.digitValue) := by
  rw [← numeral_eq_ofDigits, ← List.all_eq_true, toNat?]
  split
  next h =>
    rw [Option.some.injEq]
    exact ⟨fun heq => ⟨h.1, h.2, heq.symm⟩, fun heq => heq.2.2.symm⟩
  next h => exact ⟨fun heq => (by cases heq), fun heq => absurd ⟨heq.1, heq.2.1⟩ h⟩

/-! ## The end of a text -/

@[simp] theorem lastN_nil (n : Nat) : lastN n [] = [] := List.drop_nil

theorem lastN_suffix (n : Nat) (s : Bytes) : lastN n s <:+ s := List.drop_suffix _ _

theorem length_lastN (n : Nat) (s : Bytes) : (lastN n s).length = min n s.length := by
  rw [lastN, List.length_drop]
  omega

/-- A text that is cut to its end again and again ends as it would uncut. -/
theorem lastN_append (n : Nat) (a b : Bytes) : lastN n (lastN n a ++ b) = lastN n (a ++ b) := by
  have hsuffix : lastN n (lastN n a ++ b) <:+ a ++ b :=
    (lastN_suffix n _).trans (List.suffix_append_self_iff.2 (lastN_suffix n a))
  refine (List.suffix_of_suffix_length_le hsuffix (lastN_suffix n (a ++ b)) (le_of_eq ?_)).eq_of_length ?_
  all_goals
    simp only [length_lastN, List.length_append]
    omega

/-! ## Splitting at a byte -/

theorem not_mem_of_mem_splitOn {b : UInt8} {s part : Bytes} (h : part ∈ s.splitOn b) : b ∉ part := by
  induction s generalizing part with
  | nil => simp_all
  | cons c s ih =>
    rw [List.splitOn_cons_eq_if_modifyHead] at h
    obtain ⟨first, rest, hsplit⟩ := List.exists_cons_of_ne_nil (List.splitOn_ne_nil b s)
    rw [hsplit] at ih h
    split at h
    · rcases List.mem_cons.1 h with rfl | h
      · exact List.not_mem_nil
      · exact ih h
    · rename_i hc
      rcases List.mem_cons.1 h with rfl | h
      · have hfirst := ih List.mem_cons_self
        have hne : b ≠ c := fun heq => hc (beq_iff_eq.2 heq.symm)
        simp [hne, hfirst]
      · exact ih (List.mem_cons_of_mem _ h)

/-- Byte order is the order of lists of bytes. -/
theorem before_iff_lt {a b : Bytes} : before a b = true ↔ a < b := by
  induction a generalizing b with
  | nil => cases b <;> simp [before]
  | cons x a ih =>
    cases b with
    | nil => simp [before]
    | cons y b => simp [before, List.cons_lt_cons_iff, ih]

end LanguageClient.Bytes
