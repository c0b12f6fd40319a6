import Mathlib.Data.List.Infix
import LanguageClient.Host.Shell.Pattern
/-
  LanguageClient.Proofs.Host.Pattern — what fits a pattern of the shell.

  Fitting is tried from the front, and at a `*` every end of the text is tried. That finds every
  way in which a text can be made up as the pattern says (`fits_iff`). A text that is quoted is a
  pattern for itself (`fits_quoted`). From a value the shell takes away a beginning or an end that
  fits, the shortest or the longest there is, or leaves the value as it is (`trimFront_spec`,
  `trimBack_spec`).
-/

namespace LanguageClient.Host.Shell.Pattern

/-- A text is made up as a pattern says. -/
inductive Fits : List Item → Bytes → Prop
  | nil : Fits [] []
  | anything (front : Bytes) {is : List Item} {s : Bytes} : Fits is s → Fits (.anything :: is) (front ++ s)
  | byte {i : Item} {b : UInt8} {is : List Item} {s : Bytes} :
      i ≠ .anything → i.fitsByte b = true → Fits is s → Fits (i :: is) (b :: s)

theorem anyEnd_iff (p : Bytes → Bool) (s : Bytes) :
    anyEnd p s = true ↔ ∃ front rest, s = front ++ rest ∧ p rest = true := by
  induction s with
  | nil =>
    rw [anyEnd]
    constructor
    · exact fun h => ⟨[], [], rfl, h⟩
    · rintro ⟨front, rest, heq, h⟩
      obtain ⟨-, rfl⟩ := List.append_eq_nil_iff.1 heq.symm
      exact h
  | cons b s ih =>
    rw [anyEnd, Bool.or_eq_true, ih]
    constructor
    · rintro (h | ⟨front, rest, rfl, h⟩)
      · exact ⟨[], b :: s, rfl, h⟩
      · exact ⟨b :: front, rest, rfl, h⟩
    · rintro ⟨front, rest, heq, h⟩
      cases front with
      | nil => exact .inl (heq ▸ h)
      | cons b' front =>
        obtain ⟨rfl, rfl⟩ := List.cons.inj heq
        exact .inr ⟨front, rest, rfl, h⟩

theorem fits_cons {i : Item} (hi : i ≠ .anything) (is : List Item) (s : Bytes) :
    fits (i :: is) s = true ↔ ∃ b rest, s = b :: rest ∧ i.fitsByte b = true ∧ fits is rest = true := by
  cases s with
  | nil => cases i <;> simp_all [fits]
  | cons b s => cases i <;> simp_all [fits]

theorem fits_iff (is : List Item) (s : Bytes) : fits is s = true ↔ Fits is s := by
  induction is generalizing s with
  | nil =>
    constructor
    · intro h
      obtain rfl : s = [] := by simpa [fits] using h
      exact .nil
    · intro h
      cases h
      rfl
  | cons i is ih =>
    by_cases hi : i = .anything
    · subst hi
      rw [fits, anyEnd_iff]
      constructor
      · rintro ⟨front, rest, rfl, h⟩
        exact .anything front ((ih rest).1 h)
      · intro h
        cases h with
        | anything front h => exact ⟨front, _, rfl, (ih _).2 h⟩
        | byte hne _ _ => exact absurd rfl hne
    · rw [fits_cons hi]
      constructor
      · rintro ⟨b, rest, rfl, hb, h⟩
        exact .byte hi hb ((ih rest).1 h)
      · intro h
        cases h with
        | anything _ _ => exact absurd rfl hi
        | byte _ hb h => exact ⟨_, _, rfl, hb, (ih _).2 h⟩

/-- What is quoted fits itself only. -/
theorem fits_quoted (s t : Bytes) : fits (items (s.map (·, true))) t = true ↔ t = s := by
  induction s generalizing t with
  | nil => simp [items, fits]
  | cons b s ih =>
    have hne : Item.exactly b ≠ .anything := by simp
    rw [List.map_cons, items, if_pos rfl, fits_cons hne]
    constructor
    · rintro ⟨b', rest, rfl, hb, h⟩
      obtain rfl : b' = b := by simpa [Item.fitsByte] using hb
      rw [(ih rest).1 h]
    · rintro rfl
      exact ⟨b, s, rfl, by simp [Item.fitsByte], (ih s).2 rfl⟩

/-! ## Trimming -/

/-- Of two parts the one that is meant is at least as long, or at most. -/
def Beats (longest : Bool) (m n : Nat) : Prop := if longest then n ≤ m else m ≤ n

theorem ends_of_pairwise {ks : List Nat} (h : ks.Pairwise (· < ·)) {k : Nat} :
    (ks.head? = some k → k ∈ ks ∧ ∀ j ∈ ks, k ≤ j) ∧ (ks.getLast? = some k → k ∈ ks ∧ ∀ j ∈ ks, j ≤ k) := by
  constructor
  · intro hhead
    obtain ⟨rest, rfl⟩ := List.head?_eq_some_iff.1 hhead
    refine ⟨List.mem_cons_self, fun j hj => ?_⟩
    rcases List.mem_cons.1 hj with rfl | hj
    · exact Nat.le_refl _
    · exact Nat.le_of_lt ((List.pairwise_cons.1 h).1 j hj)
  · intro hlast
    obtain ⟨init, rfl⟩ := List.getLast?_eq_some_iff.1 hlast
    refine ⟨List.mem_append_right _ List.mem_cons_self, fun j hj => ?_⟩
    rcases List.mem_append.1 hj with hj | hj
    · exact Nat.le_of_lt ((List.pairwise_append.1 h).2.2 j hj k List.mem_cons_self)
    · exact Nat.le_of_eq (List.mem_singleton.1 hj)

/-- Of the lengths up to `n` that will do, the greatest or the least. -/
def chosen (greatest : Bool) (n : Nat) (p : Nat → Bool) : Option Nat :=
  if greatest then ((List.range (n + 1)).filter p).getLast? else ((List.range (n + 1)).filter p).head?

theorem mem_lengths {n : Nat} {p : Nat → Bool} {j : Nat} :
    j ∈ (List.range (n + 1)).filter p ↔ j ≤ n ∧ p j = true := by
  rw [List.mem_filter, List.mem_range, Nat.lt_succ_iff]

theorem chosen_some {greatest : Bool} {n k : Nat} {p : Nat → Bool} (h : chosen greatest n p = some k) :
    k ≤ n ∧ p k = true ∧ ∀ j ≤ n, p j = true → Beats greatest k j := by
  have hends := ends_of_pairwise ((List.pairwise_lt_range (n := n + 1)).filter p) (k := k)
  cases greatest with
  | true =>
    obtain ⟨hk, hall⟩ := hends.2 h
    exact ⟨(mem_lengths.1 hk).1, (mem_lengths.1 hk).2, fun j hj hp => hall j (mem_lengths.2 ⟨hj, hp⟩)⟩
  | false =>
    obtain ⟨hk, hall⟩ := hends.1 h
    exact ⟨(mem_lengths.1 hk).1, (mem_lengths.1 hk).2, fun j hj hp => hall j (mem_lengths.2 ⟨hj, hp⟩)⟩

theorem chosen_none {greatest : Bool} {n : Nat} {p : Nat → Bool} (h : chosen greatest n p = none) {j : Nat}
    (hj : j ≤ n) : p j ≠ true := by
  have hnil : (List.range (n + 1)).filter p = [] := by
    cases greatest with
    | true => exact List.getLast?_eq_none_iff.1 h
    | false => exact List.head?_eq_none_iff.1 h
  exact fun hp => List.not_mem_nil (hnil ▸ mem_lengths.2 ⟨hj, hp⟩)

theorem trimFront_eq (longest : Bool) (is : List Item) (s : Bytes) :
    trimFront longest is s = (chosen longest s.length fun n => fits is (s.take n)).elim s s.drop := by
  unfold trimFront chosen
  dsimp only
  generalize (if longest then ((List.range (s.length + 1)).filter fun n => fits is (s.take n)).getLast?
    else ((List.range (s.length + 1)).filter fun n => fits is (s.take n)).head?) = cut
  cases cut <;> rfl

theorem trimBack_eq (longest : Bool) (is : List Item) (s : Bytes) :
    trimBack longest is s = (chosen (!longest) s.length fun n => fits is (s.drop n)).elim s s.take := by
  have hchosen : (if longest then ((List.range (s.length + 1)).filter fun n => fits is (s.drop n)).head?
      else ((List.range (s.length + 1)).filter fun n => fits is (s.drop n)).getLast?) =
        chosen (!longest) s.length fun n => fits is (s.drop n) := by
    cases longest <;> rfl
  unfold trimBack
  dsimp only
  rw [hchosen]
  cases chosen (!longest) s.length fun n => fits is (s.drop n) <;> rfl

/-- What is left when a beginning that fits is taken away, the longest or the shortest one; the whole text, if none
fits. -/
theorem trimFront_spec (longest : Bool) (is : List Item) (s : Bytes) :
    (∃ front, s = front ++ trimFront longest is s ∧ Fits is front ∧
      ∀ front' rest, s = front' ++ rest → Fits is front' → Beats longest front.length front'.length) ∨
    trimFront longest is s = s ∧ ∀ front rest, s = front ++ rest → ¬ Fits is front := by
  have hcut : ∀ {front rest}, s = front ++ rest → Fits is front →
      front.length ≤ s.length ∧ fits is (s.take front.length) = true := by
    rintro front rest rfl h
    rw [List.take_left]
    exact ⟨by simp, (fits_iff is front).2 h⟩
  rw [trimFront_eq]
  cases hk : chosen longest s.length fun n => fits is (s.take n) with
  | none => exact .inr ⟨rfl, fun front rest heq h => chosen_none hk (hcut heq h).1 (hcut heq h).2⟩
  | some k =>
    obtain ⟨hlength, hfits, hall⟩ := chosen_some hk
    refine .inl ⟨s.take k, (List.take_append_drop k s).symm, (fits_iff is _).1 hfits, fun front' rest heq h => ?_⟩
    rw [List.length_take_of_le hlength]
    exact hall _ (hcut heq h).1 (hcut heq h).2

/-- The same of an end. -/
theorem trimBack_spec (longest : Bool) (is : List Item) (s : Bytes) :
    (∃ back, s = trimBack longest is s ++ back ∧ Fits is back ∧
      ∀ rest back', s = rest ++ back' → Fits is back' → Beats longest back.length back'.length) ∨
    trimBack longest is s = s ∧ ∀ rest back, s = rest ++ back → ¬ Fits is back := by
  have hcut : ∀ {rest back}, s = rest ++ back → Fits is back →
      rest.length ≤ s.length ∧ fits is (s.drop rest.length) = true := by
    rintro rest back rfl h
    rw [List.drop_left]
    exact ⟨by simp, (fits_iff is back).2 h⟩
  rw [trimBack_eq]
  cases hk : chosen (!longest) s.length fun n => fits is (s.drop n) with
  | none => exact .inr ⟨rfl, fun rest back heq h => chosen_none hk (hcut heq h).1 (hcut heq h).2⟩
  | some k =>
    obtain ⟨hlength, hfits, hall⟩ := chosen_some hk
    refine .inl ⟨s.drop k, (List.take_append_drop k s).symm, (fits_iff is _).1 hfits, fun rest back' heq h => ?_⟩
    have hbeats := hall _ (hcut heq h).1 (hcut heq h).2
    have hlengths := congrArg List.length heq
    rw [List.length_append] at hlengths
    rw [List.length_drop]
    -- the longer end begins earlier
    cases longest with
    | true =>
      have hbeats : k ≤ rest.length := hbeats
      show back'.length ≤ s.length - k
      omega
    | false =>
      have hbeats : rest.length ≤ k := hbeats
      show s.length - k ≤ back'.length
      omega

end LanguageClient.Host.Shell.Pattern
