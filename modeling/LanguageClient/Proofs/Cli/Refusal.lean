import LanguageClient.Proofs.Cli.Options
/-
  LanguageClient.Proofs.Cli.Refusal — what is left of the options when an argument is refused.

  A refusal ends the reading, and what was read before it stays read. What is refused itself
  leaves no trace, with one exception: the number that is given as the time to wait is stored
  before its sign is looked at, so a negative one is refused and stays
  (`a_negative_time_stays`). For the tab size the sign is looked at first.

  - `refusal_leaves`: the arguments before the refused ones decide what is left, but for a
    negative time; a tab size is positive whatever happens, and a time is negative in this
    way only.
-/

namespace LanguageClient.Cli

structure Options.IsProper (o : Options) : Prop where
  waitMs : 0 ≤ o.waitMs
  tabSize : ∀ n, o.tabSize = some n → 0 < n

theorem Options.IsProper.apply {o : Options} (h : o.IsProper) {g : Group} (hg : g.IsSound) : (o.apply g).IsProper := by
  constructor
  · rw [apply_waitMs]
    cases hvalue : g.value? .waitMs with
    | none => exact h.waitMs
    | some v =>
      obtain ⟨n, hn, hpos⟩ := takes_of_value? hg hvalue
      simpa [int32?_eq_some_iff.2 hn] using hpos
  · rw [apply_tabSize]
    cases hvalue : g.value? .tabSize with
    | none => exact h.tabSize
    | some v =>
      obtain ⟨n, hn, hpos⟩ := takes_of_value? hg hvalue
      simpa [int32?_eq_some_iff.2 hn] using hpos

theorem Options.IsProper.foldl {o : Options} (h : o.IsProper) {gs : List Group} (hgs : ∀ g ∈ gs, g.IsSound) :
    (gs.foldl Options.apply o).IsProper := by
  induction gs generalizing o with
  | nil => exact h
  | cons g gs ih =>
    obtain ⟨hg, hgs⟩ := List.forall_mem_cons.1 hgs
    exact ih (h.apply hg) hgs

theorem Options.IsProper.read {o : Options} (h : o.IsProper) {args : List Bytes} (hread : (o.read args).2 = none) :
    (o.read args).1.IsProper := by
  obtain ⟨gs, hgs⟩ := spells_of_read hread
  rw [read_of_spells o hgs]
  exact h.foldl hgs.sound

/-- Accepted arguments stand before the ones that come next as if these were read by themselves. -/
theorem read_append {o : Options} {before : List Bytes} (h : (o.read before).2 = none) (rest : List Bytes) :
    o.read (before ++ rest) = (o.read before).1.readAll (rest.map Bytes.beforeNul) := by
  obtain ⟨gs, hgs⟩ := spells_of_read h
  rw [read_of_spells o hgs, Options.read, List.map_append, hgs.words, readAll_words o hgs.sound]

/-- Where reading ends with a refusal: behind arguments that are accepted. -/
theorem refused_at {o : Options} {args : List Bytes} {refusal : Refusal} (h : (o.read args).2 = some refusal) :
    ∃ before rest, args = before ++ rest ∧ (o.read before).2 = none ∧ Offends (rest.map Bytes.beforeNul) refusal := by
  obtain ⟨gs, tail, hargs, hgs, htail⟩ := parted (args.map Bytes.beforeNul)
  obtain ⟨before, rest, rfl, hbefore, rfl⟩ := List.map_eq_append_iff.1 hargs
  have haccepted : (o.read before).2 = none := by rw [read_of_spells o ⟨hbefore, hgs⟩]
  rw [read_append haccepted] at h
  rcases htail with hnone | ⟨other, hother⟩
  · rw [hnone] at h
    cases h
  · obtain rfl : other = refusal := Option.some.inj ((readAll_offending _ hother).1.symm.trans h)
    exact ⟨before, rest, rfl, haccepted, hother⟩

/-- When arguments are refused, those before the refused ones are accepted, and what they set is what is
left, except for a time to wait that is refused because it is negative. From options that can be used no
argument leads to a tab size that is not positive, nor to a negative time but this one. -/
theorem refusal_leaves (o : Options) (args : List Bytes) :
    (∀ refusal, (o.read args).2 = some refusal →
      ∃ before rest, args = before ++ rest ∧ (o.read before).2 = none ∧ Offends (rest.map Bytes.beforeNul) refusal) ∧
    (∀ before rest refusal, args = before ++ rest → (o.read before).2 = none →
      Offends (rest.map Bytes.beforeNul) refusal →
      (o.read args).2 = some refusal ∧ Leaves (o.read before).1 (rest.map Bytes.beforeNul) (o.read args).1) ∧
    (o.IsProper → (∀ n, (o.read args).1.tabSize = some n → 0 < n) ∧
      (0 ≤ (o.read args).1.waitMs ∨ ∃ before rest, args = before ++ rest ∧ (o.read before).2 = none ∧
        NegativeTime (rest.map Bytes.beforeNul) (o.read args).1.waitMs)) := by
  have hleaves : ∀ before rest refusal, args = before ++ rest → (o.read before).2 = none →
      Offends (rest.map Bytes.beforeNul) refusal →
      (o.read args).2 = some refusal ∧ Leaves (o.read before).1 (rest.map Bytes.beforeNul) (o.read args).1 := by
    rintro before rest refusal rfl hbefore hrefused
    rw [read_append hbefore]
    exact readAll_offending _ hrefused
  refine ⟨fun refusal => refused_at, hleaves, fun hproper => ?_⟩
  cases hread : (o.read args).2 with
  | none =>
    have hstill := hproper.read hread
    exact ⟨hstill.tabSize, Or.inl hstill.waitMs⟩
  | some refusal =>
    obtain ⟨before, rest, hargs, hbefore, hrefused⟩ := refused_at hread
    have hstill := hproper.read hbefore
    have hleft := (hleaves before rest refusal hargs hbefore hrefused).2
    generalize (o.read args).1 = r at hleft ⊢
    cases hleft with
    | kept => exact ⟨hstill.tabSize, Or.inl hstill.waitMs⟩
    | negative hnegative => exact ⟨hstill.tabSize, Or.inr ⟨before, rest, hargs, hbefore, hnegative⟩⟩

/-- Of two tab sizes the second is refused: the first one stays, with the time before it. -/
theorem refusal_leaves_the_first_tab_size :
    ({} : Options).IsProper ∧ Offends [text "--tab-size", text "0", text "a.ts"] .tabSize ∧
    ({} : Options).read [text "--wait-ms", text "50", text "--tab-size", text "8", text "--tab-size", text "0", text "a.ts"] =
      ({ waitMs := 50, tabSize := some 8 }, some .tabSize) := by
  let before : List Bytes := [text "--wait-ms", text "50", text "--tab-size", text "8"]
  let rest : List Bytes := [text "--tab-size", text "0", text "a.ts"]
  have hrest : rest.map Bytes.beforeNul = rest := by decide +kernel
  have hread : ({} : Options).read before = ({ waitMs := 50, tabSize := some 8 }, none) := by decide +kernel
  have hrefused : Offends rest .tabSize := .tabSize [text "a.ts"] (by decide +kernel)
  refine ⟨⟨by decide, fun n hn => by cases hn⟩, hrefused, ?_⟩
  obtain ⟨hrefusal, hleft⟩ :=
    (refusal_leaves {} (before ++ rest)).2.1 before rest .tabSize rfl (by rw [hread]) (by rw [hrest]; exact hrefused)
  rw [hread, hrest] at hleft
  refine Prod.ext ?_ hrefusal
  generalize hr : (({} : Options).read (before ++ rest)).1 = r at hleft
  cases hleft with
  | kept => exact hr
  | negative hnegative => exact absurd hnegative (not_negativeTime (by decide) _ _)

/-- A negative time is refused, and stays. -/
theorem a_negative_time_stays :
    ({} : Options).read [text "a.ts", text "--wait-ms", text "-5"] =
      ({ positional := [text "a.ts"], waitMs := -5 }, some .waitMs) ∧
    ({} : Options).read [text "a.ts"] = ({ positional := [text "a.ts"], waitMs := 3000 }, none) := by
  decide +kernel

end LanguageClient.Cli
