import LanguageClient.Proofs.Frame.RoundTrip
import LanguageClient.Proofs.Frame.Tiling
/-
  LanguageClient.Proofs.Frame.Resync — what a bad header costs.

  A header that declares no length is skipped up to its empty line; what should have been its
  body is then left over and runs into the header of the next frame. In a `Leftover` no name
  of a length field stands, and none can begin. The next length is found behind it when it has
  no line break, or nothing but blanks after the last one (`IsPassable`). Otherwise the name
  stands in a later line, where it has to be all that stands before the colon, and the header
  of the good frame is skipped too (`contentLength_leftover`, `feed_leftover`).
-/

namespace LanguageClient.Frame

/-- No name of a length field stands in `s`, in whatever case. -/
def Nameless (s : Bytes) : Prop := ∀ name, Bytes.sameName name nameText = true → ¬ name <:+: s

structure Leftover (o : Bytes) : Prop where
  no_terminator : ¬ terminator <:+: o
  nameless : Nameless o
  /-- The leftover does not end in what a name can begin with. -/
  no_open_name : ∀ c ∈ o.getLast?, isTokenChar c = false

/-- There is no line break, or nothing but blanks after the last one. -/
def IsPassable (o : Bytes) : Prop :=
  (Bytes.lines o).length = 1 ∨ ∀ last ∈ (Bytes.lines o).getLast?, ∀ c ∈ last, isBlank c = true

instance (o : Bytes) : Decidable (IsPassable o) :=
  decidable_of_iff ((Bytes.lines o).length = 1 ∨ (Bytes.lines o).getLast?.all (·.all isBlank) = true) (by
    simp only [IsPassable, Option.all_eq_true, List.all_eq_true, Option.mem_def])

/-! ## Lines without the name -/

theorem sameName_refl (name : Bytes) : Bytes.sameName name name = true := beq_self_eq_true _

/-- In small letters it is one text that must not stand in `s`. -/
theorem nameless_iff {s : Bytes} : Nameless s ↔ ¬ Bytes.lower nameText <:+: Bytes.lower s := by
  constructor
  · rintro h ⟨a, b, hab⟩
    obtain ⟨ab', b', rfl, hab', rfl⟩ := List.map_eq_append_iff.1 hab.symm
    obtain ⟨a', name, rfl, rfl, hname⟩ := List.map_eq_append_iff.1 hab'
    exact h name (beq_iff_eq.2 hname) ⟨a', b', rfl⟩
  · intro h name hname hin
    have hlower : Bytes.lower name <:+: Bytes.lower s := hin.map Byte.lower
    rw [beq_iff_eq.1 hname] at hlower
    exact h hlower

instance (s : Bytes) : Decidable (Nameless s) := decidable_of_iff _ nameless_iff.symm

theorem Nameless.of_infix {s t : Bytes} (h : Nameless t) (hst : s <:+: t) : Nameless s :=
  fun name hname hin => h name hname (hin.trans hst)

theorem trim_isInfix (s : Bytes) : trim s <:+: s := by
  rw [trim_eq, Bytes.dropEnd_eq_rdropWhile]
  exact (List.rdropWhile_prefix _ _).isInfix.trans (List.dropWhile_suffix _).isInfix

theorem leadingValue?_nameless {line : Bytes} (h : Nameless line) : leadingValue? line = none := by
  rw [leadingValue?]
  split
  · rename_i key value hcut
    rw [(Bytes.cutAtLast_eq_some_iff.1 hcut).1] at h
    rw [if_neg]
    intro hends
    obtain ⟨before, name, hkey, hname, _⟩ := (endsInName_iff _).1 hends
    have hin : name <:+: trim key := hkey ▸ (List.suffix_append before name).isInfix
    exact h name hname ((hin.trans (trim_isInfix key)).trans (List.prefix_append key _).isInfix)
  · rfl

theorem laterValue?_nameless {line : Bytes} (h : Nameless line) : laterValue? line = none := by
  rw [laterValue?]
  split
  · rename_i key value hcut
    rw [(Bytes.cutAt_eq_some_iff.1 hcut).1] at h
    rw [if_neg]
    intro hname
    exact h _ hname ((trim_isInfix key).trans (List.prefix_append key _).isInfix)
  · rfl

/-! ## The length line behind a leftover -/

theorem lengthLine_eq (n : Nat) : lengthLine n = nameText ++ Byte.colon :: (lengthField n).value := rfl

/-- The length of the encoder's line is read back. -/
theorem readLength_lengthField {n : Nat} (h : n ≤ maxLength) : readLength (trim (lengthField n).value) = some n := by
  rw [readLength_eq, lengthField, trim_decimal, Bytes.toNat?_decimal]
  simp [Option.filter, h]

theorem dropEnd_append_nameText (s : Bytes) :
    Bytes.dropEnd (fun c => isBlank c || c == Byte.cr) (s ++ nameText) = s ++ nameText :=
  Bytes.dropEnd_append nameText_ne_nil (fun c hc => not_trimmed_of_isTokenChar (nameText_token c hc)) s

/-- In the first line the name may stand behind a leftover. -/
theorem leadingValue?_leftover {o : Bytes} (h : ∀ c ∈ o.getLast?, isTokenChar c = false) (n : Nat) :
    leadingValue? (o ++ lengthLine n) = some (trim (lengthField n).value) := by
  have hcolon : Byte.colon ∉ (lengthField n).value := not_mem_blank_decimal rfl n
  have hends : EndsInName (trim (o ++ nameText)) := by
    rw [endsInName_trim, dropEnd_append_nameText]
    exact ⟨o, nameText, rfl, sameName_refl nameText, h⟩
  rw [lengthLine_eq, ← List.append_assoc]
  simp only [leadingValue?, Bytes.cutAtLast_append hcolon, (endsInName_iff _).2 hends, if_true]

/-- In a later line the name may stand behind blanks only. -/
theorem laterValue?_leftover {o : Bytes} (h : Nameless o) (n : Nat) :
    laterValue? (o ++ lengthLine n)
      = if o.all isBlank then some (trim (lengthField n).value) else none := by
  rw [lengthLine_eq, ← List.append_assoc]
  by_cases hcolon : Byte.colon ∈ o
  · -- what stands before the colon of the leftover is not the name
    obtain ⟨key, value, rfl, hkey⟩ := List.eq_append_cons_of_mem hcolon
    have hassoc : key ++ Byte.colon :: value ++ nameText ++ Byte.colon :: (lengthField n).value
        = key ++ Byte.colon :: (value ++ nameText ++ Byte.colon :: (lengthField n).value) := by simp
    have hname : Bytes.sameName (trim key) nameText = false := by
      rw [Bool.eq_false_iff]
      intro hname
      exact h _ hname ((trim_isInfix key).trans (List.prefix_append key _).isInfix)
    have hblank : ¬ (key ++ Byte.colon :: value).all isBlank = true := by
      intro hall
      exact absurd (List.all_eq_true.1 hall Byte.colon hcolon) (by decide)
    rw [if_neg hblank, hassoc]
    simp only [laterValue?, Bytes.cutAt_append hkey, hname, Bool.false_eq_true, if_false]
  · have hkey : Byte.colon ∉ o ++ nameText := by
      rw [List.mem_append, not_or]
      exact ⟨hcolon, by decide⟩
    simp only [laterValue?, Bytes.cutAt_append hkey]
    by_cases hblank : o.all isBlank = true
    · have htrim : trim (o ++ nameText) = nameText := by
        rw [trim_eq, List.dropWhile_append_of_pos (List.all_eq_true.1 hblank), ← trim_eq, trim_token nameText_token]
      rw [if_pos hblank, htrim, if_pos (sameName_refl nameText)]
    · have hlong : nameText.length < (trim (o ++ nameText)).length := by
        have hleft : o.dropWhile isBlank ≠ [] := by
          rwa [Ne, List.dropWhile_eq_nil_iff, ← List.all_eq_true]
        rw [trim_eq, List.dropWhile_append, if_neg (by simpa using hleft), dropEnd_append_nameText, List.length_append]
        have := List.length_pos_of_ne_nil hleft
        omega
      rw [if_neg hblank, if_neg]
      intro hname
      have := length_of_sameName hname
      omega

theorem lengthLine_cons (n : Nat) : ∃ t, lengthLine n = 67 :: t ∧ Byte.cr ∉ (67 : UInt8) :: t := by
  refine ⟨_, rfl, ?_⟩
  exact (lengthField n).cr_not_mem_line

/-- The length of a header that begins with a leftover. -/
theorem contentLength_leftover {o : Bytes} (h : Leftover o) {n : Nat} (hn : n ≤ maxLength) :
    contentLength (o ++ lengthLine n) = if IsPassable o then some n else none := by
  obtain ⟨t, ht, hcr⟩ := lengthLine_cons n
  obtain ⟨front, last, ho, hol⟩ := Bytes.linesFrom_append_line (c := 67) (by decide) hcr [] o
  rw [← ht] at hol
  have hlines : Bytes.lines o = front ++ [last] := ho
  have hpass : IsPassable o ↔ front = [] ∨ ∀ c ∈ last, isBlank c = true := by
    simp [IsPassable, hlines]
  have hwithin : ∀ l ∈ front ++ [last], Nameless l := fun l hl =>
    h.nameless.of_infix (Bytes.infix_of_mem_lines (hlines ▸ hl))
  rw [contentLength, lengthValue?, Bytes.lines, hol]
  cases front with
  | nil =>
    -- the whole leftover stands in the first line
    have hlast : o = last := by
      have hjoin := Bytes.joinWith_lines o
      rw [hlines] at hjoin
      exact hjoin.symm
    subst hlast
    rw [if_pos (hpass.2 (Or.inl rfl)), List.nil_append]
    show ((leadingValue? (o ++ lengthLine n)).or none).bind readLength = some n
    rw [leadingValue?_leftover h.no_open_name, Option.or_none, Option.bind_some, readLength_lengthField hn]
  | cons first front =>
    have hfront : front.findSome? laterValue? = none := by
      rw [List.findSome?_eq_none_iff]
      intro l hl
      exact laterValue?_nameless (hwithin l (by simp [hl]))
    show ((leadingValue? first).or ((front ++ [last ++ lengthLine n]).findSome? laterValue?)).bind readLength = _
    rw [leadingValue?_nameless (hwithin first (by simp)), Option.none_or, List.findSome?_append, hfront,
      Option.none_or, List.findSome?_cons, List.findSome?_nil, laterValue?_leftover (hwithin last (by simp))]
    by_cases hblank : last.all isBlank = true
    · rw [if_pos hblank, if_pos (hpass.2 (Or.inr (List.all_eq_true.1 hblank)))]
      exact readLength_lengthField hn
    · rw [if_neg hblank, if_neg]
      · rfl
      · rw [hpass]
        simpa using hblank

/-! ## The frame behind a leftover -/

theorem isHeader_leftover {o : Bytes} (h : Leftover o) (n : Nat) : IsHeader (o ++ lengthLine n) := by
  obtain ⟨t, ht, _⟩ := lengthLine_cons n
  have hline : lengthLine n ++ terminator.dropLast = 67 :: (t ++ terminator.dropLast) := by rw [ht]; rfl
  intro hin
  rw [List.append_assoc, hline] at hin
  rcases Bytes.infix_append_cons (by decide) hin with ho | hlater
  · exact h.no_terminator ho
  · have hwhole : terminator <:+: lengthLine n ++ terminator.dropLast := by
      rw [hline]
      exact List.infix_cons hlater
    exact no_terminator_before_end (List.prefix_refl _) hwhole

/-- The bytes of a frame behind a leftover: with the leftover in front, its header line is one
that declares the length, or it is one that is skipped. -/
theorem blocks_leftover {o body : Bytes} (h : Leftover o) (hb : body.length ≤ maxLength) :
    blocks (o ++ encode body) =
      if IsPassable o then ([.frame (o ++ lengthLine body.length) body], [])
      else (.invalid (o ++ lengthLine body.length) :: (blocks body).1, (blocks body).2) := by
  have hlen := contentLength_leftover h hb
  have hheader := isHeader_leftover h body.length
  have hbytes : o ++ encode body = o ++ lengthLine body.length ++ terminator ++ body := by
    simp [encode_eq]
  by_cases hpass : IsPassable o
  · rw [if_pos hpass] at hlen ⊢
    have hfirst : next? (o ++ encode body) = some (.frame (o ++ lengthLine body.length) body, []) :=
      next?_eq_some_iff.2 ⟨⟨hheader, hlen⟩, by rw [hbytes, Block.bytes, List.append_nil]⟩
    rw [blocks_of_some hfirst, blocks_of_none (s := []) rfl]
  · rw [if_neg hpass] at hlen ⊢
    have hfirst : next? (o ++ encode body) = some (.invalid (o ++ lengthLine body.length), body) :=
      next?_eq_some_iff.2 ⟨⟨hheader, hlen⟩, hbytes⟩
    rw [blocks_of_some hfirst]

/-- A header without a length, what is left over of its frame, and a good frame: the good frame
is decoded when the leftover is passable, and else its header is skipped and its body is
taken for what comes next. -/
theorem feed_leftover {header o body : Bytes} (hfirst : IsHeader header) (hlen : contentLength header = none)
    (ho : Leftover o) (hb : body.length ≤ maxLength) :
    Decoder.feed {} (header ++ terminator ++ o ++ encode body) =
      if IsPassable o then ([.invalid header, .frame (o ++ lengthLine body.length) body], {})
      else (.invalid header :: .invalid (o ++ lengthLine body.length) :: (blocks body).1, ⟨(blocks body).2⟩) := by
  have hskip : next? (header ++ terminator ++ o ++ encode body) = some (.invalid header, o ++ encode body) :=
    next?_eq_some_iff.2 ⟨⟨hfirst, hlen⟩, List.append_assoc _ o _⟩
  rw [Decoder.feed, List.nil_append, blocks_of_some hskip, blocks_leftover ho hb]
  by_cases hpass : IsPassable o
  · rw [if_pos hpass, if_pos hpass]
  · rw [if_neg hpass, if_neg hpass]

/-- A body of one line is left over. -/
theorem feed_leftover_of_one_line :
    let header := text "Content-Length: -1"
    let o := text "\x7b\"id\": 1\x7d"
    let body := text "12"
    IsHeader header ∧ contentLength header = none ∧ Leftover o ∧ body.length ≤ maxLength ∧
      Decoder.feed {} (header ++ terminator ++ o ++ encode body)
        = ([.invalid header, .frame (o ++ lengthLine body.length) body], {}) := by
  have hfirst : IsHeader (text "Content-Length: -1") := by unfold IsHeader; decide
  have hlen : contentLength (text "Content-Length: -1") = none := by decide
  have ho : Leftover (text "\x7b\"id\": 1\x7d") := ⟨by decide, by decide, by rintro c ⟨⟩; rfl⟩
  have hb : (text "12").length ≤ maxLength := by decide
  exact ⟨hfirst, hlen, ho, hb, (feed_leftover hfirst hlen ho hb).trans (if_pos (Or.inl (by decide)))⟩

/-- A body of two lines is left over: the header of the good frame is skipped, and its body is
taken for the beginning of another header. -/
theorem a_leftover_of_two_lines_costs_a_frame :
    let header := text "Content-Length: -1"
    let o := text "\x7b\r\n\x7d"
    let body := text "12"
    IsHeader header ∧ contentLength header = none ∧ Leftover o ∧ body.length ≤ maxLength ∧
      Decoder.feed {} (header ++ terminator ++ o ++ encode body)
        = ([.invalid header, .invalid (o ++ text "Content-Length: 2")], ⟨body⟩) := by
  have hbytes : text "Content-Length: -1" ++ terminator ++ text "\x7b\r\n\x7d" ++ encode (text "12")
      = text "Content-Length: -1\r\n\r\n\x7b\r\n\x7dContent-Length: 2\r\n\r\n12" := by decide
  have hskip : next? (text "Content-Length: -1\r\n\r\n\x7b\r\n\x7dContent-Length: 2\r\n\r\n12")
      = some (.invalid (text "Content-Length: -1"), text "\x7b\r\n\x7dContent-Length: 2\r\n\r\n12") := by decide
  have hnext : next? (text "\x7b\r\n\x7dContent-Length: 2\r\n\r\n12")
      = some (.invalid (text "\x7b\r\n\x7dContent-Length: 2"), text "12") := by decide
  have hrest : next? (text "12") = none := by decide
  refine ⟨by unfold IsHeader; decide, by decide, ⟨by decide, by decide, by rintro c ⟨⟩; rfl⟩, by decide, ?_⟩
  rw [hbytes, Decoder.feed, List.nil_append, blocks_of_some hskip, blocks_of_some hnext, blocks_of_none hrest]
  decide

end LanguageClient.Frame
