import LanguageClient.Proofs.Frame.Header
import LanguageClient.Proofs.Frame.Stream
/-
  LanguageClient.Proofs.Frame.RoundTrip — decoding undoes encoding at every point of the stream.

  The encoder writes one line before the empty line, so the empty line is found where it was
  put (`cut_encode`) and its length is read back (`contentLength_lengthLine`), whatever the
  body is. A stream of frames that has come in part is the frames that have come whole and
  less than one frame more (`stream_prefix`); the former are decoded and the latter is held
  back (`decode_of_prefix`).
-/

namespace LanguageClient.Frame

/-! ## One frame -/

theorem not_mem_blank_decimal {c : UInt8} (h : (c == Byte.space || Byte.isDigit c) = false) (n : Nat) :
    c ∉ Byte.space :: Bytes.decimal n := by
  obtain ⟨hblank, hdigit⟩ := Bool.or_eq_false_iff.1 h
  intro hc
  rcases List.mem_cons.1 hc with hc | hc
  · exact ne_of_beq_false hblank hc
  · rw [List.all_eq_true.1 (Bytes.all_isDigit_decimal n) c hc] at hdigit
    cases hdigit

def lengthField (n : Nat) : Field where
  name := nameText
  value := Byte.space :: Bytes.decimal n
  name_ne_nil := nameText_ne_nil
  name_token := nameText_token
  cr_not_mem := not_mem_blank_decimal rfl n
  lf_not_mem := not_mem_blank_decimal rfl n

def lengthLine (n : Nat) : Bytes := (lengthField n).line

theorem encode_eq (body : Bytes) : encode body = lengthLine body.length ++ (terminator ++ body) := by
  have hname : text "Content-Length: " = nameText ++ [Byte.colon, Byte.space] := by decide
  simp [encode, lengthLine, Field.line, lengthField, hname]

theorem isTokenChar_of_isDigit {c : UInt8} (h : Byte.isDigit c = true) : isTokenChar c = true := by
  simp [isTokenChar, Byte.isAlnum, h]

theorem trim_decimal (n : Nat) : trim (Byte.space :: Bytes.decimal n) = Bytes.decimal n := by
  have hdigits : ∀ c ∈ Bytes.decimal n, isTokenChar c = true := fun c hc =>
    isTokenChar_of_isDigit (List.all_eq_true.1 (Bytes.all_isDigit_decimal n) c hc)
  have hblank : isBlank Byte.space = true := by decide
  rw [trim_eq, List.dropWhile_cons_of_pos hblank, ← trim_eq, trim_token hdigits]

/-- The length that the encoder writes is read back. -/
theorem contentLength_lengthLine {n : Nat} (h : n ≤ maxLength) : contentLength (lengthLine n) = some n := by
  have hplain : ∀ f ∈ [lengthField n].head?, f.Plain := by
    rintro f ⟨⟩
    exact Field.plain_of_not_mem (not_mem_blank_decimal rfl n)
  have hlength : (lengthField n).isLength = true := by
    rw [Field.isLength, Bytes.sameName]; exact beq_self_eq_true _
  have hvalue : lengthIn (lengthField n).value = some n := by
    rw [lengthIn, lengthField, trim_decimal, Bytes.toNat?_decimal]
    simp [Option.filter, h]
  show contentLength (header [lengthField n]) = some n
  rw [contentLength_header hplain, declared, List.find?_cons_of_pos hlength]
  exact hvalue

theorem lf_not_mem_lengthLine (n : Nat) : Byte.lf ∉ lengthLine n := by
  intro hc
  rcases List.mem_append.1 hc with hc | hc
  · exact absurd hc (show Byte.lf ∉ nameText by decide)
  · rcases List.mem_cons.1 hc with hc | hc
    · cases hc
    · exact (lengthField n).lf_not_mem hc

/-- The line and all but the last byte of the empty line hold one line feed, and the empty
line has two. -/
theorem no_terminator_before_end {n : Nat} {s : Bytes} (h : s <+: lengthLine n ++ terminator.dropLast) :
    ¬ terminator <:+: s := by
  intro hin
  have hcount := (hin.trans h.isInfix).sublist.count_le Byte.lf
  have hline : (lengthLine n).count Byte.lf = 0 := List.count_eq_zero.2 (lf_not_mem_lengthLine n)
  rw [List.count_append, hline] at hcount
  exact absurd hcount (by decide)

theorem cut_encode (body r : Bytes) :
    Bytes.cut terminator (encode body ++ r) = some (lengthLine body.length, body ++ r) := by
  rw [encode_eq]
  exact (Bytes.cut_eq_some_iff terminator_ne_nil).2 ⟨by simp, no_terminator_before_end (List.prefix_refl _)⟩

def frameOf (body : Bytes) : Block := .frame (lengthLine body.length) body

theorem next?_encode {body : Bytes} (h : body.length ≤ maxLength) (r : Bytes) :
    next? (encode body ++ r) = some (frameOf body, r) := by
  rw [next?_frame (cut_encode body r) (contentLength_lengthLine h) (by simp), List.take_left, List.drop_left]
  rfl

/-- Less than a whole frame is no block. -/
theorem next?_of_prefix {body part : Bytes} (h : body.length ≤ maxLength) (hpre : part <+: encode body)
    (hne : part ≠ encode body) : next? part = none := by
  rw [encode_eq, ← List.append_assoc] at hpre hne
  by_cases hlen : part.length ≤ (lengthLine body.length ++ terminator.dropLast).length
  · -- the empty line has not come yet
    have hshort : part <+: lengthLine body.length ++ terminator.dropLast :=
      List.prefix_of_prefix_length_le hpre (Bytes.dropLast_prefix_append _ _ _) hlen
    exact next?_no_terminator ((Bytes.cut_eq_none_iff terminator_ne_nil _).2 (no_terminator_before_end hshort))
  · -- the body has come in part
    have hhead : lengthLine body.length ++ terminator <+: part := by
      apply List.prefix_of_prefix_length_le (List.prefix_append _ body) hpre
      simp only [List.length_append, List.length_dropLast, terminator, List.length_cons, List.length_nil] at hlen ⊢
      omega
    obtain ⟨t, rfl⟩ := hhead
    have ht : t <+: body := (List.prefix_append_right_inj _).1 hpre
    have hcut : Bytes.cut terminator (lengthLine body.length ++ terminator ++ t) = some (lengthLine body.length, t) :=
      (Bytes.cut_eq_some_iff terminator_ne_nil).2 ⟨rfl, no_terminator_before_end (List.prefix_refl _)⟩
    apply next?_short hcut (contentLength_lengthLine h)
    apply Nat.lt_of_le_of_ne ht.length_le
    intro heq
    exact hne (by rw [ht.eq_of_length heq])

/-! ## A stream of frames -/

def stream (bodies : List Bytes) : Bytes := (bodies.map encode).flatten

theorem stream_cons (b : Bytes) (bodies : List Bytes) : stream (b :: bodies) = encode b ++ stream bodies := rfl

/-- What has come of the next frame: less than all of it, and nothing when none is to come. -/
def Unfinished (part : Bytes) : List Bytes → Prop
  | [] => part = []
  | b :: _ => part <+: encode b ∧ part ≠ encode b

/-- A stream that has come in part is some whole frames and less than one frame more. -/
theorem stream_prefix {bodies : List Bytes} {p : Bytes} (hp : p <+: stream bodies) :
    ∃ whole rest part, bodies = whole ++ rest ∧ p = stream whole ++ part ∧ Unfinished part rest := by
  induction bodies generalizing p with
  | nil => exact ⟨[], [], p, rfl, rfl, List.prefix_nil.1 hp⟩
  | cons b bodies ih =>
    rw [stream_cons] at hp
    by_cases hb : encode b <+: p
    · obtain ⟨q, rfl⟩ := hb
      obtain ⟨whole, rest, part, rfl, rfl, hpart⟩ := ih ((List.prefix_append_right_inj _).1 hp)
      exact ⟨b :: whole, rest, part, rfl, by rw [stream_cons, List.append_assoc], hpart⟩
    · refine ⟨[], b :: bodies, p, rfl, rfl, ?_, fun heq => hb (heq ▸ List.prefix_refl _)⟩
      rcases Nat.le_total p.length (encode b).length with hle | hle
      · exact List.prefix_of_prefix_length_le hp (List.prefix_append _ _) hle
      · exact absurd (List.prefix_of_prefix_length_le (List.prefix_append _ _) hp hle) hb

theorem next?_unfinished {part : Bytes} {rest : List Bytes} (h : ∀ b ∈ rest, b.length ≤ maxLength)
    (hpart : Unfinished part rest) : next? part = none := by
  cases rest with
  | nil => rw [show part = [] from hpart]; rfl
  | cons b rest => exact next?_of_prefix (h b (by simp)) hpart.1 hpart.2

theorem blocks_stream {whole : List Bytes} (h : ∀ b ∈ whole, b.length ≤ maxLength) {part : Bytes}
    (hpart : next? part = none) : blocks (stream whole ++ part) = (whole.map frameOf, part) := by
  induction whole with
  | nil => exact blocks_of_none hpart
  | cons b whole ih =>
    rw [stream_cons, List.append_assoc, blocks_of_some (next?_encode (h b (by simp)) _),
      ih fun x hx => h x (List.mem_cons_of_mem _ hx)]
    rfl

/-- When the whole stream has come, nothing is unfinished. -/
theorem whole_of_stream {whole rest : List Bytes} {part : Bytes} (hpart : Unfinished part rest)
    (h : stream whole ++ part = stream (whole ++ rest)) : rest = [] ∧ part = [] := by
  have hsplit : stream (whole ++ rest) = stream whole ++ stream rest := by simp [stream]
  rw [hsplit, List.append_cancel_left_eq] at h
  cases rest with
  | nil => exact ⟨rfl, hpart⟩
  | cons b rest =>
    have hle := hpart.1.length_le
    rw [h, stream_cons, List.length_append] at hle
    have hrest : stream rest = [] := List.eq_nil_of_length_eq_zero (by omega)
    exact absurd (by rw [h, stream_cons, hrest, List.append_nil]) hpart.2

/-- Whatever part of a stream of frames has come, in whatever chunks: the frames that have come
whole are decoded, in order and unchanged, and the rest is held back. -/
theorem decode_of_prefix {bodies : List Bytes} (h : ∀ b ∈ bodies, b.length ≤ maxLength) {p : Bytes}
    (hp : p <+: stream bodies) :
    ∃ whole rest part, bodies = whole ++ rest ∧ p = stream whole ++ part ∧ Unfinished part rest ∧
      (p = stream bodies → whole = bodies ∧ part = []) ∧
      ∀ chunks : List Bytes, chunks.flatten = p → Decoder.feedAll {} chunks = (whole.map frameOf, ⟨part⟩) := by
  obtain ⟨whole, rest, part, rfl, rfl, hpart⟩ := stream_prefix hp
  refine ⟨whole, rest, part, rfl, rfl, hpart, ?_, ?_⟩
  · intro hall
    obtain ⟨rfl, rfl⟩ := whole_of_stream hpart hall
    exact ⟨(List.append_nil whole).symm, rfl⟩
  · intro chunks hchunks
    have hrest := next?_unfinished (fun b hb => h b (List.mem_append_right _ hb)) hpart
    have hblocks := blocks_stream (fun b hb => h b (List.mem_append_left _ hb)) hrest
    rw [Decoder.feedAll_eq_feed .init, hchunks, Decoder.feed, List.nil_append, hblocks]

/-- Of three frames, one of them empty and one with an empty line in its body, the first and
four bytes of the second body have come. -/
theorem decode_of_prefix_in_body :
    let bodies := [[], text "a\r\n\r\nb", text "ok"]
    let p := stream [[]] ++ text "Content-Length: 6\r\n\r\na\r\n\r"
    (∀ b ∈ bodies, b.length ≤ maxLength) ∧ p <+: stream bodies ∧
      ∃ whole rest part, bodies = whole ++ rest ∧ p = stream whole ++ part ∧ Unfinished part rest ∧
        (p = stream bodies → whole = bodies ∧ part = []) ∧
        ∀ chunks : List Bytes, chunks.flatten = p → Decoder.feedAll {} chunks = (whole.map frameOf, ⟨part⟩) := by
  have hshort : ∀ b ∈ [[], text "a\r\n\r\nb", text "ok"], b.length ≤ maxLength := by decide
  have hp : stream [[]] ++ text "Content-Length: 6\r\n\r\na\r\n\r" <+: stream [[], text "a\r\n\r\nb", text "ok"] := by
    decide
  exact ⟨hshort, hp, decode_of_prefix hshort hp⟩

end LanguageClient.Frame
