import LanguageClient.Proofs.Frame.Stream
/-
  LanguageClient.Proofs.Frame.Tiling — a stream is its blocks, one after another, and a rest.

  A block is told by its own bytes: a header up to the first empty line, and the body of the
  length that the header declares, if it declares one (`Block.Valid`). Bytes that no block
  could be made of are `Stuck`. `Tiles` says that blocks and a stuck rest, laid end to end,
  are a stream; a stream is so tiled in one way only, and that is the way in which it is
  decoded (`tiles_iff`, `feed_tiles`).
-/

namespace LanguageClient.Frame

def IsHeader (header : Bytes) : Prop := ¬ terminator <:+: header ++ terminator.dropLast

namespace Block

def bytes : Block → Bytes
  | invalid header => header ++ terminator
  | frame header body => header ++ terminator ++ body

def Valid : Block → Prop
  | invalid header => IsHeader header ∧ contentLength header = none
  | frame header body => IsHeader header ∧ contentLength header = some body.length

def body? : Block → Option Bytes
  | invalid _ => none
  | frame _ body => some body

end Block

/-- No block can be made of `s` yet: the empty line is missing, or a part of the body. -/
def Stuck (s : Bytes) : Prop :=
  ¬ terminator <:+: s ∨
  ∃ header part n, s = header ++ terminator ++ part ∧ IsHeader header ∧ contentLength header = some n ∧ part.length < n

/-- The blocks and the rest, laid end to end, are the stream, and no block is left in the rest. -/
structure Tiles (s : Bytes) (bs : List Block) (rest : Bytes) : Prop where
  bytes : s = bs.flatMap Block.bytes ++ rest
  valid : ∀ b ∈ bs, b.Valid
  stuck : Stuck rest

/-! ## The first block -/

theorem cut_terminator_iff {s header rest : Bytes} :
    Bytes.cut terminator s = some (header, rest) ↔ s = header ++ terminator ++ rest ∧ IsHeader header :=
  Bytes.cut_eq_some_iff terminator_ne_nil

/-- The first block is the valid block that the stream begins with. -/
theorem next?_eq_some_iff {s rest : Bytes} {b : Block} :
    next? s = some (b, rest) ↔ b.Valid ∧ s = b.bytes ++ rest := by
  constructor
  · intro h
    rcases next?_cases h with ⟨header, hcut, hlen, rfl⟩ | ⟨header, after, n, hcut, hlen, hn, rfl, rfl⟩
    · obtain ⟨rfl, hfirst⟩ := cut_terminator_iff.1 hcut
      exact ⟨⟨hfirst, hlen⟩, rfl⟩
    · obtain ⟨rfl, hfirst⟩ := cut_terminator_iff.1 hcut
      refine ⟨⟨hfirst, ?_⟩, ?_⟩
      · rw [hlen, List.length_take, Nat.min_eq_left hn]
      · rw [Block.bytes, List.append_assoc _ (after.take n), List.take_append_drop]
  · rintro ⟨hvalid, rfl⟩
    cases b with
    | invalid header => exact next?_invalid (cut_terminator_iff.2 ⟨rfl, hvalid.1⟩) hvalid.2
    | frame header body =>
      have hcut : Bytes.cut terminator (header ++ terminator ++ body ++ rest) = some (header, body ++ rest) :=
        cut_terminator_iff.2 ⟨List.append_assoc _ body rest, hvalid.1⟩
      have hlen : body.length ≤ (body ++ rest).length := by
        rw [List.length_append]
        omega
      have h := next?_frame hcut hvalid.2 hlen
      rwa [List.take_left, List.drop_left] at h

theorem next?_eq_none_iff {s : Bytes} : next? s = none ↔ Stuck s := by
  constructor
  · intro h
    cases hcut : Bytes.cut terminator s with
    | none => exact Or.inl ((Bytes.cut_eq_none_iff terminator_ne_nil s).1 hcut)
    | some p =>
      obtain ⟨header, after⟩ := p
      obtain ⟨hs, hfirst⟩ := cut_terminator_iff.1 hcut
      cases hlen : contentLength header with
      | none => rw [next?_invalid hcut hlen] at h; cases h
      | some n =>
        by_cases hn : n ≤ after.length
        · rw [next?_frame hcut hlen hn] at h; cases h
        · exact Or.inr ⟨header, after, n, hs, hfirst, hlen, Nat.lt_of_not_le hn⟩
  · rintro (hmissing | ⟨header, part, n, hs, hfirst, hlen, hn⟩)
    · exact next?_no_terminator ((Bytes.cut_eq_none_iff terminator_ne_nil s).2 hmissing)
    · exact next?_short (cut_terminator_iff.2 ⟨hs, hfirst⟩) hlen hn

/-- A stuck stream does not begin with a block. -/
theorem Stuck.no_block {s : Bytes} (h : Stuck s) : ¬ ∃ b : Block, b.Valid ∧ b.bytes <+: s := by
  rintro ⟨b, hvalid, rest, rfl⟩
  have hsome : next? (b.bytes ++ rest) = some (b, rest) := next?_eq_some_iff.2 ⟨hvalid, rfl⟩
  rw [next?_eq_none_iff.2 h] at hsome
  cases hsome

/-! ## All blocks -/

theorem tiles_blocks (s : Bytes) : Tiles s (blocks s).1 (blocks s).2 := by
  induction s using blocks.induct with
  | case1 s h =>
    rw [blocks_of_none h]
    exact ⟨rfl, fun b hb => (by cases hb), next?_eq_none_iff.1 h⟩
  | case2 s b rest h ih =>
    obtain ⟨hvalid, rfl⟩ := next?_eq_some_iff.1 h
    rw [blocks_of_some h]
    refine ⟨?_, ?_, ih.stuck⟩
    · rw [List.flatMap_cons, List.append_assoc, ← ih.bytes]
    · intro c hc
      rcases List.mem_cons.1 hc with rfl | hc
      · exact hvalid
      · exact ih.valid c hc

/-- A stream is tiled in one way, which is the way it is decoded. -/
theorem tiles_iff {s : Bytes} {bs : List Block} {rest : Bytes} : Tiles s bs rest ↔ blocks s = (bs, rest) := by
  constructor
  · intro h
    induction bs generalizing s with
    | nil =>
      rw [h.bytes]
      exact blocks_of_none (next?_eq_none_iff.2 h.stuck)
    | cons b bs ih =>
      have htail : Tiles (bs.flatMap Block.bytes ++ rest) bs rest :=
        ⟨rfl, fun c hc => h.valid c (List.mem_cons_of_mem b hc), h.stuck⟩
      have hfirst : next? s = some (b, bs.flatMap Block.bytes ++ rest) := by
        refine next?_eq_some_iff.2 ⟨h.valid b List.mem_cons_self, ?_⟩
        rw [h.bytes, List.flatMap_cons, List.append_assoc]
      rw [blocks_of_some hfirst, ih htail]
  · intro h
    have ht := tiles_blocks s
    rwa [h] at ht

/-- The messages are what is read of the bodies, one after another. -/
theorem messages_eq (bs : List Block) :
    messages bs = (bs.filterMap Block.body?).filterMap fun body => (read body).toOption := by
  rw [messages, List.filterMap_filterMap]
  congr 1
  funext b
  cases b with
  | invalid header => rfl
  | frame header body =>
    simp only [Option.bind_some, Block.body?, Block.read]
    cases read body <;> rfl

/-- Whatever was held and whatever chunk comes, the decoder hands out the blocks that tile the
bytes and holds the rest: there is no other way to tile them, no block is held back, and
without new bytes nothing more comes of what is held. -/
theorem feed_tiles (d : Decoder) (chunk : Bytes) :
    (∀ bs rest, Tiles (d.held ++ chunk) bs rest ↔ d.feed chunk = (bs, ⟨rest⟩)) ∧
    (¬ ∃ b : Block, b.Valid ∧ b.bytes <+: (d.feed chunk).2.held) ∧
    messages (d.feed chunk).1 = ((d.feed chunk).1.filterMap Block.body?).filterMap (fun body => (read body).toOption) ∧
    (d.feed chunk).2.feed [] = ([], (d.feed chunk).2) := by
  have hheld : next? (d.feed chunk).2.held = none := next?_left _
  refine ⟨fun bs rest => ?_, (next?_eq_none_iff.1 hheld).no_block, messages_eq _, ?_⟩
  · rw [tiles_iff, Decoder.feed, Prod.ext_iff, Prod.ext_iff, Decoder.mk.injEq]
  · rw [Decoder.feed, List.append_nil, blocks_of_none hheld]

end LanguageClient.Frame
