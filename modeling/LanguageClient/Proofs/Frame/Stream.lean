import LanguageClient.Proofs.Bytes
import LanguageClient.Frame.Decoder
/-
  LanguageClient.Proofs.Frame.Stream — what a decoder makes of a stream, however it is cut.

  Which block comes first is decided by the bytes of that block: more bytes change neither
  the first block (`next?_append`) nor the later ones (`blocks_append`). What no block could
  be made of is stuck (`next?_left`) and stays so until more bytes come, so a decoder that
  is fed in chunks does what it does when it is fed all of them at once
  (`feedAll_eq_feed`).
-/

namespace LanguageClient.Frame

/-! ## The first block -/

theorem terminator_ne_nil : terminator ≠ [] := by simp [terminator]

theorem next?_invalid {s header rest : Bytes} (hcut : Bytes.cut terminator s = some (header, rest))
    (hlen : contentLength header = none) : next? s = some (.invalid header, rest) := by
  simp only [next?, hcut, hlen]

theorem next?_frame {s header rest : Bytes} {n : Nat} (hcut : Bytes.cut terminator s = some (header, rest))
    (hlen : contentLength header = some n) (hn : n ≤ rest.length) :
    next? s = some (.frame header (rest.take n), rest.drop n) := by
  simp only [next?, hcut, hlen]
  rw [if_neg (Nat.not_lt.2 hn)]

theorem next?_no_terminator {s : Bytes} (hcut : Bytes.cut terminator s = none) : next? s = none := by
  simp only [next?, hcut]

theorem next?_short {s header rest : Bytes} {n : Nat} (hcut : Bytes.cut terminator s = some (header, rest))
    (hlen : contentLength header = some n) (hn : rest.length < n) : next? s = none := by
  simp only [next?, hcut, hlen]
  rw [if_pos hn]

/-- A first block is an invalid header or a frame whose body is there. -/
theorem next?_cases {s rest : Bytes} {b : Block} (h : next? s = some (b, rest)) :
    (∃ header, Bytes.cut terminator s = some (header, rest) ∧ contentLength header = none ∧ b = .invalid header) ∨
    ∃ header after n, Bytes.cut terminator s = some (header, after) ∧ contentLength header = some n ∧
      n ≤ after.length ∧ b = .frame header (after.take n) ∧ rest = after.drop n := by
  cases hcut : Bytes.cut terminator s with
  | none => rw [next?_no_terminator hcut] at h; cases h
  | some p =>
    obtain ⟨header, after⟩ := p
    cases hlen : contentLength header with
    | none =>
      rw [next?_invalid hcut hlen] at h
      cases h
      exact Or.inl ⟨header, rfl, hlen, rfl⟩
    | some n =>
      by_cases hn : n ≤ after.length
      · rw [next?_frame hcut hlen hn] at h
        cases h
        exact Or.inr ⟨header, after, n, rfl, hlen, hn, rfl, rfl⟩
      · rw [next?_short hcut hlen (Nat.lt_of_not_le hn)] at h
        cases h

/-- Bytes that come later do not change the first block. -/
theorem next?_append {s rest : Bytes} {b : Block} (h : next? s = some (b, rest)) (t : Bytes) :
    next? (s ++ t) = some (b, rest ++ t) := by
  rcases next?_cases h with ⟨header, hcut, hlen, rfl⟩ | ⟨header, after, n, hcut, hlen, hn, rfl, rfl⟩
  · exact next?_invalid (Bytes.cut_append terminator_ne_nil hcut t) hlen
  · rw [next?_frame (Bytes.cut_append terminator_ne_nil hcut t) hlen (by rw [List.length_append]; omega),
      List.take_append_of_le_length hn, List.drop_append_of_le_length hn]

/-! ## All blocks -/

theorem blocks_of_none {s : Bytes} (h : next? s = none) : blocks s = ([], s) := by
  rw [blocks]
  split
  · rfl
  · rename_i heq; rw [h] at heq; cases heq

theorem blocks_of_some {s rest : Bytes} {b : Block} (h : next? s = some (b, rest)) :
    blocks s = (b :: (blocks rest).1, (blocks rest).2) := by
  rw [blocks]
  split
  · rename_i heq; rw [h] at heq; cases heq
  · rename_i heq; rw [h] at heq; cases heq; rfl

/-- What is left of a stream does not begin with a complete block. -/
theorem next?_left (s : Bytes) : next? (blocks s).2 = none := by
  induction s using blocks.induct with
  | case1 s h => rw [blocks_of_none h]; exact h
  | case2 s b rest h ih => rw [blocks_of_some h]; exact ih

/-- Bytes that come later add to what was left and to nothing before it. -/
theorem blocks_append (s t : Bytes) :
    blocks (s ++ t) = ((blocks s).1 ++ (blocks ((blocks s).2 ++ t)).1, (blocks ((blocks s).2 ++ t)).2) := by
  induction s using blocks.induct with
  | case1 s h => rw [blocks_of_none h]; rfl
  | case2 s b rest h ih =>
    rw [blocks_of_some h, blocks_of_some (next?_append h t), ih]
    rfl

/-! ## Chunks -/

namespace Decoder

/-- The states of a decoder that is fed and, now and then, emptied. -/
inductive Reachable : Decoder → Prop
  | init : Reachable {}
  | feed {d : Decoder} (chunk : Bytes) : Reachable d → Reachable (d.feed chunk).2
  | reset {d : Decoder} : Reachable d → Reachable { d with held := [] }

/-- A decoder holds back only what no block could be made of. -/
theorem next?_held {d : Decoder} (h : d.Reachable) : next? d.held = none := by
  cases h with
  | init => rfl
  | feed chunk _ => exact next?_left _
  | reset _ => rfl

theorem feed_nil {d : Decoder} (h : d.Reachable) : d.feed [] = ([], d) := by
  rw [feed, List.append_nil, blocks_of_none (next?_held h)]

theorem feed_append (d : Decoder) (a b : Bytes) :
    d.feed (a ++ b) = ((d.feed a).1 ++ ((d.feed a).2.feed b).1, ((d.feed a).2.feed b).2) := by
  simp only [feed]
  rw [← List.append_assoc, blocks_append]

theorem feedAll_eq_feed {d : Decoder} (h : d.Reachable) (chunks : List Bytes) :
    d.feedAll chunks = d.feed chunks.flatten := by
  induction chunks generalizing d with
  | nil => exact (feed_nil h).symm
  | cons c cs ih => rw [feedAll, ih (.feed c h), List.flatten_cons, feed_append]

/-- However a stream is cut into chunks, its blocks, in order, and the bytes held back in the
end are those of the stream fed at once. What is made of a block is up to the block alone. -/
theorem feedAll_chunking {d : Decoder} (h : d.Reachable) {s : Bytes} {cs cs' : List Bytes}
    (hcs : cs.flatten = s) (hcs' : cs'.flatten = s) : d.feedAll cs = d.feed s ∧ d.feedAll cs' = d.feedAll cs := by
  rw [feedAll_eq_feed h, feedAll_eq_feed h, hcs, hcs']
  exact ⟨rfl, rfl⟩

/-- A decoder in the middle of a header line, and cuts inside the empty line. -/
theorem feedAll_chunking_in_header :
    let d := (Decoder.feed {} (text "Content-Le")).2
    let s := text "ngth: 2\r\n\r\nokCon"
    let cs := [text "ngth: 2\r\n\r", [], text "\nokCon"]
    let cs' := [text "ngth: 2\r", text "\n\r\no", text "kCon", []]
    d.Reachable ∧ cs.flatten = s ∧ cs'.flatten = s ∧ d.feedAll cs = d.feed s ∧ d.feedAll cs' = d.feedAll cs := by
  have hd : (Decoder.feed {} (text "Content-Le")).2.Reachable := .feed _ .init
  exact ⟨hd, rfl, rfl, feedAll_chunking hd rfl rfl⟩

end Decoder

end LanguageClient.Frame
