import LanguageClient.Frame.Header
import LanguageClient.Message
import LanguageClient.Log
/-
  LanguageClient.Frame.Decoder — messages framed on a byte stream.

  A frame is a header block, an empty line and a body of the length that the block
  declares. A decoder holds the bytes of the stream that no block could be made of yet; fed
  with more, it hands out the complete blocks in order. A block whose header declares no
  length is skipped, so that the stream goes on after the next empty line.

  - `next?` takes the first complete block off a stream, `blocks` all of them.
  - `length_lt_of_next?`: a block is never empty, so a stream has finitely many.
  - `read` tells what the body of a frame says, or why it is dropped.
-/

namespace LanguageClient.Frame

def terminator : Bytes := [Byte.cr, Byte.lf, Byte.cr, Byte.lf]

def encode (body : Bytes) : Bytes :=
  text "Content-Length: " ++ Bytes.decimal body.length ++ terminator ++ body

inductive Block where
  /-- A header block that declares no length. -/
  | invalid (header : Bytes)
  | frame (header body : Bytes)
  deriving DecidableEq, Repr

/-- The first complete block of a stream and what follows it. -/
def next? (s : Bytes) : Option (Block × Bytes) :=
  match Bytes.cut terminator s with
  | none => none
  | some (header, rest) =>
    match contentLength header with
    | none => some (.invalid header, rest)
    | some n => if rest.length < n then none else some (.frame header (rest.take n), rest.drop n)

theorem length_lt_of_next? {s rest : Bytes} {b : Block} (h : next? s = some (b, rest)) :
    rest.length < s.length := by
  unfold next? at h
  split at h
  next => simp at h
  next header after hcut =>
    have hlen : s.length = header.length + 4 + after.length := by
      rw [Bytes.append_of_cut hcut]
      simp only [terminator, List.length_append, List.length_cons, List.length_nil]
    split at h
    next =>
      simp only [Option.some.injEq, Prod.mk.injEq] at h
      rw [← h.2]
      omega
    next n _ =>
      split at h
      next => simp at h
      next =>
        simp only [Option.some.injEq, Prod.mk.injEq] at h
        rw [← h.2, List.length_drop]
        omega

/-- The complete blocks of a stream, in order, and the bytes that are left. -/
def blocks (s : Bytes) : List Block × Bytes :=
  match _h : next? s with
  | none => ([], s)
  | some (b, rest) =>
    let later := blocks rest
    (b :: later.1, later.2)
  termination_by s.length
  decreasing_by exact length_lt_of_next? _h

structure Decoder where
  /-- Bytes held back for the rest of their frame. -/
  held : Bytes := []
  deriving DecidableEq, Repr

namespace Decoder

def feed (d : Decoder) (chunk : Bytes) : List Block × Decoder :=
  let r := blocks (d.held ++ chunk)
  (r.1, ⟨r.2⟩)

def feedAll (d : Decoder) : List Bytes → List Block × Decoder
  | [] => ([], d)
  | c :: cs =>
    let r := d.feed c
    let rs := feedAll r.2 cs
    (r.1 ++ rs.1, rs.2)

end Decoder

/-! ## What a block says -/

inductive Dropped where
  /-- The header declares no length. -/
  | badHeader (header : Bytes)
  /-- The body is no JSON text. -/
  | notJson (body : Bytes)
  /-- The body is a JSON text but no message. -/
  | notMessage (body : Bytes)
  deriving DecidableEq, Repr

def read (body : Bytes) : Except Dropped Message :=
  match Json.read? body with
  | none => .error (.notJson body)
  | some v => (Message.ofJson? v).elim (.error (.notMessage body)) .ok

def Block.read : Block → Except Dropped Message
  | .invalid header => .error (.badHeader header)
  | .frame _ body => Frame.read body

def preview (s : Bytes) : Bytes := if s.length ≤ 100 then s else s.take 100 ++ text "..."

def Dropped.entry : Dropped → Log.Entry
  | badHeader h => Log.debug "frame-codec" (text "Invalid frame header, skipping: " ++ preview h)
  | notJson b => Log.debug "frame-codec" (text "Malformed JSON-RPC message: " ++ preview b)
  | notMessage b => Log.debug "frame-codec" (text "Not a JSON-RPC message: " ++ preview b)

def messages (bs : List Block) : List Message :=
  bs.filterMap (fun b => match b.read with | .ok m => some m | .error _ => none)

def complaints (bs : List Block) : List Log.Entry :=
  bs.filterMap (fun b => match b.read with | .ok _ => none | .error d => some d.entry)

end LanguageClient.Frame
