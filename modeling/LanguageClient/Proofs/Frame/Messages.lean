import LanguageClient.Proofs.Frame.RoundTrip
import LanguageClient.Proofs.Json.Text
/-
  LanguageClient.Proofs.Frame.Messages — messages arrive as they were sent.

  The object that a message is sent as tells all of it, but for what no object can tell: a
  request whose id is null would be taken for a notification, a result beside an error is not
  sent, and of the code of an error 32 bits are read. The messages without such parts, and of
  proper values, are those that come back from their text (`isSound_iff`); every message that
  is read is one of them (`isSound_of_read`).

  - `messages_of_stream`: a stream of frames gives back the messages, however it is cut.
-/

namespace LanguageClient

theorem text_inj {a b : String} : text a = text b ↔ a = b := by
  refine ⟨fun h => ?_, fun h => h ▸ rfl⟩
  have hbytes := ByteArray.ext (Array.toList_inj.1 h)
  exact String.toByteArray_inj.1 hbytes

/-! ## Objects -/

namespace Json

variable {members : List (String × Json)}

theorem get?_ofMembers (members : List (String × Json)) (key : String) :
    (ofMembers members).get? key = (members.reverse.map fun m => (text m.1, m.2)).lookup (text key) := by
  rw [ofMembers, get?, Table.lookup_ofPairs, List.map_reverse]

theorem isObject_ofMembers (members : List (String × Json)) : (ofMembers members).isObject = true := rfl

theorem Proper.ofMembers (h : ∀ m ∈ members, m.2.Proper) : (Json.ofMembers members).Proper := by
  refine .object (Table.sorted_ofPairs _) (fun x hx => ?_) fun x hx => ?_ <;>
    obtain ⟨m, hm, rfl⟩ := List.mem_map.1 (Table.mem_ofPairs hx)
  · exact Utf8.isText_text m.1
  · exact h m hm

theorem Proper.given {v : Json} (h : v.Proper) (key : String) : ∀ m ∈ Json.given key v, m.2.Proper := by
  intro m hm
  rw [Json.given] at hm
  split at hm
  next => cases hm
  next =>
    rw [List.mem_singleton.1 hm]
    exact h

theorem Proper.get? {j v : Json} {key : String} (h : j.Proper) (hget : j.get? key = some v) : v.Proper := by
  cases h with
  | @object members _ _ hmembers =>
    obtain ⟨l₁, l₂, rfl, -⟩ := List.lookup_eq_some_iff.1 hget
    exact hmembers (text key, v) (by simp)
  | number h => cases h <;> cases hget
  | _ => cases hget

theorem Proper.get {j : Json} (h : j.Proper) (key : String) : (j.get key).Proper := by
  rw [Json.get]
  cases hget : j.get? key with
  | none => exact .null
  | some v => exact h.get? hget

theorem of_present? {j v : Json} {key : String} (h : j.present? key = some v) : j.get? key = some v ∧ v ≠ .null := by
  obtain ⟨hget, hne⟩ := Option.filter_eq_some_iff.1 h
  exact ⟨hget, by simpa using hne⟩

theorem Proper.isText_of_text? {j : Json} {s : Bytes} (h : j.Proper) (hs : j.text? = some s) :
    Utf8.isText s = true := by
  cases j <;> cases hs
  exact h.isText

end Json

/-! ## Errors -/

namespace ResponseError

/-- An error that is told by the object it is sent as: its code has 32 bits. -/
structure IsSound (e : ResponseError) : Prop where
  low : -2147483648 ≤ e.code
  high : e.code < 2147483648
  message : Utf8.isText e.message = true
  data : e.data.Proper

theorem toJson_ne_null (e : ResponseError) : e.toJson ≠ .null := by simp [toJson, Json.ofMembers]

theorem IsSound.ofJson_toJson {e : ResponseError} (h : e.IsSound) : ofJson e.toJson = e := by
  obtain ⟨code, message, data⟩ := e
  have hcode : code.bmod 4294967296 = code := Int.bmod_eq_of_le h.low h.high
  by_cases hdata : data = .null <;>
    simp [toJson, ofJson, Json.get, Json.get?_ofMembers, Json.given, Table.lookup_cons_eq, text_inj,
      Json.isObject_ofMembers, Json.integer?, Json.text?, hcode, hdata]

theorem IsSound.proper_toJson {e : ResponseError} (h : e.IsSound) : e.toJson.Proper := by
  have hlow := h.low
  have hhigh := h.high
  apply Json.Proper.ofMembers
  simp only [List.cons_append, List.nil_append, List.forall_mem_cons]
  exact ⟨.number (.int (by omega) (by omega)), .str h.message, h.data.given "data"⟩

theorem isSound_ofJson {j : Json} (h : j.Proper) : (ofJson j).IsSound := by
  rw [ofJson]
  split
  next =>
    refine ⟨?_, ?_, ?_, h.get "data"⟩
    · exact Int.le_bmod (by decide)
    · exact Int.bmod_lt (by decide)
    · cases hm : (j.get "message").text? with
      | none => rfl
      | some s => exact (h.get "message").isText_of_text? hm
  next =>
    have hlow : -2147483648 ≤ internal := by decide
    have hhigh : internal < 2147483648 := by decide
    refine ⟨hlow, hhigh, ?_, h⟩
    cases ht : j.text? with
    | none => exact h.isText_written
    | some s => exact h.isText_of_text? ht

end ResponseError

/-! ## Messages -/

namespace Message

/-- A message that is told by the text it is sent as: a request has an id, and an error stands alone. -/
def IsSound : Message → Prop
  | request r => r.id ≠ .null ∧ r.id.Proper ∧ Utf8.isText r.method = true ∧ r.params.Proper
  | response r => r.id.Proper ∧ r.result.Proper ∧ ∀ e ∈ r.error, r.result = .null ∧ e.IsSound
  | notification n => Utf8.isText n.method = true ∧ n.params.Proper

theorem IsSound.ofJson?_toJson {m : Message} (h : m.IsSound) : ofJson? m.toJson = some m := by
  cases m with
  | request r =>
    obtain ⟨id, method, params⟩ := r
    have hid : id ≠ .null := h.1
    by_cases hparams : params = .null <;>
      simp [toJson, ofJson?, Json.get, Json.present?, Json.get?_ofMembers, Json.given, Table.lookup_cons_eq,
        text_inj, Option.filter_some, Json.text?, hid, hparams]
  | response r =>
    obtain ⟨id, result, error⟩ := r
    cases error with
    | none =>
      simp [toJson, ofJson?, responseOf, Json.get, Json.present?, Json.get?_ofMembers, Table.lookup_cons_eq,
        text_inj]
    | some e =>
      obtain ⟨-, -, herror⟩ := h
      obtain ⟨rfl, hsound⟩ : result = .null ∧ e.IsSound := herror e rfl
      simp [toJson, ofJson?, responseOf, Json.get, Json.present?, Json.get?_ofMembers, Table.lookup_cons_eq,
        text_inj, Option.filter_some, e.toJson_ne_null, hsound.ofJson_toJson]
  | notification n =>
    obtain ⟨method, params⟩ := n
    by_cases hparams : params = .null <;>
      simp [toJson, ofJson?, Json.get, Json.present?, Json.get?_ofMembers, Json.given, Table.lookup_cons_eq,
        text_inj, Json.text?, hparams]

theorem IsSound.proper_toJson {m : Message} (h : m.IsSound) : m.toJson.Proper := by
  apply Json.Proper.ofMembers
  rw [List.forall_mem_cons]
  refine ⟨.str (Utf8.isText_text "2.0"), ?_⟩
  cases m with
  | request r =>
    obtain ⟨-, hid, hmethod, hparams⟩ := h
    simp only [List.cons_append, List.nil_append, List.forall_mem_cons]
    exact ⟨hid, .str hmethod, hparams.given "params"⟩
  | response r =>
    obtain ⟨hid, hresult, herror⟩ := h
    rw [List.forall_mem_cons, List.forall_mem_singleton]
    refine ⟨hid, ?_⟩
    cases he : r.error with
    | none => exact hresult
    | some e => exact (herror e he).2.proper_toJson
  | notification n =>
    obtain ⟨hmethod, hparams⟩ := h
    rw [List.forall_mem_cons]
    exact ⟨.str hmethod, hparams.given "params"⟩

/-- Whatever value a message is made of, it is told by its text from then on. -/
theorem isSound_of_ofJson? {j : Json} {m : Message} (h : j.Proper) (hm : ofJson? j = some m) : m.IsSound := by
  rw [ofJson?] at hm
  split at hm
  next method hmethod =>
    obtain ⟨name, hname, rfl⟩ := Option.map_eq_some_iff.1 hm
    have htext := (h.get? hmethod).isText_of_text? hname
    split
    next id hid =>
      obtain ⟨hget, hne⟩ := Json.of_present? hid
      exact ⟨hne, h.get? hget, htext, h.get "params"⟩
    next => exact ⟨htext, h.get "params"⟩
  next =>
    obtain ⟨id, -, rfl⟩ := Option.map_eq_some_iff.1 hm
    rw [responseOf]
    split
    next e he =>
      have hsound := ResponseError.isSound_ofJson (h.get? (Json.of_present? he).1)
      refine ⟨h.get "id", .null, ?_⟩
      rintro e ⟨⟩
      exact ⟨rfl, hsound⟩
    next =>
      refine ⟨h.get "id", h.get "result", ?_⟩
      rintro e ⟨⟩

end Message

namespace Frame

/-! ## Streams of messages -/

theorem read_written {m : Message} (h : m.IsSound) : read m.written = .ok m := by
  rw [read, Message.written, h.proper_toJson.read?_written]
  simp only [h.ofJson?_toJson]
  rfl

theorem isSound_of_read {body : Bytes} {m : Message} (h : read body = .ok m) : m.IsSound := by
  rw [read] at h
  split at h
  next => cases h
  next v hv =>
    refine Message.isSound_of_ofJson? (.of_read? hv) ?_
    cases hm : Message.ofJson? v with
    | none => simp [hm] at h
    | some m' =>
      rw [hm] at h
      cases h
      rfl

theorem isSound_iff {m : Message} : m.IsSound ↔ read m.written = .ok m :=
  ⟨read_written, isSound_of_read⟩

/-- Messages whose bodies are short enough are decoded from the stream of their frames: each of
them, in order, with nothing to complain of and nothing held back. -/
theorem messages_of_stream {ms : List Message} (hsound : ∀ m ∈ ms, m.IsSound)
    (hlength : ∀ m ∈ ms, m.written.length ≤ maxLength) {chunks : List Bytes}
    (hchunks : chunks.flatten = stream (ms.map Message.written)) :
    let (bs, d) := Decoder.feedAll {} chunks
    messages bs = ms ∧ complaints bs = [] ∧ d = {} := by
  have hbodies : ∀ b ∈ ms.map Message.written, b.length ≤ maxLength := by
    simpa only [List.forall_mem_map] using hlength
  have hrest : next? [] = none := rfl
  have hblocks := blocks_stream hbodies hrest
  rw [List.append_nil] at hblocks
  rw [Decoder.feedAll_eq_feed .init, hchunks, Decoder.feed, List.nil_append, hblocks, List.map_map]
  have hread : ∀ m ∈ ms, (frameOf m.written).read = .ok m := fun m hm => read_written (hsound m hm)
  refine ⟨?_, ?_, rfl⟩
  · rw [messages, List.filterMap_map]
    trans ms.filterMap some
    · exact List.filterMap_congr fun m hm => by simp only [Function.comp_apply, hread m hm]
    · exact List.filterMap_some
  · rw [complaints, List.filterMap_map, List.filterMap_eq_nil_iff]
    intro m hm
    simp only [Function.comp_apply, hread m hm]

end Frame

end LanguageClient
