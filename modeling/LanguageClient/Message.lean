import LanguageClient.Json.Text
import LanguageClient.Error
/-
  LanguageClient.Message — the three kinds of message and the objects they are sent as.

  A request carries an id that its response repeats; a notification carries none. A
  response holds either a result or an error. Two messages are equal when they are of one
  kind and agree in every field.
-/

namespace LanguageClient

structure ResponseError where
  code : Int
  message : Bytes
  /-- `null` when the server sent none. -/
  data : Json := .null
  deriving DecidableEq, Repr

structure Request where
  id : Json
  method : Bytes
  params : Json := .null
  deriving DecidableEq, Repr

structure Response where
  /-- `null` for an error that belongs to no request. -/
  id : Json
  result : Json := .null
  error : Option ResponseError := none
  deriving DecidableEq, Repr

structure Notification where
  method : Bytes
  params : Json := .null
  deriving DecidableEq, Repr

inductive Message where
  | request (r : Request)
  | response (r : Response)
  | notification (n : Notification)
  deriving DecidableEq, Repr

namespace Response

def success (id result : Json) : Response := { id := id, result := result }

def failure (id : Json) (code : Int) (message : Bytes) : Response :=
  { id := id, error := some { code := code, message := message } }

end Response

/-! ## Errors -/

namespace ResponseError

/-- The code of an error that is no object, so that it has none of its own. -/
def internal : Int := -32603

def toJson (e : ResponseError) : Json :=
  .ofMembers ([("code", .int e.code), ("message", .str e.message)] ++ Json.given "data" e.data)

/-- The error that a value stands for. What is not there, or is not of its kind, is left empty. -/
def ofJson (j : Json) : ResponseError :=
  if j.isObject then
    { code := ((j.get "code").integer?.getD 0).bmod (Nat.pow 2 32)
      message := (j.get "message").text?.getD []
      data := j.get "data" }
  else { code := internal, message := j.text?.getD j.written, data := j }

end ResponseError

namespace Message

def methodNotFound : Int := -32601

def toJson (m : Message) : Json :=
  .ofMembers (("jsonrpc", .str (text "2.0")) :: match m with
    | request r => [("id", r.id), ("method", .str r.method)] ++ Json.given "params" r.params
    | response r => [("id", r.id), r.error.elim ("result", r.result) fun e => ("error", e.toJson)]
    | notification n => ("method", .str n.method) :: Json.given "params" n.params)

def written (m : Message) : Bytes := m.toJson.written

def responseOf (j : Json) : Response :=
  match j.present? "error" with
  | some e => { id := j.get "id", error := some (.ofJson e) }
  | none => { id := j.get "id", result := j.get "result" }

/-- The message that a value stands for. An object with a method is a request or, without an id, a
notification; one with an id alone is a response. -/
def ofJson? (j : Json) : Option Message :=
  match j.get? "method" with
  | some method => method.text?.map fun method =>
    match j.present? "id" with
    | some id => request ⟨id, method, j.get "params"⟩
    | none => notification ⟨method, j.get "params"⟩
  | none => (j.get? "id").map fun _ => response (responseOf j)

end Message

end LanguageClient
