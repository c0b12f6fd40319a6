import LanguageClient.Client
/-
  LanguageClient.Client.Listening — what a client listens for by itself.

  A server publishes the diagnostics of a document, which are kept and handed on to the
  subscribers, and has messages logged or shown, which both end in the log.
-/

namespace LanguageClient.Client

variable {η : Type}

inductive Listener where
  | publications
  | messages
  deriving DecidableEq, Repr

def Listener.router : Router Listener :=
  ((({} : Router Listener).register (text "textDocument/publishDiagnostics") .publications).register
    (text "window/logMessage") .messages).register (text "window/showMessage") .messages

def keepPublished (uri : Bytes) (diagnostics : List Diagnostic) : Aside η Unit :=
  modify fun c : Client η => { c with published := c.published.put uri diagnostics }

def publish (params : Json) : Aside η Unit := do
  match Publication.ofJson params with
  | .error fault => Routine.log (debug (text "Ignoring malformed publishDiagnostics: " ++ fault.message))
  | .ok p =>
    keepPublished p.uri p.diagnostics
    emitPublication p

/-- The level that goes with the type of a message; types are numbered from 1. -/
def levelOf (type : Int) : Log.Level :=
  if type = 1 then .error else if type = 2 then .warn else if type = 3 then .info else .debug

def logMessage (params : Json) : Aside η Unit := do
  let c : Client η ← get
  if params.isObject then
    let message := (params.get "message").text?.getD []
    let type := ((params.get "type").integer?.getD 4).bmod (Nat.pow 2 32)
    Routine.log ⟨levelOf type, text "server", c.config.name ++ text ": " ++ message⟩

def hear : Listener → Json → Aside η Unit
  | .publications, params => publish params
  | .messages, params => logMessage params

end LanguageClient.Client
