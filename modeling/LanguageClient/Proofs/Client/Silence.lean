import LanguageClient.Proofs.Client.Unready
import LanguageClient.Proofs.Frame.Tiling
/-
  LanguageClient.Proofs.Client.Silence — nothing leaves a client that never became ready.

  A new client whose server cannot be started is used by anybody in any way, also by whom it
  calls out to while it starts, stops or learns that a process has ended. As long as what its
  server writes carries no message, it has nothing to write, issues no request, and whoever
  asks for something is told at once that no server is running (`silent_of_new`). A process
  may well be running all the while.
-/

namespace LanguageClient.Client

variable {η : Type} {read : Bytes → Except Frame.Dropped Message}

def made (config : ServerConfig) (options : ClientOptions) (link : Link) (router : Router η)
    (errors exits publications : Signal η) : Client η :=
  { config := config, options := options, link := link, router := router, errors := errors, exits := exits,
    publications := publications }

/-- Output is handed in only if it completes no message. -/
def Speechless (m : (uses η read).Moment) : Use η → Prop
  | .output chunk => Frame.messagesBy read (m.state.decoder.feed chunk).1 = []
  | _ => True

structure Silent (m : (uses η read).Moment) : Prop where
  unsent : ∀ bytes, .called (.notice (.send bytes)) ∉ m.trace
  no_id : m.state.pending.lastId = 0
  none_pending : m.state.pending.count = 0
  undeclared : m.state.declared.capabilities = none
  /-- Nobody was told anything else. -/
  told : ∀ h v, .called (.notice (.told h v)) ∈ m.trace → v = .rejected .notRunning
  /-- A request is refused by telling its handler so, once, and has no id. -/
  sendRequest : ∀ method params h, m.enter (.sendRequest method params h) =
    ⟨m.state, ⟨.sendRequest method params h, m.state, .notice (.told h (.rejected .notRunning)), fun _ => .done none⟩
      :: m.stack, m.trace ++ [.called (.notice (.told h (.rejected .notRunning)))]⟩
  request : ∀ method params, m.enter (.request method params) =
    { m with trace := m.trace ++ [.ended (.request method params) m.state (.error .notRunning)] }
  completions : ∀ uri position, m.enter (.completions uri position) =
    { m with trace := m.trace ++ [.ended (.completions uri position) m.state (.ok [])] }
  codeActions : ∀ uri known range, m.enter (.codeActions uri known range) =
    { m with trace := m.trace ++ [.ended (.codeActions uri known range) m.state (.ok [])] }
  formatEdits : ∀ uri choice, m.enter (.formatEdits uri choice) =
    { m with trace := m.trace ++ [.ended (.formatEdits uri choice) m.state (.ok [])] }
  diagnostics : ∀ uri,
    m.enter (.diagnostics uri) = { m with trace := m.trace ++ [.ended (.diagnostics uri) m.state []] }

theorem made_unready (config : ServerConfig) (options : ClientOptions) (link : Link) (router : Router η)
    (errors exits publications : Signal η) :
    Unready True (made config options link router errors exits publications) :=
  ⟨(by decide : Phase.disconnected ≠ .ready), fun _ => ⟨rfl, rfl⟩, fun _ => rfl⟩

/-- While the client is not ready a request comes to its handler only. -/
theorem enter_sendRequest {m : (uses η read).Moment} (hopen : m.state.isOpen = false) (method : Bytes)
    (params : Json) (h : η) : m.enter (.sendRequest method params h) =
      ⟨m.state, ⟨.sendRequest method params h, m.state, .notice (.told h (.rejected .notRunning)), fun _ => .done none⟩
        :: m.stack, m.trace ++ [.called (.notice (.told h (.rejected .notRunning)))]⟩ := by
  refine Operations.Moment.proceed_of_waiting ?_
  have haside : (aside (Client.sendRequest method params h)).advance m.state
      = (.waiting (.notice (.told h (.rejected .notRunning))) fun _ => .done none, m.state) := by
    unfold aside
    rw [Routine.advance_relay, advance_sendRequest method params h hopen]
    rfl
  rw [Routine.advance_relay, Use.action, haside]
  rfl

theorem silent_of_new {config : ServerConfig} {options : ClientOptions} {link : Link} {router : Router η}
    {errors exits publications : Signal η} {m : (uses η read).Moment}
    (h : (uses η read).ReachableIf Speechless (made config options link router errors exits publications) m) :
    Silent m := by
  have hkept : Operations.Kept (Unready True) (MayCall True) m := by
    refine Operations.kept (O := uses η read) ?_ (made_unready ..) h
    intro m u hmay hm
    refine keeps_body (transport_obliging u) (fun _ chunk hu => ?_) hm
    rw [hu] at hmay
    exact hmay
  obtain ⟨hid, hwaiting⟩ := hkept.state.unissued trivial
  have hnone := hkept.state.undeclared trivial
  have hopen := isOpen_of_unready hkept.state
  have hoffer : ∀ offer, m.state.declared.supports offer = false := fun offer => by rw [hnone]; rfl
  exact
    { unsent := fun bytes hin => (hkept.called _ hin).elim fun _ hmay => hmay trivial
      no_id := by rw [Pending.lastId, hid]
      none_pending := by rw [Pending.count, hwaiting]; rfl
      undeclared := by rw [hnone]
      told := fun h v hin => (hkept.called _ hin).elim fun _ hmay => hmay trivial
      sendRequest := enter_sendRequest hopen
      request := fun method params => enter_of_ended read (advance_request method params hopen)
      completions := fun uri position => enter_of_ended read (advance_askForList _ _ _ _ (hoffer _))
      codeActions := fun uri known range => enter_of_ended read (advance_askForList _ _ _ _ (hoffer _))
      formatEdits := fun uri choice => enter_of_ended read (advance_askForList _ _ _ _ (hoffer _))
      diagnostics := fun uri => enter_of_ended read (advance_pullDiagnostics uri (hoffer _)) }

/-- A process runs although the client has just been made. While a start waits for it to be
refused the process ends; whoever is told so sends a request, and is being told that it was
refused. -/
def amidStart : (uses Unit Frame.read).Moment :=
  let config : ServerConfig := { name := text "demo", command := text "demo" }
  let m : (uses Unit Frame.read).Moment := ⟨made config {} { running := true } {} {} (Signal.on {} ()).2 {}, [], []⟩
  ((m.enter (.start (text "no such file"))).enter (.exit (some 3))).enter (.sendRequest (text "initialize") .null ())

theorem silent_amid_start : amidStart.stack.length = 3 ∧
    amidStart.state.phase = .errored ∧ Silent amidStart ∧
    Silent (amidStart.enter (.output (text "Content-Length: 4\r\n\r\nnull"))) := by
  have h : (uses Unit Frame.read).ReachableIf Speechless
      (made { name := text "demo", command := text "demo" } {} { running := true } {} {} (Signal.on {} ()).2 {})
      amidStart :=
    ((Relation.ReflTransGen.single (.enter (show Speechless _ (.start _) from trivial))).tail
      (.enter (show Speechless _ (.exit _) from trivial))).tail
      (.enter (show Speechless _ (.sendRequest ..) from trivial))
  have hnull : Speechless amidStart (.output (text "Content-Length: 4\r\n\r\nnull")) := by
    have hblock : Frame.next? (text "Content-Length: 4\r\n\r\nnull")
        = some (.frame (text "Content-Length: 4") (text "null"), []) := by decide
    show Frame.messagesBy Frame.read (Frame.blocks (text "Content-Length: 4\r\n\r\nnull")).1 = []
    rw [Frame.blocks_of_some hblock, Frame.blocks_of_none rfl]
    decide
  exact ⟨rfl, rfl, silent_of_new h, silent_of_new (h.tail (.enter hnull))⟩

end LanguageClient.Client
