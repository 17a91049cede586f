import I3Aiwr.Ipc.Stream
import I3Aiwr.Tree.Move

/-!
# The IPC server

All clients of `src/ipc.c`: connections that are accepted, requests and their handlers, subscriptions and
the events sent to those who have them, and clients that are disconnected. What a handler finds in its
reply, and the events that a command causes, come from the rest of i3; what the parser makes of a
subscription comes from the JSON library.

## Main definitions

* `Ipc.Request`, `Ipc.handlers`, `Ipc.EventKind`: the numbers of the protocol
* `Ipc.IpcClient`, `Ipc.Server`, `Ipc.ipcSendEvent`, `Ipc.ipcReceiveMessage`
* `Ipc.Server.step`: what the main loop calls
-/

namespace I3

namespace Ipc

/-! ### The numbers of the protocol -/

/-- The requests, `I3_IPC_MESSAGE_TYPE_*`. -/
inductive Request
  | runCommand | getWorkspaces | subscribe | getOutputs | tree | getMarks | getBarConfig | getVersion
  | getBindingModes | getConfig | sendTick | sync | getBindingState | getAiwrStatus
  deriving DecidableEq, Repr

/-- The table `handlers`: the request that a number stands for. -/
def handlers : List Request :=
  [.runCommand, .getWorkspaces, .subscribe, .getOutputs, .tree, .getMarks, .getBarConfig, .getVersion,
    .getBindingModes, .getConfig, .sendTick, .sync, .getBindingState, .getAiwrStatus]

/-- The type of the reply, `I3_IPC_REPLY_TYPE_*`, which each handler names itself. -/
def Request.replyType : Request → UInt32
  | .runCommand => 0
  | .getWorkspaces => 1
  | .subscribe => 2
  | .getOutputs => 3
  | .tree => 4
  | .getMarks => 5
  | .getBarConfig => 6
  | .getVersion => 7
  | .getBindingModes => 8
  | .getConfig => 9
  | .sendTick => 10
  | .sync => 11
  | .getBindingState => 12
  | .getAiwrStatus => 13

/-- The events. -/
inductive EventKind
  | workspace | output | mode | window | barconfigUpdate | binding | shutdown | tick
  deriving DecidableEq, Repr

namespace EventKind

/-- The name that clients subscribe to. -/
def text : EventKind → String
  | workspace => "workspace"
  | output => "output"
  | mode => "mode"
  | window => "window"
  | barconfigUpdate => "barconfig_update"
  | binding => "binding"
  | shutdown => "shutdown"
  | tick => "tick"

/-- `I3_IPC_EVENT_MASK`. -/
def mask : UInt32 := (1 : UInt32) <<< 31

/-- `I3_IPC_EVENT_*`. -/
def type : EventKind → UInt32
  | workspace => mask ||| 0
  | output => mask ||| 1
  | mode => mask ||| 2
  | window => mask ||| 3
  | barconfigUpdate => mask ||| 4
  | binding => mask ||| 5
  | shutdown => mask ||| 6
  | tick => mask ||| 7

end EventKind

/-- The message is an event and no reply. -/
def Message.IsEvent (m : Message) : Prop := m.type &&& EventKind.mask ≠ 0

instance (m : Message) : Decidable m.IsEvent := inferInstanceAs (Decidable (_ ≠ _))

/-! ### Clients -/

/-- `ipc_client`, with the place of its connection among all that were accepted, and with what `write`
will do in each call that may push to its socket. -/
structure IpcClient where
  key : ℕ
  future : ℕ → List Write
  calls : ℕ := 0
  connection : Connection := {}
  events : List String := []
  firstTickSent : Bool := false

/-- `ipc_send_client_message`. -/
def IpcClient.send (client : IpcClient) (m : Message) : IpcClient :=
  { client with
    connection := Ipc.step client.connection (.send m (client.future client.calls))
    calls := client.calls + 1 }

/-- `ipc_socket_writeable_cb`. -/
def IpcClient.writeable (client : IpcClient) : IpcClient :=
  { client with
    connection := Ipc.step client.connection (.writeable (client.future client.calls))
    calls := client.calls + 1 }

/-- The client has a subscription for the event. -/
def IpcClient.Subscribed (client : IpcClient) (kind : EventKind) : Prop :=
  client.events.any fun event => sameName event kind.text

instance (client : IpcClient) (kind : EventKind) : Decidable (client.Subscribed kind) :=
  inferInstanceAs (Decidable (_ = true))

/-- `ipc_send_event`: once to each client that is subscribed, however often it is. -/
def ipcSendEvent (kind : EventKind) (payload : List UInt8) (clients : List IpcClient) :
    List IpcClient :=
  clients.map fun client =>
    if client.Subscribed kind then client.send ⟨kind.type, payload⟩ else client

/-! ### Handlers -/

/-- The rest of i3, with its state in `ω`. -/
structure Rest (ω : Type*) where
  /-- The events that a request causes, the payload of its reply, and the state after it. -/
  handle : Request → List UInt8 → ω → List (EventKind × List UInt8) × List UInt8 × ω
  /-- The strings that `yajl_parse` finds, and whether it is `yajl_status_ok`. -/
  strings : List UInt8 → List String × Bool
  /-- The payload of a tick, as JSON. -/
  tick : List UInt8 → List UInt8

/-- The bytes of a text in the source. -/
def text (s : String) : List UInt8 := s.toList.map fun c => UInt8.ofNat c.toNat

def successTrue : List UInt8 := text "\x7b\"success\":true\x7d"

def successFalse : List UInt8 := text "\x7b\"success\":false\x7d"

def firstTick : List UInt8 := text "\x7b\"first\":true,\"payload\":\"\"\x7d"

/-- What `handle_subscribe` does for the client with the strings of the request. The first tick is for
`tick` as it is written, while an event is for any case. -/
def IpcClient.subscribe (client : IpcClient) (names : List String) (ok : Bool) : IpcClient :=
  let client := { client with events := client.events ++ names }
  if ¬ ok then client.send ⟨Request.subscribe.replyType, successFalse⟩
  else
    let client := client.send ⟨Request.subscribe.replyType, successTrue⟩
    if client.firstTickSent then client
    else if "tick" ∉ client.events then client
    else { client with firstTickSent := true }.send ⟨EventKind.tick.type, firstTick⟩

/-- Something is done for the client with a key. -/
def update (key : ℕ) (f : IpcClient → IpcClient) (clients : List IpcClient) : List IpcClient :=
  clients.map fun client => if client.key = key then f client else client

/-- The server: `all_clients`, the number of connections that were accepted, and the rest of i3. -/
structure Server (ω : Type*) where
  allClients : List IpcClient := []
  accepted : ℕ := 0
  rest : ω

variable {ω : Type*} (R : Rest ω)

/-- The handler of a request. -/
def Server.handle (s : Server ω) (key : ℕ) (request : Request) (payload : List UInt8) : Server ω :=
  match request with
  | .subscribe =>
    let (names, ok) := R.strings payload
    { s with allClients := update key (·.subscribe names ok) s.allClients }
  | .sendTick =>
    let clients := ipcSendEvent .tick (R.tick payload) s.allClients
    { s with allClients := update key (·.send ⟨Request.sendTick.replyType, successTrue⟩) clients }
  | request =>
    let (events, reply, rest) := R.handle request payload s.rest
    let clients := events.foldl (fun clients e => ipcSendEvent e.1 e.2 clients) s.allClients
    { s with allClients := update key (·.send ⟨request.replyType, reply⟩) clients, rest := rest }

/-- `ipc_receive_message`, for a message that was received. -/
def Server.ipcReceiveMessage (s : Server ω) (key : ℕ) (type : UInt32) (payload : List UInt8) :
    Server ω :=
  match handlers[type.toNat]? with
  | none => s
  | some request => s.handle R key request payload

/-- `free_ipc_client`. -/
def Server.freeIpcClient (s : Server ω) (key : ℕ) : Server ω :=
  { s with allClients := s.allClients.filter fun client => client.key ≠ key }

/-- What the main loop calls. -/
inductive Call (ω : Type*)
  /-- `ipc_new_client_on_fd`, for a socket for which `write` will do what is told. -/
  | connect (future : ℕ → List Write)
  /-- A client sent a message. -/
  | request (key : ℕ) (type : UInt32) (payload : List UInt8)
  /-- The connection ended, or had an error. -/
  | hangup (key : ℕ)
  /-- A socket is writeable. -/
  | writeable (key : ℕ)
  /-- The timer of a client expired: `ipc_client_timeout`. -/
  | timeout (key : ℕ)
  /-- The rest of i3 sends an event. -/
  | event (kind : EventKind) (payload : List UInt8)
  /-- `ipc_shutdown`, with the payload that tells why. -/
  | shutdown (payload : List UInt8)
  /-- Anything else changes the rest of i3. -/
  | other (change : ω → ω)

/-- The client with the key. -/
def Server.client (s : Server ω) (key : ℕ) : Option IpcClient :=
  s.allClients.find? fun client => client.key = key

def Server.step (s : Server ω) : Call ω → Server ω
  | .connect future =>
    { s with allClients := s.allClients ++ [{ key := s.accepted, future }], accepted := s.accepted + 1 }
  | .request key type payload =>
    if (s.client key).isSome then s.ipcReceiveMessage R key type payload else s
  | .hangup key => s.freeIpcClient key
  | .writeable key => { s with allClients := update key IpcClient.writeable s.allClients }
  | .timeout key =>
    if (s.client key).any fun client => client.connection.client.timeout then s.freeIpcClient key else s
  | .event kind payload => { s with allClients := ipcSendEvent kind payload s.allClients }
  | .shutdown payload =>
    { s with allClients := (ipcSendEvent .shutdown payload s.allClients).filter fun _ => false }
  | .other change => { s with rest := change s.rest }

end Ipc

end I3
