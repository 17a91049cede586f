import I3Aiwr.Ipc.Server

/-!
# What a client of the IPC server gets

What happens at the server, apart from how it reaches the clients: requests are replied to, events are
sent, subscriptions are added. Each client has a mailbox that takes its part of what happens, and knows of
no other client, no buffer and no socket. The server gives each client what its mailbox has, whatever
happens to the others, and whenever the sockets take what is written to them.

## Main definitions

* `Ipc.Happening`, `Ipc.Server.happenings`: what happens in a run
* `Ipc.Mailbox`: what a client is owed of it
* `Ipc.requests`, `Ipc.eventsFor`: its requests that have a handler, and the events it is subscribed to

## Main results

* `Ipc.Server.Serves.step`: each call gives every client what its mailbox takes
* `Ipc.server_serves`: the stream of a client has a reply for each of its requests, in their order, and the
  events it was subscribed to when they were sent
-/

namespace I3

namespace Ipc

/-! ### What happens -/

/-- What a call of the main loop means, for whoever it concerns. -/
inductive Happening
  /-- A subscription by the client with a key, with the strings that were found in it. -/
  | subscribed (key : ℕ) (names : List String) (ok : Bool)
  | replied (key : ℕ) (request : Request) (reply : List UInt8)
  | broadcast (kind : EventKind) (payload : List UInt8)

variable {ω : Type*} {R : Rest ω} {s : Server ω} {key : ℕ}

/-- What a handler does, in its order. -/
def Request.happens (R : Rest ω) (rest : ω) (key : ℕ) (payload : List UInt8) : Request → List Happening
  | .subscribe => [.subscribed key (R.strings payload).1 (R.strings payload).2]
  | .sendTick => [.broadcast .tick (R.tick payload), .replied key .sendTick successTrue]
  | request =>
    (R.handle request payload rest).1.map (fun e => .broadcast e.1 e.2)
      ++ [.replied key request (R.handle request payload rest).2.1]

/-- What happens in a call. -/
def Server.happens (R : Rest ω) (s : Server ω) : Call ω → List Happening
  | .request key type payload =>
    if (s.client key).isSome then
      match handlers[type.toNat]? with
      | none => []
      | some request => request.happens R s.rest key payload
    else []
  | .event kind payload => [.broadcast kind payload]
  | .shutdown payload => [.broadcast .shutdown payload]
  | _ => []

/-- What happens in a run. -/
def Server.happenings (R : Rest ω) : Server ω → List (Call ω) → List Happening
  | _, [] => []
  | s, call :: calls => s.happens R call ++ (s.step R call).happenings R calls

/-! ### Mailboxes -/

/-- A client as it is apart from its connection: its subscriptions, whether it had the first tick, and the
messages it was sent. -/
structure Mailbox where
  events : List String := []
  firstTickSent : Bool := false
  delivered : List Message := []

namespace Mailbox

def deliver (b : Mailbox) (m : Message) : Mailbox := { b with delivered := b.delivered ++ [m] }

/-- A subscription. The first tick comes with the first that has it. -/
def subscribe (b : Mailbox) (names : List String) (ok : Bool) : Mailbox :=
  let b := { b with events := b.events ++ names }
  let b := b.deliver ⟨Request.subscribe.replyType, if ok then successTrue else successFalse⟩
  if ok ∧ ¬ b.firstTickSent ∧ "tick" ∈ b.events then
    { b with firstTickSent := true }.deliver ⟨EventKind.tick.type, firstTick⟩
  else b

theorem subscribe_eq (b : Mailbox) (names : List String) (ok : Bool) :
    b.subscribe names ok
      = if ok = true ∧ ¬ b.firstTickSent = true ∧ "tick" ∈ b.events ++ names then
          ⟨b.events ++ names, true, b.delivered
            ++ [⟨Request.subscribe.replyType, if ok then successTrue else successFalse⟩]
            ++ [⟨EventKind.tick.type, firstTick⟩]⟩
        else
          ⟨b.events ++ names, b.firstTickSent, b.delivered
            ++ [⟨Request.subscribe.replyType, if ok then successTrue else successFalse⟩]⟩ := rfl

/-- What a mailbox has of what happens. -/
def take (key : ℕ) (b : Mailbox) : Happening → Mailbox
  | .subscribed k names ok => if k = key then b.subscribe names ok else b
  | .replied k request reply => if k = key then b.deliver ⟨request.replyType, reply⟩ else b
  | .broadcast kind payload =>
    if b.events.any fun event => sameName event kind.text then b.deliver ⟨kind.type, payload⟩ else b

end Mailbox

/-- The mailbox of a client after what happened. -/
def mailbox (key : ℕ) (hs : List Happening) : Mailbox := hs.foldl (Mailbox.take key) {}

theorem mailbox_append (hs hs' : List Happening) :
    mailbox key (hs ++ hs') = hs'.foldl (Mailbox.take key) (mailbox key hs) :=
  List.foldl_append

/-! ### What the server gives -/

/-- The client has what its mailbox has. Where no write to its socket fails, what the socket took and what
is pending are the messages of the mailbox. -/
structure IpcClient.Has (client : IpcClient) (b : Mailbox) : Prop where
  events : client.events = b.events
  firstTickSent : client.firstTickSent = b.firstTickSent
  stream : (∀ n, .error ∉ client.future n) →
    Intact (b.delivered.flatMap Message.encode) client.connection

variable {client : IpcClient} {b : Mailbox}

/-- Without errors, `writeall_nonblock` returns how much was written. -/
theorem writeallNonblock_ne_none {count : ℕ} {ws : List Write} {written : ℕ} (h : .error ∉ ws) :
    (writeallNonblock count ws written).1 ≠ none := by
  induction ws generalizing written with
  | nil => exact Option.some_ne_none _
  | cons w ws ih =>
    rw [List.mem_cons, not_or] at h
    unfold writeallNonblock
    split
    · cases w with
      | takes n => exact ih h.2
      | again => exact Option.some_ne_none _
      | intr => exact ih h.2
      | error => exact absurd rfl h.1
    · exact Option.some_ne_none _

theorem clean_of_notMem {connection : Connection} {ws : List Write} (h : .error ∉ ws) (m : Message) :
    Clean connection (.send m ws) ∧ Clean connection (.writeable ws) := by
  have htakes (c : Client) : TakesNone c ws := fun hnone => absurd hnone (writeallNonblock_ne_none h)
  constructor
  all_goals
    intro p hp
    unfold pushes at hp
    dsimp only at hp
    split at hp
    · obtain rfl := Option.some_inj.mp hp
      exact htakes _
    · cases hp

theorem IpcClient.Has.send (h : client.Has b) (m : Message) : (client.send m).Has (b.deliver m) where
  events := h.events
  firstTickSent := h.firstTickSent
  stream hfuture := by
    have hstep := intact_step (h.stream hfuture) (clean_of_notMem (hfuture client.calls) m).1
    rw [Mailbox.deliver, List.flatMap_append]
    exact hstep

theorem IpcClient.Has.writeable (h : client.Has b) : client.writeable.Has b where
  events := h.events
  firstTickSent := h.firstTickSent
  stream hfuture := by
    have hnone (ws : List Write) : messages [.writeable ws] = [] := rfl
    have hstep := intact_step (h.stream hfuture)
      (clean_of_notMem (hfuture client.calls) ⟨0, []⟩).2
    rw [hnone, List.flatMap_nil, List.append_nil] at hstep
    exact hstep

theorem IpcClient.Has.subscribe (h : client.Has b) (names : List String) (ok : Bool) :
    (client.subscribe names ok).Has (b.subscribe names ok) := by
  obtain ⟨key, future, calls, connection, events, firstTickSent⟩ := client
  obtain ⟨events', firstTickSent', delivered⟩ := b
  obtain rfl : events = events' := h.events
  obtain rfl : firstTickSent = firstTickSent' := h.firstTickSent
  have hadded : IpcClient.Has ⟨key, future, calls, connection, events ++ names, firstTickSent⟩
      ⟨events ++ names, firstTickSent, delivered⟩ := ⟨rfl, rfl, h.stream⟩
  unfold IpcClient.subscribe Mailbox.subscribe
  cases ok with
  | false => exact hadded.send _
  | true =>
    have hreply := hadded.send ⟨Request.subscribe.replyType, successTrue⟩
    have hfirst : IpcClient.Has
        { IpcClient.send ⟨key, future, calls, connection, events ++ names, firstTickSent⟩
            ⟨Request.subscribe.replyType, successTrue⟩ with firstTickSent := true }
        { Mailbox.deliver ⟨events ++ names, firstTickSent, delivered⟩
            ⟨Request.subscribe.replyType, successTrue⟩ with firstTickSent := true } :=
      ⟨rfl, rfl, hreply.stream⟩
    cases firstTickSent with
    | true => exact hreply
    | false =>
      by_cases htick : "tick" ∈ events ++ names
      · have hsend := hfirst.send ⟨EventKind.tick.type, firstTick⟩
        simpa [htick, Mailbox.deliver, IpcClient.send] using hsend
      · simpa [htick, Mailbox.deliver, IpcClient.send] using hreply

/-- An event reaches a client as it does its mailbox. -/
theorem IpcClient.Has.event (h : client.Has b) (key : ℕ) (kind : EventKind) (payload : List UInt8) :
    (if client.Subscribed kind then client.send ⟨kind.type, payload⟩ else client).Has
      (b.take key (.broadcast kind payload)) := by
  have hiff : client.Subscribed kind ↔ b.events.any (fun event => sameName event kind.text) := by
    rw [IpcClient.Subscribed, h.events]
  unfold Mailbox.take
  dsimp only
  by_cases hsubscribed : client.Subscribed kind
  · rw [if_pos hsubscribed, if_pos (hiff.mp hsubscribed)]
    exact h.send _
  · rw [if_neg hsubscribed, if_neg (mt hiff.mpr hsubscribed)]
    exact h

/-! ### All clients -/

/-- Every client has what its mailbox has, and no mailbox has anything before its client is there. -/
structure Server.Serves (s : Server ω) (hs : List Happening) : Prop where
  has : ∀ client ∈ s.allClients, client.Has (mailbox client.key hs)
  lt : ∀ client ∈ s.allClients, client.key < s.accepted
  empty : ∀ key, s.accepted ≤ key → mailbox key hs = {}

/-- What one of the happenings does at the server. -/
def Happening.reach (clients : List IpcClient) : Happening → List IpcClient
  | .subscribed key names ok => update key (·.subscribe names ok) clients
  | .replied key request reply => update key (·.send ⟨request.replyType, reply⟩) clients
  | .broadcast kind payload => ipcSendEvent kind payload clients

/-- What happens concerns only clients that were accepted before. -/
def Happening.Among (n : ℕ) : Happening → Prop
  | .subscribed key _ _ => key < n
  | .replied key _ _ => key < n
  | .broadcast _ _ => True

variable {hs : List Happening}

theorem mem_update {f : IpcClient → IpcClient} {clients : List IpcClient}
    (h : client ∈ update key f clients) :
    ∃ old ∈ clients, (if old.key = key then f old else old) = client :=
  List.mem_map.mp h

/-- It is the same connection. -/
def IpcClient.Same (c d : IpcClient) : Prop := c.key = d.key ∧ c.future = d.future

theorem IpcClient.same_subscribe (c : IpcClient) (names : List String) (ok : Bool) :
    c.Same (c.subscribe names ok) := by
  unfold IpcClient.subscribe
  dsimp only
  split_ifs <;> exact ⟨rfl, rfl⟩

/-- No client is new. -/
theorem Happening.exists_same {clients : List IpcClient} (h : Happening)
    (hc : client ∈ h.reach clients) : ∃ old ∈ clients, old.Same client := by
  cases h with
  | subscribed key names ok =>
    obtain ⟨old, hold, rfl⟩ := mem_update hc
    refine ⟨old, hold, ?_⟩
    split
    · exact old.same_subscribe names ok
    · exact ⟨rfl, rfl⟩
  | replied key request reply =>
    obtain ⟨old, hold, rfl⟩ := mem_update hc
    refine ⟨old, hold, ?_⟩
    split <;> exact ⟨rfl, rfl⟩
  | broadcast kind payload =>
    obtain ⟨old, hold, rfl⟩ := List.mem_map.mp hc
    refine ⟨old, hold, ?_⟩
    split <;> exact ⟨rfl, rfl⟩

/-- Each client is reached as its mailbox is. -/
theorem Happening.reach_has {clients : List IpcClient} (hall : ∀ c ∈ clients, c.Has (mailbox c.key hs))
    (h : Happening) : ∀ c ∈ h.reach clients, c.Has (mailbox c.key (hs ++ [h])) := by
  intro c hc
  rw [mailbox_append]
  cases h with
  | subscribed key names ok =>
    obtain ⟨old, hold, rfl⟩ := mem_update hc
    split
    · next heq =>
      rw [← (old.same_subscribe names ok).1, List.foldl_cons, List.foldl_nil, Mailbox.take, if_pos heq.symm]
      exact (hall old hold).subscribe names ok
    · next hne =>
      rw [List.foldl_cons, List.foldl_nil, Mailbox.take, if_neg (Ne.symm hne)]
      exact hall old hold
  | replied key request reply =>
    obtain ⟨old, hold, rfl⟩ := mem_update hc
    split
    · next heq =>
      change (old.send _).Has (List.foldl (Mailbox.take old.key) _ _)
      rw [List.foldl_cons, List.foldl_nil, Mailbox.take, if_pos heq.symm]
      exact (hall old hold).send _
    · next hne =>
      rw [List.foldl_cons, List.foldl_nil, Mailbox.take, if_neg (Ne.symm hne)]
      exact hall old hold
  | broadcast kind payload =>
    obtain ⟨old, hold, rfl⟩ := List.mem_map.mp hc
    have hkey : (if old.Subscribed kind then old.send ⟨kind.type, payload⟩ else old).key = old.key := by
      split <;> rfl
    rw [hkey]
    exact (hall old hold).event old.key kind payload

theorem mailbox_empty (h : mailbox key hs = {}) {n : ℕ} (hn : n ≤ key) {x : Happening} (hx : x.Among n) :
    mailbox key (hs ++ [x]) = {} := by
  rw [mailbox_append, h]
  cases x with
  | subscribed k names ok => exact if_neg (show ¬ k = key from (lt_of_lt_of_le hx hn).ne)
  | replied k request reply => exact if_neg (show ¬ k = key from (lt_of_lt_of_le hx hn).ne)
  | broadcast kind payload => rfl

/-- **Whatever happens**, the server gives each client what its mailbox takes. -/
theorem Server.Serves.reach (h : s.Serves hs) {x : Happening} (hx : x.Among s.accepted) :
    ({ s with allClients := x.reach s.allClients } : Server ω).Serves (hs ++ [x]) where
  has := x.reach_has h.has
  lt c hc := by
    obtain ⟨old, hold, hkey, -⟩ := x.exists_same hc
    exact hkey ▸ h.lt old hold
  empty key hkey := mailbox_empty (h.empty key hkey) hkey hx

theorem Server.Serves.foldl_reach (h : s.Serves hs) {xs : List Happening}
    (hxs : ∀ x ∈ xs, x.Among s.accepted) :
    ({ s with allClients := xs.foldl Happening.reach s.allClients } : Server ω).Serves (hs ++ xs) := by
  induction xs generalizing s hs with
  | nil => rwa [List.append_nil]
  | cons x xs ih =>
    have hrest := ih (h.reach (hxs x List.mem_cons_self)) fun y hy => hxs y (List.mem_cons_of_mem x hy)
    rwa [List.append_assoc] at hrest

/-- A handler does at the server what happens. -/
theorem allClients_handle (request : Request) (payload : List UInt8) :
    (s.handle R key request payload).allClients
      = (request.happens R s.rest key payload).foldl Happening.reach s.allClients := by
  cases request
  case subscribe => rfl
  case sendTick => rfl
  all_goals
    rw [Request.happens, List.foldl_append, List.foldl_map]
    · rfl
    all_goals intro h; cases h

theorem accepted_handle (request : Request) (payload : List UInt8) :
    (s.handle R key request payload).accepted = s.accepted := by
  cases request <;> rfl

/-- What a request causes concerns its client, and those who have a subscription. -/
theorem among_happens {rest : ω} (hkey : key < s.accepted) (request : Request) (payload : List UInt8) :
    ∀ x ∈ request.happens R rest key payload, x.Among s.accepted := by
  intro x hx
  cases x with
  | broadcast kind payload => trivial
  | subscribed k names ok =>
    cases request
    case subscribe =>
      obtain rfl : k = key := by
        have := List.mem_singleton.mp hx
        cases this
        rfl
      exact hkey
    all_goals simp [Request.happens] at hx
  | replied k request' reply =>
    have hk : k = key := by
      cases request <;> simp_all [Request.happens]
    exact (hk ▸ hkey : k < s.accepted)

theorem Server.client_some (h : s.client key = some client) :
    client ∈ s.allClients ∧ client.key = key := by
  unfold Server.client at h
  have hkey := List.find?_some h
  exact ⟨List.mem_of_find?_eq_some h, by simpa using hkey⟩

theorem happens_among (h : s.Serves hs) (call : Call ω) :
    ∀ x ∈ s.happens R call, x.Among s.accepted := by
  intro x hx
  cases call with
  | request key type payload =>
    unfold Server.happens at hx
    dsimp only at hx
    split at hx
    · next hsome =>
      obtain ⟨c, hc⟩ := Option.isSome_iff_exists.mp hsome
      obtain ⟨hmem, hkey⟩ := Server.client_some hc
      split at hx
      · exact absurd hx List.not_mem_nil
      · exact among_happens (hkey ▸ h.lt c hmem) _ payload x hx
    · exact absurd hx List.not_mem_nil
  | event kind payload =>
    obtain rfl := List.mem_singleton.mp hx
    trivial
  | shutdown payload =>
    obtain rfl := List.mem_singleton.mp hx
    trivial
  | connect future => exact absurd hx List.not_mem_nil
  | hangup key => exact absurd hx List.not_mem_nil
  | writeable key => exact absurd hx List.not_mem_nil
  | timeout key => exact absurd hx List.not_mem_nil
  | other change => exact absurd hx List.not_mem_nil

/-- Fewer clients are served as well. -/
theorem Server.Serves.sublist (h : s.Serves hs) {t : Server ω} (hsub : t.allClients ⊆ s.allClients)
    (haccepted : t.accepted = s.accepted) : t.Serves hs where
  has c hc := h.has c (hsub hc)
  lt c hc := haccepted ▸ h.lt c (hsub hc)
  empty key hkey := h.empty key (haccepted ▸ hkey)

/-- **One call** gives every client what its mailbox takes. -/
theorem Server.Serves.step (h : s.Serves hs) (call : Call ω) :
    (s.step R call).Serves (hs ++ s.happens R call) := by
  have hreach := h.foldl_reach (happens_among (R := R) h call)
  cases call with
  | connect future =>
    have hnone : s.happens R (.connect future) = [] := rfl
    rw [hnone, List.append_nil]
    refine ⟨fun c hc => ?_, fun c hc => ?_, fun key hkey => h.empty key (Nat.le_of_succ_le hkey)⟩
    · rcases List.mem_append.mp hc with hc | hc
      · exact h.has c hc
      · obtain rfl := List.mem_singleton.mp hc
        have hempty : mailbox s.accepted hs = {} := h.empty s.accepted le_rfl
        change IpcClient.Has _ (mailbox s.accepted hs)
        rw [hempty]
        exact ⟨rfl, rfl, fun _ => ⟨rfl, rfl, rfl⟩⟩
    · rcases List.mem_append.mp hc with hc | hc
      · exact (h.lt c hc).trans (Nat.lt_succ_self _)
      · obtain rfl := List.mem_singleton.mp hc
        exact Nat.lt_succ_self _
  | request key type payload =>
    unfold Server.step Server.happens at *
    dsimp only at hreach ⊢
    by_cases hsome : (s.client key).isSome
    · rw [if_pos hsome] at hreach ⊢
      rw [if_pos hsome]
      unfold Server.ipcReceiveMessage
      cases hhandler : handlers[type.toNat]? with
      | none =>
        rw [hhandler] at hreach
        exact hreach
      | some request =>
        rw [hhandler] at hreach
        refine hreach.sublist ?_ (accepted_handle request payload)
        rw [allClients_handle]
        exact List.Subset.refl _
    · rw [if_neg hsome] at hreach ⊢
      rw [if_neg hsome]
      exact hreach
  | hangup key => exact hreach.sublist (List.filter_subset_self _) rfl
  | writeable key =>
    refine ⟨fun c hc => ?_, fun c hc => ?_, hreach.empty⟩
    · obtain ⟨old, hold, rfl⟩ := mem_update hc
      split
      · exact (hreach.has old hold).writeable
      · exact hreach.has old hold
    · obtain ⟨old, hold, rfl⟩ := mem_update hc
      split
      · exact hreach.lt old hold
      · exact hreach.lt old hold
  | timeout key =>
    unfold Server.step
    dsimp only
    split
    · exact hreach.sublist (List.filter_subset_self _) rfl
    · exact hreach
  | event kind payload => exact hreach
  | shutdown payload => exact hreach.sublist (List.filter_subset_self _) rfl
  | other change => exact hreach.sublist (List.Subset.refl _) rfl

theorem Server.Serves.after (h : s.Serves hs) (calls : List (Call ω)) :
    (Runs.after (Server.step R) s calls).Serves (hs ++ s.happenings R calls) := by
  induction calls generalizing s hs with
  | nil => rwa [Server.happenings, List.append_nil]
  | cons call calls ih =>
    rw [Server.happenings, ← List.append_assoc]
    exact ih (h.step call)

/-! ### Replies -/

/-- The types of the requests of a client that have a handler. -/
def requests (key : ℕ) (calls : List (Call ω)) : List UInt32 := calls.filterMap fun
  | .request k type _ => if k = key ∧ type.toNat < handlers.length then some type else none
  | _ => none

/-- The type of the reply to a client. -/
def Happening.replyType (key : ℕ) : Happening → Option UInt32
  | .subscribed k _ _ => if k = key then some Request.subscribe.replyType else none
  | .replied k request _ => if k = key then some request.replyType else none
  | .broadcast _ _ => none

theorem not_isEvent_reply (request : Request) (reply : List UInt8) :
    ¬ Message.IsEvent ⟨request.replyType, reply⟩ := by
  have hmask : request.replyType &&& EventKind.mask = 0 := by cases request <;> decide
  exact not_not.mpr hmask

theorem isEvent_event (kind : EventKind) (payload : List UInt8) :
    Message.IsEvent ⟨kind.type, payload⟩ := by
  have hmask : kind.type &&& EventKind.mask ≠ 0 := by cases kind <;> decide
  exact hmask

/-- The types of the replies among messages. -/
def replyTypes (ms : List Message) : List UInt32 := (ms.filter fun m => ¬ m.IsEvent).map Message.type

theorem replyTypes_append_reply (ms : List Message) (request : Request) (reply : List UInt8) :
    replyTypes (ms ++ [⟨request.replyType, reply⟩]) = replyTypes ms ++ [request.replyType] := by
  simp [replyTypes, not_isEvent_reply]

theorem replyTypes_append_event (ms : List Message) (kind : EventKind) (payload : List UInt8) :
    replyTypes (ms ++ [⟨kind.type, payload⟩]) = replyTypes ms := by
  simp [replyTypes, isEvent_event]

/-- The replies in a mailbox are those to its client. -/
theorem replyTypes_take (x : Happening) :
    replyTypes (b.take key x).delivered = replyTypes b.delivered ++ (x.replyType key).toList := by
  cases x with
  | subscribed k names ok =>
    unfold Mailbox.take Happening.replyType
    dsimp only
    split
    · rw [Mailbox.subscribe_eq]
      split
      · exact (replyTypes_append_event _ .tick _).trans (replyTypes_append_reply _ _ _)
      · exact replyTypes_append_reply _ _ _
    · exact (List.append_nil _).symm
  | replied k request reply =>
    unfold Mailbox.take Happening.replyType
    dsimp only
    split
    · exact replyTypes_append_reply _ _ _
    · exact (List.append_nil _).symm
  | broadcast kind payload =>
    unfold Mailbox.take Happening.replyType
    dsimp only
    rw [Option.toList_none, List.append_nil]
    split
    · exact replyTypes_append_event _ _ _
    · rfl

theorem replyTypes_mailbox (hs : List Happening) :
    replyTypes (mailbox key hs).delivered = hs.filterMap (Happening.replyType key) := by
  have hfold (b : Mailbox) (hs : List Happening) :
      replyTypes (hs.foldl (Mailbox.take key) b).delivered
        = replyTypes b.delivered ++ hs.filterMap (Happening.replyType key) := by
    induction hs generalizing b with
    | nil => exact (List.append_nil _).symm
    | cons x hs ih =>
      rw [List.foldl_cons, ih, replyTypes_take, List.append_assoc]
      cases h : x.replyType key <;> simp [h]
  exact hfold {} hs

/-- The handler of a request replies once, with the type of the request. -/
theorem filterMap_replyType_happens {rest : ω} {type : UInt32} {request : Request}
    (h : handlers[type.toNat]? = some request) (k : ℕ) (payload : List UInt8) :
    (request.happens R rest k payload).filterMap (Happening.replyType key)
      = if k = key then [type] else [] := by
  have htype : request.replyType = type := by
    obtain ⟨hlt, hget⟩ := List.getElem?_eq_some_iff.mp h
    have hnumber : ∀ i (hi : i < handlers.length), (handlers.get ⟨i, hi⟩).replyType.toNat = i := by
      decide
    exact UInt32.toNat_inj.mp (hget ▸ hnumber type.toNat hlt)
  have hone (r : Request) (reply : List UInt8) (hr : r.replyType = type) :
      [Happening.replied k r reply].filterMap (Happening.replyType key) = if k = key then [type] else [] := by
    by_cases hk : k = key <;> simp [Happening.replyType, hk, hr]
  cases request
  case subscribe =>
    by_cases hk : k = key <;> simp [Request.happens, Happening.replyType, hk, htype]
  case sendTick => exact hone _ _ htype
  all_goals
    rw [Request.happens, List.filterMap_append, hone _ _ htype]
    · rw [List.filterMap_map]
      simp [Happening.replyType, Function.comp_def]
    all_goals intro h; cases h

/-- A client that is there now, and whose key was given before, was there. -/
theorem exists_of_step (call : Call ω) (hc : client ∈ (s.step R call).allClients)
    (hkey : client.key < s.accepted) : ∃ old ∈ s.allClients, old.Same client := by
  have hsame {c : IpcClient} (hc : c ∈ s.allClients) : ∃ old ∈ s.allClients, old.Same c :=
    ⟨c, hc, rfl, rfl⟩
  have hreach (xs : List Happening) (clients : List IpcClient) {c : IpcClient}
      (hc : c ∈ xs.foldl Happening.reach clients) : ∃ old ∈ clients, old.Same c := by
    induction xs generalizing clients with
    | nil => exact ⟨c, hc, rfl, rfl⟩
    | cons x xs ih =>
      obtain ⟨mid, hmid, hmc⟩ := ih _ hc
      obtain ⟨old, hold, hom⟩ := x.exists_same hmid
      exact ⟨old, hold, hom.1.trans hmc.1, hom.2.trans hmc.2⟩
  cases call with
  | connect future =>
    rcases List.mem_append.mp hc with hc | hc
    · exact hsame hc
    · obtain rfl := List.mem_singleton.mp hc
      exact absurd hkey (lt_irrefl _)
  | request k type payload =>
    unfold Server.step at hc
    dsimp only at hc
    split at hc
    · unfold Server.ipcReceiveMessage at hc
      split at hc
      · exact hsame hc
      · rw [allClients_handle] at hc
        exact hreach _ _ hc
    · exact hsame hc
  | hangup k => exact hsame (List.filter_subset_self _ hc)
  | writeable k =>
    obtain ⟨old, hold, rfl⟩ := mem_update hc
    refine ⟨old, hold, ?_⟩
    split <;> exact ⟨rfl, rfl⟩
  | timeout k =>
    unfold Server.step at hc
    dsimp only at hc
    split at hc
    · exact hsame (List.filter_subset_self _ hc)
    · exact hsame hc
  | event kind payload => exact hreach [.broadcast kind payload] _ hc
  | shutdown payload => simp [Server.step] at hc
  | other change => exact hsame hc

theorem accepted_step (call : Call ω) : s.accepted ≤ (s.step R call).accepted := by
  cases call with
  | connect future => exact Nat.le_succ _
  | request k type payload =>
    unfold Server.step Server.ipcReceiveMessage
    dsimp only
    split
    · split
      · exact le_rfl
      · exact (accepted_handle _ _).ge
    · exact le_rfl
  | timeout k =>
    unfold Server.step
    dsimp only
    split <;> exact le_rfl
  | _ => exact le_rfl

/-- A client that is there after a run, and whose key was given before, was there, and got a reply to each of
its requests that has a handler. -/
theorem replies_of_after (calls : List (Call ω)) (hkey : client.key < s.accepted)
    (h : client ∈ (Runs.after (Server.step R) s calls).allClients) :
    (∃ old ∈ s.allClients, old.Same client)
      ∧ (s.happenings R calls).filterMap (Happening.replyType client.key) = requests client.key calls := by
  induction calls generalizing s with
  | nil => exact ⟨⟨client, h, rfl, rfl⟩, rfl⟩
  | cons call calls ih =>
    obtain ⟨⟨mid, hmid, hmc⟩, hrest⟩ := ih (hkey.trans_le (accepted_step call)) h
    obtain ⟨old, hold, hom⟩ := exists_of_step call hmid (hmc.1 ▸ hkey)
    have hthere : old.key = client.key := hom.1.trans hmc.1
    refine ⟨⟨old, hold, hthere, hom.2.trans hmc.2⟩, ?_⟩
    rw [Server.happenings, List.filterMap_append, hrest]
    cases call with
    | request k type payload =>
      have hhead : (s.happens R (.request k type payload)).filterMap (Happening.replyType client.key)
          = if k = client.key ∧ type.toNat < handlers.length then [type] else [] := by
        unfold Server.happens
        dsimp only
        by_cases hsome : (s.client k).isSome
        · rw [if_pos hsome]
          cases hhandler : handlers[type.toNat]? with
          | none =>
            rw [if_neg fun hand => (List.getElem?_eq_none_iff.mp hhandler).not_gt hand.2]
            rfl
          | some request =>
            rw [filterMap_replyType_happens hhandler]
            simp only [(List.getElem?_eq_some_iff.mp hhandler).1, and_true]
        · have hne : k ≠ client.key := by
            rintro rfl
            exact hsome (List.find?_isSome.mpr ⟨old, hold, by simpa using hthere⟩)
          rw [if_neg hsome, if_neg fun hand => hne hand.1]
          rfl
      rw [hhead, requests, requests, List.filterMap_cons]
      by_cases hreq : k = client.key ∧ type.toNat < handlers.length <;> simp [hreq]
    | connect future => rfl
    | hangup k => rfl
    | writeable k => rfl
    | timeout k => rfl
    | event kind payload => rfl
    | shutdown payload => rfl
    | other change => rfl

/-! ### Events -/

/-- The events of a client with the subscriptions `names`, of what happens from there on. -/
def eventsFor (key : ℕ) : List String → Bool → List Happening → List Message
  | _, _, [] => []
  | names, first, .subscribed k new ok :: hs =>
    if k ≠ key then eventsFor key names first hs
    else if ok ∧ ¬ first ∧ "tick" ∈ names ++ new then
      ⟨EventKind.tick.type, firstTick⟩ :: eventsFor key (names ++ new) true hs
    else eventsFor key (names ++ new) first hs
  | names, first, .replied _ _ _ :: hs => eventsFor key names first hs
  | names, first, .broadcast kind payload :: hs =>
    if names.any fun name => sameName name kind.text then
      ⟨kind.type, payload⟩ :: eventsFor key names first hs
    else eventsFor key names first hs

theorem events_mailbox (hs : List Happening) :
    (hs.foldl (Mailbox.take key) b).delivered.filter (fun m => m.IsEvent)
      = b.delivered.filter (fun m => m.IsEvent) ++ eventsFor key b.events b.firstTickSent hs := by
  induction hs generalizing b with
  | nil => exact (List.append_nil _).symm
  | cons x hs ih =>
    rw [List.foldl_cons, ih]
    cases x with
    | subscribed k names ok =>
      rw [eventsFor]
      unfold Mailbox.take
      dsimp only
      by_cases hk : k = key
      · rw [if_pos hk, if_neg (not_not.mpr hk), Mailbox.subscribe_eq]
        by_cases hfirst : ok = true ∧ ¬ b.firstTickSent = true ∧ "tick" ∈ b.events ++ names
        · rw [if_pos hfirst, if_pos hfirst]
          simp [not_isEvent_reply, isEvent_event]
        · rw [if_neg hfirst, if_neg hfirst]
          simp [not_isEvent_reply]
      · rw [if_neg hk, if_pos hk]
    | replied k request reply =>
      rw [eventsFor]
      unfold Mailbox.take
      dsimp only
      split
      · simp [Mailbox.deliver, not_isEvent_reply]
      · rfl
    | broadcast kind payload =>
      rw [eventsFor]
      unfold Mailbox.take
      dsimp only
      split
      · simp [Mailbox.deliver, isEvent_event]
      · rfl

theorem happenings_append (calls calls' : List (Call ω)) :
    s.happenings R (calls ++ calls')
      = s.happenings R calls ++ (Runs.after (Server.step R) s calls).happenings R calls' := by
  induction calls generalizing s with
  | nil => rfl
  | cons call calls ih =>
    rw [List.cons_append, Server.happenings, Server.happenings, ih, List.append_assoc]
    rfl

/-- The server with no clients. -/
def Server.new (rest : ω) : Server ω := { rest }

theorem serves_new (rest : ω) : (Server.new rest).Serves [] where
  has _ hc := absurd hc List.not_mem_nil
  lt _ hc := absurd hc List.not_mem_nil
  empty _ _ := rfl

/-- **The server serves its clients.** Whatever the main loop is called for, by whomever, before a client
connects and while it is there: what its socket took and what is pending, if no write to it fails, are
messages. The replies among these are one for each of its requests that has a handler, in their order and
of their types. The others are the events it was subscribed to when they were sent, in their order, each
once. -/
theorem server_serves (R : Rest ω) (rest : ω) (before calls : List (Call ω)) {future : ℕ → List Write}
    (hfuture : ∀ n, .error ∉ future n) {s t : Server ω}
    (hs : s = Runs.after (Server.step R) (Server.new rest) before)
    (ht : t = Runs.after (Server.step R) (s.step R (.connect future)) calls)
    (hclient : client ∈ t.allClients) (hkey : client.key = s.accepted) :
    ∃ ms : List Message, Intact (ms.flatMap Message.encode) client.connection
      ∧ replyTypes ms = requests client.key calls
      ∧ (ms.filter fun m => m.IsEvent)
        = eventsFor client.key [] false ((s.step R (.connect future)).happenings R calls) := by
  subst ht
  have hbefore : s.Serves ((Server.new rest).happenings R before) := hs ▸ (serves_new rest).after before
  have hconnect := hbefore.step (R := R) (.connect future)
  have hhas := (hconnect.after calls).has client hclient
  -- what happened before is not for this client
  have hnone : s.happens R (.connect future) = [] := rfl
  rw [hnone, List.append_nil, mailbox_append, hkey, hbefore.empty _ le_rfl, ← hkey] at hhas
  have hlt : client.key < (s.step R (.connect future)).accepted := by
    rw [hkey]
    exact Nat.lt_succ_self _
  obtain ⟨⟨old, hold, hsame⟩, hreplies⟩ := replies_of_after calls hlt hclient
  -- the client is the one that connected
  have hsocket : client.future = future := by
    rcases List.mem_append.mp hold with hmem | hmem
    · exact absurd (hbefore.lt old hmem) (hsame.1.trans hkey).not_lt
    · rw [← hsame.2, List.mem_singleton.mp hmem]
  refine ⟨_, hhas.stream (hsocket ▸ hfuture), ?_, ?_⟩
  · exact (replyTypes_mailbox _).trans hreplies
  · exact (events_mailbox _).trans (List.nil_append _)

/-- The rest of i3 for a client that wants to know of workspaces, and one of its requests. -/
def quiet : Rest Unit where
  handle _ _ _ := ([(.workspace, [1])], [2], ())
  strings _ := (["workspace", "tick"], true)
  tick := id

/-- A client that subscribes, takes its first bytes, and asks for the marks. -/
def subscriberRun : List (Call Unit) :=
  [.request 0 2 [], .writeable 0, .event .output [3], .request 0 5 [], .request 0 14 []]

theorem server_serves_subscriber : ∃ client : IpcClient, client.key = 0 ∧ ∃ ms : List Message,
    Intact (ms.flatMap Message.encode) client.connection ∧ replyTypes ms = [2, 5]
      ∧ (ms.filter fun m => m.IsEvent)
        = [⟨EventKind.tick.type, firstTick⟩, ⟨EventKind.workspace.type, [1]⟩] := by
  have hkeys : (Runs.after (Server.step quiet) ((Server.new ()).step quiet (.connect fun _ => [.takes 10]))
      subscriberRun).allClients.map IpcClient.key = [0] := by
    decide +kernel
  obtain ⟨client, hclient, hkey⟩ := List.mem_map.mp (hkeys ▸ List.mem_singleton_self 0)
  have hevents : eventsFor 0 [] false (Server.happenings quiet
      ((Server.new ()).step quiet (.connect fun _ => [.takes 10])) subscriberRun)
      = [⟨EventKind.tick.type, firstTick⟩, ⟨EventKind.workspace.type, [1]⟩] := by
    decide +kernel
  obtain ⟨ms, hstream, hreplies, hms⟩ :=
    server_serves quiet () [] subscriberRun (fun _ => by simp) rfl rfl hclient hkey
  rw [hkey] at hreplies hms
  exact ⟨client, hkey, ms, hstream, hreplies, hms.trans hevents⟩

end Ipc

end I3
