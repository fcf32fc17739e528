import RbProtocol.Json.RoundTrip
import RbProtocol.Ws.Backend
import RbProtocol.Ws.Outgoing

/-!
# Descriptors and connections

The address of a client is its descriptor. It is copied with the packet to `m_possessed_addr`, from
there to the tasks that call `get_possessed_addr`, and with every buffer to the send queue, and all
these copies outlive the client. The system gives the descriptor of a closed connection to the next
one, and `send_from_queue` calls `::send` with the descriptor of the item without a look at
`m_clients`.

Here every address also has the connection that it was obtained from. In every reachable state that
connection is a client as long as it is open (`Sound.step`). So `send_from_queue` writes to the
connections of its items alone in every run in which the system gives no descriptor that an address
of the device still has (`lawful_run`).
-/

namespace RbProtocol.Ws

open Library Machine

/-! ## The code -/

/-- `ProtocolAddr` of a client. The code has the descriptor alone; `origin` is the connection that
the address was obtained from. -/
structure ClientAddr where
  fd : ℤ
  origin : ℕ
  deriving DecidableEq

/-- `ProtBackendWs`, and the connections that are open under the descriptors of the system. -/
structure Host where
  backend : Backend
  connections : ℤ → Option ℕ
  nextConnection : ℕ

/-- The descriptors of the clients. -/
def Backend.fds (b : Backend) : List ℤ := b.clients.map Client.fd

/-- What a function of the backend leaves; the system closes the descriptors. -/
def Host.apply (h : Host) (r : Backend × List WsEffect) : Host :=
  { h with
    backend := r.1
    connections := fun fd => if .close fd ∈ r.2 then none else h.connections fd }

/-- What the system and the web server do. -/
inductive HostEvent
  /-- The web server accepts a connection, under a descriptor that is not open. -/
  | accept (fd : ℤ)
  /-- The web server closes a connection that it has not handed over. -/
  | serverClose (fd : ℤ)
  /-- The web server hands a connection over. -/
  | addClient (fd : ℤ)
  | arrive (fd : ℤ) (bytes : Bytes)
  | fail (fd : ℤ)
  deriving DecidableEq

/-- An event of the system and the web server. -/
def Host.step (h : Host) : HostEvent → Host
  | .accept fd =>
    if h.connections fd = none then
      ⟨(Ws.backend h.backend (.accept fd)).1, Function.update h.connections fd
        (some h.nextConnection),
        h.nextConnection + 1⟩
    else h
  | .serverClose fd =>
    if fd ∈ h.backend.fds then h
    else { h with connections := Function.update h.connections fd none }
  | .addClient fd =>
    if (h.connections fd).isSome ∧ fd ∉ h.backend.fds then
      { h with backend := (Ws.backend h.backend (.addClient fd)).1 }
    else h
  | .arrive fd bytes => { h with backend := (Ws.backend h.backend (.arrive fd bytes)).1 }
  | .fail fd => { h with backend := (Ws.backend h.backend (.fail fd)).1 }

/-- An item of the send queue. -/
structure AddrItem where
  addr : ClientAddr
  it : QueueItem
  deriving DecidableEq

/-- Where `send_task` is. -/
inductive Transmit
  | idle
  /-- It has an item, and not yet `m_mutex`. -/
  | received (item : AddrItem)
  /-- In `send_from_queue`, before the `::send` of the header. -/
  | header (item : AddrItem)
  /-- Before the `::send` of the payload. -/
  | payload (item : AddrItem)
  deriving DecidableEq

/-- `send_task` is in `send_from_queue`, with `m_mutex` locked. -/
def Transmit.locked : Transmit → Bool
  | header _ | payload _ => true
  | _ => false

/-- The address that `send_task` has. -/
def Transmit.addr? : Transmit → Option ClientAddr
  | idle => none
  | received item | header item | payload item => some item.addr

/-- What the next `::send` of `send_from_queue` is given, and the item it belongs to. -/
def Transmit.given? : Transmit → Option (AddrItem × Bytes)
  | header item => some (item, wsHeader item.it.size)
  | payload item => some (item, item.it.buf.take item.it.size)
  | _ => none

/-- The host and the places where addresses of clients are kept. -/
structure Device (T : Type*) where
  host : Host
  /-- The address of the packet that `recv_task` handles. -/
  received : Option ClientAddr
  /-- `m_possessed_addr`, where it is an address of a client. -/
  possessed : Option ClientAddr
  /-- The copies from `get_possessed_addr`. -/
  obtained : T → Option ClientAddr
  sendQueue : List AddrItem
  transmit : Transmit

/-- What can happen next. -/
inductive DeviceEvent (T : Type*)
  | host (e : HostEvent)
  /-- `recv_task` calls `ProtBackendWs::recv_iter`. -/
  | recvIter
  /-- `handle_msg` stores the address of the packet. -/
  | possess
  /-- `handle_msg` answers to the address of the packet. -/
  | reply (buf : Bytes)
  /-- `handle_msg` returns. -/
  | handled
  /-- A UDP client possesses the device. -/
  | possessUdp
  /-- A task is in `get_possessed_addr`. -/
  | getPossessedAddr (t : T)
  /-- The task sends to the address that it has. -/
  | send (t : T) (buf : Bytes)
  /-- `send_task` takes an item. -/
  | receive
  /-- `send_task` gets `m_mutex`. -/
  | lock
  /-- The next `::send`: an error, or at most so many bytes. -/
  | call (result : Option ℕ)

/-- The descriptor of the client that a packet was received from. -/
def receivedFd (effects : List WsEffect) : Option ℤ :=
  effects.findSome? fun
    | .parse fd payload =>
      match Json.parse payload with
      | .ok (some _) => some fd
      | _ => none
    | _ => none

namespace Device

variable {T : Type*} [DecidableEq T]

/-- `Protocol::send` of a buffer; a full queue drops it. -/
def enqueue (s : Device T) (addr : ClientAddr) (buf : Bytes) : Device T :=
  if buf ≠ [] ∧ s.sendQueue.length < queueLength then
    { s with sendQueue := s.sendQueue ++ [⟨addr, .ofBuf buf⟩] }
  else s

/-- A `::send` of `send_from_queue`, to a descriptor that may be closed. -/
def sendCall (s : Device T) (item : AddrItem) (bytes : Bytes) (next : Transmit)
    (result : Option ℕ) : Device T × List WsEffect :=
  match if (s.host.connections item.addr.fd).isSome then result else none with
  | some k => ({ s with transmit := next }, [.send item.addr.fd (bytes.take k)])
  | none =>
    let r := closeClientLocked s.host.backend item.addr.fd
    ({ s with host := s.host.apply r, transmit := .idle }, r.2)

/-- The machine of the device. -/
def step : Machine (Device T) (DeviceEvent T) WsEffect
  | s, .host e => ({ s with host := s.host.step e }, [])
  | s, .recvIter =>
    -- `m_mutex` is free, and `recv_task` is not in `handle_msg`
    if s.transmit.locked ∨ s.received.isSome then (s, [])
    else
      let r := Ws.recvIter s.host.backend
      let host := s.host.apply r
      ({ s with
        host := host
        received := (receivedFd r.2).bind fun fd => (host.connections fd).map (ClientAddr.mk fd) },
        r.2)
  | s, .possess =>
    match s.received with
    | some addr => ({ s with possessed := some addr }, [])
    | none => (s, [])
  | s, .reply buf =>
    match s.received with
    | some addr => (s.enqueue addr buf, [])
    | none => (s, [])
  | s, .handled => ({ s with received := none }, [])
  | s, .possessUdp => ({ s with possessed := none }, [])
  | s, .getPossessedAddr t => ({ s with obtained := Function.update s.obtained t s.possessed }, [])
  | s, .send t buf =>
    match s.obtained t with
    | some addr => ({ s.enqueue addr buf with obtained := Function.update s.obtained t none }, [])
    | none => (s, [])
  | s, .receive =>
    match s.transmit, s.sendQueue with
    | .idle, item :: queue => ({ s with sendQueue := queue, transmit := .received item }, [])
    | _, _ => (s, [])
  | s, .lock =>
    match s.transmit with
    | .received item => ({ s with transmit := .header item }, [])
    | _ => (s, [])
  | s, .call result =>
    match s.transmit with
    | .header item => s.sendCall item (wsHeader item.it.size) (.payload item) result
    | .payload item => s.sendCall item (item.it.buf.take item.it.size) .idle result
    | _ => (s, [])

/-- The device before the first connection. -/
def start : Device T where
  host := ⟨.start, fun _ => none, 0⟩
  received := none
  possessed := none
  obtained _ := none
  sendQueue := []
  transmit := .idle

/-! ## The law -/

/-- While `send_task` is in `send_from_queue`, bytes are written only to a client, and to the
connection that the address of the item was obtained from. -/
def Lawful (s : Device T) (e : DeviceEvent T) : Prop :=
  ∀ item given, s.transmit.given? = some (item, given) → ∀ fd bytes, .send fd bytes ∈ (step s e).2 →
    bytes ≠ [] →
      fd ∈ s.host.backend.fds ∧ s.host.connections fd = some item.addr.origin

/-- Where the device keeps an address. -/
inductive Keeps (s : Device T) (addr : ClientAddr) : Prop
  | received (h : s.received = some addr)
  | possessed (h : s.possessed = some addr)
  | obtained (t : T) (h : s.obtained t = some addr)
  | sendQueue (item : AddrItem) (hmem : item ∈ s.sendQueue) (haddr : item.addr = addr)
  | transmit (h : s.transmit.addr? = some addr)

/-- **No connection gets a descriptor that the device still keeps in an address**: the system gives
the web server a descriptor that is not open only when no address has it. -/
def GivesFresh (s : Device T) : DeviceEvent T → Prop
  | .host (.accept fd) => s.host.connections fd = none → ∀ addr, s.Keeps addr → addr.fd ≠ fd
  | _ => True

end Device

/-! ## What the backend closes -/

/-- A function of the backend takes out the clients whose descriptors it closes, and no others. -/
structure Closes (b : Backend) (r : Backend × List WsEffect) : Prop where
  waiting : ∀ client ∈ r.1.clients, client.Waiting
  sublist : r.1.fds.Sublist b.fds
  mem_iff : ∀ fd ∈ b.fds, fd ∈ r.1.fds ↔ .close fd ∉ r.2
  close_mem : ∀ fd, .close fd ∈ r.2 → fd ∈ b.fds

/-- Nothing is closed. -/
theorem Closes.refl {b : Backend} (hwaiting : ∀ client ∈ b.clients, client.Waiting)
    {effects : List WsEffect} (h : ∀ fd, .close fd ∉ effects) : Closes b (b, effects) where
  waiting := hwaiting
  sublist := List.Sublist.refl _
  mem_iff fd hfd := iff_of_true hfd (h fd)
  close_mem fd hclose := absurd hclose (h fd)

theorem Closes.trans {b b₁ b₂ : Backend} {e₁ e₂ : List WsEffect} (h₁ : Closes b (b₁, e₁))
    (h₂ : Closes b₁ (b₂, e₂)) : Closes b (b₂, e₁ ++ e₂) where
  waiting := h₂.waiting
  sublist := h₂.sublist.trans h₁.sublist
  mem_iff fd hfd := by
    rw [List.mem_append, not_or, ← h₁.mem_iff fd hfd]
    by_cases hmem : fd ∈ b₁.fds
    · rw [h₂.mem_iff fd hmem]
      exact (and_iff_right hmem).symm
    · exact iff_of_false (fun h => hmem (h₂.sublist.subset h)) fun h => hmem h.1
  close_mem fd hclose := by
    rcases List.mem_append.1 hclose with hclose | hclose
    · exact h₁.close_mem fd hclose
    · exact h₁.sublist.subset (h₂.close_mem fd hclose)

theorem fds_closeClientLocked (b : Backend) (fd : ℤ) :
    (closeClientLocked b fd).1.fds = b.fds.erase fd := by
  rw [Backend.fds, Backend.fds, closeClientLocked, List.erase_eq_eraseP', List.eraseP_map]
  simp only [Function.comp_def, beq_eq_decide]

theorem close_mem_closeClientLocked {b : Backend} {fd fd' : ℤ} :
    .close fd' ∈ (closeClientLocked b fd).2 ↔ fd' = fd ∧ fd ∈ b.fds := by
  have hany : (b.clients.any fun client => decide (client.fd = fd)) = true ↔ fd ∈ b.fds := by
    simp [Backend.fds]
  rw [closeClientLocked, ← hany]
  split_ifs with h
  · simp [h]
  · simp [h]

theorem closes_closeClientLocked {b : Backend} (hwaiting : ∀ client ∈ b.clients, client.Waiting)
    (hnodup : b.fds.Nodup) (fd : ℤ) : Closes b (closeClientLocked b fd) where
  waiting client hclient := hwaiting client (List.eraseP_sublist.subset hclient)
  sublist := by
    rw [fds_closeClientLocked]
    exact List.erase_sublist
  mem_iff fd' hfd' := by
    rw [fds_closeClientLocked, hnodup.mem_erase_iff, close_mem_closeClientLocked, not_and]
    constructor
    · rintro ⟨hne, -⟩ heq
      exact absurd heq hne
    · intro h
      refine ⟨?_, hfd'⟩
      rintro rfl
      exact h rfl hfd'
  close_mem fd' hclose := by
    obtain ⟨rfl, hmem⟩ := close_mem_closeClientLocked.1 hclose
    exact hmem

/-- The clients that leave the loop of `recv_iter` are those that it closes. -/
theorem recvLoop_mem_iff (sockets : ℤ → Socket) {clients : List Client}
    (hwaiting : ∀ client ∈ clients, client.Waiting) (hnodup : (clients.map Client.fd).Nodup)
    {fd : ℤ} (hfd : fd ∈ clients.map Client.fd) :
    fd ∈ (recvLoop sockets clients).clients.map Client.fd ↔
      .close fd ∉ (recvLoop sockets clients).effects := by
  induction clients generalizing sockets with
  | nil => cases hfd
  | cons client rest ih =>
    obtain ⟨hclient, hrest⟩ := List.forall_mem_cons.1 hwaiting
    obtain ⟨hnew, hnodup⟩ := List.nodup_cons.1 hnodup
    have hturn := goodTurn_processClient (sockets client.fd) hclient
    -- the rest closes its own clients only
    have hown : ∀ sockets, .close client.fd ∉ (recvLoop sockets rest).effects := by
      intro sockets hmem
      obtain ⟨fd', hfd', heq⟩ := (recvLoop_spec sockets hrest).effects _ hmem
      obtain rfl := WsEffect.close.inj heq
      exact hnew hfd'
    have hgone : ∀ sockets, client.fd ∉ (recvLoop sockets rest).clients.map Client.fd :=
      fun sockets hmem => hnew ((recvLoop_spec sockets hrest).fds.subset hmem)
    rw [recvLoop]
    rcases List.mem_cons.1 hfd with rfl | hfd
    · cases hrun : processClient client (sockets client.fd) with
      | closed => simp [hgone]
      | fault =>
        rw [hrun] at hturn
        exact hturn.elim
      | running client' socket =>
        rw [hrun] at hturn
        simp only
        split_ifs
        · simp [hturn.2.1]
        · simp [hturn.2.1, hown]
    · have hne : fd ≠ client.fd := by
        rintro rfl
        exact hnew hfd
      cases hrun : processClient client (sockets client.fd) with
      | closed => simpa [hne] using ih sockets hrest hnodup hfd
      | fault =>
        rw [hrun] at hturn
        exact hturn.elim
      | running client' socket =>
        rw [hrun] at hturn
        simp only
        split_ifs
        · exact iff_of_true (List.mem_cons_of_mem _ hfd) List.not_mem_nil
        · simpa [hturn.2.1, hne] using ih _ hrest hnodup hfd

/-- A complete message closes its client or nothing. -/
theorem closes_processClientFullyReceivedLocked {b : Backend}
    (hwaiting : ∀ client ∈ b.clients, client.Waiting) (hnodup : b.fds.Nodup) (client : Client) :
    Closes b (processClientFullyReceivedLocked b client) := by
  rw [processClientFullyReceivedLocked]
  split_ifs
  · have hsend : Closes b (b, [.send client.fd [0x80 ||| opcodeClose, 0]]) :=
      .refl hwaiting (by simp)
    exact hsend.trans (closes_closeClientLocked hwaiting hnodup client.fd)
  · exact .refl hwaiting (by simp)

theorem closes_recvIter {b : Backend} (hwaiting : ∀ client ∈ b.clients, client.Waiting)
    (hnodup : b.fds.Nodup) : Closes b (recvIter b) := by
  have hspec := recvLoop_spec b.sockets hwaiting
  have hloop : Closes b (⟨(recvLoop b.sockets b.clients).clients,
      (recvLoop b.sockets b.clients).sockets⟩, (recvLoop b.sockets b.clients).effects) := by
    refine ⟨hspec.waiting, hspec.fds, fun fd hfd => recvLoop_mem_iff _ hwaiting hnodup hfd, ?_⟩
    intro fd hclose
    obtain ⟨fd', hfd', heq⟩ := hspec.effects _ hclose
    obtain rfl := WsEffect.close.inj heq
    exact hfd'
  cases hfull : (recvLoop b.sockets b.clients).full with
  | none =>
    rw [recvIter_none hfull]
    exact hloop
  | some client =>
    rw [recvIter_some hfull]
    exact hloop.trans (closes_processClientFullyReceivedLocked hspec.waiting
      (hnodup.sublist hloop.sublist) client)

theorem exists_parse_of_receivedFd {effects : List WsEffect} {fd : ℤ}
    (h : receivedFd effects = some fd) : ∃ payload, .parse fd payload ∈ effects := by
  obtain ⟨effect, hmem, heq⟩ := List.exists_of_findSome?_eq_some h
  cases effect with
  | parse fd' payload =>
    simp only at heq
    split at heq
    · obtain rfl := Option.some.inj heq
      exact ⟨payload, hmem⟩
    · cases heq
  | _ => cases heq

/-- A packet is received from a client that stays. -/
theorem mem_fds_of_receivedFd {b : Backend} (hwaiting : ∀ client ∈ b.clients, client.Waiting)
    {fd : ℤ} (h : receivedFd (recvIter b).2 = some fd) : fd ∈ (recvIter b).1.fds := by
  have hspec := recvLoop_spec b.sockets hwaiting
  obtain ⟨payload, hparse⟩ := exists_parse_of_receivedFd h
  have hloop : .parse fd payload ∉ (recvLoop b.sockets b.clients).effects := by
    intro hmem
    obtain ⟨fd', -, heq⟩ := hspec.effects _ hmem
    cases heq
  cases hfull : (recvLoop b.sockets b.clients).full with
  | none =>
    rw [recvIter_none hfull] at hparse
    exact absurd hparse hloop
  | some client =>
    rw [recvIter_some hfull] at hparse ⊢
    have hparse' := (List.mem_append.1 hparse).resolve_left hloop
    rw [processClientFullyReceivedLocked] at hparse' ⊢
    split_ifs at hparse' ⊢ with hopcode
    · rcases List.mem_cons.1 hparse' with heq | hparse'
      · cases heq
      · cases closeClientLocked_effects _ _ _ hparse'
    · obtain ⟨rfl, -⟩ := WsEffect.parse.inj (List.mem_singleton.1 hparse')
      exact List.mem_map_of_mem (hspec.full client hfull).1

/-! ## The connections of the clients -/

namespace Host

/-- What holds of a host: the clients are on open descriptors of their own. -/
structure Sound (h : Host) : Prop where
  waiting : ∀ client ∈ h.backend.clients, client.Waiting
  nodup : h.backend.fds.Nodup
  isOpen : ∀ fd ∈ h.backend.fds, (h.connections fd).isSome
  lt_next : ∀ fd c, h.connections fd = some c → c < h.nextConnection

/-- The connection of an address is a client as long as it is open. -/
structure Live (h : Host) (addr : ClientAddr) : Prop where
  origin_lt : addr.origin < h.nextConnection
  mem_fds : h.connections addr.fd = some addr.origin → addr.fd ∈ h.backend.fds

variable {h : Host}

theorem apply_connections_eq_some {r : Backend × List WsEffect} {fd : ℤ} {c : ℕ} :
    (h.apply r).connections fd = some c ↔ .close fd ∉ r.2 ∧ h.connections fd = some c := by
  simp only [Host.apply]
  split_ifs with hclose
  · simp [hclose]
  · simp [hclose]

theorem Sound.apply (hs : h.Sound) {r : Backend × List WsEffect} (hr : Closes h.backend r) :
    (h.apply r).Sound where
  waiting := hr.waiting
  nodup := hs.nodup.sublist hr.sublist
  isOpen fd hfd := by
    have hmem := hr.sublist.subset hfd
    obtain ⟨c, hc⟩ := Option.isSome_iff_exists.1 (hs.isOpen fd hmem)
    rw [Option.isSome_iff_exists]
    exact ⟨c, apply_connections_eq_some.2 ⟨(hr.mem_iff fd hmem).1 hfd, hc⟩⟩
  lt_next fd c hc := hs.lt_next fd c (apply_connections_eq_some.1 hc).2

theorem Live.apply {addr : ClientAddr} (hl : h.Live addr) {r : Backend × List WsEffect}
    (hr : Closes h.backend r) : (h.apply r).Live addr where
  origin_lt := hl.origin_lt
  mem_fds hc := by
    obtain ⟨hclose, hopen⟩ := apply_connections_eq_some.1 hc
    exact (hr.mem_iff _ (hl.mem_fds hopen)).2 hclose

/-- An address of a client is live. -/
theorem Sound.live (hs : h.Sound) {fd : ℤ} {c : ℕ} (hmem : fd ∈ h.backend.fds)
    (hc : h.connections fd = some c) : h.Live ⟨fd, c⟩ :=
  ⟨hs.lt_next fd c hc, fun _ => hmem⟩

theorem fds_addClient (b : Backend) (fd : ℤ) :
    (Ws.backend b (.addClient fd)).1.fds = b.fds ++ [fd] := List.map_append

theorem Sound.step (hs : h.Sound) (e : HostEvent) : (h.step e).Sound := by
  cases e with
  | accept fd =>
    rw [Host.step]
    split_ifs with hclosed
    · refine ⟨hs.waiting, hs.nodup, fun fd' hfd' => ?_, fun fd' c hc => ?_⟩
      · simp only [Function.update_apply]
        split_ifs
        · rfl
        · exact hs.isOpen fd' hfd'
      · simp only [Function.update_apply] at hc
        split_ifs at hc
        · obtain rfl := Option.some.inj hc
          exact Nat.lt_succ_self _
        · exact (hs.lt_next fd' c hc).trans (Nat.lt_succ_self _)
    · exact hs
  | serverClose fd =>
    rw [Host.step]
    split_ifs with hmem
    · exact hs
    · refine ⟨hs.waiting, hs.nodup, fun fd' hfd' => ?_, fun fd' c hc => ?_⟩
      · have hne : fd' ≠ fd := by
          rintro rfl
          exact hmem hfd'
        simp only [Function.update_of_ne hne]
        exact hs.isOpen fd' hfd'
      · simp only [Function.update_apply] at hc
        split_ifs at hc
        exact hs.lt_next fd' c hc
  | addClient fd =>
    rw [Host.step]
    split_ifs with hnew
    · refine ⟨waiting_backend hs.waiting (.addClient fd), ?_, ?_, hs.lt_next⟩
      · rw [fds_addClient]
        exact hs.nodup.append (List.nodup_singleton _) (by simpa using hnew.2)
      · rw [fds_addClient]
        intro fd' hfd'
        rcases List.mem_append.1 hfd' with hfd' | hfd'
        · exact hs.isOpen fd' hfd'
        · obtain rfl := List.mem_singleton.1 hfd'
          exact hnew.1
    · exact hs
  | arrive fd bytes => exact ⟨hs.waiting, hs.nodup, hs.isOpen, hs.lt_next⟩
  | fail fd => exact ⟨hs.waiting, hs.nodup, hs.isOpen, hs.lt_next⟩

/-- A connection that is closed does not come back. -/
theorem Live.step {addr : ClientAddr} (hl : h.Live addr) (e : HostEvent) :
    (h.step e).Live addr := by
  cases e with
  | accept fd =>
    rw [Host.step]
    split_ifs
    · refine ⟨hl.origin_lt.trans (Nat.lt_succ_self _), fun hc => ?_⟩
      simp only [Function.update_apply] at hc
      split_ifs at hc
      · exact absurd (Option.some.inj hc) hl.origin_lt.ne'
      · exact hl.mem_fds hc
    · exact hl
  | serverClose fd =>
    rw [Host.step]
    split_ifs
    · exact hl
    · refine ⟨hl.origin_lt, fun hc => ?_⟩
      simp only [Function.update_apply] at hc
      split_ifs at hc
      exact hl.mem_fds hc
  | addClient fd =>
    rw [Host.step]
    split_ifs
    · refine ⟨hl.origin_lt, fun hc => ?_⟩
      rw [fds_addClient]
      exact List.mem_append_left _ (hl.mem_fds hc)
    · exact hl
  | arrive fd bytes => exact ⟨hl.origin_lt, hl.mem_fds⟩
  | fail fd => exact ⟨hl.origin_lt, hl.mem_fds⟩

end Host

/-! ## The addresses -/

namespace Device

variable {T : Type*} {s : Device T}

/-- What holds of a device in every state: all addresses that it keeps are live. -/
structure Sound (s : Device T) : Prop where
  host : s.host.Sound
  received : ∀ addr, s.received = some addr → s.host.Live addr
  possessed : ∀ addr, s.possessed = some addr → s.host.Live addr
  obtained : ∀ t addr, s.obtained t = some addr → s.host.Live addr
  sendQueue : ∀ item ∈ s.sendQueue, s.host.Live item.addr
  transmit : ∀ addr, s.transmit.addr? = some addr → s.host.Live addr

theorem sound_start : (start : Device T).Sound where
  host := ⟨nofun, List.nodup_nil, nofun, nofun⟩
  received := nofun
  possessed := nofun
  obtained _ := nofun
  sendQueue := nofun
  transmit := nofun

/-- A change of the host that keeps the addresses live. -/
theorem Sound.setHost (h : s.Sound) {host : Host} (hhost : host.Sound)
    (hlive : ∀ addr, s.host.Live addr → host.Live addr) : { s with host := host }.Sound where
  host := hhost
  received addr haddr := hlive addr (h.received addr haddr)
  possessed addr haddr := hlive addr (h.possessed addr haddr)
  obtained t addr haddr := hlive addr (h.obtained t addr haddr)
  sendQueue item hitem := hlive item.addr (h.sendQueue item hitem)
  transmit addr haddr := hlive addr (h.transmit addr haddr)

/-- What a function of the backend closes. -/
theorem Sound.apply (h : s.Sound) {r : Backend × List WsEffect} (hr : Closes s.host.backend r) :
    { s with host := s.host.apply r }.Sound :=
  h.setHost (h.host.apply hr) fun _ hlive => hlive.apply hr

theorem Sound.enqueue (h : s.Sound) {addr : ClientAddr} (haddr : s.host.Live addr) (buf : Bytes) :
    (s.enqueue addr buf).Sound := by
  rw [Device.enqueue]
  split_ifs
  · refine { h with sendQueue := fun item hitem => ?_ }
    rcases List.mem_append.1 hitem with hitem | hitem
    · exact h.sendQueue item hitem
    · obtain rfl := List.mem_singleton.1 hitem
      exact haddr
  · exact h

theorem enqueue_obtained (s : Device T) (addr : ClientAddr) (buf : Bytes) :
    (s.enqueue addr buf).obtained = s.obtained := by
  rw [Device.enqueue]
  split_ifs <;> rfl

theorem Sound.sendCall (h : s.Sound) {item : AddrItem} (hitem : s.host.Live item.addr)
    {next : Transmit} (hnext : ∀ addr, next.addr? = some addr → addr = item.addr) (bytes : Bytes)
    (result : Option ℕ) : (s.sendCall item bytes next result).1.Sound := by
  rw [Device.sendCall]
  split
  · refine { h with transmit := fun addr haddr => ?_ }
    obtain rfl := hnext addr haddr
    exact hitem
  · have happly := h.apply (closes_closeClientLocked h.host.waiting h.host.nodup item.addr.fd)
    exact { happly with transmit := nofun }

variable [DecidableEq T]

/-- An address that a task has or gives up. -/
theorem Sound.setObtained (h : s.Sound) (t : T) (addr? : Option ClientAddr)
    (haddr : ∀ addr, addr? = some addr → s.host.Live addr) :
    { s with obtained := Function.update s.obtained t addr? }.Sound := by
  refine { h with obtained := fun t' addr h' => ?_ }
  simp only [Function.update_apply] at h'
  split_ifs at h'
  · exact haddr addr h'
  · exact h.obtained t' addr h'

theorem Sound.recvIter (h : s.Sound) : (Device.step s .recvIter).1.Sound := by
  rw [Device.step]
  split_ifs
  · exact h
  · have happly := h.apply (closes_recvIter h.host.waiting h.host.nodup)
    refine { happly with received := fun addr haddr => ?_ }
    -- the address of a packet is that of a client
    obtain ⟨fd, hfd, hmap⟩ := Option.bind_eq_some_iff.1 haddr
    obtain ⟨c, hc, rfl⟩ := Option.map_eq_some_iff.1 hmap
    exact happly.host.live (mem_fds_of_receivedFd h.host.waiting hfd) hc

/-- Every step keeps what holds in every state. -/
theorem Sound.step (h : s.Sound) (e : DeviceEvent T) : (Device.step s e).1.Sound := by
  cases e with
  | host e => exact h.setHost (h.host.step e) fun _ hlive => hlive.step e
  | recvIter => exact h.recvIter
  | possess =>
    rw [Device.step]
    split
    · rename_i addr hreceived
      exact { h with possessed := fun _ haddr => h.received _ (hreceived.trans haddr) }
    · exact h
  | reply buf =>
    rw [Device.step]
    split
    · rename_i addr hreceived
      exact h.enqueue (h.received addr hreceived) buf
    · exact h
  | handled => exact { h with received := nofun }
  | possessUdp => exact { h with possessed := nofun }
  | getPossessedAddr t => exact h.setObtained t _ h.possessed
  | send t buf =>
    rw [Device.step]
    split
    · rename_i addr hobtained
      have henqueue := h.enqueue (h.obtained t addr hobtained) buf
      have hnone := henqueue.setObtained t none fun _ haddr => by cases haddr
      rwa [enqueue_obtained] at hnone
    · exact h
  | receive =>
    rw [Device.step]
    split
    · rename_i item queue htransmit hqueue
      have hlive := List.forall_mem_cons.1 (hqueue ▸ h.sendQueue)
      refine { h with sendQueue := hlive.2, transmit := fun addr haddr => ?_ }
      obtain rfl := Option.some.inj haddr
      exact hlive.1
    · exact h
  | lock =>
    rw [Device.step]
    split
    · rename_i item htransmit
      exact { h with transmit := fun addr haddr => h.transmit addr (htransmit ▸ haddr) }
    · exact h
  | call result =>
    rw [Device.step]
    split
    · rename_i item htransmit
      refine h.sendCall (h.transmit _ (by rw [htransmit]; rfl)) (fun addr h' => ?_) _ _
      exact (Option.some.inj h').symm
    · rename_i item htransmit
      refine h.sendCall (h.transmit _ (by rw [htransmit]; rfl)) (fun addr h' => ?_) _ _
      cases h'
    · exact h

/-! ## Runs -/

omit [DecidableEq T] in
theorem addr_of_given {item : AddrItem} {given : Bytes}
    (h : s.transmit.given? = some (item, given)) : s.transmit.addr? = some item.addr := by
  cases htransmit : s.transmit with
  | header item' | payload item' =>
    rw [htransmit] at h
    obtain ⟨rfl, -⟩ := Prod.mk.inj (Option.some.inj h)
    rfl
  | _ =>
    rw [htransmit] at h
    cases h

theorem step_call {item : AddrItem} {given : Bytes} (h : s.transmit.given? = some (item, given))
    (result : Option ℕ) :
    ∃ next, Device.step s (.call result) = s.sendCall item given next result := by
  rw [Device.step]
  cases htransmit : s.transmit with
  | header item' =>
    rw [htransmit] at h
    obtain ⟨rfl, rfl⟩ := Prod.mk.inj (Option.some.inj h)
    exact ⟨_, rfl⟩
  | payload item' =>
    rw [htransmit] at h
    obtain ⟨rfl, rfl⟩ := Prod.mk.inj (Option.some.inj h)
    exact ⟨_, rfl⟩
  | _ =>
    rw [htransmit] at h
    cases h

omit [DecidableEq T] in
/-- What a `::send` of `send_from_queue` writes, and where. -/
theorem send_mem_sendCall_iff {item : AddrItem} {given bytes : Bytes} {next : Transmit}
    {result : Option ℕ} {fd : ℤ} : .send fd bytes ∈ (s.sendCall item given next result).2 ↔
      fd = item.addr.fd ∧ ∃ k, result = some k ∧ bytes = given.take k ∧
        (s.host.connections fd).isSome := by
  rw [Device.sendCall]
  cases hconnection : s.host.connections item.addr.fd with
  | none =>
    simp only [Option.isSome_none, Bool.false_eq_true, if_false]
    constructor
    · intro hmem
      cases closeClientLocked_effects _ _ _ hmem
    · rintro ⟨rfl, -, -, -, hopen⟩
      rw [hconnection] at hopen
      cases hopen
  | some c =>
    simp only [Option.isSome_some, if_true]
    cases result with
    | none =>
      constructor
      · intro hmem
        cases closeClientLocked_effects _ _ _ hmem
      · rintro ⟨-, k, hresult, -⟩
        cases hresult
    | some k =>
      simp only [List.mem_singleton, WsEffect.send.injEq, Option.some.injEq, exists_eq_left']
      refine and_congr_right fun hfd => (and_iff_left ?_).symm
      rw [hfd, hconnection]
      rfl

/-- While `send_task` is in `send_from_queue`, only its `::send` writes. -/
theorem eq_call_of_send {item : AddrItem} {given bytes : Bytes} {e : DeviceEvent T} {fd : ℤ}
    (h : s.transmit.given? = some (item, given)) (hmem : .send fd bytes ∈ (Device.step s e).2) :
    ∃ result, e = .call result := by
  cases e with
  | call result => exact ⟨result, rfl⟩
  | recvIter =>
    have hlocked : s.transmit.locked = true := by
      cases htransmit : s.transmit with
      | header | payload => rfl
      | _ =>
        rw [htransmit] at h
        cases h
    rw [Device.step, if_pos (.inl hlocked)] at hmem
    cases hmem
  | host | handled | possessUdp | getPossessedAddr => cases hmem
  | possess | reply | send | receive | lock =>
    rw [Device.step] at hmem
    split at hmem
    · cases hmem
    · cases hmem

/-- The descriptor of every address that the device keeps is closed or still open for the
connection that the address was obtained from. -/
def Owned (s : Device T) : Prop :=
  ∀ addr, s.Keeps addr → ∀ c, s.host.connections addr.fd = some c → c = addr.origin

/-- Only the web server opens a descriptor. -/
theorem connections_step {e : DeviceEvent T} {fd : ℤ} {c : ℕ}
    (h : (Device.step s e).1.host.connections fd = some c) :
    s.host.connections fd = some c ∨ e = .host (.accept fd) ∧ s.host.connections fd = none := by
  have happly (r : Backend × List WsEffect) (h : (s.host.apply r).connections fd = some c) :
      s.host.connections fd = some c := by
    simp only [Host.apply] at h
    split_ifs at h
    exact h
  cases e with
  | host e =>
    simp only [Device.step] at h
    cases e with
    | accept fd' =>
      rw [Host.step] at h
      split_ifs at h with hclosed
      · simp only [Function.update_apply] at h
        split_ifs at h with heq
        · subst heq
          exact .inr ⟨rfl, hclosed⟩
        · exact .inl h
      · exact .inl h
    | serverClose fd' =>
      rw [Host.step] at h
      split_ifs at h
      · exact .inl h
      · simp only [Function.update_apply] at h
        split_ifs at h
        exact .inl h
    | addClient fd' =>
      rw [Host.step] at h
      split_ifs at h
      · exact .inl h
      · exact .inl h
    | arrive | fail => exact .inl h
  | recvIter =>
    rw [Device.step] at h
    split_ifs at h
    · exact .inl h
    · exact .inl (happly _ h)
  | possess | receive | lock =>
    rw [Device.step] at h
    split at h
    · exact .inl h
    · exact .inl h
  | reply | send =>
    rw [Device.step] at h
    split at h
    · rw [Device.enqueue] at h
      split_ifs at h
      · exact .inl h
      · exact .inl h
    · exact .inl h
  | handled | possessUdp | getPossessedAddr => exact .inl h
  | call result =>
    rw [Device.step] at h
    split at h
    iterate 2
      rw [Device.sendCall] at h
      split at h
      · exact .inl h
      · exact .inl (happly _ h)
    exact .inl h

omit [DecidableEq T] in
theorem Keeps.of_enqueue {addr addr' : ClientAddr} {buf : Bytes}
    (h : (s.enqueue addr' buf).Keeps addr) : s.Keeps addr ∨ addr = addr' := by
  rw [Device.enqueue] at h
  split_ifs at h
  · cases h with
    | received h => exact .inl (.received h)
    | possessed h => exact .inl (.possessed h)
    | obtained t h => exact .inl (.obtained t h)
    | sendQueue item hmem haddr =>
      rcases List.mem_append.1 hmem with hmem | hmem
      · exact .inl (.sendQueue item hmem haddr)
      · obtain rfl := List.mem_singleton.1 hmem
        exact .inr haddr.symm
    | transmit h => exact .inl (.transmit h)
  · exact .inl h

/-- An address that a task has or gives up. -/
theorem Keeps.of_update {t : T} {addr? : Option ClientAddr} {addr : ClientAddr}
    (h : { s with obtained := Function.update s.obtained t addr? }.Keeps addr) :
    s.Keeps addr ∨ addr? = some addr := by
  cases h with
  | received h => exact .inl (.received h)
  | possessed h => exact .inl (.possessed h)
  | obtained t' h =>
    simp only [Function.update_apply] at h
    split_ifs at h
    · exact .inr h
    · exact .inl (.obtained t' h)
  | sendQueue item hmem haddr => exact .inl (.sendQueue item hmem haddr)
  | transmit h => exact .inl (.transmit h)

omit [DecidableEq T] in
/-- A `::send` of `send_from_queue` keeps no new address. -/
theorem Keeps.of_sendCall {item : AddrItem} {bytes : Bytes} {next : Transmit} {result : Option ℕ}
    {addr : ClientAddr} (h : (s.sendCall item bytes next result).1.Keeps addr)
    (hnext : ∀ addr, next.addr? = some addr → s.transmit.addr? = some addr) : s.Keeps addr := by
  rw [Device.sendCall] at h
  split at h
  all_goals
    cases h with
    | received h => exact .received h
    | possessed h => exact .possessed h
    | obtained t h => exact .obtained t h
    | sendQueue item hmem haddr => exact .sendQueue item hmem haddr
    | transmit h =>
      first
        | exact .transmit (hnext addr h)
        | cases h

/-- The device gets new addresses from `recv_iter` alone, of connections that are open. -/
theorem keeps_step {e : DeviceEvent T} {addr : ClientAddr}
    (h : (Device.step s e).1.Keeps addr) :
    s.Keeps addr ∨ (Device.step s e).1.host.connections addr.fd = some addr.origin := by
  cases e with
  | host e =>
    left
    cases h with
    | received h => exact .received h
    | possessed h => exact .possessed h
    | obtained t h => exact .obtained t h
    | sendQueue item hmem haddr => exact .sendQueue item hmem haddr
    | transmit h => exact .transmit h
  | recvIter =>
    rw [Device.step] at h ⊢
    split_ifs at h ⊢
    · exact .inl h
    · cases h with
      | received h =>
        obtain ⟨fd, -, hmap⟩ := Option.bind_eq_some_iff.1 h
        obtain ⟨c, hc, rfl⟩ := Option.map_eq_some_iff.1 hmap
        exact .inr hc
      | possessed h => exact .inl (.possessed h)
      | obtained t h => exact .inl (.obtained t h)
      | sendQueue item hmem haddr => exact .inl (.sendQueue item hmem haddr)
      | transmit h => exact .inl (.transmit h)
  | possess =>
    left
    rw [Device.step] at h
    split at h
    · rename_i addr' hreceived
      cases h with
      | received h => exact .received h
      | possessed h => exact .received (hreceived.trans h)
      | obtained t h => exact .obtained t h
      | sendQueue item hmem haddr => exact .sendQueue item hmem haddr
      | transmit h => exact .transmit h
    · exact h
  | reply buf =>
    left
    rw [Device.step] at h
    split at h
    · rename_i addr' hreceived
      rcases h.of_enqueue with h | rfl
      · exact h
      · exact .received hreceived
    · exact h
  | handled =>
    left
    cases h with
    | received h => cases h
    | possessed h => exact .possessed h
    | obtained t h => exact .obtained t h
    | sendQueue item hmem haddr => exact .sendQueue item hmem haddr
    | transmit h => exact .transmit h
  | possessUdp =>
    left
    cases h with
    | received h => exact .received h
    | possessed h => cases h
    | obtained t h => exact .obtained t h
    | sendQueue item hmem haddr => exact .sendQueue item hmem haddr
    | transmit h => exact .transmit h
  | getPossessedAddr t => exact .inl (h.of_update.elim id .possessed)
  | send t buf =>
    left
    rw [Device.step] at h
    split at h
    · rename_i addr' hobtained
      rw [← enqueue_obtained s addr' buf] at h
      rcases h.of_update with h | h
      · rcases h.of_enqueue with h | rfl
        · exact h
        · exact .obtained t hobtained
      · cases h
    · exact h
  | receive =>
    left
    rw [Device.step] at h
    split at h
    · rename_i item queue htransmit hqueue
      cases h with
      | received h => exact .received h
      | possessed h => exact .possessed h
      | obtained t h => exact .obtained t h
      | sendQueue item' hmem haddr =>
        exact .sendQueue item' (hqueue ▸ List.mem_cons_of_mem _ hmem) haddr
      | transmit h =>
        exact .sendQueue item (hqueue ▸ List.mem_cons_self ..) (Option.some.inj h)
    · exact h
  | lock =>
    left
    rw [Device.step] at h
    split at h
    · rename_i item htransmit
      cases h with
      | received h => exact .received h
      | possessed h => exact .possessed h
      | obtained t h => exact .obtained t h
      | sendQueue item' hmem haddr => exact .sendQueue item' hmem haddr
      | transmit h => exact .transmit (htransmit ▸ h)
    · exact h
  | call result =>
    left
    rw [Device.step] at h
    split at h
    · rename_i item htransmit
      exact h.of_sendCall fun addr haddr => htransmit ▸ haddr
    · exact h.of_sendCall nofun
    · exact h

/-- A step that gives no descriptor of a kept address keeps the addresses to their connections. -/
theorem Owned.step (h : s.Owned) {e : DeviceEvent T} (hfresh : s.GivesFresh e) :
    (Device.step s e).1.Owned := by
  intro addr haddr c hc
  rcases keeps_step haddr with hkeeps | horigin
  · rcases connections_step hc with hopen | ⟨rfl, hclosed⟩
    · exact h addr hkeeps c hopen
    · exact absurd rfl (hfresh hclosed addr hkeeps)
  · exact Option.some.inj (hc.symm.trans horigin)

omit [DecidableEq T] in
theorem owned_start : (start : Device T).Owned := by
  intro addr _ c hc
  cases hc

/-- As long as the addresses belong to their connections, a step is lawful: the connection of an
address is a client as long as it is open. -/
theorem Sound.lawful (h : s.Sound) (howned : s.Owned) (e : DeviceEvent T) : s.Lawful e := by
  intro item given hgiven fd bytes hmem _
  obtain ⟨result, rfl⟩ := eq_call_of_send hgiven hmem
  obtain ⟨next, hstep⟩ := step_call hgiven result
  rw [hstep] at hmem
  obtain ⟨rfl, k, rfl, rfl, hopen⟩ := send_mem_sendCall_iff.1 hmem
  obtain ⟨c, hc⟩ := Option.isSome_iff_exists.1 hopen
  have haddr := addr_of_given hgiven
  have horigin : s.host.connections item.addr.fd = some item.addr.origin := by
    rw [hc, howned item.addr (.transmit haddr) c hc]
  exact ⟨(h.transmit _ haddr).mem_fds horigin, horigin⟩

/-- **`send_from_queue` writes to the connections of its items alone** in every run in which no
connection gets a descriptor that the device still keeps. -/
theorem lawful_run {es : List (DeviceEvent T)}
    (hfresh : EveryStep Device.step (fun s e => s.GivesFresh e) start es) :
    EveryStep Device.step (fun s e => s.Lawful e) start es := by
  suffices h : ∀ s : Device T, s.Sound → s.Owned →
      EveryStep Device.step (fun s e => s.GivesFresh e) s es →
      EveryStep Device.step (fun s e => s.Lawful e) s es from
    h start sound_start owned_start hfresh
  clear hfresh
  induction es with
  | nil => exact fun _ _ _ _ => List.forall_mem_nil _
  | cons e es ih =>
    intro s hs howned hfresh
    rw [EveryStep.cons_iff] at hfresh ⊢
    exact ⟨hs.lawful howned e, ih _ (hs.step e) (howned.step hfresh.1) hfresh.2⟩

/-! ## A descriptor that is used again -/

/-- The packet of a client that possesses the device. -/
def possessPacket : Bytes := literal "\x7b\"c\":\"possess\",\"n\":0\x7d"

theorem receivedFd_possessPacket (fd : ℤ) :
    receivedFd [.parse fd possessPacket] = some fd := by
  let members : List (Json.Member Json.Value) :=
    [⟨literal "c", .string (literal "possess")⟩, ⟨literal "n", .number (.finite 0)⟩]
  have htext : (Json.Value.object members).serialize (fun _ => 0) = possessPacket := by
    decide +kernel
  have hparse := Json.parse_object_serialize (fun _ => 0) members
  rw [htext, if_pos (by decide +kernel)] at hparse
  simp [receivedFd, hparse]

/-- What `recv_iter` leaves when it returns a packet. -/
def receivedState (s : Device T) (addr : ClientAddr) : Device T :=
  { s with host := s.host.apply (Ws.recvIter s.host.backend), received := some addr }

theorem step_recvIter {addr : ClientAddr} (hlocked : s.transmit.locked = false)
    (hreceived : s.received = none)
    (hfd : receivedFd (Ws.recvIter s.host.backend).2 = some addr.fd)
    (hc : (s.host.apply (Ws.recvIter s.host.backend)).connections addr.fd = some addr.origin) :
    (Device.step s .recvIter).1 = s.receivedState addr := by
  rw [Device.step, if_neg (by simp [hlocked, hreceived])]
  simp only [hfd, Option.bind_some, hc, Option.map_some]
  rfl

/-- The web server hands over connection 0, under descriptor 5, and a frame with a packet arrives.
After two calls of `recv_iter` the payload is next. -/
def arrival : List (DeviceEvent Unit) :=
  [.host (.accept 5), .host (.addClient 5),
    .host (.arrive 5 ([0x81, 0x80 + 21, 0, 0, 0, 0] ++ possessPacket)), .recvIter, .recvIter]

/-- The packet possesses the device, a task sends, and the socket of the client fails. The web
server accepts connection 1 under descriptor 5 before `send_task` has the item. -/
def reuse : List (DeviceEvent Unit) :=
  [.possess, .handled, .getPossessedAddr (), .send () (literal "x"), .host (.fail 5), .recvIter,
    .host (.accept 5), .receive, .lock]

theorem final_arrival : final Device.step start (arrival ++ [.recvIter]) =
    (final Device.step start arrival).receivedState ⟨5, 0⟩ := by
  have hparse : (Ws.recvIter (final Device.step start arrival).host.backend).2 =
      [.parse 5 possessPacket] := by decide +kernel
  rw [final_append]
  refine step_recvIter (by decide +kernel) (by decide +kernel) ?_ (by decide +kernel)
  rw [hparse, receivedFd_possessPacket]

/-- The run up to the first `::send`. -/
def reused : List (DeviceEvent Unit) := arrival ++ [.recvIter] ++ reuse

/-- The client possesses the device, a task sends to it, and `send_task` writes the header. -/
theorem lawful_run_arrival :
    EveryStep Device.step (fun s e => s.Lawful e) (start : Device Unit)
      (arrival ++ [.recvIter, .possess, .handled, .getPossessedAddr (), .send () (literal "x"),
        .receive, .lock, .call (some 2)]) := by
  refine lawful_run ?_
  have hnone (addr : ClientAddr) : ¬ (start : Device Unit).Keeps addr := by
    intro h
    cases h with
    | sendQueue item hmem => cases hmem
    | received h | possessed h | obtained _ h | transmit h => cases h
  simp only [arrival, List.cons_append, List.nil_append, EveryStep.cons_iff, GivesFresh, true_and]
  exact ⟨fun _ addr haddr => absurd haddr (hnone addr), List.forall_mem_nil _⟩

/-- The header of the frame for connection 0 is written to connection 1. -/
theorem not_lawful_reuse :
    ¬ ∀ es : List (DeviceEvent Unit), EveryStep Device.step (fun s e => s.Lawful e) start es := by
  intro h
  have hfinal : final Device.step start reused =
      final Device.step ((final Device.step start arrival).receivedState ⟨5, 0⟩) reuse := by
    rw [reused, final_append, final_arrival]
  have hgiven : (final Device.step start reused).transmit.given? =
      some (⟨⟨5, 0⟩, .ofBuf (literal "x")⟩, wsHeader 1) := by
    rw [hfinal]
    decide +kernel
  have hopen : (final Device.step start reused).host.connections 5 =
      some 1 := by
    rw [hfinal]
    decide +kernel
  have hlawful := (EveryStep.append_iff.1 (h (reused ++ [.call (some 2)]))).2
  obtain ⟨next, hstep⟩ := step_call hgiven (some 2)
  have hmem : .send 5 (wsHeader 1) ∈ (Device.step
      (final Device.step start reused) (.call (some 2))).2 := by
    rw [hstep, send_mem_sendCall_iff]
    exact ⟨rfl, 2, rfl, by decide, by rw [hopen]; rfl⟩
  obtain ⟨-, horigin⟩ := (EveryStep.cons_iff.1 hlawful).1 _ _ hgiven _ _ hmem (by decide)
  cases hopen.symm.trans horigin

end Device

end RbProtocol.Ws
