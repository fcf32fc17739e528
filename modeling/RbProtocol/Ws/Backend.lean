import RbProtocol.Ws.Client

/-!
# The clients of the WebSocket backend

`ProtBackendWs` as a machine: its clients, and the sockets of the system. The system makes sockets,
puts bytes in them and lets them fail; the web server adds clients, a failed `send` closes one, and
`recv_iter` gives the clients their turns.

On any bytes the clients keep within their payloads (`Client.Bounded`), so no turn ends with a write
outside of one (`recvLoop_spec`).
-/

namespace RbProtocol.Ws

open Library

/-- What the backend does. -/
inductive WsEffect
  /-- `rbjson::parse` is called. -/
  | parse (fd : ℤ) (payload : Bytes)
  | send (fd : ℤ) (bytes : Bytes)
  | close (fd : ℤ)
  /-- A write outside of a payload, which has no meaning in C++. -/
  | fault
  deriving DecidableEq

/-- `ProtBackendWs`, and the sockets of the system. -/
structure Backend where
  clients : List Client
  sockets : ℤ → Socket

/-- The result of the loop of `recv_iter`: `full` is the client it returns at. -/
structure Round where
  clients : List Client
  sockets : ℤ → Socket
  effects : List WsEffect
  full : Option Client

/-- `ProtBackendWs::close_client_locked`. -/
def closeClientLocked (b : Backend) (fd : ℤ) : Backend × List WsEffect :=
  ({ b with clients := b.clients.eraseP fun client => client.fd = fd },
    if b.clients.any fun client => client.fd = fd then [.close fd] else [])

/-- `ProtBackendWs::close_client_locked_gracefully`. -/
def closeClientLockedGracefully (b : Backend) (fd : ℤ) : Backend × List WsEffect :=
  let r := closeClientLocked b fd
  (r.1, .send fd [0x80 ||| opcodeClose, 0] :: r.2)

/-- `ProtBackendWs::process_client_fully_received_locked`, of a client that is back in `INITIAL`. -/
def processClientFullyReceivedLocked (b : Backend) (client : Client) : Backend × List WsEffect :=
  if client.opcode = opcodeClose then closeClientLockedGracefully b client.fd
  else (b, [.parse client.fd client.payload])

/-- The loop of `ProtBackendWs::recv_iter`. -/
def recvLoop (sockets : ℤ → Socket) : List Client → Round
  | [] => ⟨[], sockets, [], none⟩
  | client :: rest =>
    match processClient client (sockets client.fd) with
    | .closed =>
      let r := recvLoop sockets rest
      { r with effects := .close client.fd :: r.effects }
    | .fault =>
      let r := recvLoop sockets rest
      { r with effects := .fault :: r.effects }
    | .running client' socket =>
      let sockets := Function.update sockets client.fd socket
      if client'.state = .fullyReceived then
        let client' := { client' with state := .initial }
        ⟨client' :: rest, sockets, [], some client'⟩
      else
        let r := recvLoop sockets rest
        { r with clients := client' :: r.clients }

/-- `ProtBackendWs::recv_iter`. -/
def recvIter (b : Backend) : Backend × List WsEffect :=
  let r := recvLoop b.sockets b.clients
  match r.full with
  | none => (⟨r.clients, r.sockets⟩, r.effects)
  | some client =>
    let fr := processClientFullyReceivedLocked ⟨r.clients, r.sockets⟩ client
    (fr.1, r.effects ++ fr.2)

/-- What happens to the backend. -/
inductive WsEvent
  /-- The system makes a socket. -/
  | accept (fd : ℤ)
  /-- Bytes become available. -/
  | arrive (fd : ℤ) (bytes : Bytes)
  /-- `recv` fails from now on. -/
  | fail (fd : ℤ)
  /-- `ProtBackendWs::addClient`. -/
  | addClient (fd : ℤ)
  /-- `ProtBackendWs::close_client`, when a `send` has failed. -/
  | closeClient (fd : ℤ)
  /-- `ProtBackendWs::recv_iter`. -/
  | recvIter

/-- More bytes in a socket. -/
def Socket.push (socket : Socket) (bytes : Bytes) : Socket :=
  { socket with avail := socket.avail ++ bytes }

/-- The machine of the backend. -/
def backend : Machine Backend WsEvent WsEffect
  | b, .accept fd => ({ b with sockets := Function.update b.sockets fd ⟨[], false⟩ }, [])
  | b, .arrive fd bytes =>
    ({ b with sockets := Function.update b.sockets fd ((b.sockets fd).push bytes) }, [])
  | b, .fail fd =>
    ({ b with sockets := Function.update b.sockets fd { b.sockets fd with failed := true } }, [])
  | b, .addClient fd => ({ b with clients := b.clients ++ [Client.new fd] }, [])
  | b, .closeClient fd => closeClientLocked b fd
  | b, .recvIter => recvIter b

/-- The backend before the first connection. -/
def Backend.start : Backend := ⟨[], fun _ => ⟨[], false⟩⟩

/-! ## The clients stay within their payloads -/

/-- What holds of a client between the steps of its decoder. -/
structure Client.Bounded (client : Client) : Prop where
  payload_le : client.payload.length ≤ maxPayload
  data_le : client.state = .data →
    0 < client.remainingPayloadLen ∧ client.remainingPayloadLen ≤ client.payload.length

/-- What holds of a client between the calls of `recv_iter`. -/
structure Client.Waiting (client : Client) : Prop extends client.Bounded where
  state_ne : client.state ≠ .fullyReceived

/-- A good end of a turn: the client is closed, or it is still bounded and on its socket, and a
complete message has taken some bytes. -/
def GoodTurn (client : Client) (socket : Socket) : Outcome → Prop
  | .closed => True
  | .fault => False
  | .running client' socket' => client'.Bounded ∧ client'.fd = client.fd ∧
      socket'.avail.length ≤ socket.avail.length ∧
      (client'.state = .fullyReceived → socket'.avail.length < socket.avail.length)

theorem Client.waiting_new (fd : ℤ) : (Client.new fd).Waiting where
  payload_le := Nat.zero_le _
  data_le := nofun
  state_ne := nofun

/-- A client that is put back to `INITIAL`. -/
theorem Client.Bounded.waiting {client : Client} (h : client.Bounded) :
    Client.Waiting { client with state := .initial } where
  payload_le := h.payload_le
  data_le := nofun
  state_ne := nofun

/-- A read takes bytes away. -/
theorem length_avail_readAtLeast {socket socket' : Socket} {n : ℕ} {bytes : Bytes}
    (h : readAtLeast socket n = some (bytes, socket')) :
    socket.avail.length = bytes.length + socket'.avail.length := by
  rw [readAtLeast] at h
  split_ifs at h with hfailed hshort
  · obtain ⟨rfl, rfl⟩ := Prod.mk.inj (Option.some.inj h)
    exact (Nat.zero_add _).symm
  · obtain ⟨rfl, rfl⟩ := Prod.mk.inj (Option.some.inj h)
    rw [← List.length_append, List.take_append_drop]

theorem bounded_endOfFrame {client : Client} (h : client.payload.length ≤ maxPayload) :
    (endOfFrame client).Bounded where
  payload_le := h
  data_le hdata := by
    rw [endOfFrame] at hdata
    split_ifs at hdata

/-- The end of a turn that leaves the client as it is. -/
theorem goodTurn_wait {client : Client} (socket : Socket) (h : client.Waiting) :
    GoodTurn client socket (.running client socket) :=
  ⟨h.toBounded, rfl, le_rfl, fun hfull => absurd hfull h.state_ne⟩

/-- A good end of the rest of a turn, behind a part that has read some bytes. -/
theorem GoodTurn.trans {client next : Client} {socket socket' : Socket} {o : Outcome}
    (h : GoodTurn next socket' o) (hfd : next.fd = client.fd)
    (havail : socket'.avail.length ≤ socket.avail.length) : GoodTurn client socket o := by
  cases o with
  | closed => exact trivial
  | fault => exact h
  | running client' socket'' =>
    obtain ⟨hbounded, hfd', hle, hfull⟩ := h
    exact ⟨hbounded, hfd'.trans hfd, hle.trans havail, fun hs => (hfull hs).trans_le havail⟩

/-- The header of a frame makes the payload no longer, and leads to one of two states. -/
theorem processClientHeader_spec {client next : Client} {buf : Bytes}
    (h : processClientHeader client buf = some next) : next.fd = client.fd ∧
      next.payload.length ≤ client.payload.length ∧ next.state ≠ .data ∧
      next.state ≠ .fullyReceived := by
  unfold processClientHeader at h
  simp only at h
  split_ifs at h <;> obtain rfl := Option.some.inj h <;>
    exact ⟨rfl, by simp, nofun, nofun⟩

/-- The loop of the state `DATA` writes within the payload. -/
theorem goodTurn_processData {client : Client} {socket : Socket} (h : client.Bounded)
    (hstate : client.state = .data) : GoodTurn client socket (processData client socket) := by
  induction hn : client.remainingPayloadLen using Nat.strong_induction_on
    generalizing client socket with
  | _ n ih =>
    obtain ⟨hpos, hle⟩ := h.data_le hstate
    have hmax := h.payload_le
    rw [processData_eq]
    cases hread : readAtLeast socket (min client.remainingPayloadLen chunkSize) with
    | none => exact trivial
    | some r =>
      obtain ⟨chunk, socket'⟩ := r
      have havail := length_avail_readAtLeast hread
      have hlen := length_readAtLeast hread
      by_cases h0 : chunk.length = 0
      · simp only [h0, if_true]
        exact goodTurn_wait socket ⟨h, by simp [hstate]⟩
      · -- the chunk lies before the end of the payload
        rw [maxPayload] at hmax
        obtain ⟨payload, hwrite⟩ := Option.isSome_iff_exists.1 <|
          (writeAt?_isSome_iff client.payload
            ((client.payload.length + 2 ^ 16 - client.remainingPayloadLen) % 2 ^ 16)
            (unmask client.maskingKey chunk)).2 <| by
              rw [unmask, List.length_mapIdx]
              omega
        have hpayload := length_writeAt? hwrite
        simp only [h0, if_false, hwrite]
        split_ifs with hlast
        · exact ⟨bounded_endOfFrame (hpayload.trans_le hmax), rfl, by omega, fun _ => by omega⟩
        · have hrest : client.remainingPayloadLen - chunk.length ≤ payload.length := by omega
          have hlt : client.remainingPayloadLen - chunk.length < n := by omega
          have hgood := @ih _ hlt { client with
              payload := payload, remainingPayloadLen := client.remainingPayloadLen - chunk.length }
            socket' ⟨hpayload.trans_le hmax, fun _ => ⟨Nat.pos_of_ne_zero hlast, hrest⟩⟩ hstate rfl
          exact hgood.trans rfl (by omega)

/-- Any turn of a client that waits is good. -/
theorem goodTurn_processClient {client : Client} (socket : Socket) (h : client.Waiting) :
    GoodTurn client socket (processClient client socket) := by
  have hwait := goodTurn_wait socket h
  rw [processClient]
  cases hstate : client.state with
  | initial =>
    cases hread : readAtLeast socket 2 with
    | none => exact trivial
    | some r =>
      obtain ⟨buf, socket'⟩ := r
      have havail := length_avail_readAtLeast hread
      simp only
      split_ifs with h0
      · exact hwait
      · cases hheader : processClientHeader client buf with
        | none => exact trivial
        | some next =>
          obtain ⟨hfd, hpayload, hdata, hfull⟩ := processClientHeader_spec hheader
          exact ⟨⟨hpayload.trans h.payload_le, fun hs => absurd hs hdata⟩, hfd, by omega,
            fun hs => absurd hs hfull⟩
  | len1 =>
    cases hread : readAtLeast socket 2 with
    | none => exact trivial
    | some r =>
      obtain ⟨buf, socket'⟩ := r
      have havail := length_avail_readAtLeast hread
      simp only
      split_ifs with h0
      · exact hwait
      · exact ⟨⟨h.payload_le, nofun⟩, rfl, by omega, nofun⟩
  | mask =>
    cases hread : readAtLeast socket 4 with
    | none => exact trivial
    | some r =>
      obtain ⟨key, socket'⟩ := r
      have havail := length_avail_readAtLeast hread
      simp only
      split_ifs with h0 hempty hlong
      · exact hwait
      · exact ⟨bounded_endOfFrame h.payload_le, rfl, by omega, fun _ => by omega⟩
      · exact trivial
      · have hlen : (client.payload ++ List.replicate client.remainingPayloadLen 0).length =
            client.payload.length + client.remainingPayloadLen := by simp
        exact ⟨⟨hlen.trans_le (not_lt.1 hlong),
          fun _ => ⟨Nat.pos_of_ne_zero hempty, hlen ▸ Nat.le_add_left ..⟩⟩, rfl, by omega, nofun⟩
  | data => exact goodTurn_processData h.toBounded hstate
  | fullyReceived => exact absurd hstate h.state_ne

/-! ## The loop of `recv_iter` -/

/-- What the loop does to the clients and their sockets: bytes are only taken, by clients of the
list, of which some may go; a client with a complete message has taken some. -/
structure RoundSpec (sockets : ℤ → Socket) (clients : List Client) (r : Round) : Prop where
  waiting : ∀ client ∈ r.clients, client.Waiting
  fds : (r.clients.map Client.fd).Sublist (clients.map Client.fd)
  avail_le : ∀ fd, (r.sockets fd).avail.length ≤ (sockets fd).avail.length
  frame : ∀ fd ∉ clients.map Client.fd, r.sockets fd = sockets fd
  full : ∀ client, r.full = some client → client ∈ r.clients ∧
    (r.sockets client.fd).avail.length < (sockets client.fd).avail.length
  effects : ∀ e ∈ r.effects, ∃ fd ∈ clients.map Client.fd, e = .close fd

/-- A client in front that is closed. -/
theorem RoundSpec.closed {sockets : ℤ → Socket} {client : Client} {rest : List Client} {r : Round}
    (h : RoundSpec sockets rest r) :
    RoundSpec sockets (client :: rest) { r with effects := .close client.fd :: r.effects } where
  waiting := h.waiting
  fds := h.fds.cons _
  avail_le := h.avail_le
  frame fd hfd := h.frame fd fun hmem => hfd (List.mem_cons_of_mem _ hmem)
  full := h.full
  effects e he := by
    rcases List.mem_cons.1 he with rfl | he
    · exact ⟨client.fd, List.mem_cons_self, rfl⟩
    · obtain ⟨fd, hfd, rfl⟩ := h.effects e he
      exact ⟨fd, List.mem_cons_of_mem _ hfd, rfl⟩

section Round

variable {sockets : ℤ → Socket} {client client' : Client} {socket : Socket} {rest : List Client}

theorem update_avail_le (h : socket.avail.length ≤ (sockets client.fd).avail.length) (fd : ℤ) :
    (Function.update sockets client.fd socket fd).avail.length ≤ (sockets fd).avail.length := by
  rcases eq_or_ne fd client.fd with rfl | hne
  · rwa [Function.update_self]
  · rw [Function.update_of_ne hne]

/-- A client in front that goes on. -/
theorem RoundSpec.running {r : Round}
    (h : RoundSpec (Function.update sockets client.fd socket) rest r) (hclient : client'.Waiting)
    (hfd : client'.fd = client.fd)
    (hle : socket.avail.length ≤ (sockets client.fd).avail.length) :
    RoundSpec sockets (client :: rest) { r with clients := client' :: r.clients } where
  waiting := List.forall_mem_cons.2 ⟨hclient, h.waiting⟩
  fds := by
    rw [List.map_cons, List.map_cons, hfd]
    exact h.fds.cons_cons _
  avail_le fd := (h.avail_le fd).trans (update_avail_le hle fd)
  frame fd hfd := by
    rw [List.map_cons, List.mem_cons, not_or] at hfd
    rw [h.frame fd hfd.2, Function.update_of_ne hfd.1]
  full x hx := by
    obtain ⟨hmem, hlt⟩ := h.full x hx
    exact ⟨List.mem_cons_of_mem _ hmem, hlt.trans_le (update_avail_le hle x.fd)⟩
  effects e he := by
    obtain ⟨fd, hfd, rfl⟩ := h.effects e he
    exact ⟨fd, List.mem_cons_of_mem _ hfd, rfl⟩

/-- A client in front that has a complete message. -/
theorem RoundSpec.stop (hclient : client'.Waiting) (hrest : ∀ x ∈ rest, x.Waiting)
    (hfd : client'.fd = client.fd) (hlt : socket.avail.length < (sockets client.fd).avail.length) :
    RoundSpec sockets (client :: rest)
      ⟨client' :: rest, Function.update sockets client.fd socket, [], some client'⟩ where
  waiting := List.forall_mem_cons.2 ⟨hclient, hrest⟩
  fds := by rw [List.map_cons, List.map_cons, hfd]
  avail_le fd := update_avail_le hlt.le fd
  frame fd hfd := by
    rw [List.map_cons, List.mem_cons, not_or] at hfd
    exact Function.update_of_ne hfd.1 _ _
  full x hx := by
    obtain rfl := Option.some.inj hx
    refine ⟨List.mem_cons_self, ?_⟩
    simpa only [hfd, Function.update_self] using hlt
  effects e he := absurd he List.not_mem_nil

end Round

/-- **A round of `recv_iter`** over clients that wait. -/
theorem recvLoop_spec (sockets : ℤ → Socket) {clients : List Client}
    (h : ∀ client ∈ clients, client.Waiting) :
    RoundSpec sockets clients (recvLoop sockets clients) := by
  induction clients generalizing sockets with
  | nil =>
    exact ⟨h, List.Sublist.refl _, fun _ => le_rfl, fun _ _ => rfl, nofun, nofun⟩
  | cons client rest ih =>
    obtain ⟨hclient, hrest⟩ := List.forall_mem_cons.1 h
    have hturn := goodTurn_processClient (sockets client.fd) hclient
    rw [recvLoop]
    cases hrun : processClient client (sockets client.fd) with
    | closed => exact (ih sockets hrest).closed
    | fault =>
      rw [hrun] at hturn
      exact hturn.elim
    | running client' socket =>
      rw [hrun] at hturn
      obtain ⟨hbounded, hfd, hle, hfull⟩ := hturn
      simp only
      split_ifs with hstate
      · exact .stop hbounded.waiting hrest hfd (hfull hstate)
      · exact (ih _ hrest).running ⟨hbounded, hstate⟩ hfd hle

/-- The loop over two lists: the second has its turn unless the loop ends in the first. -/
theorem recvLoop_append (sockets : ℤ → Socket) (l₁ l₂ : List Client) :
    recvLoop sockets (l₁ ++ l₂) =
      let r₁ := recvLoop sockets l₁
      if r₁.full.isSome then { r₁ with clients := r₁.clients ++ l₂ }
      else
        let r₂ := recvLoop r₁.sockets l₂
        ⟨r₁.clients ++ r₂.clients, r₂.sockets, r₁.effects ++ r₂.effects, r₂.full⟩ := by
  induction l₁ generalizing sockets with
  | nil => rfl
  | cons client rest ih =>
    rw [List.cons_append, recvLoop, recvLoop]
    cases processClient client (sockets client.fd) with
    | closed =>
      simp only [ih]
      split_ifs <;> rfl
    | fault =>
      simp only [ih]
      split_ifs <;> rfl
    | running client' socket =>
      simp only [ih]
      split_ifs <;> first | rfl | contradiction

/-! ## Bytes that wait -/

/-- The bytes that the clients can read. -/
def Backend.waitingBytes (b : Backend) : ℕ :=
  ((b.clients.map Client.fd).map fun fd => (b.sockets fd).avail.length).sum

/-- A client that reads leaves fewer bytes, if no bytes come and no clients. -/
theorem waitingBytes_lt {b b' : Backend} {fd : ℤ}
    (hfds : (b'.clients.map Client.fd).Sublist (b.clients.map Client.fd))
    (hle : ∀ fd, (b'.sockets fd).avail.length ≤ (b.sockets fd).avail.length)
    (hmem : fd ∈ b.clients.map Client.fd)
    (hlt : (b'.sockets fd).avail.length < (b.sockets fd).avail.length) :
    b'.waitingBytes < b.waitingBytes :=
  calc b'.waitingBytes
      ≤ ((b.clients.map Client.fd).map fun fd => (b'.sockets fd).avail.length).sum :=
        (hfds.map _).sum_le_sum fun _ _ => Nat.zero_le _
    _ < b.waitingBytes := List.sum_lt_sum _ _ (fun fd _ => hle fd) ⟨fd, hmem, hlt⟩

/-! ## The backend on any run -/

/-- Closing a client takes it out, and nothing else happens. -/
theorem closeClientLocked_effects (b : Backend) (fd : ℤ) :
    ∀ e ∈ (closeClientLocked b fd).2, e = .close fd := by
  rw [closeClientLocked]
  split_ifs <;> simp

/-- What `recv_iter` does at a complete message, to the clients and the sockets. -/
theorem processClientFullyReceivedLocked_spec (b : Backend) (client : Client) :
    (processClientFullyReceivedLocked b client).1.clients.Sublist b.clients ∧
      (processClientFullyReceivedLocked b client).1.sockets = b.sockets := by
  rw [processClientFullyReceivedLocked]
  split_ifs
  · exact ⟨List.eraseP_sublist, rfl⟩
  · exact ⟨List.Sublist.refl _, rfl⟩

theorem recvIter_none {b : Backend} (h : (recvLoop b.sockets b.clients).full = none) :
    recvIter b = (⟨(recvLoop b.sockets b.clients).clients, (recvLoop b.sockets b.clients).sockets⟩,
      (recvLoop b.sockets b.clients).effects) := by
  rw [recvIter]
  simp only [h]

theorem recvIter_some {b : Backend} {client : Client}
    (h : (recvLoop b.sockets b.clients).full = some client) :
    recvIter b =
      let fr := processClientFullyReceivedLocked
        ⟨(recvLoop b.sockets b.clients).clients, (recvLoop b.sockets b.clients).sockets⟩ client
      (fr.1, (recvLoop b.sockets b.clients).effects ++ fr.2) := by
  rw [recvIter]
  simp only [h]

/-- The clients and the sockets after `recv_iter`. -/
theorem recvIter_spec (b : Backend) :
    (recvIter b).1.clients.Sublist (recvLoop b.sockets b.clients).clients ∧
      (recvIter b).1.sockets = (recvLoop b.sockets b.clients).sockets := by
  cases h : (recvLoop b.sockets b.clients).full with
  | none =>
    rw [recvIter_none h]
    exact ⟨List.Sublist.refl _, rfl⟩
  | some client =>
    rw [recvIter_some h]
    exact processClientFullyReceivedLocked_spec _ client

/-- Each event leaves the clients waiting. -/
theorem waiting_backend {b : Backend} (h : ∀ client ∈ b.clients, client.Waiting) (e : WsEvent) :
    ∀ client ∈ (backend b e).1.clients, client.Waiting := by
  cases e with
  | accept fd => exact h
  | arrive fd bytes => exact h
  | fail fd => exact h
  | addClient fd =>
    intro client hclient
    rcases List.mem_append.1 hclient with hclient | hclient
    · exact h client hclient
    · obtain rfl := List.mem_singleton.1 hclient
      exact Client.waiting_new fd
  | closeClient fd => exact fun client hclient => h client (List.eraseP_sublist.subset hclient)
  | recvIter =>
    exact fun client hclient =>
      (recvLoop_spec b.sockets h).waiting client ((recvIter_spec b).1.subset hclient)

/-- **On any run, with any bytes, the clients stay within their payloads.** -/
theorem waiting_final (es : List WsEvent) :
    ∀ client ∈ (Machine.final backend .start es).clients, client.Waiting := by
  suffices h : ∀ b : Backend, (∀ client ∈ b.clients, client.Waiting) →
      ∀ client ∈ (Machine.final backend b es).clients, client.Waiting from
    h .start fun _ hclient => absurd hclient List.not_mem_nil
  induction es with
  | nil => exact fun _ h => h
  | cons e es ih => exact fun b h => ih _ (waiting_backend h e)

end RbProtocol.Ws
