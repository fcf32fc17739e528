import RbProtocol.Ws.Backend

/-!
# The invariant of the receiver

Whatever bytes the clients send, and however they arrive: in every reachable state, and at every
call of `process_client` in a round of `recv_iter`, a payload has at most 32768 bytes, in the state
`DATA` there is something left to read and it fits in the payload, and no client is in
`FULLY_RECEIVED` (`receiver_invariant`). So the 16-bit index of every chunk is that of its place in
the payload, and the remaining length is never taken below zero.
-/

namespace RbProtocol.Ws

open Library Machine

/-! ## The calls and the rounds -/

/-- The calls of `process_client` in the loop of `recv_iter`: the clients as they are then, each
with its socket. -/
def processed (sockets : ℤ → Socket) : List Client → List (Client × Socket)
  | [] => []
  | client :: rest =>
    (client, sockets client.fd) ::
      match processClient client (sockets client.fd) with
      | .closed | .fault => processed sockets rest
      | .running client' socket =>
        if client'.state = .fullyReceived then []
        else processed (Function.update sockets client.fd socket) rest

/-- The index of the next chunk in the payload, in 16 bits. -/
def payloadIdx (client : Client) : ℕ :=
  (client.payload.length + 2 ^ 16 - client.remainingPayloadLen) % 2 ^ 16

/-- The rounds of the loop of `DATA`: the client and the socket before each read. -/
inductive DataRound (client : Client) (socket : Socket) : Client → Socket → Prop
  | first : DataRound client socket client socket
  | next {c : Client} {s s' : Socket} {chunk payload : Bytes} (h : DataRound client socket c s)
      (hread : readAtLeast s (min c.remainingPayloadLen chunkSize) = some (chunk, s'))
      (hne : chunk.length ≠ 0)
      (hwrite : writeAt? c.payload (payloadIdx c) (unmask c.maskingKey chunk) = some payload)
      (hmore : c.remainingPayloadLen - chunk.length ≠ 0) :
      DataRound client socket
        { c with payload := payload, remainingPayloadLen := c.remainingPayloadLen - chunk.length }
          s'

/-- The rounds are those of `processData`. -/
theorem DataRound.processData_eq {client c : Client} {socket s : Socket}
    (h : DataRound client socket c s) : processData client socket = processData c s := by
  induction h with
  | first => rfl
  | @next c s s' chunk payload _ hread hne hwrite hmore ih =>
    rw [ih, Ws.processData_eq c s, hread]
    simp only [hne, if_false]
    rw [payloadIdx] at hwrite
    rw [hwrite]
    simp only [hmore, if_false]

/-- A chunk lies in the payload at its 16-bit index, and no more is taken from the remaining length
than there is. -/
def ChunkFits (client : Client) (chunk : Bytes) : Prop :=
  payloadIdx client = client.payload.length - client.remainingPayloadLen ∧
    payloadIdx client + chunk.length ≤ client.payload.length ∧
    payloadIdx client + chunk.length < 2 ^ 16 ∧ chunk.length ≤ client.remainingPayloadLen

theorem chunkFits_of_bounded {client : Client} {socket socket' : Socket} {chunk : Bytes}
    (h : client.Bounded) (hstate : client.state = .data)
    (hread : readAtLeast socket (min client.remainingPayloadLen chunkSize) =
      some (chunk, socket')) :
    ChunkFits client chunk := by
  obtain ⟨hpos, hle⟩ := h.data_le hstate
  have hmax := h.payload_le
  have hlen := length_readAtLeast hread
  rw [maxPayload] at hmax
  have hidx : payloadIdx client = client.payload.length - client.remainingPayloadLen := by
    rw [payloadIdx]
    omega
  rw [ChunkFits, hidx]
  omega

/-- The rounds keep the client bounded, and in `DATA`. -/
theorem DataRound.bounded {client c : Client} {socket s : Socket} (h : DataRound client socket c s)
    (hbounded : client.Bounded) (hstate : client.state = .data) : c.Bounded ∧ c.state = .data := by
  induction h with
  | first => exact ⟨hbounded, hstate⟩
  | @next c s s' chunk payload _ hread hne hwrite hmore ih =>
    obtain ⟨hc, hdata⟩ := ih
    obtain ⟨hidx, hin, -, hle⟩ := chunkFits_of_bounded hc hdata hread
    obtain ⟨-, hpayload⟩ := hc.data_le hdata
    have hlen := length_writeAt? hwrite
    refine ⟨⟨hlen.trans_le hc.payload_le, fun _ => ⟨Nat.pos_of_ne_zero hmore, ?_⟩⟩, hdata⟩
    show c.remainingPayloadLen - chunk.length ≤ payload.length
    omega

/-- **A frame leaves `DATA` with nothing remaining.** The induction is on what remains. -/
theorem processData_leaves {client client' : Client} {socket socket' : Socket}
    (hstate : client.state = .data) (h : processData client socket = .running client' socket')
    (hleft : client'.state ≠ .data) : client'.remainingPayloadLen = 0 := by
  induction hn : client.remainingPayloadLen using Nat.strong_induction_on
    generalizing client socket with
  | _ n ih =>
    rw [Ws.processData_eq] at h
    cases hread : readAtLeast socket (min client.remainingPayloadLen chunkSize) with
    | none =>
      rw [hread] at h
      cases h
    | some r =>
      obtain ⟨chunk, s⟩ := r
      have hlen := length_readAtLeast hread
      rw [hread] at h
      by_cases h0 : chunk.length = 0
      · simp only [h0, if_true] at h
        obtain ⟨rfl, -⟩ := Outcome.running.inj h
        exact absurd hstate hleft
      · simp only [h0, if_false] at h
        split at h
        · cases h
        · by_cases hlast : client.remainingPayloadLen - chunk.length = 0
          · rw [if_pos hlast] at h
            obtain ⟨rfl, -⟩ := Outcome.running.inj h
            exact hlast
          · rw [if_neg hlast] at h
            have hlt : client.remainingPayloadLen - chunk.length < n := by omega
            exact @ih _ hlt { client with
              payload := _, remainingPayloadLen := client.remainingPayloadLen - chunk.length }
              s hstate h rfl

/-! ## Every call -/

/-- The clients wait at every call of a round. -/
theorem waiting_processed (sockets : ℤ → Socket) {clients : List Client}
    (h : ∀ client ∈ clients, client.Waiting) : ∀ c ∈ processed sockets clients, c.1.Waiting := by
  induction clients generalizing sockets with
  | nil => exact fun c hc => absurd hc List.not_mem_nil
  | cons client rest ih =>
    obtain ⟨hclient, hrest⟩ := List.forall_mem_cons.1 h
    rw [processed]
    refine List.forall_mem_cons.2 ⟨hclient, ?_⟩
    cases processClient client (sockets client.fd) with
    | closed => exact ih sockets hrest
    | fault => exact ih sockets hrest
    | running client' socket =>
      simp only
      split_ifs
      · exact fun c hc => absurd hc List.not_mem_nil
      · exact ih _ hrest

/-- A round writes nowhere outside of a payload. -/
theorem fault_not_mem_recvIter {b : Backend} (h : ∀ client ∈ b.clients, client.Waiting) :
    .fault ∉ (recvIter b).2 := by
  have hloop : .fault ∉ (recvLoop b.sockets b.clients).effects := by
    intro hmem
    obtain ⟨fd, -, heq⟩ := (recvLoop_spec b.sockets h).effects _ hmem
    cases heq
  cases hfull : (recvLoop b.sockets b.clients).full with
  | none =>
    rw [recvIter_none hfull]
    exact hloop
  | some client =>
    rw [recvIter_some hfull]
    intro hmem
    rcases List.mem_append.1 hmem with hmem | hmem
    · exact hloop hmem
    · rw [processClientFullyReceivedLocked] at hmem
      split_ifs at hmem
      · rcases List.mem_cons.1 hmem with heq | hmem
        · cases heq
        · cases closeClientLocked_effects _ _ _ hmem
      · simp at hmem

/-- No run writes outside of a payload. -/
theorem fault_not_mem_outputs {b : Backend} (h : ∀ client ∈ b.clients, client.Waiting)
    (es : List WsEvent) : .fault ∉ outputs backend (trace backend b es) := by
  induction es generalizing b with
  | nil => exact List.not_mem_nil
  | cons e es ih =>
    rw [trace_cons, outputs_cons, List.mem_append, not_or]
    refine ⟨?_, ih (waiting_backend h e)⟩
    cases e with
    | accept | arrive | fail | addClient => exact List.not_mem_nil
    | closeClient fd => exact fun hmem => nomatch closeClientLocked_effects b fd _ hmem
    | recvIter => exact fault_not_mem_recvIter h

/-- **The invariant of the receiver**, in every reachable state: of the clients between the calls of
`recv_iter`, of each client at each call of `process_client`, of each chunk, and of the end of a
frame; and no run writes outside of a payload. -/
theorem receiver_invariant (es : List WsEvent) :
    let b := final backend .start es
    (∀ client ∈ b.clients, client.Waiting) ∧
      (∀ c ∈ processed b.sockets b.clients, c.1.Waiting ∧
        (c.1.state = .data → ∀ client socket, DataRound c.1 c.2 client socket →
          client.Bounded ∧ client.state = .data ∧ ∀ chunk socket',
            readAtLeast socket (min client.remainingPayloadLen chunkSize) = some (chunk, socket') →
              ChunkFits client chunk) ∧
        (c.1.state = .data → ∀ client' socket', processClient c.1 c.2 = .running client' socket' →
          client'.state ≠ .data → client'.remainingPayloadLen = 0)) ∧
      .fault ∉ outputs backend (trace backend .start es) := by
  intro b
  have hwaiting : ∀ client ∈ b.clients, client.Waiting := waiting_final es
  refine ⟨hwaiting, fun c hc => ?_, ?_⟩
  · have hclient := waiting_processed b.sockets hwaiting c hc
    refine ⟨hclient, fun hstate client socket hround => ?_, fun hstate client' socket' hrun => ?_⟩
    · obtain ⟨hbounded, hdata⟩ := hround.bounded hclient.toBounded hstate
      exact ⟨hbounded, hdata, fun chunk socket' hread => chunkFits_of_bounded hbounded hdata hread⟩
    · rw [processClient, hstate] at hrun
      exact processData_leaves hstate hrun
  · exact fault_not_mem_outputs (fun client hclient => absurd hclient List.not_mem_nil) es

end RbProtocol.Ws
