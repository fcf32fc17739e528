import RbProtocol.Library.Buffer
import RbProtocol.Library.Runs
import RbProtocol.Foundations.Bytes

/-!
# The WebSocket receiver

`ProtBackendWs`, on the bytes that the sockets of its clients hold. `process_client` takes one step
of the decoder of a client, or as many chunks of a payload as there are; `recv_iter` gives every
client one turn until one of them has a complete message, which goes to `rbjson::parse`.

A socket has the bytes that can be read now. A short `recv`, `EWOULDBLOCK` and the end of the stream
are the same to the code; any other error closes the client.
-/

namespace RbProtocol.Ws

open Library

/-- `WS_OPCODE_CONTINUE`. -/
def opcodeContinue : UInt8 := 0x00

/-- `WS_OPCODE_TEXT`. -/
def opcodeText : UInt8 := 0x01

/-- `WS_OPCODE_CLOSE`. -/
def opcodeClose : UInt8 := 0x08

/-- The longest payload of a message. -/
def maxPayload : ℕ := 32 * 1024

/-- The bytes of a payload that are read at once. -/
def chunkSize : ℕ := 64

/-- `ClientState`. -/
inductive ClientState
  | initial
  | len1
  | mask
  | data
  | fullyReceived
  deriving DecidableEq

/-- `Client`. -/
structure Client where
  fd : ℤ
  payload : Bytes
  maskingKey : Bytes
  remainingPayloadLen : ℕ
  flags : UInt8
  state : ClientState

namespace Client

/-- `Client::Client`. The masking key is not initialized; it is read before it is used. -/
def new (fd : ℤ) : Client := ⟨fd, [], [], 0, 0, .initial⟩

/-- `Client::fin`. -/
def fin (client : Client) : Bool := client.flags >>> 7 ≠ 0

/-- `Client::opcode`. -/
def opcode (client : Client) : UInt8 := client.flags &&& 0xF

end Client

/-- A socket: the bytes that can be read, and whether `recv` fails. -/
structure Socket where
  avail : Bytes
  failed : Bool

/-- `read_at_least`: the bytes read, none if there are too few; `none` if `recv` fails. -/
def readAtLeast (socket : Socket) (n : ℕ) : Option (Bytes × Socket) :=
  if socket.failed then none
  else if socket.avail.length < n then some ([], socket)
  else some (socket.avail.take n, { socket with avail := socket.avail.drop n })

/-- What `process_client` ends with. -/
inductive Outcome
  /-- A negative result: the client is closed. -/
  | closed
  /-- A write outside of the payload. -/
  | fault
  /-- Any other result. -/
  | running (client : Client) (socket : Socket)

/-! ## The decoder of a client -/

/-- The bytes of a chunk, unmasked. -/
def unmask (key chunk : Bytes) : Bytes := chunk.mapIdx fun i b => b ^^^ key.getD (i % 4) 0

/-- `process_client_header`, on the two bytes read; `none` is the result −1. -/
def processClientHeader (client : Client) (buf : Bytes) : Option Client :=
  let client := { client with flags := buf.getD 0 0 }
  let len0 := (buf.getD 1 0 &&& 0x7F).toNat
  if buf.getD 1 0 >>> 7 = 0 then none
  else if 127 ≤ len0 then none
  else
    let client :=
      if len0 < 126 then { client with remainingPayloadLen := len0, state := .mask }
      else { client with state := .len1 }
    some (if client.opcode ≠ opcodeContinue then { client with payload := [] } else client)

/-- The end of a frame. -/
def endOfFrame (client : Client) : Client :=
  { client with state := if client.fin then .fullyReceived else .initial }

theorem length_readAtLeast {socket socket' : Socket} {n : ℕ} {bytes : Bytes}
    (h : readAtLeast socket n = some (bytes, socket')) : bytes.length = 0 ∨ bytes.length = n := by
  rw [readAtLeast] at h
  split_ifs at h with hfailed hshort
  · exact .inl (by rw [← (Prod.mk.inj (Option.some.inj h)).1]; rfl)
  · refine .inr ?_
    rw [← (Prod.mk.inj (Option.some.inj h)).1, List.length_take]
    omega

/-- The loop of the state `DATA`. -/
def processData (client : Client) (socket : Socket) : Outcome :=
  match _h : readAtLeast socket (min client.remainingPayloadLen chunkSize) with
  | none => .closed
  | some (chunk, socket') =>
    if _h0 : chunk.length = 0 then .running client socket
    else
      let payloadIdx := (client.payload.length + 2 ^ 16 - client.remainingPayloadLen) % 2 ^ 16
      match writeAt? client.payload payloadIdx (unmask client.maskingKey chunk) with
      | none => .fault
      | some payload =>
        let remaining := client.remainingPayloadLen - chunk.length
        let client := { client with payload := payload, remainingPayloadLen := remaining }
        if remaining = 0 then .running (endOfFrame client) socket'
        else processData client socket'
termination_by client.remainingPayloadLen
decreasing_by
  have := length_readAtLeast _h
  omega

/-- One round of the loop. -/
theorem processData_eq (client : Client) (socket : Socket) : processData client socket =
    match readAtLeast socket (min client.remainingPayloadLen chunkSize) with
    | none => .closed
    | some (chunk, socket') =>
      if chunk.length = 0 then .running client socket
      else
        match writeAt? client.payload
            ((client.payload.length + 2 ^ 16 - client.remainingPayloadLen) % 2 ^ 16)
            (unmask client.maskingKey chunk) with
        | none => .fault
        | some payload =>
          let next := { client with
            payload := payload, remainingPayloadLen := client.remainingPayloadLen - chunk.length }
          if client.remainingPayloadLen - chunk.length = 0 then .running (endOfFrame next) socket'
          else processData next socket' := by
  rw [processData]
  split
  · rename_i hnone
    rw [hnone]
  · rename_i chunk socket' hsome
    rw [hsome, dite_eq_ite]

/-- `ProtBackendWs::process_client`. -/
def processClient (client : Client) (socket : Socket) : Outcome :=
  match client.state with
  | .initial =>
    match readAtLeast socket 2 with
    | none => .closed
    | some (buf, socket') =>
      if buf.length = 0 then .running client socket
      else
        match processClientHeader client buf with
        | none => .closed
        | some client => .running client socket'
  | .len1 =>
    match readAtLeast socket 2 with
    | none => .closed
    | some (buf, socket') =>
      if buf.length = 0 then .running client socket
      else
        .running { client with
          remainingPayloadLen := (buf.getD 0 0).toNat * 256 + (buf.getD 1 0).toNat
          state := .mask } socket'
  | .mask =>
    match readAtLeast socket 4 with
    | none => .closed
    | some (key, socket') =>
      if key.length = 0 then .running client socket
      else
        let client := { client with maskingKey := key }
        if client.remainingPayloadLen = 0 then .running (endOfFrame client) socket'
        else if maxPayload < client.payload.length + client.remainingPayloadLen then .closed
        else
          .running { client with
            payload := client.payload ++ List.replicate client.remainingPayloadLen 0
            state := .data } socket'
  | .data => processData client socket
  | .fullyReceived => .running { client with state := .initial } socket

end RbProtocol.Ws
