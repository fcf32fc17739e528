import RbProtocol.Json.Packet

/-!
# The protocol object

The members of `Protocol` that its operations read and write, and the operations that send:
`send`, `send_mustarrive`, `send_log` and the resend round `resend_mustarrive_locked`. An operation
gives the next state and its effects in order. A queue item holds the object whose text the code
copies into the item; of this text the backends send `QueueItem.sent`.
-/

namespace RbProtocol

open Library Json

/-- The value of an `int32_t` or `int` an integer is stored in. -/
def int32 (n : ℤ) : ℤ := (n + 2 ^ 31) % 2 ^ 32 - 2 ^ 31

theorem int32_bounds (n : ℤ) : -2 ^ 31 ≤ int32 n ∧ int32 n < 2 ^ 31 := by
  rw [int32]
  omega

theorem int32_eq_self {n : ℤ} (hlo : -2 ^ 31 ≤ n) (hhi : n < 2 ^ 31) : int32 n = n := by
  rw [int32]
  omega

namespace Protocol

/-! ## Keys and texts -/

/-- The key `"c"` of the command. -/
def keyC : Key := ⟨[99], by decide⟩

/-- The key `"n"` of the counter. -/
def keyN : Key := ⟨[110], by decide⟩

/-- The key `"e"` of the number of a must-arrive packet of the device. -/
def keyE : Key := ⟨[101], by decide⟩

/-- The key `"f"` of the number of a must-arrive packet of the peer. -/
def keyF : Key := ⟨[102], by decide⟩

/-- The key `"msg"`. -/
def keyMsg : Key := ⟨[109, 115, 103], by decide⟩

/-- The key `"owner"`. -/
def keyOwner : Key := ⟨[111, 119, 110, 101, 114], by decide⟩

/-- The key `"name"`. -/
def keyName : Key := ⟨[110, 97, 109, 101], by decide⟩

/-- The key `"desc"`. -/
def keyDesc : Key := ⟨[100, 101, 115, 99], by decide⟩

/-- The command `"discover"`. -/
def cmdDiscover : Bytes := literal "discover"

/-- The command `"found"`. -/
def cmdFound : Bytes := literal "found"

/-- The command `"possess"`. -/
def cmdPossess : Bytes := literal "possess"

/-- The command `"log"`. -/
def cmdLog : Bytes := literal "log"

/-- `MUST_ARRIVE_ATTEMPTS`. -/
def mustArriveAttempts : ℤ := 15

/-- The value of `m_mustarrive_f` before the first must-arrive packet of a session, and the id
`send_mustarrive` returns when it does not send. -/
def uint32Max : UInt32 := 0xFFFFFFFF

end Protocol

/-! ## The members -/

/-- `ProtocolAddr`; `none` is `PROT_NONE`. -/
inductive ProtocolAddr
  | none
  | udp (ip : UInt32) (port : UInt16)
  | ws (fd : ℤ)
  deriving DecidableEq

/-- `MustArrive`: an entry of the must-arrive queue. -/
structure MustArrive where
  pkt : Packet
  id : UInt32
  attempts : ℤ

/-- `QueueItem`: an object to be sent, and its destination. -/
structure QueueItem where
  addr : ProtocolAddr
  pkt : Packet

namespace QueueItem

variable (outOfRange : BinaryFloat → ℤ)

/-- The member `size` of `QueueItem`, a `uint16_t`. -/
def size (item : QueueItem) : ℕ := (item.pkt.str outOfRange).length % 2 ^ 16

/-- What a backend sends of the text of an item. -/
def sent (item : QueueItem) : Bytes := (item.pkt.str outOfRange).take (item.size outOfRange)

variable {outOfRange}

/-- Texts of less than 64 KiB are sent as a whole. -/
theorem sent_eq {item : QueueItem} (h : (item.pkt.str outOfRange).length < 2 ^ 16) :
    item.sent outOfRange = item.pkt.str outOfRange := by
  rw [sent, size, Nat.mod_eq_of_lt h, List.take_length]

end QueueItem

/-- What an operation does outside of the object. -/
inductive Effect
  /-- An item handed to the send queue. -/
  | enqueue (item : QueueItem)
  /-- An item written to the UDP socket. -/
  | transmit (item : QueueItem)
  /-- A call of the user callback. -/
  | callback (cmd : Bytes) (pkt : Packet)

/-- The members of `Protocol`. `callback`, `udp` and `ws` tell whether the pointers are set. -/
structure Protocol where
  owner : Bytes
  name : Bytes
  desc : Bytes
  callback : Bool
  readCounter : ℤ
  writeCounter : ℤ
  possessedAddr : ProtocolAddr
  udp : Bool
  ws : Bool
  mustarriveE : UInt32
  mustarriveF : UInt32
  mustarriveQueue : List MustArrive

namespace Protocol

/-- `Protocol::Protocol`, and the backends of `start`. -/
def init (owner name desc : Bytes) (callback udp ws : Bool) : Protocol where
  owner := owner
  name := name
  desc := desc
  callback := callback
  readCounter := 0
  writeCounter := 0
  possessedAddr := .none
  udp := udp
  ws := ws
  mustarriveE := 0
  mustarriveF := uint32Max
  mustarriveQueue := []

/-- `Protocol::is_possessed`. -/
def isPossessed (s : Protocol) : Bool := s.possessedAddr ≠ .none

/-- `Protocol::is_mustarrive_complete`. -/
def isMustarriveComplete (s : Protocol) (id : UInt32) : Bool :=
  id = uint32Max || s.mustarriveQueue.all fun it => it.id ≠ id

/-! ## Sending -/

/-- The counter a packet is sent with: `m_write_counter++` and `obj->set("n", ...)`. -/
def takeCounter (s : Protocol) (obj : Packet) : Protocol × Packet :=
  ({ s with writeCounter := int32 (s.writeCounter + 1) }, obj.set keyN (intNumber s.writeCounter))

/-- `Protocol::send(addr, obj)`, up to the item it hands to the queue. -/
def sendTo (s : Protocol) (addr : ProtocolAddr) (obj : Packet) : Protocol × QueueItem :=
  ((s.takeCounter obj).1, ⟨addr, (s.takeCounter obj).2⟩)

/-- `Protocol::send(cmd, obj)`. -/
def send (s : Protocol) (cmd : Bytes) (obj : Packet) : Protocol × List Effect :=
  if s.isPossessed then
    let r := s.sendTo s.possessedAddr (obj.set keyC (.string cmd))
    (r.1, [.enqueue r.2])
  else (s, [])

/-- `Protocol::send_mustarrive` in a possessed device, up to the item it hands to the queue. The
entry of the must-arrive queue and the item share their object, which gets its counter last. -/
def sendEntry (s : Protocol) (cmd : Bytes) (params : Packet) : Protocol × QueueItem :=
  let id := s.mustarriveE
  let params := (params.set keyC (.string cmd)).set keyE (intNumber id.toNat)
  let r := { s with mustarriveE := id + 1 }.sendTo s.possessedAddr params
  ({ r.1 with mustarriveQueue := s.mustarriveQueue ++ [⟨r.2.pkt, id, 0⟩] }, r.2)

/-- `Protocol::send_mustarrive`: the next state, the effects and the id it returns. -/
def sendMustarrive (s : Protocol) (cmd : Bytes) (params : Packet) :
    Protocol × List Effect × UInt32 :=
  if s.isPossessed then
    let r := s.sendEntry cmd params
    (r.1, [.enqueue r.2], s.mustarriveE)
  else (s, [], uint32Max)

/-- `Protocol::send_log`. -/
def sendLog (s : Protocol) (text : Bytes) : Protocol × List Effect :=
  let r := s.sendMustarrive cmdLog (Packet.empty.set keyMsg (.string text))
  (r.1, r.2.1)

/-! ## The resend round -/

/-- The next transmission of an entry in the loop of `resend_mustarrive_locked`; only the UDP
backend resends. -/
def retransmit (s : Protocol) (addr : ProtocolAddr) (it : MustArrive) :
    Protocol × MustArrive × List Effect :=
  match addr, s.udp with
  | .udp ip port, true =>
    let r := s.takeCounter it.pkt
    (r.1, { it with pkt := r.2 }, [.transmit ⟨.udp ip port, r.2⟩])
  | _, _ => (s, it, [])

/-- The end of the loop body: the attempt is counted, and an entry with too many is erased. -/
def countAttempt (it : MustArrive) : Option MustArrive :=
  if mustArriveAttempts ≤ it.attempts + 1 then none
  else some { it with attempts := it.attempts + 1 }

/-- The loop of `resend_mustarrive_locked`: the state, the entries that stay and the effects. -/
def resendEntries (addr : ProtocolAddr) :
    Protocol → List MustArrive → Protocol × List MustArrive × List Effect
  | s, [] => (s, [], [])
  | s, it :: its =>
    let r := s.retransmit addr it
    let rest := resendEntries addr r.1 its
    (rest.1, (countAttempt r.2.1).toList ++ rest.2.1, r.2.2 ++ rest.2.2)

/-- `Protocol::resend_mustarrive_locked`. `uninit` is what the local address holds before
`get_possessed_addr` writes it, which it does in a possessed device only. -/
def resendMustarriveLocked (s : Protocol) (uninit : ProtocolAddr) : Protocol × List Effect :=
  let addr := if s.isPossessed then s.possessedAddr else uninit
  let r := resendEntries addr s s.mustarriveQueue
  ({ r.1 with mustarriveQueue := r.2.1 }, r.2.2)

end Protocol

end RbProtocol
