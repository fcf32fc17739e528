import RbProtocol.Protocol.State

/-!
# Received packets

`Protocol::handle_msg`, in its three parts: the counter test and the possession reset (`admission`),
the must-arrive numbers `f` and `e` (`process`), and the delivery to the user callback (`deliver`).
-/

namespace RbProtocol.Protocol

open Library Json

variable (outOfRange : BinaryFloat → ℤ)

/-! ## The code -/

/-- The answer to `discover`. -/
def found (s : Protocol) : Packet :=
  (((Packet.empty.set keyC (.string cmdFound)).set keyOwner (.string s.owner)).set keyName
    (.string s.name)).set keyDesc (.string s.desc)

/-- The acknowledgement of a must-arrive packet of the peer. -/
def response (cmd : Bytes) (f : ℤ) : Packet :=
  (Packet.empty.set keyC (.string cmd)).set keyF (intNumber f)

/-- The text `send_log` gets in a possession. -/
def possessedText (s : Protocol) : Bytes :=
  literal "The device " ++ s.name ++ literal " has been possessed!\n"

/-- The counter test of `handle_msg`; `none` is the early return. -/
def acceptCounter (s : Protocol) (counter : ℤ) (isPossessCmd : Bool) : Option Protocol :=
  if counter = -1 ∨ isPossessCmd then some { s with readCounter := 0, writeCounter := 0 }
  else if counter < s.readCounter ∧ int32 (s.readCounter - counter) < 25 then none
  else some { s with readCounter := counter }

/-- The possession reset of `handle_msg`. -/
def reset (s : Protocol) (addr : ProtocolAddr) : Protocol :=
  { s with
    possessedAddr := if s.possessedAddr = addr then s.possessedAddr else addr
    mustarriveE := 0
    mustarriveF := uint32Max
    writeCounter := -1
    readCounter := -1
    mustarriveQueue := [] }

/-- The command of a packet. -/
def command (pkt : Packet) : Bytes := pkt.getString keyC

/-- The condition of the possession reset. -/
def isReset (s : Protocol) (pkt : Packet) : Bool :=
  s.possessedAddr = .none || command pkt = cmdPossess

/-- `handle_msg` from the test for a counter to the possession reset; `none` is an early return. -/
def admission (s : Protocol) (addr : ProtocolAddr) (pkt : Packet) : Option Protocol :=
  if pkt.contains keyN then
    (s.acceptCounter (int32 (pkt.getInt outOfRange keyN)) (command pkt = cmdPossess)).map fun s =>
      if s.isReset pkt then s.reset addr else s
  else none

/-- The test of a must-arrive number against `m_mustarrive_f`. -/
def isRepeated (s : Protocol) (f : ℤ) : Bool :=
  .ofInt f ≤ s.mustarriveF && s.mustarriveF ≠ uint32Max

/-- The end of `handle_msg`. -/
def deliver (s : Protocol) (pkt : Packet) : Protocol × List Effect :=
  let r := if command pkt = cmdPossess then s.sendLog s.possessedText else (s, [])
  (r.1, r.2 ++ if s.callback then [.callback (command pkt) pkt] else [])

/-- The removal of an acknowledged entry. -/
def removeEntry (queue : List MustArrive) (e : UInt32) : List MustArrive :=
  queue.eraseP fun it => it.id = e

/-- `handle_msg` after the possession reset. -/
def process (s : Protocol) (addr : ProtocolAddr) (pkt : Packet) : Protocol × List Effect :=
  if pkt.contains keyF then
    let ack := s.sendTo addr (response (command pkt) (pkt.getInt outOfRange keyF))
    let f := int32 (pkt.getInt outOfRange keyF)
    if ack.1.isRepeated f then (ack.1, [.enqueue ack.2])
    else
      let r := { ack.1 with mustarriveF := .ofInt f }.deliver pkt
      (r.1, .enqueue ack.2 :: r.2)
  else if pkt.contains keyE then
    let e := UInt32.ofInt (pkt.getInt outOfRange keyE)
    ({ s with mustarriveQueue := removeEntry s.mustarriveQueue e }, [])
  else s.deliver pkt

/-- `Protocol::handle_msg`. -/
def handleMsg (s : Protocol) (addr : ProtocolAddr) (pkt : Packet) : Protocol × List Effect :=
  if command pkt = cmdDiscover then (s, [.enqueue ⟨addr, s.found⟩])
  else
    match s.admission outOfRange addr pkt with
    | some s => s.process outOfRange addr pkt
    | none => (s, [])

end RbProtocol.Protocol
