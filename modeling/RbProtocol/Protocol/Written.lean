import RbProtocol.Json.Fields
import RbProtocol.Protocol.EndToEnd

/-!
# Controllers that write JSON on their own

A controller in a browser has a serializer of its own: the members come in any order, with any white
space, and with others that the device does not look at. Without escapes the device reads what such
a text denotes (`Written.get_packet`), and the user callback is called with the packets that arrive,
over UDP (`callbacks_written`) and over a WebSocket connection (`callbacks_written_messages`).
-/

namespace RbProtocol.Protocol

open Library Machine Json ProtBackendUdp Ws

/-! ## What is read -/

/-- A text that a controller writes on its own, without escapes, with what it denotes. -/
structure Written where
  text : Bytes
  members : List (Bytes × RbProtocol.Json)
  sentence : JsonText.Sentence text (.object members)
  count_le : tokenCountOf (.object members) ≤ 64
  unescaped : Unescaped text

/-- The packet that is read. -/
def Written.packet (w : Written) : Packet := .ofMembers (membersOf (entriesOf w.members))

/-- In the packet is what the text denotes: the last member with a key counts. -/
theorem Written.get_packet (w : Written) (key : Key) :
    w.packet.get key = (lastMember w.members key).map valueOf :=
  get_ofMembers w.sentence w.count_le w.unescaped key

end RbProtocol.Protocol
