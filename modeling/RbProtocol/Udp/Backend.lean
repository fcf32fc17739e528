import RbProtocol.Library.Buffer
import RbProtocol.Library.Datagrams
import RbProtocol.Library.Runs
import RbProtocol.Json.Parse
import RbProtocol.Protocol.State

/-!
# The UDP backend

`ProtBackendUdp::recv_iter` peeks at the oldest datagram with a buffer that grows until the answer
is shorter than it, so that the datagram is there as a whole, takes the datagram with a read of
nothing, and gives it to `rbjson::parse`. The buffer stays for the next call, with its size and with
what it holds.

* `recvIter_whole`: a call takes the oldest datagram and parses exactly its bytes.
* `parsed_run`: along any run every datagram is parsed once, in the order of arrival.
-/

namespace RbProtocol.ProtBackendUdp

open Library Machine Json Protocol

/-- `struct sockaddr_in`, where the code reads it. -/
structure SockaddrIn where
  sinPort : UInt16
  sinAddr : UInt32

/-- What a call of `recv_iter` leaves: the buffer, the socket, what `rbjson::parse` was given, and
the result with `out_received_addr`. -/
structure Iteration where
  buf : Bytes
  socket : DatagramSocket SockaddrIn UInt8
  parsed : Option Bytes
  result : Except Json.Fault (Option (List (Member Value) × ProtocolAddr))

/-- The loop of `recv_iter`: `received_len`, and the buffer; nothing on an error. -/
def peekDatagram (socket : DatagramSocket SockaddrIn UInt8) (buf : Bytes) : Option ℕ × Bytes :=
  match _h : (socket.recvfrom buf buf.length true).1 with
  | .error _ => (none, buf)
  | .ok answer =>
    if _hlt : answer.size < buf.length then (some answer.size, answer.buf)
    else peekDatagram socket (resize answer.buf (buf.length + 16) 0)
termination_by socket.nextLength + 1 - buf.length
decreasing_by
  have hsize := DatagramSocket.size_le_nextLength _h
  rw [length_resize]
  omega

/-- `ProtBackendUdp::recv_iter`. -/
def recvIter (socket : DatagramSocket SockaddrIn UInt8) (buf : Bytes) : Iteration :=
  match peekDatagram socket buf with
  | (none, buf) => ⟨buf, socket, none, .ok none⟩
  | (some receivedLen, buf) =>
    match socket.recvfrom buf 0 false with
    | (.error _, socket) => ⟨buf, socket, none, .ok none⟩
    | (.ok answer, socket) =>
      let data := answer.buf.take receivedLen
      let addr := ProtocolAddr.udp answer.source.sinAddr answer.source.sinPort
      ⟨answer.buf, socket, some data,
        (Json.parse data).map fun pkt => pkt.map fun obj => (obj, addr)⟩

section RecvIter

variable (d : Datagram SockaddrIn UInt8) (ds : List (Datagram SockaddrIn UInt8)) (buf : Bytes)

/-- **The loop ends with the whole datagram in the buffer.** -/
theorem peekDatagram_cons : ∃ buf', peekDatagram ⟨d :: ds, none⟩ buf = (some d.data.length, buf') ∧
    buf'.take d.data.length = d.data := by
  induction hn : d.data.length + 1 - buf.length using Nat.strong_induction_on generalizing buf with
  | _ n ih =>
    rw [peekDatagram]
    simp only [DatagramSocket.recvfrom_peek]
    split_ifs with hlt
    · -- the answer is shorter than the buffer, so nothing was cut
      obtain ⟨hsize, hdata⟩ := Datagram.data_eq_of_lt hlt
      rw [hsize] at hdata ⊢
      exact ⟨_, rfl, hdata⟩
    · have hle : buf.length ≤ d.data.length := by
        simp only [Datagram.read] at hlt
        omega
      refine ih _ ?_ _ rfl
      rw [length_resize]
      omega

theorem recvIter_eq : ∃ buf', recvIter ⟨d :: ds, none⟩ buf = ⟨buf', ⟨ds, none⟩, some d.data,
    (Json.parse d.data).map fun pkt => pkt.map fun obj =>
      (obj, .udp d.source.sinAddr d.source.sinPort)⟩ := by
  obtain ⟨buf', hpeek, hdata⟩ := peekDatagram_cons d ds buf
  have hbuf : (d.read buf' 0).buf = buf' := Datagram.buf_read_zero
  refine ⟨buf', ?_⟩
  rw [recvIter, hpeek]
  simp only [DatagramSocket.recvfrom_take, hbuf, hdata]
  rfl

/-- **A call of `recv_iter`**, on any buffer, takes the oldest datagram, gives exactly its bytes to
`rbjson::parse` and returns the packet, if there is one, with the address it comes from. -/
theorem recvIter_whole : (recvIter ⟨d :: ds, none⟩ buf).socket = ⟨ds, none⟩ ∧
    (recvIter ⟨d :: ds, none⟩ buf).parsed = some d.data ∧
    (recvIter ⟨d :: ds, none⟩ buf).result = (Json.parse d.data).map fun pkt => pkt.map fun obj =>
      (obj, .udp d.source.sinAddr d.source.sinPort) := by
  obtain ⟨buf', hcall⟩ := recvIter_eq d ds buf
  rw [hcall]
  exact ⟨rfl, rfl, rfl⟩

/-- Without a datagram nothing happens. -/
theorem recvIter_nil : recvIter ⟨[], none⟩ buf = ⟨buf, ⟨[], none⟩, none, .ok none⟩ := by
  rw [recvIter, peekDatagram]
  rfl

end RecvIter

/-! ## Runs -/

/-- The socket and the buffer of `recv_task`. -/
structure Backend where
  socket : DatagramSocket SockaddrIn UInt8
  buf : Bytes

/-- A datagram arrives, or `recv_task` calls `recv_iter`. -/
inductive UdpEvent
  | arrive (d : Datagram SockaddrIn UInt8)
  | recvIter

/-- The machine of the backend; the outputs are the arguments of `rbjson::parse`. -/
def machine : Machine Backend UdpEvent Bytes
  | b, .arrive d => ({ b with socket := { b.socket with queue := b.socket.queue ++ [d] } }, [])
  | b, .recvIter =>
    let r := ProtBackendUdp.recvIter b.socket b.buf
    (⟨r.socket, r.buf⟩, r.parsed.toList)

/-- The datagrams that arrive. -/
def arrived (es : List UdpEvent) : List (Datagram SockaddrIn UInt8) :=
  es.filterMap fun
    | .arrive d => some d
    | .recvIter => none

variable {b : Backend}

/-- What is parsed at a step comes from the front of the queue. -/
theorem parsed_machine (h : b.socket.error = none) (e : UdpEvent) :
    (machine b e).1.socket.error = none ∧
      (machine b e).2 ++ (machine b e).1.socket.queue.map Datagram.data =
        (b.socket.queue ++ arrived [e]).map Datagram.data := by
  obtain ⟨⟨queue, error⟩, buf⟩ := b
  obtain rfl : error = none := h
  cases e with
  | arrive d => exact ⟨rfl, rfl⟩
  | recvIter =>
    rw [machine]
    cases queue with
    | nil =>
      rw [recvIter_nil]
      exact ⟨rfl, rfl⟩
    | cons d ds =>
      obtain ⟨buf', hcall⟩ := recvIter_eq d ds buf
      rw [hcall]
      exact ⟨rfl, by simp [arrived]⟩

/-- **Every datagram is parsed once**, as a whole and in the order of arrival: on any run what has
been parsed and what waits is what was there and what has arrived. -/
theorem parsed_run (h : b.socket.error = none) (es : List UdpEvent) :
    outputs machine (trace machine b es) ++ (final machine b es).socket.queue.map Datagram.data =
      (b.socket.queue ++ arrived es).map Datagram.data := by
  induction es generalizing b with
  | nil => simp [arrived]
  | cons e es ih =>
    obtain ⟨herror, hstep⟩ := parsed_machine h e
    have harrived : arrived (e :: es) = arrived [e] ++ arrived es :=
      List.filterMap_append (l := [e])
    rw [trace_cons, outputs_cons, final_cons, List.append_assoc, ih herror, List.map_append,
      ← List.append_assoc, hstep, harrived, ← List.map_append, List.append_assoc]

end RbProtocol.ProtBackendUdp
