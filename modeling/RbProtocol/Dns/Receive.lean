import RbProtocol.Library.Datagrams
import RbProtocol.Dns.Server

/-!
# Datagrams of the DNS server

`DnsServer::receivePacket` peeks at the oldest datagram and goes on when the number of bytes fits in
the buffer. As `recvfrom` never answers more than the size of the buffer, this is always so: the
buffer does not grow here, and a longer datagram is cut (`receivePacket_cons`). So the datagram is
handled as a whole, or refused for its size, exactly if the buffer is long enough for it or for more
than the limit (`receivesWhole_iff`).
-/

namespace RbProtocol.Dns

open Library

variable {A : Type*}

/-- `EBADF`. -/
def ebadf : ℤ := 9

/-- What `receivePacket` returns, and what it leaves. Without a result it delays the task and starts
again on the buffer. -/
structure Receipt (A : Type*) where
  result : Option ℤ
  buff : Bytes
  addr : Option A
  socket : DatagramSocket A UInt8

/-- The loop of `receivePacket`: `msg_size` and the buffer, or the result for an error. -/
def peekPacket (socket : DatagramSocket A UInt8) (buff : Bytes) :
    Except (Option ℤ × Bytes) (ℕ × Bytes) :=
  match (socket.recvfrom buff buff.length true).1 with
  | .error .again => .error (none, buff)
  | .error .badf => .error (some (-ebadf), buff)
  | .error .other => .error (some (-1), buff)
  | .ok answer =>
    if _h : answer.size ≤ buff.length ∨ dnsMsgSizeLimit < answer.size then
      .ok (answer.size, answer.buf)
    else peekPacket socket (resize answer.buf answer.size 0)
termination_by dnsMsgSizeLimit - buff.length
decreasing_by
  rw [length_resize]
  omega

/-- `DnsServer::receivePacket`. -/
def receivePacket (socket : DatagramSocket A UInt8) (buff : Bytes) : Receipt A :=
  match peekPacket socket buff with
  | .error (result, buff) => ⟨result, buff, none, socket⟩
  | .ok (msgSize, buff) =>
    match socket.recvfrom buff 0 false with
    | (.error .badf, socket) => ⟨some (-ebadf), buff, none, socket⟩
    | (.error _, socket) => ⟨some (-1), buff, none, socket⟩
    | (.ok answer, socket) =>
      if dnsMsgSizeLimit < msgSize then ⟨some (-1), answer.buf, some answer.source, socket⟩
      else ⟨some msgSize, answer.buf, some answer.source, socket⟩

section Receive

variable (d : Datagram A UInt8) (ds : List (Datagram A UInt8)) (buff : Bytes)

/-- **What `receivePacket` does**: the oldest datagram is taken, and cut to the size of the
buffer. -/
theorem receivePacket_cons : receivePacket ⟨d :: ds, none⟩ buff =
    ⟨some (if dnsMsgSizeLimit < min d.data.length buff.length then -1
      else (min d.data.length buff.length : ℕ)), (d.read buff buff.length).buf, some d.source,
      ⟨ds, none⟩⟩ := by
  have hsize : (d.read buff buff.length).size = min d.data.length buff.length := rfl
  have hpeek : peekPacket ⟨d :: ds, none⟩ buff =
      .ok (min d.data.length buff.length, (d.read buff buff.length).buf) := by
    rw [peekPacket, DatagramSocket.recvfrom_peek]
    simp only [hsize, min_le_right, true_or, dif_pos]
  rw [receivePacket, hpeek]
  simp only [DatagramSocket.recvfrom_take, Datagram.buf_read_zero]
  split_ifs <;> rfl

/-- The datagram is taken as a whole, or refused for its size, and no other is taken. -/
def ReceivesWhole : Prop :=
  let r := receivePacket ⟨d :: ds, none⟩ buff
  r.socket.queue = ds ∧
    (d.data.length ≤ dnsMsgSizeLimit →
      r.result = some (d.data.length : ℤ) ∧ r.buff.take d.data.length = d.data) ∧
    (dnsMsgSizeLimit < d.data.length → r.result = some (-1))

/-- A datagram of 65 bytes and the buffer that the server starts with. -/
theorem not_receivesWhole_65 :
    ¬ReceivesWhole (⟨(), List.replicate 65 1⟩ : Datagram Unit UInt8) [] (List.replicate 64 0) := by
  rintro ⟨-, h, -⟩
  obtain ⟨hresult, -⟩ := h (by decide)
  rw [receivePacket_cons] at hresult
  revert hresult
  decide

/-- **Datagrams are received as a whole**, or refused for their size, exactly if they fit into the
buffer, or more than the limit does. -/
theorem receivesWhole_iff :
    ReceivesWhole d ds buff ↔ d.data.length ≤ buff.length ∨ dnsMsgSizeLimit < buff.length := by
  rw [ReceivesWhole, receivePacket_cons]
  simp only [true_and, Option.some.injEq]
  constructor
  · rintro ⟨hsmall, hlarge⟩
    rcases le_or_gt d.data.length dnsMsgSizeLimit with hle | hgt
    · obtain ⟨hresult, -⟩ := hsmall hle
      split_ifs at hresult
      omega
    · have hresult := hlarge hgt
      split_ifs at hresult
      omega
  · intro h
    refine ⟨fun hle => ?_, fun hgt => ?_⟩
    · have hfits : d.data.length ≤ buff.length := by omega
      have hwhole : (d.read buff buff.length).buf.take (d.read buff buff.length).size = d.data :=
        Datagram.take_buf_eq_data_iff.2 hfits
      have hsize : (d.read buff buff.length).size = d.data.length := min_eq_left hfits
      rw [min_eq_left hfits, if_neg (not_lt.2 hle)]
      rw [hsize] at hwhole
      exact ⟨rfl, hwhole⟩
    · rw [if_pos (by omega)]

end Receive

end RbProtocol.Dns
