import Mathlib.Data.List.TakeDrop

/-!
# Datagram sockets

A datagram socket keeps whole datagrams in the order of their arrival. `recvfrom` copies the front
of the oldest one into a buffer, as much as it is asked for and as there is, and answers the number
of cells copied. With `MSG_PEEK` the datagram stays where it is; otherwise it is gone, together with
the part that was not copied.

The answer alone does not tell whether the datagram was cut, unless it is shorter than what was
asked for (`Datagram.data_eq_of_lt`).
-/

namespace RbProtocol.Library

variable {A B : Type*}

/-- A datagram, and where it comes from. -/
structure Datagram (A B : Type*) where
  source : A
  data : List B

/-- The errors of a read. -/
inductive Errno
  | again
  | badf
  | other
  deriving DecidableEq

/-- What a read answers: the number of cells, the buffer, and where the datagram comes from. -/
structure Answer (A B : Type*) where
  size : ℕ
  buf : List B
  source : A

/-- A socket: the datagrams that wait, and the error of every call, if it fails. -/
structure DatagramSocket (A B : Type*) where
  queue : List (Datagram A B)
  error : Option Errno

/-- A read of up to `len` cells of a datagram, to the front of a buffer. -/
def Datagram.read (d : Datagram A B) (buf : List B) (len : ℕ) : Answer A B :=
  ⟨min d.data.length len, d.data.take len ++ buf.drop (min d.data.length len), d.source⟩

/-- `recvfrom`, with `MSG_DONTWAIT`. -/
def DatagramSocket.recvfrom (s : DatagramSocket A B) (buf : List B) (len : ℕ) (peek : Bool) :
    Except Errno (Answer A B) × DatagramSocket A B :=
  match s.error, s.queue with
  | some e, _ => (.error e, s)
  | none, [] => (.error .again, s)
  | none, d :: ds => (.ok (d.read buf len), if peek then s else ⟨ds, none⟩)

namespace Datagram

variable {d : Datagram A B} {buf : List B} {len : ℕ}

theorem length_take_data : (d.data.take len).length = (d.read buf len).size := by
  rw [List.length_take, Nat.min_comm]
  rfl

/-- The cells that were copied. -/
theorem take_buf_read : (d.read buf len).buf.take (d.read buf len).size = d.data.take len := by
  have hlen := @length_take_data A B d buf len
  rw [← hlen]
  exact List.take_left

/-- A read of nothing leaves the buffer alone. -/
theorem buf_read_zero : (d.read buf 0).buf = buf := by simp [read]

/-- **A datagram is there as a whole** if no more was asked for than it has. -/
theorem take_buf_eq_data_iff : (d.read buf len).buf.take (d.read buf len).size = d.data ↔
    d.data.length ≤ len := by
  rw [take_buf_read]
  exact List.take_eq_self_iff _

/-- **A short answer is the whole datagram.** -/
theorem data_eq_of_lt (h : (d.read buf len).size < len) :
    (d.read buf len).size = d.data.length ∧
      (d.read buf len).buf.take (d.read buf len).size = d.data := by
  have hle : d.data.length ≤ len := by
    rw [read] at h
    simp only at h
    omega
  exact ⟨Nat.min_eq_left hle, take_buf_eq_data_iff.2 hle⟩

end Datagram

namespace DatagramSocket

variable (d : Datagram A B) (ds : List (Datagram A B)) (buf : List B) (len : ℕ)

/-- A peek at the oldest datagram. -/
@[simp] theorem recvfrom_peek : (⟨d :: ds, none⟩ : DatagramSocket A B).recvfrom buf len true =
    (.ok (d.read buf len), ⟨d :: ds, none⟩) := rfl

/-- The oldest datagram is taken. -/
@[simp] theorem recvfrom_take : (⟨d :: ds, none⟩ : DatagramSocket A B).recvfrom buf len false =
    (.ok (d.read buf len), ⟨ds, none⟩) := rfl

variable {d ds buf len} {s : DatagramSocket A B}

/-- The length of the oldest datagram. -/
def nextLength (s : DatagramSocket A B) : ℕ := (s.queue.head?.map fun d => d.data.length).getD 0

/-- No answer is longer than the oldest datagram. -/
theorem size_le_nextLength {peek : Bool} {answer : Answer A B}
    (h : (s.recvfrom buf len peek).1 = .ok answer) : answer.size ≤ s.nextLength := by
  obtain ⟨queue, error⟩ := s
  cases error with
  | some e => cases h
  | none =>
    cases queue with
    | nil => cases h
    | cons d ds =>
      cases h
      exact Nat.min_le_left _ _

end DatagramSocket

end RbProtocol.Library
