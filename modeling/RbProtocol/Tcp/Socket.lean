import RbProtocol.Foundations.Bytes
import RbProtocol.Library.Runs

/-!
# The TCP socket and its tasks

`TcpSocketReal` as a machine. `readTask` and the destructor take turns at the points where they take
and give back `m_mutex`; between such points `readTask` makes one call of `recv` a step, or gets the
result of `openSocket`. The tasks that add and remove callbacks do so in one critical section. The
network puts bytes in the socket and ends the stream.

How a `std::vector` grows is up to the library; `growth` is the capacity it takes, given its size
and the size it needs.
-/

namespace RbProtocol.Tcp

open Library

/-- `std::vector<uint8_t>`. -/
structure ByteVector where
  data : Bytes
  capacity : ℕ

namespace ByteVector

variable (growth : ℕ → ℕ → ℕ)

/-- `resize`: new elements are zero. -/
def resize (v : ByteVector) (n : ℕ) : ByteVector where
  data := v.data.take n ++ List.replicate (n - v.data.length) 0
  capacity := if n ≤ v.capacity then v.capacity else max n (growth v.data.length n)

/-- Bytes written from an offset on. -/
def write (v : ByteVector) (off : ℕ) (bytes : Bytes) : ByteVector :=
  { v with data := v.data.take off ++ bytes ++ v.data.drop (off + bytes.length) }

end ByteVector

/-- Who can hold `m_mutex` when a step ends. -/
inductive Owner
  | readTask
  | destructor
  deriving DecidableEq

/-- Where `readTask` is. -/
inductive ReadTask
  /-- Before it locks `m_mutex` for the first time. -/
  | start
  /-- At the test of the loop, with the mutex. -/
  | test
  /-- In the delay and before it locks the mutex again. -/
  | delay
  /-- Before a call of `recv`, with the mutex. -/
  | recv
  /-- In `reopenSocketLocked`, with the mutex. -/
  | reopen
  | deleted
  deriving DecidableEq

/-- Where `~TcpSocketReal` is. -/
inductive Destructor
  | none
  /-- It holds the mutex. -/
  | locked
  /-- It waits for `readTask` to end. -/
  | waiting
  | done
  deriving DecidableEq

/-- The errors of `recv` other than a result that would block. -/
inductive Errno
  | ebadf
  | other
  deriving DecidableEq

/-- `TcpSocketReal`, what is in the socket, and the tasks. `fin` is the end of the stream. -/
structure TcpSocketReal where
  fd : ℤ
  mutex : Option Owner
  callbacks : List ℕ
  cbCounter : ℕ
  avail : Bytes
  fin : Bool
  buf : ByteVector
  bufOff : ℕ
  readTask : ReadTask
  destructor : Destructor

/-- What the socket does. -/
inductive TcpEffect
  /-- `recv` has returned bytes. -/
  | received (bytes : Bytes)
  | callback (handle : ℕ) (data : Bytes)
  | close (fd : ℤ)
  | openSocket
  deriving DecidableEq

/-- What can happen next. -/
inductive TcpEvent
  /-- Bytes become available. -/
  | arrive (bytes : Bytes)
  /-- The peer ends the stream. -/
  | finish
  /-- The next step of `readTask`. -/
  | readTask
  /-- `readTask` calls `recv` and gets an error other than one that would block. -/
  | recvFails (err : Errno)
  /-- `readTask` gets the result of `openSocket`. -/
  | openSocket (fd : ℤ)
  /-- `TcpSocketReal::onReceive`. -/
  | onReceive
  /-- `TcpSocketReal::removeCallback`. -/
  | removeCallback (handle : ℕ)
  /-- The next step of `~TcpSocketReal`. -/
  | destructor
  deriving DecidableEq

/-- The size from which on `readTask` takes no more bytes in a round. -/
def maxRound : ℕ := 1024

namespace TcpSocketReal

variable (growth : ℕ → ℕ → ℕ)

/-- A socket behind its constructor. -/
def start (fd : ℕ) : TcpSocketReal where
  fd := fd
  mutex := none
  callbacks := []
  cbCounter := 0
  avail := []
  fin := false
  buf := ByteVector.resize growth ⟨[], 0⟩ 64
  bufOff := 0
  readTask := .start
  destructor := .none

/-- `readTask` gets `EBADF`, and the socket is closed to be opened again. -/
def reopenSocketLocked (s : TcpSocketReal) : TcpSocketReal × List TcpEffect :=
  ({ s with readTask := .reopen }, [.close s.fd])

/-- What `recv` can return now. -/
def recvBytes (s : TcpSocketReal) : Bytes := s.avail.take (s.buf.data.length - s.bufOff)

/-- `recv` would block. -/
def wouldBlock (s : TcpSocketReal) : Bool := s.avail.isEmpty && !s.fin

/-- A `recv` that returns bytes, up to the next call or through the callbacks. -/
def received (s : TcpSocketReal) : TcpSocketReal × List TcpEffect :=
  let restSize := s.buf.data.length - s.bufOff
  let bytes := s.recvBytes
  let buf := s.buf.write s.bufOff bytes
  let s := { s with avail := s.avail.drop restSize }
  if bytes.length < restSize ∨ maxRound ≤ buf.data.length then
    let buf := buf.resize growth (s.bufOff + bytes.length)
    ({ s with buf := buf, readTask := .test },
      .received bytes :: s.callbacks.map (TcpEffect.callback · buf.data))
  else
    ({ s with
      buf := buf.resize growth (buf.data.length + 16), bufOff := s.bufOff + bytes.length },
      [.received bytes])

/-- A step of `readTask`. -/
def stepReadTask (s : TcpSocketReal) : TcpSocketReal × List TcpEffect :=
  match s.readTask with
  | .start => (if s.mutex = none then { s with mutex := some .readTask, readTask := .test } else s,
    [])
  | .test =>
    -- at the end of the loop the mutex is not given back
    (if 0 ≤ s.fd then { s with mutex := none, readTask := .delay }
      else { s with readTask := .deleted }, [])
  | .delay =>
    (if s.mutex = none then
      { s with
        mutex := some .readTask
        buf := s.buf.resize growth s.buf.capacity
        bufOff := 0
        readTask := .recv }
      else s, [])
  | .recv =>
    if s.fd < 0 then s.reopenSocketLocked
    else if s.wouldBlock then ({ s with readTask := .test }, [])
    else s.received growth
  | .reopen => (s, [])
  | .deleted => (s, [])

/-- A step of `~TcpSocketReal`. -/
def stepDestructor (s : TcpSocketReal) : TcpSocketReal × List TcpEffect :=
  match s.destructor with
  | .none =>
    (if s.mutex = none then { s with mutex := some .destructor, destructor := .locked } else s, [])
  | .locked =>
    ({ s with fd := -1, mutex := none, destructor := .waiting },
      if 0 ≤ s.fd then [.close s.fd] else [])
  | .waiting => (if s.readTask = .deleted then { s with destructor := .done } else s, [])
  | .done => (s, [])

/-- The machine of the socket. -/
def machine : Machine TcpSocketReal TcpEvent TcpEffect
  | s, .arrive bytes => ({ s with avail := s.avail ++ bytes }, [])
  | s, .finish => ({ s with fin := true }, [])
  | s, .readTask => s.stepReadTask growth
  | s, .recvFails err =>
    if s.readTask = .recv ∧ 0 ≤ s.fd then
      if err = .ebadf then s.reopenSocketLocked else ({ s with readTask := .test }, [])
    else (s, [])
  | s, .openSocket fd =>
    if s.readTask = .reopen then
      -- until it succeeds, after a delay it is tried again
      if 0 ≤ fd then ({ s with fd := fd, avail := [], fin := false, readTask := .test },
        [.openSocket])
      else ({ s with fd := fd }, [.openSocket])
    else (s, [])
  | s, .onReceive =>
    (if s.mutex = none then
      { s with callbacks := s.callbacks ++ [s.cbCounter + 1], cbCounter := s.cbCounter + 1 }
      else s, [])
  | s, .removeCallback handle =>
    (if s.mutex = none then { s with callbacks := s.callbacks.erase handle } else s, [])
  | s, .destructor => s.stepDestructor

end TcpSocketReal

/-! ## Vectors -/

namespace ByteVector

variable {growth : ℕ → ℕ → ℕ} {v : ByteVector} {k n off : ℕ} {bytes : Bytes}

@[simp] theorem length_resize : (v.resize growth n).data.length = n := by
  rw [resize]
  simp only [List.length_append, List.length_take, List.length_replicate]
  omega

/-- A resize keeps what is in front of both ends. -/
theorem take_resize (hn : k ≤ n) (hv : k ≤ v.data.length) :
    (v.resize growth n).data.take k = v.data.take k := by
  rw [resize]
  simp only
  rw [List.take_append_of_le_length (by rw [List.length_take]; omega), List.take_take,
    min_eq_left hn]

/-- A write leaves what is in front of it, and what it writes. -/
theorem take_write (hoff : off ≤ v.data.length) :
    (v.write off bytes).data.take (off + bytes.length) = v.data.take off ++ bytes := by
  have hlen : (v.data.take off ++ bytes).length = off + bytes.length := by
    rw [List.length_append, List.length_take, min_eq_left hoff]
  rw [write, ← hlen, List.take_left]

theorem length_write (h : off + bytes.length ≤ v.data.length) :
    (v.write off bytes).data.length = v.data.length := by
  rw [write]
  simp only [List.length_append, List.length_take, List.length_drop]
  omega

end ByteVector

/-! ## What holds in every reachable state -/

/-- `readTask` holds the mutex. -/
def ReadTask.holds : ReadTask → Bool
  | .start | .delay => false
  | .test | .recv | .reopen | .deleted => true

namespace TcpSocketReal

/-- Each task holds the mutex where it should, the handles ascend, and a round does not go past its
buffer. -/
structure Sound (s : TcpSocketReal) : Prop where
  mutex_readTask : s.mutex = some .readTask ↔ s.readTask.holds = true
  mutex_destructor : s.mutex = some .destructor ↔ s.destructor = .locked
  callbacks_nodup : s.callbacks.Nodup
  callbacks_le : ∀ handle ∈ s.callbacks, handle ≤ s.cbCounter
  bufOff_le : s.readTask = .recv → s.bufOff ≤ s.buf.data.length

variable {growth : ℕ → ℕ → ℕ} {s : TcpSocketReal}

theorem sound_start (fd : ℕ) : (start growth fd).Sound where
  mutex_readTask := ⟨nofun, nofun⟩
  mutex_destructor := ⟨nofun, nofun⟩
  callbacks_nodup := List.nodup_nil
  callbacks_le _ h := nomatch h
  bufOff_le := nofun

theorem length_recvBytes : s.recvBytes.length ≤ s.buf.data.length - s.bufOff :=
  List.length_take_le ..

/-- While `readTask` holds the mutex, the destructor is not in its critical section. -/
theorem Sound.not_locked (h : s.Sound) (hholds : s.readTask.holds = true) :
    s.destructor ≠ .locked := by
  intro hlocked
  have hmutex := h.mutex_destructor.2 hlocked
  rw [h.mutex_readTask.2 hholds] at hmutex
  cases hmutex

/-- A step of `readTask` from where it holds the mutex to where it holds it. -/
theorem Sound.move (h : s.Sound) {s' : TcpSocketReal} (hholds : s.readTask.holds = true)
    (hholds' : s'.readTask.holds = true) (hmutex : s'.mutex = s.mutex)
    (hdestructor : s'.destructor = s.destructor) (hcallbacks : s'.callbacks = s.callbacks)
    (hcounter : s'.cbCounter = s.cbCounter)
    (hoff : s'.readTask = .recv → s'.bufOff ≤ s'.buf.data.length) : s'.Sound where
  mutex_readTask := by rw [hmutex, h.mutex_readTask, hholds, hholds']
  mutex_destructor := by rw [hmutex, hdestructor, h.mutex_destructor]
  callbacks_nodup := hcallbacks ▸ h.callbacks_nodup
  callbacks_le := by rw [hcallbacks, hcounter]; exact h.callbacks_le
  bufOff_le := hoff

theorem sound_received (h : s.Sound) (hrecv : s.readTask = .recv) :
    (s.received growth).1.Sound := by
  have hholds : s.readTask.holds = true := by rw [hrecv]; rfl
  have hoff := h.bufOff_le hrecv
  have hlen := s.length_recvBytes
  rw [received]
  simp only
  split_ifs with hlast
  · exact h.move hholds rfl rfl rfl rfl rfl nofun
  · refine h.move hholds (by rw [hrecv]; rfl) rfl rfl rfl rfl fun _ => ?_
    simp only [ByteVector.length_resize]
    rw [ByteVector.length_write (by omega)]
    omega

theorem sound_stepReadTask (h : s.Sound) : (s.stepReadTask growth).1.Sound := by
  rw [stepReadTask]
  cases hat : s.readTask with
  | start =>
    simp only
    split_ifs with hfree
    · exact ⟨⟨fun _ => rfl, fun _ => rfl⟩,
        ⟨nofun, fun hd => by rw [← h.mutex_destructor, hfree] at hd; cases hd⟩, h.callbacks_nodup,
        h.callbacks_le, nofun⟩
    · exact h
  | test =>
    have hholds : s.readTask.holds = true := by rw [hat]; rfl
    simp only
    split_ifs
    · exact ⟨⟨nofun, nofun⟩, ⟨nofun, fun hd => absurd hd (h.not_locked hholds)⟩, h.callbacks_nodup,
        h.callbacks_le, nofun⟩
    · exact h.move hholds rfl rfl rfl rfl rfl nofun
  | delay =>
    simp only
    split_ifs with hfree
    · exact ⟨⟨fun _ => rfl, fun _ => rfl⟩,
        ⟨nofun, fun hd => by rw [← h.mutex_destructor, hfree] at hd; cases hd⟩, h.callbacks_nodup,
        h.callbacks_le, fun _ => Nat.zero_le _⟩
    · exact h
  | recv =>
    have hholds : s.readTask.holds = true := by rw [hat]; rfl
    simp only
    split_ifs
    · exact h.move hholds rfl rfl rfl rfl rfl nofun
    · exact h.move hholds rfl rfl rfl rfl rfl nofun
    · exact sound_received h hat
  | reopen | deleted => exact h

theorem sound_stepDestructor (h : s.Sound) : s.stepDestructor.1.Sound := by
  have hkeep (d : Destructor) (hd : d ≠ .locked) (hs : s.destructor ≠ .locked) :
      ({ s with destructor := d } : TcpSocketReal).Sound :=
    ⟨h.mutex_readTask, ⟨fun hm => absurd (h.mutex_destructor.1 hm) hs, fun hm => absurd hm hd⟩,
      h.callbacks_nodup, h.callbacks_le, h.bufOff_le⟩
  rw [stepDestructor]
  cases hat : s.destructor with
  | none =>
    simp only
    split_ifs with hfree
    · exact ⟨⟨nofun, fun hr => by rw [← h.mutex_readTask, hfree] at hr; cases hr⟩,
        ⟨fun _ => rfl, fun _ => rfl⟩, h.callbacks_nodup, h.callbacks_le, h.bufOff_le⟩
    · exact h
  | locked =>
    exact ⟨⟨nofun, fun hr => absurd hat (h.not_locked hr)⟩, ⟨nofun, nofun⟩, h.callbacks_nodup,
      h.callbacks_le, h.bufOff_le⟩
  | waiting =>
    simp only
    split_ifs
    · exact hkeep .done nofun (by rw [hat]; nofun)
    · exact h
  | done => exact h

/-- A new handle is larger than the others. -/
theorem sound_onReceive (h : s.Sound) : ({ s with
    callbacks := s.callbacks ++ [s.cbCounter + 1]
    cbCounter := s.cbCounter + 1 } : TcpSocketReal).Sound := by
  refine ⟨h.mutex_readTask, h.mutex_destructor, ?_, fun handle hmem => ?_, h.bufOff_le⟩
  · refine List.nodup_append.2 ⟨h.callbacks_nodup, List.nodup_singleton _, fun a ha b hb => ?_⟩
    have hle := h.callbacks_le a ha
    rw [List.mem_singleton.1 hb]
    exact (Nat.lt_succ_of_le hle).ne
  · rcases List.mem_append.1 hmem with hmem | hmem
    · exact (h.callbacks_le handle hmem).trans (Nat.le_succ _)
    · exact (List.mem_singleton.1 hmem).le

theorem sound_machine (h : s.Sound) (e : TcpEvent) : (machine growth s e).1.Sound := by
  cases e with
  | arrive | finish =>
    exact ⟨h.mutex_readTask, h.mutex_destructor, h.callbacks_nodup, h.callbacks_le, h.bufOff_le⟩
  | readTask => exact sound_stepReadTask h
  | recvFails err =>
    rw [machine]
    split_ifs with hat
    · have hholds : s.readTask.holds = true := by rw [hat.1]; rfl
      exact h.move hholds rfl rfl rfl rfl rfl nofun
    · have hholds : s.readTask.holds = true := by rw [hat.1]; rfl
      exact h.move hholds rfl rfl rfl rfl rfl nofun
    · exact h
  | openSocket fd =>
    rw [machine]
    split_ifs with hat
    · have hholds : s.readTask.holds = true := by rw [hat]; rfl
      exact h.move hholds rfl rfl rfl rfl rfl nofun
    · have hholds : s.readTask.holds = true := by rw [hat]; rfl
      exact h.move hholds hholds rfl rfl rfl rfl h.bufOff_le
    · exact h
  | onReceive =>
    rw [machine]
    simp only
    split_ifs
    · exact sound_onReceive h
    · exact h
  | removeCallback handle =>
    rw [machine]
    simp only
    split_ifs
    · exact ⟨h.mutex_readTask, h.mutex_destructor, h.callbacks_nodup.erase _,
        fun c hc => h.callbacks_le c (List.mem_of_mem_erase hc), h.bufOff_le⟩
    · exact h
  | destructor => exact sound_stepDestructor h

theorem sound_run (hs : s.Sound) (es : List TcpEvent) :
    (Machine.final (machine growth) s es).Sound := by
  induction es generalizing s with
  | nil => exact hs
  | cons e es ih => exact ih (sound_machine hs e)

theorem sound_final (fd : ℕ) (es : List TcpEvent) :
    (Machine.final (machine growth) (start growth fd) es).Sound :=
  sound_run (sound_start fd) es

end TcpSocketReal

end RbProtocol.Tcp
