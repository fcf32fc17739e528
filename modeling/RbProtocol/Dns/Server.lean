import RbProtocol.Library.Lists
import RbProtocol.Library.Buffer
import RbProtocol.Foundations.Network

/-!
# The captive DNS server

`DnsServer::parseDnsName` and `DnsServer::processDnsQuestion`, on the receive buffer as a list of
bytes and with pointers as offsets into it. Every access is checked against the range that makes it
legal and ends the run with a `Fault` outside of it:

* a label or question byte is read as request data, so it has to be among the `req_size` received
  bytes;
* a byte copied by `parseDnsName` goes to its 64-byte `out_buf`, and the remaining length `maxlen`
  is unsigned and must not be decremented below zero;
* headers, answers and the final `memmove` go through the buffer and stay below `buff.size()`.
-/

namespace RbProtocol.Dns

open Library

/-- An access outside of its range. -/
inductive Fault
  /-- Request data read behind the received bytes. -/
  | requestRead
  /-- A read outside of the buffer. -/
  | bufferRead
  /-- A write outside of the buffer. -/
  | bufferWrite
  /-- A write behind `out_buf`. -/
  | outBufWrite
  /-- `maxlen` decremented below zero. -/
  | maxlenUnderflow
  deriving DecidableEq

/-- The result of a checked access. -/
def orFault {α : Type*} (fault : Fault) : Option α → Except Fault α
  | some a => .ok a
  | none => .error fault

/-- `OPCODE_MASK`. -/
def opcodeMask : ℕ := 0x7800

/-- `QR_FLAG`, on the first byte of the little-endian `flags` field. -/
def qrFlag : UInt8 := 0x80

/-- `QD_TYPE_A`. -/
def qdTypeA : ℕ := 1

/-- `ANS_TTL_SEC`. -/
def ansTtlSec : ℕ := 300

/-- `DNS_MSG_SIZE_LIMIT`. -/
def dnsMsgSizeLimit : ℕ := 256

/-- `sizeof(dns_header_t)`. -/
def headerSize : ℕ := 12

/-- `sizeof(dns_question_t)`. -/
def questionSize : ℕ := 4

/-- `sizeof(dns_answer_t)`. -/
def answerSize : ℕ := 16

/-- `sizeof(out_buf)` in `parseDnsName`. -/
def outBufSize : ℕ := 64

/-- A pointer difference as a `size_t` of the 32-bit target. -/
def sizeT (diff : ℤ) : ℕ := (diff % 2 ^ 32).toNat

/-! ## Names -/

/-- The label loop of `parseDnsName`: `label` is the offset of the next length byte in the request,
`out` the part of `out_buf` written so far. The result is the offset behind the name and the name,
or `none` for the null pointer. -/
def parseDnsLabels (req : Bytes) (label : ℕ) (out : Bytes) (maxlen : ℕ) :
    Except Fault (Option (ℕ × Bytes)) :=
  match req[label]? with
  | none => .error .requestRead
  | some labelLen =>
    if maxlen < labelLen.toNat ∨ labelLen = 0 then .ok none
    else if req.length < label + 1 + labelLen.toNat then .error .requestRead
    else if outBufSize < out.length + labelLen.toNat + 1 then .error .outBufWrite
    else if _h : maxlen < labelLen.toNat + 1 then .error .maxlenUnderflow
    else
      let out := out ++ ((req.drop (label + 1)).take labelLen.toNat ++ [46])
      match req[label + labelLen.toNat + 1]? with
      | none => .error .requestRead
      | some next =>
        if next = 0 then .ok (some (label + labelLen.toNat + 2, out.dropLast))
        else parseDnsLabels req (label + labelLen.toNat + 1) out (maxlen - (labelLen.toNat + 1))
termination_by maxlen
decreasing_by omega

/-- `DnsServer::parseDnsName`. -/
def parseDnsName (req : Bytes) (srcData maxlen : ℕ) : Except Fault (Option (ℕ × Bytes)) :=
  parseDnsLabels req srcData [] (min maxlen outBufSize)

/-! ## Questions and answers -/

/-- A filled-in `dns_answer_t`. -/
def dnsAnswer (ptrOffset qdType qdClass : ℕ) (espIp : UInt32) : Bytes :=
  htons (0xC000 ||| ptrOffset) ++ htons qdType ++ htons qdClass ++ htonl ansTtlSec ++
    htons 4 ++ rawBytes espIp

/-- The variables of the question loop: the buffer, `cur_question_ptr`, `cur_ans_ptr` and
`answer_count`. -/
structure Loop where
  buff : Bytes
  curQuestion : ℕ
  curAns : ℕ
  answerCount : ℕ

/-- The question loop of `processDnsQuestion`, for the questions still to come. `none` is the early
return after a rejected name. -/
def answerQuestions (reqSize : ℕ) (espIp : UInt32) : ℕ → Loop → Except Fault (Option Loop)
  | 0, s => .ok (some s)
  | k + 1, s => do
    let req := s.buff.take reqSize
    match ← parseDnsName req s.curQuestion (sizeT ((reqSize : ℤ) - s.curQuestion)) with
    | none => return none
    | some (nameEnd, _) =>
      let question ← orFault .requestRead (readAt? req nameEnd questionSize)
      let qdType := ntohs question
      let qdClass := ntohs (question.drop 2)
      if qdType ≠ qdTypeA then
        answerQuestions reqSize espIp k { s with curQuestion := nameEnd + questionSize }
      else
        let buff ← orFault .bufferWrite
          (writeAt? s.buff s.curAns (dnsAnswer s.curQuestion qdType qdClass espIp))
        answerQuestions reqSize espIp k
          { buff := buff
            curQuestion := nameEnd + questionSize
            curAns := s.curAns + answerSize
            answerCount := s.answerCount + 1 }

/-- The end of `processDnsQuestion`: the answer count, the extra records and the reply length. -/
def finishReply (reqSize : ℕ) (s : Loop) : Except Fault (Bytes × ℤ) := do
  let buff ← orFault .bufferWrite (writeAt? s.buff 6 (htons s.answerCount))
  if s.curQuestion < reqSize then
    let extra := reqSize - s.curQuestion
    let buff ← orFault .bufferRead (moveWithin? buff s.curQuestion reqSize extra)
    return (buff, s.answerCount * answerSize + (reqSize - extra : ℕ))
  else
    return (buff, s.answerCount * answerSize + reqSize)

/-- `DnsServer::processDnsQuestion`: the buffer it leaves and the reply length, or −1. Behind −1
nobody reads the answers that it has written so far, and the buffer is without them. -/
def processDnsQuestion (buff : Bytes) (reqSize : ℕ) (espIp : UInt32) :
    Except Fault (Bytes × ℤ) := do
  let flags ← orFault .bufferRead (readAt? buff 2 2)
  if ntohs flags &&& opcodeMask ≠ 0 then
    return (buff, -1)
  let buff ← orFault .bufferWrite (writeAt? buff 2 [flags.headD 0 ||| qrFlag])
  let buff ← orFault .bufferWrite (writeAt? buff 8 [0, 0])
  let buff ← orFault .bufferWrite (writeAt? buff 10 [0, 0])
  let questionCount := ntohs (← orFault .bufferRead (readAt? buff 4 2))
  let fullReplyLen := questionCount * answerSize + reqSize
  if dnsMsgSizeLimit < fullReplyLen then
    return (buff, -1)
  let buff := buff ++ List.replicate (fullReplyLen - buff.length) 0
  match ← answerQuestions reqSize espIp questionCount
      { buff := buff, curQuestion := headerSize, curAns := reqSize, answerCount := 0 } with
  | none => return (buff, -1)
  | some s => finishReply reqSize s

end RbProtocol.Dns
