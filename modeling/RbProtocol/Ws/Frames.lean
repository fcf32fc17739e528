import RbProtocol.Ws.Decode

/-!
# Frames

A client may put control frames between the frames of its messages. Here a stream is a list of
frames, each with its opcode, and the decoder is followed through one frame at a time: from the
header on (`InFrame`) it waits for bytes or moves on, and at the end of the frame it holds what was
in the payload before, if the opcode is `WS_OPCODE_CONTINUE`, and the data of the frame
(`processClient_frame`).
-/

namespace RbProtocol.Ws

open Library

/-- The opcode of a binary message. -/
def opcodeBinary : UInt8 := 0x02

/-- The opcode of a PING. -/
def opcodePing : UInt8 := 0x09

/-- The opcode of a PONG. -/
def opcodePong : UInt8 := 0x0A

/-- A frame: the FIN flag, the opcode, and the rest as in a fragment of a message. -/
structure Frame where
  fin : Bool
  opcode : UInt8
  fragment : Fragment
  opcode_lt : opcode < 16

namespace Frame

/-- The data of a frame. -/
def data (fr : Frame) : Bytes := fr.fragment.data

/-- The first byte of a frame. -/
def flags (fr : Frame) : UInt8 := (if fr.fin then 0x80 else 0) ||| fr.opcode

/-- The two bytes at the start of a frame. -/
def header (fr : Frame) : Bytes := [fr.flags, 0x80 ||| UInt8.ofNat fr.fragment.len0]

/-- A frame on the stream. -/
def encode (fr : Frame) : Bytes :=
  fr.header ++ ((if fr.fragment.wide then htons fr.data.length else []) ++ fr.fragment.body)

/-- What the payload begins with when a frame starts. -/
def start (fr : Frame) (payload : Bytes) : Bytes :=
  if fr.opcode = opcodeContinue then payload else []

@[simp] theorem length_header (fr : Frame) : fr.header.length = 2 := rfl

theorem flags_spec (fr : Frame) : (fr.flags >>> 7 ≠ 0) = fr.fin ∧ fr.flags &&& 0xF = fr.opcode := by
  obtain ⟨fin, opcode, fragment, hlt⟩ := fr
  have hall : ∀ n < 16, ∀ fin : Bool,
      ((((if fin then 0x80 else 0) ||| UInt8.ofNat n) >>> 7 ≠ 0) = fin) ∧
      ((if fin then 0x80 else 0) ||| UInt8.ofNat n) &&& 0xF = UInt8.ofNat n := by
    decide +kernel
  have h := hall opcode.toNat (UInt8.lt_iff_toNat_lt.1 hlt) fin
  rwa [UInt8.ofNat_toNat] at h

end Frame

/-! ## The header -/

/-- The client after the header of a frame. -/
def afterFrameHeader (client : Client) (fr : Frame) : Client :=
  { client with
    flags := fr.flags
    payload := fr.start client.payload
    remainingPayloadLen := if fr.fragment.wide then client.remainingPayloadLen else fr.data.length
    state := if fr.fragment.wide then .len1 else .mask }

/-- The header of a frame is read as it was written. -/
theorem processClientHeader_frame (client : Client) (fr : Frame) :
    processClientHeader client fr.header = some (afterFrameHeader client fr) := by
  obtain ⟨hmask, hlen⟩ := header_len0 fr.fragment.len0 fr.fragment.len0_lt
  have hlt := fr.fragment.len0_lt
  have hopcode := fr.flags_spec.2
  have hwide : fr.fragment.len0 < 126 ↔ fr.fragment.wide = false := by
    rw [Fragment.len0]
    cases hf : fr.fragment.wide
    · have hle := Fragment.data_length_le_of_not_wide hf
      simp only [Bool.false_eq_true, if_false, iff_true]
      omega
    · simp
  unfold processClientHeader
  simp only [Frame.header, List.getD_cons_succ, List.getD_cons_zero, if_neg hmask, hlen,
    if_neg (not_le.2 hlt), hwide]
  cases hf : fr.fragment.wide
  · by_cases hcontinue : fr.opcode = opcodeContinue <;>
      simp [Client.opcode, hopcode, hcontinue, afterFrameHeader, Frame.start, hf, Fragment.len0,
        Frame.data]
  · by_cases hcontinue : fr.opcode = opcodeContinue <;>
      simp [Client.opcode, hopcode, hcontinue, afterFrameHeader, Frame.start, hf]

/-! ## Places in a frame -/

/-- The place of a client in a frame that started with `payload`; `left` are the bytes of the frame
it has not read. -/
inductive InFrame (fr : Frame) (payload : Bytes) (client : Client) : (left : Bytes) → Prop
  /-- Before the frame. -/
  | header (hstate : client.state = .initial) (hpayload : payload = fr.start client.payload) :
      InFrame fr payload client fr.encode
  /-- Before a 16-bit length. -/
  | length (hstate : client.state = .len1) (hflags : client.flags = fr.flags)
      (hpayload : client.payload = payload) :
      InFrame fr payload client (htons fr.data.length ++ fr.fragment.body)
  /-- Before the masking key. -/
  | mask (hstate : client.state = .mask) (hflags : client.flags = fr.flags)
      (hpayload : client.payload = payload)
      (hremaining : client.remainingPayloadLen = fr.data.length) :
      InFrame fr payload client fr.fragment.body
  /-- In the data, with `rest` still to come. -/
  | data {front rest pad : Bytes} (hstate : client.state = .data)
      (hflags : client.flags = fr.flags) (hpayload : client.payload = front ++ pad)
      (hpad : pad.length = rest.length) (hremaining : client.remainingPayloadLen = rest.length)
      (hne : rest ≠ []) (hwhole : payload ++ fr.data = front ++ rest) :
      InFrame fr payload client (unmask client.maskingKey rest)

/-- A client at the end of a frame. -/
structure AtEnd (fr : Frame) (payload : Bytes) (client : Client) : Prop where
  state : client.state = if fr.fin then .fullyReceived else .initial
  flags : client.flags = fr.flags
  payload : client.payload = payload ++ fr.data

/-- The result of a turn: the client has read `used`, and if this is nothing it is as it was and
the frame is not there. -/
def FrameTurn (fr : Frame) (payload : Bytes) (client : Client) (avail left : Bytes) : Prop :=
  ∃ client' used avail', processClient client (.open avail) = .running client' (.open avail') ∧
    avail = used ++ avail' ∧ client'.fd = client.fd ∧
    (used = [] → client' = client ∧ avail.length < left.length) ∧
    ((left = used ∧ AtEnd fr payload client') ∨
      ∃ left', left = used ++ left' ∧ InFrame fr payload client' left')

section Turn

variable {fr : Frame} {payload avail future later left : Bytes} {client : Client}

theorem InFrame.state_ne (h : InFrame fr payload client left) : client.state ≠ .fullyReceived := by
  intro hfull
  cases h with
  | header hstate | length hstate | mask hstate | data hstate =>
    rw [hstate] at hfull
    cases hfull

/-- A turn that reads a part of fixed size if it is there. -/
theorem frameTurn_of_front (front : Bytes) (next : Client)
    (h : InFrame fr payload client left) (hstream : avail ++ future = left ++ later)
    (hne : front ≠ []) {rest : Bytes} (hleft : left = front ++ rest)
    (hwait : avail.length < front.length →
      processClient client (.open avail) = .running client (.open avail))
    (hread : ∀ avail',
      processClient client (.open (front ++ avail')) = .running next (.open avail'))
    (hfd : next.fd = client.fd)
    (hnext : (rest = [] ∧ AtEnd fr payload next) ∨ InFrame fr payload next rest) :
    FrameTurn fr payload client avail left := by
  rcases lt_or_ge avail.length front.length with hshort | hlong
  · refine ⟨client, [], avail, hwait hshort, rfl, rfl, fun _ => ⟨rfl, ?_⟩, .inr ⟨left, rfl, h⟩⟩
    rw [hleft, List.length_append]
    omega
  · rw [hleft, List.append_assoc] at hstream
    obtain ⟨avail', rfl, -⟩ := front_of_append hstream hlong
    refine ⟨next, front, avail', hread avail', rfl, hfd, fun hused => absurd hused hne, ?_⟩
    rcases hnext with ⟨rfl, hend⟩ | hin
    · exact .inl ⟨by rw [hleft, List.append_nil], hend⟩
    · exact .inr ⟨rest, hleft, hin⟩

/-- A client that expects the masking key reads it, and makes room for the data if there is any. -/
theorem frameTurn_mask (hstate : client.state = .mask) (hflags : client.flags = fr.flags)
    (hpayload : client.payload = payload) (hremaining : client.remainingPayloadLen = fr.data.length)
    (hsize : (payload ++ fr.data).length ≤ maxPayload)
    (hstream : avail ++ future = fr.fragment.body ++ later) :
    FrameTurn fr payload client avail fr.fragment.body := by
  have hlength := fr.fragment.key_length
  have hkey : fr.fragment.key ≠ [] := List.length_pos_iff.1 (by omega)
  have h := InFrame.mask hstate hflags hpayload hremaining
  have hwait (hshort : avail.length < fr.fragment.key.length) :
      processClient client (.open avail) = .running client (.open avail) := by
    rw [hlength] at hshort
    simp only [processClient, hstate, readAtLeast_short hshort, List.length_nil, if_true]
  have hread (avail' : Bytes) := readAtLeast_append fr.fragment.key avail'
  simp only [hlength] at hread
  by_cases hempty : fr.data = []
  · -- a frame without data ends here
    have h0 : client.remainingPayloadLen = 0 := by rw [hremaining, hempty, List.length_nil]
    refine frameTurn_of_front fr.fragment.key
      (endOfFrame { client with maskingKey := fr.fragment.key }) h hstream hkey rfl hwait
      (fun avail' => ?_) rfl (.inl ⟨?_, ?_, hflags, ?_⟩)
    · simp only [processClient, hstate, hread, hlength, OfNat.ofNat_ne_zero, if_false, h0, if_true]
    · rw [Fragment.masked]
      exact congrArg (unmask fr.fragment.key) hempty
    · rw [endOfFrame, Client.fin]
      simp only [hflags, fr.flags_spec.1, Bool.decide_eq_true]
    · rw [hempty, List.append_nil]
      exact hpayload
  · have hpos : fr.data.length ≠ 0 := fun h0 => hempty (List.length_eq_zero_iff.1 h0)
    have hle : ¬maxPayload < client.payload.length + fr.data.length := by
      rw [hpayload]
      rw [List.length_append] at hsize
      omega
    refine frameTurn_of_front fr.fragment.key
      { client with
        maskingKey := fr.fragment.key
        payload := client.payload ++ List.replicate fr.data.length 0
        state := .data } h hstream hkey rfl hwait (fun avail' => ?_) rfl (.inr ?_)
    · simp only [processClient, hstate, hread, hlength, OfNat.ofNat_ne_zero, if_false, hremaining,
        hpos, hle]
    · have hcells : client.payload ++ List.replicate fr.data.length 0 =
          payload ++ List.replicate fr.data.length 0 := by rw [hpayload]
      exact .data rfl hflags hcells List.length_replicate hremaining hempty rfl

/-- **A turn of a client that is within a frame.** However many bytes of the stream are there, the
client reads some of them, if any are missing from the next part, and moves on in the frame. -/
theorem processClient_frame (h : InFrame fr payload client left)
    (hsize : (payload ++ fr.data).length ≤ maxPayload)
    (hstream : avail ++ future = left ++ later) : FrameTurn fr payload client avail left := by
  cases h with
  | header hstate hpayload =>
    refine frameTurn_of_front fr.header (afterFrameHeader client fr) (.header hstate hpayload)
      hstream (List.cons_ne_nil _ _) rfl (fun hshort => ?_) (fun avail' => ?_) rfl (.inr ?_)
    · rw [Frame.length_header] at hshort
      simp only [processClient, hstate, readAtLeast_short hshort, List.length_nil, if_true]
    · have hread := readAtLeast_append fr.header avail'
      rw [Frame.length_header] at hread
      simp only [processClient, hstate, hread, Frame.length_header, processClientHeader_frame,
        OfNat.ofNat_ne_zero, if_false]
    · cases hwide : fr.fragment.wide
      · refine .mask ?_ rfl hpayload.symm ?_ <;> simp [afterFrameHeader, hwide]
      · refine .length ?_ rfl hpayload.symm
        simp [afterFrameHeader, hwide]
  | length hstate hflags hpayload =>
    refine frameTurn_of_front (htons fr.data.length)
      { client with remainingPayloadLen := fr.data.length, state := .mask }
      (.length hstate hflags hpayload) hstream (List.cons_ne_nil _ _) rfl (fun hshort => ?_)
      (fun avail' => ?_) rfl (.inr (.mask rfl hflags hpayload rfl))
    · rw [length_htons] at hshort
      simp only [processClient, hstate, readAtLeast_short hshort, List.length_nil, if_true]
    · have hread := readAtLeast_append (htons fr.data.length) avail'
      have hntohs : ((htons fr.data.length).getD 0 0).toNat * 256 +
          ((htons fr.data.length).getD 1 0).toNat = fr.data.length :=
        ntohs_htons fr.fragment.data_length_lt
      rw [length_htons] at hread
      simp only [processClient, hstate, hread, length_htons, OfNat.ofNat_ne_zero, if_false, hntohs]
  | mask hstate hflags hpayload hremaining =>
    exact frameTurn_mask hstate hflags hpayload hremaining hsize hstream
  | @data front rest pad hstate hflags hpayload hpad hremaining hne hwhole =>
    have hmax : front.length + rest.length ≤ maxPayload := by
      rwa [hwhole, List.length_append] at hsize
    obtain ⟨client', used, avail', hrun, havail, hreads, hwait⟩ :=
      processData_reads hpayload hpad hremaining hne hmax hstream
    refine ⟨client', used, avail', ?_, havail, ?_, fun hused => ?_, ?_⟩
    · rw [processClient, hstate]
      exact hrun
    · rcases hreads with ⟨-, rfl⟩ | ⟨-, -, -, -, -, -, -, rfl⟩ <;> rfl
    · rw [length_unmask]
      exact hwait hused
    · rcases hreads with ⟨rfl, rfl⟩ | ⟨front', rest', pad', hfront, hne', hpad', hused, rfl⟩
      · refine .inl ⟨rfl, ?_, hflags, hwhole.symm⟩
        rw [endOfFrame, Client.fin]
        simp only [hflags, fr.flags_spec.1, Bool.decide_eq_true]
      · exact .inr ⟨_, hused, .data hstate hflags rfl hpad' rfl hne' (hwhole.trans hfront)⟩

end Turn

end RbProtocol.Ws
