import RbProtocol.Ws.Message

/-!
# Decoding a message

A client that reads the stream of a message is always at one of five places in it (`Within`). One
call of `process_client` either waits for more bytes or moves on, and at the end of the message the
client holds its payload (`processClient_within`). How the bytes arrive does not matter: a chunk is
read when it is there as a whole, so the chunks of a frame start at multiples of 64 bytes.
-/

namespace RbProtocol.Ws

open Library

/-! ## Headers -/

theorem flags_shift (first last : Bool) : (Fragment.flags first last >>> 7 ≠ 0) = last := by
  cases first <;> cases last <;> decide

theorem flags_opcode (first last : Bool) :
    Fragment.flags first last &&& 0xF = if first then opcodeText else opcodeContinue := by
  cases first <;> cases last <;> decide

/-- The second byte of a masked frame. -/
theorem header_len0 : ∀ n < 127, (0x80 ||| UInt8.ofNat n) >>> 7 ≠ 0 ∧
    ((0x80 ||| UInt8.ofNat n) &&& 0x7F).toNat = n := by
  decide +kernel

theorem Fragment.len0_lt (f : Fragment) : f.len0 < 127 := by
  have h := f.data_length
  rw [len0]
  split_ifs at h ⊢ <;> omega

/-- The client after the header of a frame. -/
def afterHeader (client : Client) (f : Fragment) (first last : Bool) : Client :=
  { client with
    flags := Fragment.flags first last
    payload := if first then [] else client.payload
    remainingPayloadLen := if f.wide then client.remainingPayloadLen else f.data.length
    state := if f.wide then .len1 else .mask }

theorem afterHeader_fin (client : Client) (f : Fragment) (first last : Bool) :
    (afterHeader client f first last).fin = last := by
  rw [Client.fin, afterHeader]
  simp only [flags_shift, Bool.decide_eq_true]

theorem afterHeader_opcode (client : Client) (f : Fragment) (first last : Bool) :
    (afterHeader client f first last).opcode = if first then opcodeText else opcodeContinue :=
  flags_opcode first last

/-- The header of a frame is read as it was written. -/
theorem processClientHeader_header (client : Client) (f : Fragment) (first last : Bool) :
    processClientHeader client (f.header first last) = some (afterHeader client f first last) := by
  obtain ⟨hmask, hlen⟩ := header_len0 f.len0 f.len0_lt
  have hlt := f.len0_lt
  have hopcode : Fragment.flags first last &&& 0xF ≠ opcodeContinue ↔ first = true := by
    rw [flags_opcode]
    cases first <;> decide
  have hwide : f.len0 < 126 ↔ f.wide = false := by
    rw [Fragment.len0]
    cases hf : f.wide
    · have hle := Fragment.data_length_le_of_not_wide hf
      simp only [Bool.false_eq_true, if_false, iff_true]
      omega
    · simp
  unfold processClientHeader
  simp only [Fragment.header, List.getD_cons_succ, List.getD_cons_zero, if_neg hmask, hlen,
    if_neg (not_le.2 hlt), hwide]
  cases hf : f.wide
  · simp only [Client.opcode, if_true, hopcode, afterHeader, hf, Fragment.len0]
    cases first <;> rfl
  · simp only [Client.opcode, Bool.true_eq_false, if_false, hopcode, afterHeader, hf]
    cases first <;> rfl

/-! ## Reading from the socket -/

/-- A socket that works. -/
abbrev Socket.open (avail : Bytes) : Socket := ⟨avail, false⟩

/-- Too few bytes are left alone. -/
theorem readAtLeast_short {avail : Bytes} {n : ℕ} (h : avail.length < n) :
    readAtLeast (.open avail) n = some ([], .open avail) := by
  rw [readAtLeast, if_neg Bool.false_ne_true, if_pos h]

theorem readAtLeast_append (front avail : Bytes) :
    readAtLeast (.open (front ++ avail)) front.length = some (front, .open avail) := by
  rw [readAtLeast, if_neg Bool.false_ne_true, if_neg (by simp), List.take_left, List.drop_left]

/-- Enough bytes begin with the front of the stream. -/
theorem front_of_append {avail future front rest : Bytes} (h : avail ++ future = front ++ rest)
    (hn : front.length ≤ avail.length) : ∃ avail', avail = front ++ avail' ∧
      avail' ++ future = rest := by
  obtain ⟨avail', rfl⟩ : front <+: avail :=
    List.prefix_of_prefix_length_le (List.prefix_append front rest)
      (h ▸ List.prefix_append avail future) hn
  exact ⟨avail', rfl, List.append_cancel_left (by rw [← h, List.append_assoc])⟩

/-! ## Places in a message -/

/-- The place of a client in a message with the payload `whole`; `left` are the bytes of the message
it has not read. -/
inductive Within (client : Client) : (left whole : Bytes) → Prop
  /-- Before the first frame. -/
  | start {fs : List Fragment} (hstate : client.state = .initial) (hne : fs ≠ []) :
      Within client (encodeFragments true fs) (dataOf fs)
  /-- Before a continuation frame. -/
  | next {fs : List Fragment} (hstate : client.state = .initial) (hne : fs ≠ []) :
      Within client (encodeFragments false fs) (client.payload ++ dataOf fs)
  /-- Before a 16-bit length. -/
  | length {f : Fragment} {fs : List Fragment} (hstate : client.state = .len1)
      (hfin : client.fin = fs.isEmpty) (hopcode : client.opcode ≠ opcodeClose) :
      Within client (htons f.data.length ++ (f.body ++ encodeFragments false fs))
        (client.payload ++ (f.data ++ dataOf fs))
  /-- Before a masking key. -/
  | mask {f : Fragment} {fs : List Fragment} (hstate : client.state = .mask)
      (hfin : client.fin = fs.isEmpty) (hopcode : client.opcode ≠ opcodeClose)
      (hremaining : client.remainingPayloadLen = f.data.length) :
      Within client (f.body ++ encodeFragments false fs) (client.payload ++ (f.data ++ dataOf fs))
  /-- In the data of a frame, with `rest` still to come. -/
  | data {front rest pad : Bytes} {fs : List Fragment} (hstate : client.state = .data)
      (hfin : client.fin = fs.isEmpty) (hopcode : client.opcode ≠ opcodeClose)
      (hpayload : client.payload = front ++ pad) (hpad : pad.length = rest.length)
      (hremaining : client.remainingPayloadLen = rest.length) (hne : rest ≠ []) :
      Within client (unmask client.maskingKey rest ++ encodeFragments false fs)
        (front ++ (rest ++ dataOf fs))

theorem Within.state_ne {client : Client} {left whole : Bytes} (h : Within client left whole) :
    client.state ≠ .fullyReceived := by
  cases h with
  | start hstate | next hstate | length hstate | mask hstate | data hstate =>
    rw [hstate]
    nofun

/-- After some calls of `process_client` that have read `used` of the bytes left, the client holds
the message, or it is at a later place in it. -/
def Advances (client : Client) (used left whole : Bytes) : Prop :=
  (client.state = .fullyReceived ∧ client.payload = whole ∧ client.opcode ≠ opcodeClose ∧
    left = used) ∨
  ∃ left', Within client left' whole ∧ left = used ++ left'

/-- The end of a frame is the end of the message or the place before the next frame. -/
theorem advances_endOfFrame (client : Client) {fs : List Fragment} {used : Bytes}
    (hfin : client.fin = fs.isEmpty) (hopcode : client.opcode ≠ opcodeClose) :
    Advances (endOfFrame client) used (used ++ encodeFragments false fs)
      (client.payload ++ dataOf fs) := by
  rcases fs with _ | ⟨f, fs⟩
  · have hlast : client.fin = true := hfin
    refine .inl ⟨?_, ?_, hopcode, List.append_nil used⟩
    · rw [endOfFrame, hlast]
      rfl
    · exact (List.append_nil _).symm
  · have hmore : client.fin = false := hfin
    refine .inr ⟨_, .next ?_ (List.cons_ne_nil f fs), rfl⟩
    rw [endOfFrame, hmore]
    rfl

/-! ## The data of a frame -/

section Data

variable {client : Client} {socket socket' : Socket} {chunk : Bytes}

/-- Without a whole chunk the client waits. -/
theorem processData_short
    (h : readAtLeast socket (min client.remainingPayloadLen chunkSize) = some ([], socket')) :
    processData client socket = .running client socket := by
  rw [processData_eq, h]
  rfl

/-- A chunk that fits is written to the payload. -/
theorem processData_chunk {payload : Bytes}
    (h : readAtLeast socket (min client.remainingPayloadLen chunkSize) = some (chunk, socket'))
    (hne : chunk.length ≠ 0)
    (hwrite : writeAt? client.payload
      ((client.payload.length + 2 ^ 16 - client.remainingPayloadLen) % 2 ^ 16)
      (unmask client.maskingKey chunk) = some payload) :
    processData client socket =
      let next := { client with
        payload := payload, remainingPayloadLen := client.remainingPayloadLen - chunk.length }
      if client.remainingPayloadLen - chunk.length = 0 then .running (endOfFrame next) socket'
      else processData next socket' := by
  rw [processData_eq, h]
  simp only [hne, if_false, hwrite]

/-- A chunk of the data goes over the first cells that are still empty. -/
theorem processData_front (avail : Bytes) {front rest pad : Bytes} {k : ℕ}
    (hk : k = min rest.length chunkSize) (hk0 : 0 < k)
    (hmax : front.length + rest.length ≤ maxPayload)
    (hpayload : client.payload = front ++ pad) (hpad : pad.length = rest.length)
    (hremaining : client.remainingPayloadLen = rest.length) :
    processData client (.open (unmask client.maskingKey (rest.take k) ++ avail)) =
      let next := { client with
        payload := front ++ (rest.take k ++ pad.drop k)
        remainingPayloadLen := rest.length - k }
      if rest.length - k = 0 then .running (endOfFrame next) (.open avail)
      else processData next (.open avail) := by
  have hkrest : k ≤ rest.length := hk ▸ min_le_left ..
  have htake : (rest.take k).length = k := List.length_take_of_le hkrest
  have hchunk : (unmask client.maskingKey (rest.take k)).length = k := by
    rw [length_unmask, htake]
  have hread : readAtLeast (.open (unmask client.maskingKey (rest.take k) ++ avail))
      (min client.remainingPayloadLen chunkSize) =
      some (unmask client.maskingKey (rest.take k), .open avail) := by
    rw [hremaining, ← hk]
    have happ := readAtLeast_append (unmask client.maskingKey (rest.take k)) avail
    rwa [hchunk] at happ
  have hidx : (client.payload.length + 2 ^ 16 - client.remainingPayloadLen) % 2 ^ 16 =
      front.length := by
    rw [hpayload, hremaining, List.length_append, hpad]
    rw [maxPayload] at hmax
    omega
  have hpadTake : (rest.take k).length = (pad.take k).length := by
    rw [htake, List.length_take_of_le (by omega)]
  have hwrite : writeAt? client.payload
      ((client.payload.length + 2 ^ 16 - client.remainingPayloadLen) % 2 ^ 16)
      (unmask client.maskingKey (unmask client.maskingKey (rest.take k))) =
      some (front ++ (rest.take k ++ pad.drop k)) := by
    rw [hidx, unmask_unmask, hpayload, ← writeAt?_append front (pad.drop k) hpadTake,
      List.take_append_drop]
  rw [processData_chunk hread (by omega) hwrite, hchunk, hremaining]

end Data

/-- A client that was to read the data `rest` behind `front` has read `used`: it is at the end of
the frame, or it has a shorter rest to read. -/
def ReadsData (client : Client) (front rest : Bytes) (client' : Client) (used : Bytes) : Prop :=
  (used = unmask client.maskingKey rest ∧
    client' = endOfFrame { client with payload := front ++ rest, remainingPayloadLen := 0 }) ∨
  ∃ front' rest' pad', front ++ rest = front' ++ rest' ∧ rest' ≠ [] ∧
    pad'.length = rest'.length ∧
    unmask client.maskingKey rest = used ++ unmask client.maskingKey rest' ∧
    client' = { client with payload := front' ++ pad', remainingPayloadLen := rest'.length }

/-- **The data of a frame arrives in chunks**, however the bytes become available. -/
theorem processData_reads {client : Client} {front rest pad avail future later : Bytes}
    (hpayload : client.payload = front ++ pad) (hpad : pad.length = rest.length)
    (hremaining : client.remainingPayloadLen = rest.length) (hne : rest ≠ [])
    (hmax : front.length + rest.length ≤ maxPayload)
    (hstream : avail ++ future = unmask client.maskingKey rest ++ later) :
    ∃ client' used avail', processData client (.open avail) = .running client' (.open avail') ∧
      avail = used ++ avail' ∧ ReadsData client front rest client' used ∧
      (used = [] → client' = client ∧ avail.length < rest.length) := by
  induction hn : rest.length using Nat.strong_induction_on
    generalizing client front rest pad avail with
  | _ n ih =>
    have hpos : 0 < rest.length := List.length_pos_iff.2 hne
    obtain ⟨k, hk⟩ : ∃ k, k = min rest.length chunkSize := ⟨_, rfl⟩
    by_cases hshort : avail.length < k
    · -- the client waits for a whole chunk
      have hread := readAtLeast_short hshort
      rw [hk, ← hremaining] at hread
      refine ⟨client, [], avail, processData_short hread, rfl, .inr ⟨front, rest, pad, rfl, hne,
        hpad, rfl, ?_⟩, fun _ => ⟨rfl, by omega⟩⟩
      rw [← hpayload, ← hremaining]
    · have hk0 : 0 < k := by
        rw [hk, chunkSize]
        omega
      have hkrest : k ≤ rest.length := hk ▸ min_le_left ..
      have htake : (rest.take k).length = k := List.length_take_of_le hkrest
      have hsplit : unmask client.maskingKey rest = unmask client.maskingKey (rest.take k) ++
          (unmask client.maskingKey rest).drop k := by
        rw [← take_unmask, List.take_append_drop]
      have hchunk : unmask client.maskingKey (rest.take k) ≠ [] := by
        rw [← List.length_pos_iff, length_unmask, htake]
        exact hk0
      have hcut : avail ++ future = unmask client.maskingKey (rest.take k) ++
          ((unmask client.maskingKey rest).drop k ++ later) := by
        rw [hstream, ← List.append_assoc, ← hsplit]
      obtain ⟨avail', rfl, hstream'⟩ := front_of_append hcut (by rw [length_unmask, htake]; omega)
      have hdata := processData_front avail' hk hk0 hmax hpayload hpad hremaining
      by_cases hlast : rest.length - k = 0
      · -- the frame is complete
        have hall : rest.take k = rest := List.take_of_length_le (by omega)
        rw [if_pos hlast, hlast] at hdata
        rw [hall, List.drop_of_length_le (by omega), List.append_nil] at hdata
        rw [hall] at hchunk ⊢
        exact ⟨_, _, avail', hdata, rfl, .inl ⟨rfl, rfl⟩, fun h => absurd h hchunk⟩
      · -- the next chunk starts at a multiple of 64
        have h64 : k = chunkSize := by omega
        have hdrop : (unmask client.maskingKey rest).drop k =
            unmask client.maskingKey (rest.drop k) :=
          drop_unmask _ _ (h64 ▸ ⟨16, rfl⟩)
        rw [if_neg hlast] at hdata
        have hlen : (rest.drop k).length = rest.length - k := List.length_drop
        have hnext : front ++ (rest.take k ++ pad.drop k) = front ++ rest.take k ++ pad.drop k :=
          (List.append_assoc ..).symm
        rw [hnext] at hdata
        rw [hdrop] at hstream'
        have hmax' : (front ++ rest.take k).length + (rest.drop k).length ≤ maxPayload := by
          rw [List.length_append, htake, hlen]
          omega
        obtain ⟨client', used, avail'', hrun, rfl, hreads, -⟩ := @ih (rest.length - k) (by omega)
          { client with
            payload := front ++ rest.take k ++ pad.drop k
            remainingPayloadLen := rest.length - k }
          (front ++ rest.take k) (rest.drop k) (pad.drop k) avail' rfl
          (by rw [hlen, List.length_drop, hpad]) hlen.symm (List.length_pos_iff.1 (by omega)) hmax'
          hstream' hlen
        refine ⟨client', _, avail'', hdata.trans hrun, (List.append_assoc ..).symm, ?_,
          fun h => absurd (List.append_eq_nil_iff.1 h).1 hchunk⟩
        have hwhole : front ++ rest.take k ++ rest.drop k = front ++ rest := by
          rw [List.append_assoc, List.take_append_drop]
        rw [ReadsData, hwhole] at hreads
        rw [ReadsData, hsplit, hdrop]
        rcases hreads with ⟨rfl, rfl⟩ | ⟨front', rest', pad', hfront, hne', hpad', hused, rfl⟩
        · exact .inl ⟨rfl, rfl⟩
        · have hlater : unmask client.maskingKey (rest.drop k) =
              used ++ unmask client.maskingKey rest' := hused
          refine .inr ⟨front', rest', pad', hfront, hne', hpad', ?_, rfl⟩
          rw [hlater, List.append_assoc]

/-- The data of a fragment of a message. -/
theorem processData_within {client : Client} {front rest pad avail future later : Bytes}
    {fs : List Fragment}
    (hfin : client.fin = fs.isEmpty) (hopcode : client.opcode ≠ opcodeClose)
    (hpayload : client.payload = front ++ pad) (hpad : pad.length = rest.length)
    (hremaining : client.remainingPayloadLen = rest.length) (hne : rest ≠ [])
    (hstate : client.state = .data)
    (hsize : (front ++ (rest ++ dataOf fs)).length ≤ maxPayload)
    (hstream : avail ++ future =
      unmask client.maskingKey rest ++ encodeFragments false fs ++ later) :
    ∃ client' used avail', processData client (.open avail) = .running client' (.open avail') ∧
      avail = used ++ avail' ∧ client'.fd = client.fd ∧
      Advances client' used (unmask client.maskingKey rest ++ encodeFragments false fs)
        (front ++ (rest ++ dataOf fs)) ∧
      (used = [] → client' = client ∧ avail.length < rest.length) := by
  have hmax : front.length + rest.length ≤ maxPayload := by
    simp only [List.length_append] at hsize
    omega
  rw [List.append_assoc] at hstream
  obtain ⟨client', used, avail', hrun, havail, hreads, hwait⟩ :=
    processData_reads hpayload hpad hremaining hne hmax hstream
  rcases hreads with ⟨rfl, rfl⟩ | ⟨front', rest', pad', hfront, hne', hpad', hused, rfl⟩
  · refine ⟨_, _, avail', hrun, havail, rfl, ?_, hwait⟩
    rw [← List.append_assoc front]
    exact advances_endOfFrame _ hfin hopcode
  · refine ⟨_, used, avail', hrun, havail, rfl,
      .inr ⟨unmask client.maskingKey rest' ++ encodeFragments false fs, ?_, ?_⟩, hwait⟩
    · rw [← List.append_assoc front, hfront, List.append_assoc]
      exact .data hstate hfin hopcode rfl hpad' rfl hne'
    · rw [hused, List.append_assoc]

/-! ## A turn of a client -/

section Turn

variable {client : Client} {avail future later left whole : Bytes}

/-- The result of a turn: the client has read `used`, and if this is nothing it is as it was and the
message is not complete. -/
def TurnEnds (client : Client) (avail left whole : Bytes) : Prop :=
  ∃ client' used avail', processClient client (.open avail) = .running client' (.open avail') ∧
    avail = used ++ avail' ∧ client'.fd = client.fd ∧ Advances client' used left whole ∧
    (used = [] → client' = client ∧ avail.length < left.length)

/-- A turn that reads a part of fixed size if it is there. -/
theorem turnEnds_of_front (front : Bytes) (next : Client) (h : Within client left whole)
    (hstream : avail ++ future = left ++ later) (hne : front ≠ []) (hfront : front <+: left)
    (hwait : avail.length < front.length →
      processClient client (.open avail) = .running client (.open avail))
    (hread : ∀ avail',
      processClient client (.open (front ++ avail')) = .running next (.open avail'))
    (hfd : next.fd = client.fd) (hnext : Advances next front left whole) :
    TurnEnds client avail left whole := by
  obtain ⟨left', rfl⟩ := hfront
  rcases lt_or_ge avail.length front.length with hshort | hlong
  · refine ⟨client, [], avail, hwait hshort, rfl, rfl, .inr ⟨_, h, rfl⟩, fun _ => ⟨rfl, ?_⟩⟩
    rw [List.length_append]
    omega
  · rw [List.append_assoc] at hstream
    obtain ⟨avail', rfl, -⟩ := front_of_append hstream hlong
    exact ⟨next, front, avail', hread avail', rfl, hfd, hnext, fun hused => absurd hused hne⟩

/-- Before a frame the client reads the header. -/
theorem turnEnds_header {f : Fragment} {fs : List Fragment} {first : Bool}
    (hstate : client.state = .initial)
    (h : Within client (encodeFragments first (f :: fs)) whole)
    (hwhole : whole = (if first then [] else client.payload) ++ dataOf (f :: fs))
    (hstream : avail ++ future = encodeFragments first (f :: fs) ++ later) :
    TurnEnds client avail (encodeFragments first (f :: fs)) whole := by
  have hsplit : encodeFragments first (f :: fs) = f.header first fs.isEmpty ++
      ((if f.wide then htons f.data.length else []) ++ (f.body ++ encodeFragments false fs)) := by
    simp only [encodeFragments, Fragment.encode, List.append_assoc]
  have hfin := afterHeader_fin client f first fs.isEmpty
  have hopcode : (afterHeader client f first fs.isEmpty).opcode ≠ opcodeClose := by
    rw [afterHeader_opcode]
    cases first <;> decide
  refine turnEnds_of_front (f.header first fs.isEmpty) (afterHeader client f first fs.isEmpty) h
    hstream (List.cons_ne_nil _ _) ⟨_, hsplit.symm⟩ (fun hshort => ?_) (fun avail' => ?_) rfl
    (.inr ⟨_, ?_, hsplit⟩)
  · rw [Fragment.length_header] at hshort
    simp only [processClient, hstate, readAtLeast_short hshort, List.length_nil, if_true]
  · have hread := readAtLeast_append (f.header first fs.isEmpty) avail'
    rw [Fragment.length_header] at hread
    simp only [processClient, hstate, hread, Fragment.length_header, processClientHeader_header,
      OfNat.ofNat_ne_zero, if_false]
  · have hpayload : (if first then [] else client.payload) =
        (afterHeader client f first fs.isEmpty).payload := rfl
    rw [hwhole, hpayload, dataOf_cons]
    cases hwide : f.wide
    · refine .mask ?_ hfin hopcode ?_ <;> simp [afterHeader, hwide]
    · refine .length ?_ hfin hopcode
      simp [afterHeader, hwide]

/-- Behind the header of a long frame the client reads its length. -/
theorem turnEnds_length {f : Fragment} {fs : List Fragment} (hstate : client.state = .len1)
    (hfin : client.fin = fs.isEmpty) (hopcode : client.opcode ≠ opcodeClose)
    (hstream : avail ++ future =
      htons f.data.length ++ (f.body ++ encodeFragments false fs) ++ later) :
    TurnEnds client avail (htons f.data.length ++ (f.body ++ encodeFragments false fs))
      (client.payload ++ (f.data ++ dataOf fs)) := by
  refine turnEnds_of_front (htons f.data.length)
    { client with remainingPayloadLen := f.data.length, state := .mask }
    (.length hstate hfin hopcode) hstream (List.cons_ne_nil _ _) (List.prefix_append _ _)
    (fun hshort => ?_) (fun avail' => ?_) rfl (.inr ⟨_, .mask rfl hfin hopcode rfl, rfl⟩)
  · rw [length_htons] at hshort
    simp only [processClient, hstate, readAtLeast_short hshort, List.length_nil, if_true]
  · have hread := readAtLeast_append (htons f.data.length) avail'
    have hntohs : ((htons f.data.length).getD 0 0).toNat * 256 +
        ((htons f.data.length).getD 1 0).toNat = f.data.length := ntohs_htons f.data_length_lt
    rw [length_htons] at hread
    simp only [processClient, hstate, hread, length_htons, OfNat.ofNat_ne_zero, if_false, hntohs]

/-- The client reads the masking key, and makes room for the data if there is any. -/
theorem turnEnds_mask {f : Fragment} {fs : List Fragment} (hstate : client.state = .mask)
    (hfin : client.fin = fs.isEmpty) (hopcode : client.opcode ≠ opcodeClose)
    (hremaining : client.remainingPayloadLen = f.data.length)
    (hsize : (client.payload ++ (f.data ++ dataOf fs)).length ≤ maxPayload)
    (hstream : avail ++ future = f.body ++ encodeFragments false fs ++ later) :
    TurnEnds client avail (f.body ++ encodeFragments false fs)
      (client.payload ++ (f.data ++ dataOf fs)) := by
  have hkey : f.key ≠ [] := List.length_pos_iff.1 (by rw [f.key_length]; omega)
  have hsplit : f.body ++ encodeFragments false fs =
      f.key ++ (f.masked ++ encodeFragments false fs) := List.append_assoc ..
  have hwait (hshort : avail.length < f.key.length) :
      processClient client (.open avail) = .running client (.open avail) := by
    rw [f.key_length] at hshort
    simp only [processClient, hstate, readAtLeast_short hshort, List.length_nil, if_true]
  have hread (avail' : Bytes) := readAtLeast_append f.key avail'
  simp only [f.key_length] at hread
  have h : Within client (f.body ++ encodeFragments false fs)
      (client.payload ++ (f.data ++ dataOf fs)) := .mask hstate hfin hopcode hremaining
  by_cases hempty : f.data = []
  · -- a frame without data ends here
    have h0 : client.remainingPayloadLen = 0 := by rw [hremaining, hempty, List.length_nil]
    refine turnEnds_of_front f.key (endOfFrame { client with maskingKey := f.key }) h hstream hkey
      ⟨_, hsplit.symm⟩ hwait (fun avail' => ?_) rfl ?_
    · simp only [processClient, hstate, hread, f.key_length, OfNat.ofNat_ne_zero, if_false, h0,
        if_true]
    · rw [hsplit, Fragment.masked, hempty]
      exact advances_endOfFrame { client with maskingKey := f.key } hfin hopcode
  · have hpos : f.data.length ≠ 0 := fun h0 => hempty (List.length_eq_zero_iff.1 h0)
    refine turnEnds_of_front f.key { client with
        maskingKey := f.key
        payload := client.payload ++ List.replicate f.data.length 0
        state := .data } h hstream hkey ⟨_, hsplit.symm⟩ hwait (fun avail' => ?_) rfl
      (.inr ⟨_, ?_, hsplit⟩)
    · have hle : ¬maxPayload < client.payload.length + f.data.length := by
        simp only [List.length_append] at hsize
        omega
      simp only [processClient, hstate, hread, f.key_length, OfNat.ofNat_ne_zero, if_false,
        hremaining,
        hpos, hle]
    · exact .data rfl hfin hopcode rfl List.length_replicate hremaining hempty

/-- **A turn of a client that is within a message.** However many bytes of the stream are there, the
client reads some of them, if any are missing from the next part, and moves on in the message. -/
theorem processClient_within (h : Within client left whole) (hsize : whole.length ≤ maxPayload)
    (hstream : avail ++ future = left ++ later) : TurnEnds client avail left whole := by
  cases h with
  | start hstate hne =>
    obtain ⟨f, fs, rfl⟩ := List.exists_cons_of_ne_nil hne
    exact turnEnds_header hstate (.start hstate hne) rfl hstream
  | next hstate hne =>
    obtain ⟨f, fs, rfl⟩ := List.exists_cons_of_ne_nil hne
    exact turnEnds_header hstate (.next hstate hne) rfl hstream
  | length hstate hfin hopcode => exact turnEnds_length hstate hfin hopcode hstream
  | mask hstate hfin hopcode hremaining =>
    exact turnEnds_mask hstate hfin hopcode hremaining hsize hstream
  | @data front rest pad fs hstate hfin hopcode hpayload hpad hremaining hne =>
    obtain ⟨client', used, avail', hrun, havail, hfd, hadv, hwait⟩ :=
      processData_within hfin hopcode hpayload hpad hremaining hne hstate hsize hstream
    refine ⟨client', used, avail', ?_, havail, hfd, hadv, fun hused => ?_⟩
    · rw [processClient, hstate]
      exact hrun
    · obtain ⟨hsame, hlt⟩ := hwait hused
      refine ⟨hsame, ?_⟩
      rw [List.length_append, length_unmask]
      omega

end Turn

end RbProtocol.Ws
