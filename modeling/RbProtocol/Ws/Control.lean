import RbProtocol.Ws.Exact
import RbProtocol.Ws.Frames

/-!
# Control frames

Which payloads `rbjson::parse` is given when a client sends any frames that the standard allows.

* `follows_frames` is what the code does: a frame with another opcode than `WS_OPCODE_CONTINUE`
  drops the payload, and each frame with the FIN flag that is not a CLOSE is given away with what is
  in the payload (`emitted`). This holds of all frames that fit in the payload (`FramesFit`).
* `dataParsed_iff` compares this with the data messages of the stream (`messages`): the two agree on
  all runs if and only if the stream has no PING and no PONG, since these drop the payload and are
  given away too.
-/

namespace RbProtocol.Ws

open Library Machine

/-! ## Streams of frames -/

/-- The frames of a client that wants to know, or tells, that the other side is there. -/
def Frame.IsPing (fr : Frame) : Prop := fr.opcode = opcodePing ∨ fr.opcode = opcodePong

instance (fr : Frame) : Decidable fr.IsPing := inferInstanceAs (Decidable (_ ∨ _))

/-- Frames one behind the other. -/
def encodeFrames (frs : List Frame) : Bytes := frs.flatMap Frame.encode

/-- The frames of a stream that are complete in its first `n` bytes. -/
def completedFrames (frs : List Frame) (n : ℕ) : List Frame := completeUnits Frame.encode frs n

/-- The data messages of a stream that are complete; `acc` is the data of the message in
progress. -/
def messages : Bytes → List Frame → List Bytes
  | _, [] => []
  | acc, fr :: frs =>
    if fr.IsPing ∨ fr.opcode = opcodeClose then messages acc frs
    else if fr.fin then (acc ++ fr.data) :: messages [] frs
    else messages (acc ++ fr.data) frs

/-- The frames that a client may send, when `acc` is the data of the message in progress, if there
is one: control frames anywhere, and nothing behind a CLOSE. -/
inductive Legal : (acc : Option Bytes) → List Frame → Prop
  | nil {acc : Option Bytes} : Legal acc []
  | ping {acc : Option Bytes} {fr : Frame} {frs : List Frame} (hopcode : fr.IsPing)
      (hfin : fr.fin = true) (hlen : fr.data.length ≤ 125) (h : Legal acc frs) :
      Legal acc (fr :: frs)
  | close {acc : Option Bytes} {fr : Frame} (hopcode : fr.opcode = opcodeClose)
      (hfin : fr.fin = true) (hlen : fr.data.length ≤ 125) : Legal acc [fr]
  | first {fr : Frame} {frs : List Frame}
      (hopcode : fr.opcode = opcodeText ∨ fr.opcode = opcodeBinary)
      (hlen : fr.data.length ≤ maxPayload) (h : Legal (if fr.fin then none else some fr.data) frs) :
      Legal none (fr :: frs)
  | next {acc : Bytes} {fr : Frame} {frs : List Frame} (hopcode : fr.opcode = opcodeContinue)
      (hlen : (acc ++ fr.data).length ≤ maxPayload)
      (h : Legal (if fr.fin then none else some (acc ++ fr.data)) frs) :
      Legal (some acc) (fr :: frs)

@[simp] theorem encodeFrames_cons (fr : Frame) (frs : List Frame) :
    encodeFrames (fr :: frs) = fr.encode ++ encodeFrames frs := rfl

@[simp] theorem encodeFrames_append (frs₁ frs₂ : List Frame) :
    encodeFrames (frs₁ ++ frs₂) = encodeFrames frs₁ ++ encodeFrames frs₂ := List.flatMap_append

theorem completedFrames_append (frs₁ frs₂ : List Frame) (n : ℕ) :
    completedFrames (frs₁ ++ frs₂) ((encodeFrames frs₁).length + n) =
      frs₁ ++ completedFrames frs₂ n :=
  completeUnits_append Frame.encode frs₁ frs₂ n

theorem completedFrames_zero (frs : List Frame) : completedFrames frs 0 = [] :=
  completeUnits_zero Frame.encode (fun _ => List.cons_ne_nil _ _) frs

theorem completedFrames_initial (frs : List Frame) (n : ℕ) : completedFrames frs n <+: frs :=
  completeUnits_initial Frame.encode frs n

theorem completedFrames_of_le {frs : List Frame} {n : ℕ} (h : (encodeFrames frs).length ≤ n) :
    completedFrames frs n = frs :=
  completeUnits_of_le Frame.encode h

theorem Legal.of_append {acc : Option Bytes} {frs more : List Frame} (h : Legal acc (frs ++ more)) :
    Legal acc frs := by
  induction frs generalizing acc with
  | nil => exact .nil
  | cons fr frs ih =>
    rw [List.cons_append] at h
    generalize hall : frs ++ more = rest at h
    cases h with
    | ping hopcode hfin hlen h => exact .ping hopcode hfin hlen (ih (hall ▸ h))
    | close hopcode hfin hlen =>
      obtain ⟨rfl, -⟩ := List.append_eq_nil_iff.1 hall
      exact .close hopcode hfin hlen
    | first hopcode hlen h => exact .first hopcode hlen (ih (hall ▸ h))
    | next hopcode hlen h => exact .next hopcode hlen (ih (hall ▸ h))

/-- A PING or PONG is a whole message. -/
theorem Legal.of_ping {acc : Option Bytes} {frs : List Frame} {fr : Frame} (h : Legal acc frs)
    (hmem : fr ∈ frs) (hping : fr.IsPing) : fr.fin = true ∧ fr.data.length ≤ 125 := by
  have hcontrol : fr.opcode ≠ opcodeText ∧ fr.opcode ≠ opcodeBinary ∧
      fr.opcode ≠ opcodeContinue := by
    rcases hping with hopcode | hopcode <;> rw [hopcode] <;> decide
  induction h with
  | nil => cases hmem
  | ping _ hfin hlen _ ih =>
    rcases List.mem_cons.1 hmem with rfl | hmem
    · exact ⟨hfin, hlen⟩
    · exact ih hmem
  | close _ hfin hlen =>
    obtain rfl := List.mem_singleton.1 hmem
    exact ⟨hfin, hlen⟩
  | first hopcode _ _ ih =>
    rcases List.mem_cons.1 hmem with rfl | hmem
    · exact (hopcode.elim hcontrol.1 hcontrol.2.1).elim
    · exact ih hmem
  | next hopcode _ _ ih =>
    rcases List.mem_cons.1 hmem with rfl | hmem
    · exact (hcontrol.2.2 hopcode).elim
    · exact ih hmem

/-- A PING or PONG adds no message. -/
theorem messages_concat_ping {fr : Frame} (hping : fr.IsPing) (acc : Bytes) (frs : List Frame) :
    messages acc (frs ++ [fr]) = messages acc frs := by
  induction frs generalizing acc with
  | nil => exact if_pos (.inl hping)
  | cons x frs ih => rw [List.cons_append, messages, messages, ih, ih, ih]

/-! ## What the code makes of a stream -/

/-- The payload of a client after a frame. -/
def Frame.after (fr : Frame) (payload : Bytes) : Bytes := fr.start payload ++ fr.data

/-- The payload of a client after some frames. -/
def payloadAfter (payload : Bytes) (frs : List Frame) : Bytes :=
  frs.foldl (fun payload fr => fr.after payload) payload

/-- What the code gives to `rbjson::parse`. -/
def emitted : (payload : Bytes) → List Frame → List Bytes
  | _, [] => []
  | payload, fr :: frs =>
    if fr.fin ∧ fr.opcode ≠ opcodeClose then fr.after payload :: emitted (fr.after payload) frs
    else emitted (fr.after payload) frs

/-- The payload stays within its bound, and there is nothing behind a CLOSE. -/
def FramesFit : (payload : Bytes) → List Frame → Prop
  | _, [] => True
  | payload, fr :: frs => (fr.after payload).length ≤ maxPayload ∧
      (fr.opcode = opcodeClose → fr.fin = true ∧ frs = []) ∧ FramesFit (fr.after payload) frs

theorem framesFit_nil (payload : Bytes) : FramesFit payload [] := trivial

theorem payloadAfter_append (payload : Bytes) (frs₁ frs₂ : List Frame) :
    payloadAfter payload (frs₁ ++ frs₂) = payloadAfter (payloadAfter payload frs₁) frs₂ :=
  List.foldl_append

theorem emitted_append (payload : Bytes) (frs₁ frs₂ : List Frame) :
    emitted payload (frs₁ ++ frs₂) =
      emitted payload frs₁ ++ emitted (payloadAfter payload frs₁) frs₂ := by
  induction frs₁ generalizing payload with
  | nil => rfl
  | cons fr frs₁ ih =>
    have hafter : payloadAfter payload (fr :: frs₁) = payloadAfter (fr.after payload) frs₁ := rfl
    rw [List.cons_append, emitted, emitted, ih, hafter]
    split_ifs <;> rfl

theorem framesFit_append {payload : Bytes} {frs₁ frs₂ : List Frame}
    (h : FramesFit payload (frs₁ ++ frs₂)) :
    FramesFit (payloadAfter payload frs₁) frs₂ := by
  induction frs₁ generalizing payload with
  | nil => exact h
  | cons fr frs₁ ih => exact ih h.2.2

section Expects

variable {client : Client} {payload part left avail future : Bytes} {frs : List Frame}

/-- The client has read `part` of the first of the frames, and `left` is the rest of it; the payload
was `payload` before it. -/
inductive ExpectsFrame (client : Client) (payload : Bytes) :
    (part left : Bytes) → List Frame → Prop
  | idle (hstate : client.state = .initial) (hpayload : client.payload = payload) :
      ExpectsFrame client payload [] [] []
  | within {fr : Frame} {frs : List Frame} {part left : Bytes}
      (h : InFrame fr (fr.start payload) client left) (hsplit : fr.encode = part ++ left) :
      ExpectsFrame client payload part left (fr :: frs)

/-- Before a frame. -/
theorem expectsFrame_initial (hstate : client.state = .initial)
    (hpayload : client.payload = payload) (frs : List Frame) :
    ∃ left, ExpectsFrame client payload [] left frs := by
  cases frs with
  | nil => exact ⟨[], .idle hstate hpayload⟩
  | cons fr frs => exact ⟨fr.encode, .within (.header hstate (by rw [hpayload])) rfl⟩

theorem ExpectsFrame.encodeFrames_eq (h : ExpectsFrame client payload part left frs) :
    encodeFrames frs = part ++ (left ++ encodeFrames frs.tail) := by
  cases h with
  | idle => rfl
  | within h hsplit => rw [encodeFrames_cons, hsplit, List.append_assoc, List.tail_cons]

/-- The first frame is not there yet. -/
theorem ExpectsFrame.completedFrames_eq_nil (h : ExpectsFrame client payload part left frs)
    (hshort : frs = [] ∨ avail.length < left.length) :
    completedFrames frs (part.length + avail.length) = [] := by
  cases h with
  | idle => rfl
  | within h hsplit =>
    have hlt : avail.length < left.length := hshort.resolve_left (List.cons_ne_nil _ _)
    rw [completedFrames, completeUnits, hsplit, List.length_append, if_neg (by omega)]

/-- A turn of a client that expects frames: it reads `used` and goes on in the frame, or it has the
frame. It reads something if the frame is there. -/
theorem ExpectsFrame.turn (h : ExpectsFrame client payload part left frs)
    (hfits : FramesFit payload frs)
    (hstream : avail ++ future = left ++ encodeFrames frs.tail) :
    ∃ client' used avail', processClient client (.open avail) = .running client' (.open avail') ∧
      avail = used ++ avail' ∧ client'.fd = client.fd ∧
      (used = [] → frs = [] ∨ avail.length < left.length) ∧
      ((client'.state ≠ .fullyReceived ∧
          ∃ left', ExpectsFrame client' payload (part ++ used) left' frs) ∨
        ∃ fr frs', frs = fr :: frs' ∧ fr.encode = part ++ used ∧
          AtEnd fr (fr.start payload) client') := by
  cases h with
  | idle hstate hpayload =>
    obtain ⟨rfl, rfl⟩ := List.append_eq_nil_iff.1 hstream
    refine ⟨client, [], [], ?_, rfl, rfl, fun _ => .inl rfl, .inl ⟨?_, [], .idle hstate hpayload⟩⟩
    · have hread : readAtLeast (.open []) 2 = some ([], .open []) := readAtLeast_short (by decide)
      simp only [processClient, hstate, hread, List.length_nil, if_true]
    · simp [hstate]
  | @within fr frs part left h hsplit =>
    obtain ⟨client', used, avail', hrun, havail, hfd, hwait, hadv⟩ :=
      processClient_frame h hfits.1 hstream
    refine ⟨client', used, avail', hrun, havail, hfd, fun hused => .inr (hwait hused).2, ?_⟩
    rcases hadv with ⟨rfl, hend⟩ | ⟨left', rfl, hleft'⟩
    · exact .inr ⟨fr, frs, rfl, hsplit, hend⟩
    · refine .inl ⟨hleft'.state_ne, left', .within hleft' ?_⟩
      rw [hsplit, List.append_assoc]

end Expects

theorem AtEnd.opcode {fr : Frame} {payload : Bytes} {client : Client}
    (h : AtEnd fr payload client) : client.opcode = fr.opcode := by
  rw [Client.opcode, h.flags, fr.flags_spec.2]

/-! ## A run -/

/-- Of the frames `frs` that come on the connection `f`, and of which `got` has arrived, those that
are done have been dealt with and the client has read a part of the next one; or the last one was a
CLOSE and the client is gone. -/
inductive FrameTracks (f : ℤ) (frs : List Frame) (b : Backend) (got : Bytes) :
    (payloads : List Bytes) → Prop
  | running {done rest : List Frame} {client : Client} {part left avail : Bytes}
      (hfrs : frs = done ++ rest) (hserves : Serves b f client avail)
      (hexpects : ExpectsFrame client (payloadAfter [] done) part left rest)
      (hgot : got = encodeFrames done ++ (part ++ avail)) :
      FrameTracks f frs b got (emitted [] done)
  | closed (hgone : Gone b f) (hgot : encodeFrames frs <+: got) :
      FrameTracks f frs b got (emitted [] frs)

/-- An event on a connection without a client. -/
theorem Gone.next {b : Backend} {f : ℤ} (h : Gone b f) {e : WsEvent} (he : Keeps f e)
    (hcall : e ≠ .recvIter) : Gone (backend b e).1 f := by
  intro x hx
  refine ⟨?_, waiting_backend (fun client hclient => (h client hclient).2) e x hx⟩
  cases e with
  | accept | arrive | fail => exact (h x hx).1
  | addClient fd =>
    rcases List.mem_append.1 hx with hx | hx
    · exact (h x hx).1
    · obtain rfl := List.mem_singleton.1 hx
      exact he
  | closeClient fd => exact (h x (List.eraseP_sublist.subset hx)).1
  | recvIter => exact absurd rfl hcall

/-- A call of `recv_iter` parses nothing for a connection without a client. -/
theorem Gone.recvIter {b : Backend} {f : ℤ} (h : Gone b f) :
    Gone (recvIter b).1 f ∧ parsed f (recvIter b).2 = [] := by
  have hwaiting : ∀ client ∈ b.clients, client.Waiting := fun client hclient => (h client hclient).2
  have hspec := recvLoop_spec b.sockets hwaiting
  have hloop : ∀ x ∈ (recvLoop b.sockets b.clients).clients, x.fd ≠ f := by
    intro x hx
    obtain ⟨y, hy, hfd⟩ := List.mem_map.1 (hspec.fds.subset (List.mem_map_of_mem hx))
    exact hfd ▸ (h y hy).1
  have hnone : parsed f (recvLoop b.sockets b.clients).effects = [] := by
    refine parsed_eq_nil fun payload hmem => ?_
    obtain ⟨fd, -, heq⟩ := hspec.effects _ hmem
    cases heq
  constructor
  · intro x hx
    exact ⟨hloop x ((recvIter_spec b).1.subset hx), waiting_backend hwaiting .recvIter x hx⟩
  · cases hend : (recvLoop b.sockets b.clients).full with
    | none => rwa [recvIter_none hend]
    | some x =>
      have hx := hloop x (hspec.full x hend).1
      rw [recvIter_some hend, parsed_append, hnone, processClientFullyReceivedLocked]
      split_ifs
      · exact parsed_closeClientLockedGracefully _ f x.fd
      · simp [parsed, hx]

section FrameTracks

variable {f : ℤ} {frs : List Frame} {b : Backend} {got : Bytes} {payloads : List Bytes}

theorem FrameTracks.payloads_prefix (h : FrameTracks f frs b got payloads) :
    payloads <+: emitted [] (completedFrames frs got.length) := by
  cases h with
  | @running done rest client part left avail hfrs hserves hexpects hgot =>
    rw [hfrs, hgot, List.length_append, completedFrames_append, emitted_append]
    exact List.prefix_append _ _
  | closed hgone hgot => rw [completedFrames_of_le hgot.length_le]

/-- The frame in front is done. -/
theorem emitted_concat (payload : Bytes) (done : List Frame) (fr : Frame) :
    emitted payload (done ++ [fr]) = emitted payload done ++
      if fr.fin ∧ fr.opcode ≠ opcodeClose then [fr.after (payloadAfter payload done)] else [] := by
  rw [emitted_append]
  rfl

/-- A client behind a frame that is done. -/
theorem FrameTracks.frame_done {done frs' : List Frame} {fr : Frame} {client : Client}
    {avail : Bytes} (hserves : Serves b f client avail) (hstate : client.state = .initial)
    (hpayload : client.payload = fr.after (payloadAfter [] done))
    (hgot : got = encodeFrames (done ++ [fr]) ++ avail) :
    FrameTracks f (done ++ fr :: frs') b got (emitted [] (done ++ [fr])) := by
  have hafter : payloadAfter [] (done ++ [fr]) = fr.after (payloadAfter [] done) :=
    payloadAfter_append [] done [fr]
  obtain ⟨left, hexpects⟩ := expectsFrame_initial hstate (hpayload.trans hafter.symm) frs'
  exact .running (List.append_cons done fr frs') hserves hexpects hgot

/-- A call of `recv_iter` keeps the frames apart, and takes bytes unless all is settled. -/
theorem FrameTracks.recvIter (h : FrameTracks f frs b got payloads) (hfits : FramesFit [] frs)
    (hstream : got <+: encodeFrames frs) :
    FrameTracks f frs (recvIter b).1 got (payloads ++ parsed f (recvIter b).2) ∧
      (payloads = emitted [] (completedFrames frs got.length) ∨
        (recvIter b).1.waitingBytes < b.waitingBytes) := by
  cases h with
  | closed hgone hgot =>
    obtain ⟨hgone', hparsed⟩ := hgone.recvIter
    rw [hparsed, List.append_nil, completedFrames_of_le hgot.length_le]
    exact ⟨.closed hgone' hgot, .inl rfl⟩
  | @running done rest client part left avail hfrs hserves hexpects hgot =>
    subst hfrs hgot
    obtain ⟨future, hfuture⟩ := hstream
    have hleft : avail ++ future = left ++ encodeFrames rest.tail := by
      rw [encodeFrames_append, hexpects.encodeFrames_eq] at hfuture
      simpa using hfuture
    have hrest := framesFit_append hfits
    obtain ⟨client', used, avail', hrun, havail, hfd, hused, hcases⟩ := hexpects.turn hrest hleft
    have hfdClient : client'.fd = f := by
      obtain ⟨-, -, -, -, -, hclient, -, -⟩ := hserves
      exact hfd.trans hclient
    -- either the next frame is not there, or the turn of the client takes bytes
    have hprogress : emitted [] done = emitted []
        (completedFrames (done ++ rest) (encodeFrames done ++ (part ++ avail)).length) ∨
        avail'.length < avail.length := by
      rcases List.eq_nil_or_concat' used with rfl | ⟨front, byte, rfl⟩
      · refine .inl ?_
        rw [List.length_append, completedFrames_append, List.length_append,
          hexpects.completedFrames_eq_nil (hused rfl), List.append_nil]
      · refine .inr ?_
        rw [havail, List.length_append, List.length_append, List.length_singleton]
        omega
    have hdone {fr : Frame} (hsplit : fr.encode = part ++ used) :
        encodeFrames done ++ (part ++ avail) = encodeFrames (done ++ [fr]) ++ avail' := by
      rw [encodeFrames_append, encodeFrames_cons, hsplit, havail]
      simp [encodeFrames]
    have hcalled := recvIter_serves hserves hrun hfdClient
    generalize hparsed : parsed f (Ws.recvIter b).2 = more at hcalled
    cases hcalled with
    | other hserves' hw =>
      rw [List.append_nil]
      exact ⟨.running rfl hserves' hexpects rfl, .inr hw⟩
    | turn hstate hserves' hw =>
      rw [List.append_nil]
      refine ⟨?_, hprogress.imp_right hw⟩
      rcases hcases with ⟨-, left', hexpects'⟩ | ⟨fr, frs', rfl, hsplit, hend⟩
      · refine .running rfl hserves' hexpects' ?_
        rw [havail, List.append_assoc]
      · -- the end of a frame without the FIN flag
        have hend' := hend.state
        split_ifs at hend' with hfin
        · exact absurd hend' hstate
        have hnone : emitted [] done = emitted [] (done ++ [fr]) := by
          rw [emitted_concat, if_neg fun h => hfin h.1, List.append_nil]
        rw [hnone]
        exact .frame_done hserves' hend' hend.payload (hdone hsplit)
    | message hstate hopcode hserves' hw =>
      refine ⟨?_, hprogress.imp_right hw⟩
      rcases hcases with ⟨hne, -⟩ | ⟨fr, frs', rfl, hsplit, hend⟩
      · exact absurd hstate hne
      have hend' := hend.state
      split_ifs at hend' with hfin
      · have hone : emitted [] done ++ [client'.payload] = emitted [] (done ++ [fr]) := by
          rw [emitted_concat, if_pos ⟨hfin, hend.opcode ▸ hopcode⟩, hend.payload]
          rfl
        rw [hone]
        exact .frame_done hserves' rfl hend.payload (hdone hsplit)
      · rw [hstate] at hend'
        cases hend'
    | closed hstate hopcode hgone =>
      rcases hcases with ⟨hne, -⟩ | ⟨fr, frs', rfl, hsplit, hend⟩
      · exact absurd hstate hne
      rw [hend.opcode] at hopcode
      obtain ⟨hfin, rfl⟩ := hrest.2.1 hopcode
      have hall : emitted [] done = emitted [] (done ++ [fr]) := by
        rw [emitted_concat, if_neg fun h => h.2 hopcode, List.append_nil]
      rw [List.append_nil]
      refine ⟨?_, ?_⟩
      · rw [hall]
        exact .closed hgone ⟨avail', (hdone hsplit).symm⟩
      · refine .inl ?_
        rw [hdone hsplit, completedFrames_of_le (by simp), hall]

/-- **The frames can be followed**, whichever they are, if they fit in the payload. -/
theorem follows_frames (f : ℤ) (hfits : FramesFit [] frs) :
    Follows f (encodeFrames frs) (fun got => emitted [] (completedFrames frs got.length))
      (FrameTracks f frs) where
  payloads_prefix h := h.payloads_prefix
  next h he hcall := by
    cases h with
    | running hfrs hserves hexpects hgot =>
      refine .running hfrs (hserves.next he hcall) hexpects ?_
      rw [hgot]
      simp only [List.append_assoc]
    | closed hgone hgot => exact .closed (hgone.next he hcall) (hgot.trans (List.prefix_append _ _))
  recvIter h hstream := h.recvIter hfits hstream

/-- A new connection: nothing has been read. -/
theorem frameTracks_addClient (frs : List Frame)
    (hserves : Serves b f (Client.new f) got) : FrameTracks f frs b got [] := by
  have hstate : (Client.new f).state = .initial := rfl
  obtain ⟨left, hexpects⟩ := expectsFrame_initial hstate rfl frs
  have hnone : FrameTracks f frs b got (emitted [] []) :=
    .running (List.nil_append frs).symm hserves hexpects rfl
  exact hnone

end FrameTracks

/-! ## The data messages -/

theorem Frame.after_of_ne {fr : Frame} (h : fr.opcode ≠ opcodeContinue) (payload : Bytes) :
    fr.after payload = fr.data := by
  rw [Frame.after, Frame.start, if_neg h, List.nil_append]

theorem Frame.after_of_eq {fr : Frame} (h : fr.opcode = opcodeContinue) (payload : Bytes) :
    fr.after payload = payload ++ fr.data := by
  rw [Frame.after, Frame.start, if_pos h]

/-- Without PING and PONG the code gives away the data messages. -/
theorem emitted_eq_messages {acc : Option Bytes} {frs : List Frame} (h : Legal acc frs)
    (hping : ∀ fr ∈ frs, ¬fr.IsPing) {payload : Bytes} (hacc : acc = none ∨ acc = some payload) :
    emitted payload frs = messages (acc.getD []) frs := by
  induction h generalizing payload with
  | nil => rfl
  | ping hopcode => exact absurd hopcode (hping _ List.mem_cons_self)
  | close hopcode =>
    rw [emitted, messages, if_neg fun h => h.2 hopcode, if_pos (.inr hopcode)]
    rfl
  | @first fr frs hopcode hlen h ih =>
    obtain ⟨hnot, hping⟩ := List.forall_mem_cons.1 hping
    have hdata : fr.opcode ≠ opcodeContinue ∧ fr.opcode ≠ opcodeClose := by
      rcases hopcode with hopcode | hopcode <;> rw [hopcode] <;> decide
    rw [emitted, messages, if_neg (not_or_intro hnot hdata.2), Frame.after_of_ne hdata.1]
    cases hfin : fr.fin
    · rw [hfin] at ih
      simpa [hdata.2] using ih hping (.inr rfl)
    · rw [hfin] at ih
      simpa [hdata.2] using ih hping (.inl rfl)
  | @next acc fr frs hopcode hlen h ih =>
    obtain ⟨hnot, hping⟩ := List.forall_mem_cons.1 hping
    obtain rfl : acc = payload := by simpa using hacc
    have hdata : fr.opcode ≠ opcodeClose := by
      rw [hopcode]
      decide
    rw [emitted, messages, if_neg (not_or_intro hnot hdata), Frame.after_of_eq hopcode]
    cases hfin : fr.fin
    · rw [hfin] at ih
      simpa [hdata] using ih hping (.inr rfl)
    · rw [hfin] at ih
      simpa [hdata] using ih hping (.inl rfl)

/-- Frames without PING and PONG fit in the payload, before a tail that does. -/
theorem framesFit_of_legal {acc : Option Bytes} {frs tail : List Frame}
    (h : Legal acc (frs ++ tail)) (hping : ∀ fr ∈ frs, ¬fr.IsPing)
    (htail : ∀ payload, FramesFit payload tail) {payload : Bytes}
    (hacc : acc = none ∨ acc = some payload) : FramesFit payload (frs ++ tail) := by
  induction frs generalizing acc payload with
  | nil => exact htail payload
  | cons fr frs ih =>
    obtain ⟨hnot, hping⟩ := List.forall_mem_cons.1 hping
    rw [List.cons_append] at h ⊢
    generalize hall : frs ++ tail = rest at h ih ⊢
    have hfit {acc' : Bytes} (hlen : (fr.after payload).length ≤ maxPayload)
        (hopcode : fr.opcode ≠ opcodeClose) (hdata : acc' = fr.after payload)
        (h : Legal (if fr.fin then none else some acc') rest) :
        FramesFit payload (fr :: rest) := by
      refine ⟨hlen, fun hclose => absurd hclose hopcode, ih h hping ?_⟩
      split_ifs
      · exact .inl rfl
      · exact .inr (congrArg some hdata)
    cases h with
    | ping hopcode => exact absurd hopcode hnot
    | close hopcode hfin hlen =>
      have hne : fr.opcode ≠ opcodeContinue := by
        rw [hopcode]
        decide
      refine ⟨?_, fun _ => ⟨hfin, rfl⟩, trivial⟩
      rw [Frame.after_of_ne hne]
      exact hlen.trans (by decide)
    | first hopcode hlen h =>
      have hdata : fr.opcode ≠ opcodeContinue ∧ fr.opcode ≠ opcodeClose := by
        rcases hopcode with hopcode | hopcode <;> rw [hopcode] <;> decide
      have hafter := Frame.after_of_ne hdata.1 payload
      exact hfit (by rwa [hafter]) hdata.2 hafter.symm h
    | @next acc' _ _ hopcode hlen h =>
      obtain rfl : acc' = payload := by simpa using hacc
      have hdata : fr.opcode ≠ opcodeClose := by
        rw [hopcode]
        decide
      have hafter := Frame.after_of_eq hopcode acc'
      exact hfit (by rwa [hafter]) hdata hafter.symm h

/-- A PING or PONG fits with any payload, and is given away. -/
theorem framesFit_ping {fr : Frame} (hping : fr.IsPing) (hlen : fr.data.length ≤ 125)
    (payload : Bytes) : FramesFit payload [fr] := by
  have hdata : fr.opcode ≠ opcodeContinue ∧ fr.opcode ≠ opcodeClose := by
    rcases hping with hopcode | hopcode <;> rw [hopcode] <;> decide
  refine ⟨?_, fun hclose => absurd hclose hdata.2, trivial⟩
  rw [Frame.after_of_ne hdata.1]
  exact hlen.trans (by decide)

/-- The first PING or PONG of a stream. -/
theorem exists_first_ping {frs : List Frame} (h : ¬∀ fr ∈ frs, ¬fr.IsPing) :
    ∃ pre fr post, frs = pre ++ fr :: post ∧ fr.IsPing ∧ ∀ x ∈ pre, ¬x.IsPing := by
  push Not at h
  obtain ⟨x, hx, hping⟩ := h
  have hsome : (frs.find? fun fr => decide fr.IsPing).isSome :=
    List.find?_isSome.2 ⟨x, hx, decide_eq_true hping⟩
  obtain ⟨fr, hfind⟩ := Option.isSome_iff_exists.1 hsome
  obtain ⟨hfr, pre, post, rfl, hpre⟩ := List.find?_eq_some_iff_append.1 hfind
  exact ⟨pre, fr, post, rfl, of_decide_eq_true hfr, fun y hy => by simpa using hpre y hy⟩

/-- **What is parsed on a new connection**, when the frames fit. -/
theorem frames_exact (before after : List WsEvent) (f : ℤ) {frs : List Frame}
    (hfits : FramesFit [] frs)
    (hnew : ∀ client ∈ (final backend .start before).clients, client.fd ≠ f)
    (hopen : ((final backend .start before).sockets f).failed = false)
    (hafter : ∀ e ∈ after, Keeps f e)
    (hstream : ((final backend .start before).sockets f).avail ++ arrived f after <+:
      encodeFrames frs) :
    let b := final backend .start before
    let expected := emitted [] (completedFrames frs ((b.sockets f).avail ++ arrived f after).length)
    parsed f (outputs backend (trace backend b (.addClient f :: after))) <+: expected ∧
      ∀ k, (final backend b (.addClient f :: after)).waitingBytes ≤ k →
        parsed f (outputs backend
          (trace backend b (.addClient f :: after ++ List.replicate k .recvIter))) = expected := by
  have hserves := serves_addClient (waiting_final before) hnew hopen
  exact (follows_frames f hfits).connection after (frameTracks_addClient frs hserves) hafter hstream

/-- On a new connection, however the bytes of the frames arrive, `rbjson::parse` is given an initial
part of the data messages that are complete, and all of them when `recv_iter` is called as often as
there are bytes that wait. -/
def DataParsed (frs : List Frame) : Prop :=
  ∀ (before after : List WsEvent) (f : ℤ),
    let b := final backend .start before
    let stream := (b.sockets f).avail ++ arrived f after
    let expected := messages [] (completedFrames frs stream.length)
    (∀ client ∈ b.clients, client.fd ≠ f) → (b.sockets f).failed = false →
    (∀ e ∈ after, Keeps f e) → stream <+: encodeFrames frs →
      parsed f (outputs backend (trace backend b (.addClient f :: after))) <+: expected ∧
        ∀ k, (final backend b (.addClient f :: after)).waitingBytes ≤ k →
          parsed f (outputs backend
            (trace backend b (.addClient f :: after ++ List.replicate k .recvIter))) = expected

/-- A PING or PONG is parsed. -/
theorem not_dataParsed {pre post : List Frame} {fr : Frame} (h : Legal none (pre ++ fr :: post))
    (hpre : ∀ x ∈ pre, ¬x.IsPing) (hping : fr.IsPing) : ¬DataParsed (pre ++ fr :: post) := by
  intro hparsed
  obtain ⟨hfin, hlen⟩ := h.of_ping (List.mem_append_right _ List.mem_cons_self) hping
  rw [List.append_cons] at h hparsed
  have hlegal : Legal none (pre ++ [fr]) := h.of_append
  have hfits : FramesFit [] (pre ++ [fr]) :=
    framesFit_of_legal hlegal hpre (framesFit_ping hping hlen) (.inl rfl)
  -- the frames up to this one arrive, and no others
  obtain ⟨bytes, hbytes⟩ : ∃ bytes, bytes = encodeFrames (pre ++ [fr]) := ⟨_, rfl⟩
  have hstream : ((final backend .start []).sockets 4).avail ++ arrived 4 [.arrive 4 bytes] =
      bytes := by
    simp [final, Backend.start, arrived]
  have hnew : ∀ client ∈ (final backend .start []).clients, client.fd ≠ 4 :=
    List.forall_mem_nil _
  have hafter : ∀ e ∈ [WsEvent.arrive 4 bytes], Keeps 4 e := by simp [Keeps]
  have hprefix : bytes <+: encodeFrames (pre ++ [fr] ++ post) := by
    rw [encodeFrames_append, hbytes]
    exact List.prefix_append _ _
  have hclaim := (hparsed [] _ 4 hnew rfl hafter (hstream.symm ▸ hprefix)).2 _ le_rfl
  have hcode := (frames_exact [] _ 4 hfits hnew rfl hafter
    (hstream.symm ▸ hbytes ▸ List.prefix_rfl)).2 _ le_rfl
  rw [hcode, hstream] at hclaim
  have hall := completedFrames_append (pre ++ [fr]) post 0
  rw [completedFrames_zero, List.append_nil, Nat.add_zero, ← hbytes] at hall
  have hdone : completedFrames (pre ++ [fr]) bytes.length = pre ++ [fr] :=
    completedFrames_of_le (hbytes ▸ le_rfl)
  have hopcode : fr.opcode ≠ opcodeClose := by
    rcases hping with hopcode | hopcode <;> rw [hopcode] <;> decide
  have hdata : emitted [] pre = messages [] pre :=
    emitted_eq_messages hlegal.of_append hpre (.inl rfl)
  rw [hall, hdone, messages_concat_ping hping, emitted_concat, if_pos ⟨hfin, hopcode⟩] at hclaim
  rw [hdata] at hclaim
  -- one payload too many
  exact absurd (List.append_right_eq_self.1 hclaim) (List.cons_ne_nil _ _)

/-- **Only data messages are parsed if and only if the client sends no PING and no PONG.** -/
theorem dataParsed_iff (frs : List Frame) (h : Legal none frs) :
    DataParsed frs ↔ ∀ fr ∈ frs, ¬fr.IsPing := by
  constructor
  · intro hparsed
    by_contra hping
    obtain ⟨pre, fr, post, rfl, hfr, hpre⟩ := exists_first_ping hping
    exact not_dataParsed h hpre hfr hparsed
  · intro hping before after f b stream expected hnew hopen hafter hstream
    have hfits : FramesFit [] frs := by
      rw [← List.append_nil frs] at h ⊢
      exact framesFit_of_legal h hping framesFit_nil (.inl rfl)
    -- the frames that are complete are legal as well
    have hexpected : emitted [] (completedFrames frs stream.length) = expected := by
      obtain ⟨more, hmore⟩ := completedFrames_initial frs stream.length
      have hlegal : Legal none (completedFrames frs stream.length) := (hmore.symm ▸ h).of_append
      refine emitted_eq_messages hlegal (fun fr hfr => hping fr ?_) (.inl rfl)
      exact (completedFrames_initial frs _).subset hfr
    rw [← hexpected]
    exact frames_exact before after f hfits hnew hopen hafter hstream

/-- The fragments `"{"` and `"}"` of a message and a CLOSE. -/
theorem dataParsed_iff_close : DataParsed [
    ⟨false, opcodeText, ⟨[1, 2, 3, 4], [0x7B], false, rfl, by decide⟩, by decide⟩,
    ⟨true, opcodeContinue, ⟨[5, 6, 7, 8], [0x7D], true, rfl, by decide⟩, by decide⟩,
    ⟨true, opcodeClose, ⟨[0, 0, 0, 0], [], false, rfl, by decide⟩, by decide⟩] := by
  refine (dataParsed_iff _ ?_).2 (by decide)
  exact .first (.inl rfl) (by decide) (.next rfl (by decide) (.close rfl rfl (by decide)))

/-- With the PING `"p"` between the fragments `"{"` and `"}"` of a message, `"p"` is parsed and then
`"p}"`. -/
theorem not_dataParsed_ping : ∃ frs, Legal none frs ∧ ¬DataParsed frs := by
  refine ⟨[⟨false, opcodeText, ⟨[1, 2, 3, 4], [0x7B], false, rfl, by decide⟩, by decide⟩,
    ⟨true, opcodePing, ⟨[5, 6, 7, 8], [0x70], false, rfl, by decide⟩, by decide⟩,
    ⟨true, opcodeContinue, ⟨[0, 0, 0, 0], [0x7D], false, rfl, by decide⟩, by decide⟩], ?_, ?_⟩
  · exact .first (.inl rfl) (by decide) (.ping (.inl rfl) rfl (by decide)
      (.next rfl (by decide) .nil))
  · intro h
    have hrun := (h [] [.arrive 4 [0x01, 0x81, 1, 2, 3, 4, 0x7A, 0x89, 0x81, 5, 6, 7, 8, 0x75,
      0x80, 0x81, 0, 0, 0, 0, 0x7D]] 4 (List.forall_mem_nil _) rfl (by decide)
      (by decide +kernel)).2 21 (by decide +kernel)
    exact absurd hrun (by decide +kernel)

end RbProtocol.Ws
