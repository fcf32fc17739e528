import RbProtocol.Foundations.Network
import RbProtocol.Ws.Client

/-!
# Sending to a WebSocket client

`Protocol::send` hands buffers to the queue, and `send_from_queue` writes each of them with two
calls of `::send`, the header and the payload, which may take fewer bytes than they are given. What
one client gets is to be the RFC 6455 frames of the buffers.

It gets their prefix as long as no call takes a byte behind one that was short, and no buffer of
65536 bytes or more, whose size does not fit in the item, gets more than a byte of its header taken
(`stream_intact_iff`).
-/

namespace RbProtocol.Ws

open Library Machine

/-! ## The code -/

/-- `QueueItem` of a client. `size` is a `uint16_t`. -/
structure QueueItem where
  buf : Bytes
  size : ℕ
  deriving DecidableEq

/-- The item of `Protocol::send`. -/
def QueueItem.ofBuf (buf : Bytes) : QueueItem := ⟨buf, buf.length % 2 ^ 16⟩

/-- The length of the send queue. -/
def queueLength : ℕ := 32

/-- `ws_header` in `send_from_queue`. -/
def wsHeader (size : ℕ) : Bytes :=
  let flags : UInt8 := 0x80 ||| opcodeText
  if size ≤ 125 then [flags, UInt8.ofNat size] else flags :: 126 :: htons size

/-- Where `send_from_queue` is. -/
inductive Sending
  | idle
  /-- Before the `::send` of the header. -/
  | header (it : QueueItem)
  /-- Before the `::send` of the payload. -/
  | payload (it : QueueItem)
  deriving DecidableEq

/-- The queue, the send task and the client: `connected` until its descriptor is closed. -/
structure Outgoing where
  queue : List QueueItem
  sending : Sending
  connected : Bool
  deriving DecidableEq

/-- What can happen next. -/
inductive OutgoingEvent
  /-- `Protocol::send` with a buffer. -/
  | send (buf : Bytes)
  /-- `send_task` takes an item. -/
  | receive
  /-- The next `::send`: an error, or at most so many bytes. -/
  | call (result : Option ℕ)
  deriving DecidableEq

/-- What happens outside. -/
inductive OutgoingEffect
  | enqueued (buf : Bytes)
  /-- A `::send` without an error: the bytes it is given and those it takes. -/
  | call (given taken : Bytes)
  | close
  deriving DecidableEq

/-- `close_client`. -/
def Outgoing.closeClient (s : Outgoing) : Outgoing × List OutgoingEffect :=
  ({ s with sending := .idle, connected := false }, if s.connected then [.close] else [])

/-- The machine of the queue and the client. -/
def outgoing : Machine Outgoing OutgoingEvent OutgoingEffect
  | s, .send buf =>
    if buf = [] then (s, [])
    else if s.queue.length < queueLength then
      ({ s with queue := s.queue ++ [.ofBuf buf] }, [.enqueued buf])
    else (s, [])
  | s, .receive =>
    match s.sending, s.queue with
    | .idle, it :: queue => ({ s with queue := queue, sending := .header it }, [])
    | _, _ => (s, [])
  | s, .call result =>
    -- a `::send` to a closed descriptor is an error
    match s.sending, if s.connected then result else none with
    | .idle, _ => (s, [])
    | .header it, some k =>
      ({ s with sending := .payload it }, [.call (wsHeader it.size) ((wsHeader it.size).take k)])
    | .payload it, some k =>
      ({ s with sending := .idle }, [.call (it.buf.take it.size) ((it.buf.take it.size).take k)])
    | .header _, none | .payload _, none => s.closeClient

/-- A client that has just been added. -/
def Outgoing.start : Outgoing := ⟨[], .idle, true⟩

/-! ## The stream -/

/-- The eight bytes of a length. -/
def length64 (n : ℕ) : Bytes := htonl (n / 2 ^ 32) ++ htonl n

/-- An unmasked text frame with the FIN flag, of RFC 6455. -/
def rfcFrame (payload : Bytes) : Bytes :=
  (0x80 ||| opcodeText) ::
    (if payload.length ≤ 125 then [UInt8.ofNat payload.length]
      else if payload.length < 2 ^ 16 then 126 :: htons payload.length
      else 127 :: length64 payload.length) ++ payload

/-- The frames of the buffers that are handed to the queue. -/
def framesOf (effects : List OutgoingEffect) : Bytes :=
  effects.flatMap fun
    | .enqueued buf => rfcFrame buf
    | _ => []

/-- The bytes the client is sent. -/
def takenOf (effects : List OutgoingEffect) : Bytes :=
  effects.flatMap fun
    | .call _ taken => taken
    | _ => []

/-- A call that takes fewer bytes than it is given. -/
def OutgoingEffect.Short : OutgoingEffect → Prop
  | .call given taken => taken.length < given.length
  | _ => False

/-- Behind a short call no byte is taken before the client is closed. -/
def ClosedWhenShort (effects : List OutgoingEffect) : Prop :=
  ∀ before e behind, effects = before ++ e :: behind → e.Short →
    takenOf (behind.takeWhile (· ≠ .close)) = []

/-- The effects of a run. -/
def effectsOf (es : List OutgoingEvent) : List OutgoingEffect :=
  outputs outgoing (trace outgoing .start es)

/-- **The stream is intact** at every point of a run: the client has been sent a prefix of the
frames, and a frame that is not written completely is the last one. -/
def Intact (es : List OutgoingEvent) : Prop :=
  ∀ as, as <+: es → takenOf (effectsOf as) <+: framesOf (effectsOf as) ∧
    ClosedWhenShort (effectsOf as)

/-- The bytes a step has taken. -/
def taken (s : Outgoing) (e : OutgoingEvent) : Bytes := takenOf (outgoing s e).2

/-- A step that takes a byte behind a short call, or more than one byte of the header of a buffer
whose size does not fit. -/
def Spoils (done : List OutgoingEffect) (s : Outgoing) (e : OutgoingEvent) : Prop :=
  (∃ c ∈ done, c.Short) ∧ taken s e ≠ [] ∨
    ∃ it, s.sending = .header it ∧ 2 ^ 16 ≤ it.buf.length ∧ 2 ≤ (taken s e).length

/-! ## Frames -/

/-- The header of the code is that of RFC 6455 when the size fits. -/
theorem rfcFrame_of_lt {buf : Bytes} (h : buf.length < 2 ^ 16) :
    rfcFrame buf = wsHeader buf.length ++ buf := by
  rw [rfcFrame, wsHeader]
  by_cases h125 : buf.length ≤ 125
  · rw [if_pos h125, if_pos h125]
  · rw [if_neg h125, if_neg h125, if_pos h]

/-- Otherwise the second byte tells them apart. -/
theorem rfcFrame_of_ge {buf : Bytes} (h : 2 ^ 16 ≤ buf.length) :
    ∃ rest, rfcFrame buf = (0x80 ||| opcodeText) :: 127 :: rest := by
  rw [rfcFrame, if_neg (by omega), if_neg (by omega)]
  exact ⟨_, rfl⟩

theorem wsHeader_eq (size : ℕ) :
    ∃ c rest, wsHeader size = (0x80 ||| opcodeText) :: c :: rest ∧ c ≠ 127 := by
  rw [wsHeader]
  by_cases h125 : size ≤ 125
  · rw [if_pos h125]
    refine ⟨_, _, rfl, fun h => ?_⟩
    have hsize := congrArg UInt8.toNat h
    rw [UInt8.toNat_ofNat'] at hsize
    change size % 256 = 127 at hsize
    omega
  · rw [if_neg h125]
    exact ⟨_, _, rfl, by decide⟩

theorem takenOf_append (as bs : List OutgoingEffect) :
    takenOf (as ++ bs) = takenOf as ++ takenOf bs := List.flatMap_append

theorem framesOf_append (as bs : List OutgoingEffect) :
    framesOf (as ++ bs) = framesOf as ++ framesOf bs := List.flatMap_append

/-! ## Steps -/

/-- What is still to be sent. -/
def Outgoing.remaining (s : Outgoing) : Bytes :=
  (match s.sending with
    | .idle => []
    | .header it => rfcFrame it.buf
    | .payload it => it.buf) ++ s.queue.flatMap fun it => rfcFrame it.buf

/-- What holds of the effects so far and the state: up to the first short call, what has been sent
and what remains are the frames. -/
structure Fits (done : List OutgoingEffect) (s : Outgoing) : Prop where
  taken_prefix : takenOf done <+: framesOf done
  not_closed : s.connected = true → .close ∉ done
  queue_size : ∀ it ∈ s.queue, it = .ofBuf it.buf
  header_size : ∀ it, s.sending = .header it → it = .ofBuf it.buf
  payload_size : ∀ it, s.sending = .payload it → it = .ofBuf it.buf
  exact : s.connected = true → (∀ c ∈ done, ¬ c.Short) →
    framesOf done = takenOf done ++ s.remaining ∧
      ∀ it, s.sending = .payload it → it.buf.length < 2 ^ 16

theorem fits_start : Fits [] .start where
  taken_prefix := List.prefix_refl _
  not_closed _ := List.not_mem_nil
  queue_size _ h := nomatch h
  header_size := nofun
  payload_size := nofun
  exact _ _ := ⟨rfl, nofun⟩

variable {done : List OutgoingEffect} {s : Outgoing}

theorem Fits.send (h : Fits done s) (buf : Bytes) :
    Fits (done ++ (outgoing s (.send buf)).2) (outgoing s (.send buf)).1 := by
  rw [outgoing]
  by_cases hnil : buf = []
  · rw [if_pos hnil, List.append_nil]
    exact h
  · rw [if_neg hnil]
    by_cases hroom : s.queue.length < queueLength
    · rw [if_pos hroom]
      have htaken : takenOf (done ++ [.enqueued buf]) = takenOf done := by
        rw [takenOf_append]
        exact List.append_nil _
      have hframes : framesOf (done ++ [.enqueued buf]) = framesOf done ++ rfcFrame buf := by
        rw [framesOf_append]
        exact congrArg _ (List.append_nil _)
      refine ⟨?_, fun hc hmem => ?_, fun it hit => ?_, h.header_size, h.payload_size,
        fun hc hshort => ?_⟩
      · rw [htaken, hframes]
        exact h.taken_prefix.trans (List.prefix_append _ _)
      · rcases List.mem_append.1 hmem with hmem | hmem
        · exact h.not_closed hc hmem
        · exact nomatch List.mem_singleton.1 hmem
      · rcases List.mem_append.1 hit with hit | hit
        · exact h.queue_size it hit
        · rw [List.mem_singleton.1 hit]
          rfl
      · obtain ⟨heq, hpayload⟩ := h.exact hc fun c hmem => hshort c (List.mem_append_left _ hmem)
        refine ⟨?_, hpayload⟩
        rw [htaken, hframes, heq, Outgoing.remaining, Outgoing.remaining, List.flatMap_append,
          List.append_assoc, List.append_assoc]
        congr 3
        exact (List.append_nil _).symm
    · rw [if_neg hroom, List.append_nil]
      exact h

theorem Fits.receive (h : Fits done s) :
    Fits (done ++ (outgoing s .receive).2) (outgoing s .receive).1 := by
  cases hsending : s.sending with
  | idle =>
    cases hqueue : s.queue with
    | nil =>
      simp only [outgoing, hsending, hqueue, List.append_nil]
      exact h
    | cons it queue =>
      have hsize : ∀ it' ∈ it :: queue, it' = .ofBuf it'.buf := hqueue ▸ h.queue_size
      simp only [outgoing, hsending, hqueue, List.append_nil]
      refine ⟨h.taken_prefix, h.not_closed, fun it' hit => hsize it' (List.mem_cons_of_mem _ hit),
        fun it' hit => ?_, nofun, fun hc hshort => ⟨?_, nofun⟩⟩
      · obtain rfl := Sending.header.inj hit
        exact hsize _ (List.mem_cons_self ..)
      · rw [(h.exact hc hshort).1, Outgoing.remaining, Outgoing.remaining, hsending, hqueue]
        rfl
  | header it | payload it =>
    simp only [outgoing, hsending, List.append_nil]
    exact h

/-- A call that fails closes the client. -/
theorem Fits.closeClient (h : Fits done s) :
    Fits (done ++ s.closeClient.2) s.closeClient.1 := by
  have hout : takenOf s.closeClient.2 = [] ∧ framesOf s.closeClient.2 = [] := by
    rw [Outgoing.closeClient]
    cases s.connected <;> exact ⟨rfl, rfl⟩
  refine ⟨?_, nofun, h.queue_size, nofun, nofun, nofun⟩
  rw [takenOf_append, framesOf_append, hout.1, hout.2, List.append_nil, List.append_nil]
  exact h.taken_prefix

/-- A call of `::send`: the first `k` bytes of `given` are taken, and then `s'` is reached. -/
theorem Fits.call (h : Fits done s) {given : Bytes} {k : ℕ} {sending : Sending}
    (hconnected : s.connected = true)
    (hspoils : (∃ c ∈ done, c.Short) → given.take k = [])
    (hheader : ∀ it, sending = .header it → it = .ofBuf it.buf)
    (hpayload : ∀ it, sending = .payload it → it = .ofBuf it.buf)
    (hinit : (∀ c ∈ done, ¬ c.Short) → given.take k <+: s.remaining)
    (hexact : (∀ c ∈ done, ¬ c.Short) → given.take k = given →
      s.remaining = given ++ { s with sending := sending }.remaining ∧
        ∀ it, sending = .payload it → it.buf.length < 2 ^ 16) :
    Fits (done ++ [.call given (given.take k)]) { s with sending := sending } := by
  have htaken : takenOf (done ++ [.call given (given.take k)]) = takenOf done ++ given.take k := by
    rw [takenOf_append]
    exact congrArg _ (List.append_nil _)
  have hframes : framesOf (done ++ [.call given (given.take k)]) = framesOf done := by
    rw [framesOf_append]
    exact List.append_nil _
  refine ⟨?_, fun _ hmem => ?_, h.queue_size, hheader, hpayload, fun _ hshort => ?_⟩
  · rw [htaken, hframes]
    by_cases hshort : ∃ c ∈ done, c.Short
    · rw [hspoils hshort, List.append_nil]
      exact h.taken_prefix
    · have hnot : ∀ c ∈ done, ¬ c.Short := fun c hc hs => hshort ⟨c, hc, hs⟩
      rw [(h.exact hconnected hnot).1]
      exact (List.prefix_append_right_inj _).2 (hinit hnot)
  · rcases List.mem_append.1 hmem with hmem | hmem
    · exact h.not_closed hconnected hmem
    · exact nomatch List.mem_singleton.1 hmem
  · have hnot : ∀ c ∈ done, ¬ c.Short := fun c hc => hshort c (List.mem_append_left _ hc)
    have hfull : ¬ (given.take k).length < given.length :=
      hshort _ (List.mem_append_right _ (List.mem_singleton_self _))
    have hall : given.take k = given := List.take_of_length_le (by
      rw [List.length_take] at hfull
      omega)
    obtain ⟨hremaining, hlt⟩ := hexact hnot hall
    refine ⟨?_, hlt⟩
    rw [htaken, hframes, (h.exact hconnected hnot).1, hremaining, hall, List.append_assoc]

/-- The `::send` of a header. -/
theorem Fits.header (h : Fits done s) {it : QueueItem} {k : ℕ} (hsending : s.sending = .header it)
    (hconnected : s.connected = true)
    (hshort : (∃ c ∈ done, c.Short) → (wsHeader it.size).take k = [])
    (hlarge : 2 ^ 16 ≤ it.buf.length → ((wsHeader it.size).take k).length ≤ 1) :
    Fits (done ++ [.call (wsHeader it.size) ((wsHeader it.size).take k)])
      { s with sending := .payload it } := by
  have hsize := h.header_size it hsending
  have hbuf (hlt : it.buf.length < 2 ^ 16) : it.size = it.buf.length := by
    rw [hsize]
    exact Nat.mod_eq_of_lt hlt
  have hremaining : s.remaining = rfcFrame it.buf ++ s.queue.flatMap fun it => rfcFrame it.buf := by
    rw [Outgoing.remaining, hsending]
  obtain ⟨c, rest, hheader, -⟩ := wsHeader_eq it.size
  refine h.call hconnected hshort nofun (fun it' hit => Sending.payload.inj hit ▸ hsize)
    (fun _ => ?_) fun _ hall => ?_
  · rw [hremaining]
    refine List.IsPrefix.trans ?_ (List.prefix_append _ _)
    rcases Nat.lt_or_ge it.buf.length (2 ^ 16) with hlt | hge
    · rw [rfcFrame_of_lt hlt, hbuf hlt]
      exact (List.take_prefix _ _).trans (List.prefix_append _ _)
    · -- at most the first byte, which both headers have
      obtain ⟨rest', hframe⟩ := rfcFrame_of_ge hge
      have hone := hlarge hge
      rw [hheader] at hone ⊢
      rw [hframe]
      have hk : k ≤ 1 := by
        rw [List.length_take, List.length_cons, List.length_cons] at hone
        omega
      rcases Nat.le_one_iff_eq_zero_or_eq_one.1 hk with rfl | rfl
      · exact List.nil_prefix
      · exact ⟨127 :: rest', rfl⟩
  · have hlt : it.buf.length < 2 ^ 16 := by
      by_contra hge
      have hone := hlarge (not_lt.1 hge)
      rw [hall, hheader, List.length_cons, List.length_cons] at hone
      omega
    refine ⟨?_, fun it' hit => Sending.payload.inj hit ▸ hlt⟩
    rw [hremaining, rfcFrame_of_lt hlt, hbuf hlt, Outgoing.remaining, List.append_assoc]

/-- The `::send` of a payload. -/
theorem Fits.payload (h : Fits done s) {it : QueueItem} {k : ℕ} (hsending : s.sending = .payload it)
    (hconnected : s.connected = true)
    (hshort : (∃ c ∈ done, c.Short) → (it.buf.take it.size).take k = []) :
    Fits (done ++ [.call (it.buf.take it.size) ((it.buf.take it.size).take k)])
      { s with sending := .idle } := by
  have hremaining : s.remaining = it.buf ++ s.queue.flatMap fun it => rfcFrame it.buf := by
    rw [Outgoing.remaining, hsending]
  have hgiven (hnot : ∀ c ∈ done, ¬ c.Short) : it.buf.take it.size = it.buf := by
    rw [h.payload_size it hsending]
    exact List.take_of_length_le (Nat.mod_eq_of_lt ((h.exact hconnected hnot).2 it hsending)).ge
  refine h.call hconnected hshort nofun nofun (fun hnot => ?_) fun hnot _ => ⟨?_, nofun⟩
  · rw [hremaining, hgiven hnot]
    exact (List.take_prefix _ _).trans (List.prefix_append _ _)
  · rw [hremaining, hgiven hnot]
    rfl

/-- The steps of a call, by its result. -/
theorem outgoing_call (s : Outgoing) (result : Option ℕ) :
    (outgoing s (.call result) = (s, []) ∨ outgoing s (.call result) = s.closeClient) ∨
      (s.connected = true ∧ ∃ it k, s.sending = .header it ∧
        outgoing s (.call result) = ({ s with sending := .payload it },
          [.call (wsHeader it.size) ((wsHeader it.size).take k)])) ∨
      (s.connected = true ∧ ∃ it k, s.sending = .payload it ∧
        outgoing s (.call result) = ({ s with sending := .idle },
          [.call (it.buf.take it.size) ((it.buf.take it.size).take k)])) := by
  cases hresult : if s.connected then result else none with
  | none => cases hsending : s.sending <;> simp [outgoing, hsending, hresult]
  | some k =>
    have hconnected : s.connected = true := by
      by_contra hnot
      rw [if_neg hnot] at hresult
      cases hresult
    cases hsending : s.sending with
    | idle => simp [outgoing, hsending]
    | header it =>
      refine .inr (.inl ⟨hconnected, it, k, rfl, ?_⟩)
      simp only [outgoing, hsending, hresult]
    | payload it =>
      refine .inr (.inr ⟨hconnected, it, k, rfl, ?_⟩)
      simp only [outgoing, hsending, hresult]

theorem taken_of_call {e : OutgoingEvent} {s' : Outgoing} {given bytes : Bytes}
    (h : outgoing s e = (s', [.call given bytes])) : taken s e = bytes := by
  rw [taken, h]
  exact List.append_nil _

/-- **A step that does not spoil the stream.** -/
theorem Fits.step (h : Fits done s) {e : OutgoingEvent} (hspoils : ¬ Spoils done s e) :
    Fits (done ++ (outgoing s e).2) (outgoing s e).1 := by
  obtain ⟨hshort, hlarge⟩ := not_or.1 hspoils
  cases e with
  | send buf => exact h.send buf
  | receive => exact h.receive
  | call result =>
    rcases outgoing_call s result with (hstep | hstep) | ⟨hconnected, it, k, hsending, hstep⟩ |
      ⟨hconnected, it, k, hsending, hstep⟩
    · rw [hstep, List.append_nil]
      exact h
    · rw [hstep]
      exact h.closeClient
    · rw [taken_of_call hstep] at hshort hlarge
      rw [hstep]
      refine h.header hsending hconnected
        (fun hs => not_not.1 fun hne => hshort ⟨hs, hne⟩) fun hge => ?_
      by_contra htwo
      exact hlarge ⟨it, hsending, hge, by omega⟩
    · rw [taken_of_call hstep] at hshort
      rw [hstep]
      exact h.payload hsending hconnected fun hs => not_not.1 fun hne => hshort ⟨hs, hne⟩

/-! ## Runs -/

/-- A step has at most one effect. -/
theorem outgoing_effects (s : Outgoing) (e : OutgoingEvent) :
    (outgoing s e).2 = [] ∨ ∃ c, (outgoing s e).2 = [c] := by
  cases e with
  | send buf =>
    rw [outgoing]
    split_ifs
    · exact .inl rfl
    · exact .inr ⟨_, rfl⟩
    · exact .inl rfl
  | receive =>
    rw [outgoing]
    split <;> exact .inl rfl
  | call result =>
    rcases outgoing_call s result with (hstep | hstep) | ⟨-, it, k, -, hstep⟩ | ⟨-, it, k, -, hstep⟩
    · exact .inl (by rw [hstep])
    · rw [hstep, Outgoing.closeClient]
      cases s.connected
      · exact .inl rfl
      · exact .inr ⟨_, rfl⟩
    · exact .inr ⟨_, by rw [hstep]⟩
    · exact .inr ⟨_, by rw [hstep]⟩

/-- A step that takes nothing behind a short call. -/
theorem ClosedWhenShort.step (h : ClosedWhenShort done) {e : OutgoingEvent}
    (hnone : (∃ c ∈ done, c.Short) → taken s e = []) :
    ClosedWhenShort (done ++ (outgoing s e).2) := by
  rcases outgoing_effects s e with hout | ⟨c, hout⟩
  · rwa [hout, List.append_nil]
  rw [hout]
  intro before d behind heq hshort
  rcases List.eq_nil_or_concat behind with rfl | ⟨behind, c', rfl⟩
  · rfl
  · have heq' : done ++ [c] = (before ++ d :: behind) ++ [c'] := by
      rw [heq, List.concat_eq_append, List.append_assoc]
      rfl
    obtain ⟨hdone, hc⟩ := List.append_inj' heq' rfl
    have hd : d ∈ done := hdone ▸ List.mem_append_right _ (List.mem_cons_self ..)
    have htaken : takenOf [c'] = [] := by
      rw [← hc, ← hout]
      exact hnone ⟨d, hd, hshort⟩
    have hbehind := h before d behind hdone hshort
    rw [List.concat_eq_append, List.takeWhile_append]
    split_ifs with hall
    · rw [(List.takeWhile_prefix _).eq_of_length hall] at hbehind
      rw [takenOf_append, hbehind, List.takeWhile_cons]
      split_ifs
      · exact htaken
      · rfl
    · exact hbehind

theorem effectsOf_concat (es : List OutgoingEvent) (e : OutgoingEvent) :
    effectsOf (es ++ [e]) = effectsOf es ++ (outgoing (final outgoing .start es) e).2 := by
  rw [effectsOf, trace_append, outputs_append, trace_cons, trace_nil, outputs_cons, outputs_nil,
    List.append_nil]
  rfl

theorem final_concat (es : List OutgoingEvent) (e : OutgoingEvent) :
    final outgoing .start (es ++ [e]) = (outgoing (final outgoing .start es) e).1 := by
  rw [final_append]
  rfl

/-- A run none of whose steps spoils the stream. -/
theorem fits_final {es : List OutgoingEvent}
    (h : ∀ as e bs, es = as ++ e :: bs → ¬ Spoils (effectsOf as) (final outgoing .start as) e) :
    Fits (effectsOf es) (final outgoing .start es) ∧ ClosedWhenShort (effectsOf es) := by
  induction es using List.reverseRecOn with
  | nil => exact ⟨fits_start, fun before d behind heq => by simp [effectsOf] at heq⟩
  | append_singleton es e ih =>
    obtain ⟨hfits, hclosed⟩ := ih fun as e' bs heq => h as e' (bs ++ [e])
      (by rw [heq, List.append_assoc]; rfl)
    have hspoils := h es e [] rfl
    rw [effectsOf_concat, final_concat]
    refine ⟨hfits.step hspoils, hclosed.step fun hshort => ?_⟩
    exact not_not.1 fun hne => hspoils (.inl ⟨hshort, hne⟩)

/-- What a step needs to take a byte. -/
theorem of_taken_ne_nil {e : OutgoingEvent} (h : taken s e ≠ []) :
    s.connected = true ∧ ∃ given, (outgoing s e).2 = [.call given (taken s e)] ∧
      ∀ it, s.sending = .header it → taken s e <+: wsHeader it.size := by
  cases e with
  | send buf =>
    refine absurd ?_ h
    rw [taken, outgoing]
    split_ifs <;> rfl
  | receive =>
    refine absurd ?_ h
    rw [taken, outgoing]
    split <;> rfl
  | call result =>
    rcases outgoing_call s result with (hstep | hstep) | ⟨hconnected, it, k, hsending, hstep⟩ |
      ⟨hconnected, it, k, hsending, hstep⟩
    · exact absurd (by rw [taken, hstep]; rfl) h
    · refine absurd ?_ h
      rw [taken, hstep, Outgoing.closeClient]
      cases s.connected <;> rfl
    · rw [taken_of_call hstep, hstep]
      refine ⟨hconnected, _, rfl, fun it' hit => ?_⟩
      rw [hsending] at hit
      exact Sending.header.inj hit ▸ List.take_prefix _ _
    · rw [taken_of_call hstep, hstep]
      refine ⟨hconnected, _, rfl, fun it' hit => ?_⟩
      rw [hsending] at hit
      cases hit

/-- **A step that leaves the stream intact does not spoil it.** -/
theorem Fits.not_spoils (h : Fits done s) {e : OutgoingEvent}
    (hinit : takenOf (done ++ (outgoing s e).2) <+: framesOf (done ++ (outgoing s e).2))
    (hclosed : ClosedWhenShort (done ++ (outgoing s e).2)) : ¬ Spoils done s e := by
  have hfirst : ¬ ((∃ c ∈ done, c.Short) ∧ taken s e ≠ []) := by
    rintro ⟨⟨c, hc, hshort⟩, hne⟩
    obtain ⟨hconnected, given, hout, -⟩ := of_taken_ne_nil hne
    obtain ⟨before, behind, rfl⟩ := List.append_of_mem hc
    have hopen := h.not_closed hconnected
    rw [hout, List.append_assoc] at hclosed
    have hnone := hclosed before c (behind ++ [.call given (taken s e)]) rfl hshort
    rw [List.takeWhile_eq_self_iff.2, takenOf_append] at hnone
    · exact hne ((List.append_nil _).symm.trans (List.append_eq_nil_iff.1 hnone).2)
    · intro d hd
      rcases List.mem_append.1 hd with hd | hd
      · refine decide_eq_true fun heq => hopen ?_
        exact List.mem_append_right _ (List.mem_cons_of_mem _ (heq ▸ hd))
      · rw [List.mem_singleton.1 hd]
        rfl
  rintro (hspoils | ⟨it, hsending, hlarge, htwo⟩)
  · exact hfirst hspoils
  · have hne : taken s e ≠ [] := fun hnil => by
      rw [hnil] at htwo
      exact absurd htwo (by decide)
    obtain ⟨hconnected, given, hout, hheader⟩ := of_taken_ne_nil hne
    have hnot : ∀ c ∈ done, ¬ c.Short := fun c hc hs => hfirst ⟨⟨c, hc, hs⟩, hne⟩
    obtain ⟨rest, hframe⟩ := rfcFrame_of_ge hlarge
    obtain ⟨c, rest', hbytes, hc⟩ := wsHeader_eq it.size
    have hframes : framesOf (done ++ [.call given (taken s e)]) = framesOf done := by
      rw [framesOf_append]
      exact List.append_nil _
    have htaken : takenOf (done ++ [.call given (taken s e)]) = takenOf done ++ taken s e := by
      rw [takenOf_append]
      exact congrArg _ (List.append_nil _)
    rw [hout, htaken, hframes, (h.exact hconnected hnot).1, List.prefix_append_right_inj,
      Outgoing.remaining, hsending] at hinit
    simp only [hframe] at hinit
    have hpre := hheader it hsending
    rw [hbytes] at hpre
    -- the second byte of the two headers
    obtain ⟨a, t, ht⟩ := List.exists_cons_of_ne_nil hne
    cases t with
    | nil =>
      rw [ht] at htwo
      exact absurd htwo (Nat.not_succ_le_self 1)
    | cons b t =>
      rw [ht] at hpre hinit
      obtain ⟨-, hpre⟩ := List.cons_prefix_cons.1 hpre
      obtain ⟨-, hinit⟩ := List.cons_prefix_cons.1 hinit
      have hb := (List.cons_prefix_cons.1 hpre).1
      have hb' := (List.cons_prefix_cons.1 hinit).1
      exact hc (hb.symm.trans hb')

theorem Intact.of_prefix {as es : List OutgoingEvent} (h : Intact es) (has : as <+: es) :
    Intact as :=
  fun bs hbs => h bs (hbs.trans has)

theorem Intact.fits {es : List OutgoingEvent} (h : Intact es) :
    Fits (effectsOf es) (final outgoing .start es) := by
  induction es using List.reverseRecOn with
  | nil => exact fits_start
  | append_singleton es e ih =>
    have hfits := ih (h.of_prefix (List.prefix_append _ _))
    obtain ⟨hinit, hclosed⟩ := h _ (List.prefix_refl _)
    rw [effectsOf_concat] at hinit hclosed
    rw [effectsOf_concat, final_concat]
    exact hfits.step (hfits.not_spoils hinit hclosed)

/-- **The stream of a client is intact** if and only if no step takes a byte behind a short call, or
more than one byte of the header of a buffer of at least 65536 bytes. -/
theorem stream_intact_iff (es : List OutgoingEvent) :
    Intact es ↔
      ∀ as e bs, es = as ++ e :: bs → ¬ Spoils (effectsOf as) (final outgoing .start as) e := by
  constructor
  · rintro h as e bs rfl
    have hfits := (h.of_prefix (List.prefix_append as (e :: bs))).fits
    obtain ⟨hinit, hclosed⟩ := h (as ++ [e]) ⟨bs, by rw [List.append_assoc]; rfl⟩
    rw [effectsOf_concat] at hinit hclosed
    exact hfits.not_spoils hinit hclosed
  · rintro h as ⟨bs, rfl⟩
    obtain ⟨hfits, hclosed⟩ := @fits_final as fun as' e bs' heq =>
      h as' e (bs' ++ bs) (by rw [heq, List.append_assoc]; rfl)
    exact ⟨hfits.taken_prefix, hclosed⟩

/-- One byte of the payload `"AB"` is not taken, and the next frame follows. -/
theorem not_intact_short : ¬ Intact [.send [65, 66], .receive, .call (some 2), .call (some 1),
    .send [67], .receive, .call (some 2)] := by
  intro h
  obtain ⟨hinit, -⟩ := h _ (List.prefix_refl _)
  revert hinit
  decide +kernel

end RbProtocol.Ws
