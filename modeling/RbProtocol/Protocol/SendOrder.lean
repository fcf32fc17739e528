import RbProtocol.Library.TicketLine
import RbProtocol.Json.RoundTrip
import RbProtocol.Protocol.SendTask

/-!
# The order of outgoing packets

Packets to one address are on the wire in the order of their counters as long as the steps of the
tasks respect it (`KeepsOrder`): tasks hand their items to the queue in the order of their counters,
and their texts fit in the `uint16_t` of an item, a resend round writes to the socket only when no
packet is on its way through the queue, counters stay in the range that a `float` holds exactly, and
the counter is not reset. Then the texts on the wire are whole and their counters increase, and a
receiver drops none of them (`transmitted_increasing`). The packets form the line of a ticket
counter, with the socket at its head.

Without these conditions the order is lost: `transmitted_overtaken` is a run of two tasks.
-/

namespace RbProtocol.Protocol

open Library Json TicketLine SendSystem

variable {T : Type*}

/-! ## Counters on the wire -/

section Counter

variable (outOfRange : BinaryFloat → ℤ)

/-- The counter that a receiver reads from the text of a packet, the value of `int counter`. -/
def serializedN (pkt : Packet) : Option ℤ :=
  match pkt.get keyN with
  | some (.number value) =>
    match parsePrimitive (serializeNumber outOfRange value) with
    | some (.number value) => some (int32 (toLongLong outOfRange value))
    | _ => none
  | _ => none

/-- The counter of an item to an address. -/
def counterTo (addr : ProtocolAddr) (item : QueueItem) : Option ℤ :=
  if item.addr = addr then serializedN outOfRange item.pkt else none

variable {outOfRange}

/-- **Counters of at most 24 bits are on the wire as they were taken.** -/
theorem serializedN_takeCounter (s : Protocol) (obj : Packet) (h : |s.writeCounter| ≤ 2 ^ 24) :
    serializedN outOfRange (s.takeCounter obj).2 = some s.writeCounter := by
  obtain ⟨hlo, hhi⟩ := abs_le.1 h
  rw [serializedN, takeCounter, Packet.get_set, if_pos rfl, intNumber_eq h]
  simp only [serializeNumber_plain h, parsePrimitive_formatLongLong h]
  rw [toLongLong_intCast outOfRange h, int32_eq_self (by omega) (by omega)]

theorem counterTo_of_ne {addr : ProtocolAddr} {item : QueueItem} (h : item.addr ≠ addr) :
    counterTo outOfRange addr item = none := if_neg h

/-- The answer to `discover` has no counter. -/
theorem counterTo_found (s : Protocol) (addr addr' : ProtocolAddr) :
    counterTo outOfRange addr ⟨addr', s.found⟩ = none := by
  have hget : s.found.get keyN = none := by
    simp only [found, Packet.get_set, Packet.get_empty]
    simp [storedName, keyN, keyC, keyOwner, keyName, keyDesc, keyLimit]
  rw [counterTo, serializedN, hget]
  exact ite_self _

end Counter

/-! ## The line of the packets to an address -/

section Line

variable (outOfRange : BinaryFloat → ℤ) (addr : ProtocolAddr)

/-- The counters of the packets on the wire and on their way through the queue. -/
def line (sys : SendSystem T) (wire : List QueueItem) : List ℤ :=
  (wire ++ sys.ahead).filterMap (counterTo outOfRange addr)

/-- The counter that a task holds. -/
def held (sys : SendSystem T) (t : T) : Option ℤ :=
  (sys.sending t).bind fun s => counterTo outOfRange addr s.item

/-- The packets to the address are in order. -/
def InOrder (sys : SendSystem T) (wire : List QueueItem) : Prop :=
  Ordered (-1) sys.protocol.writeCounter (line outOfRange addr sys wire) (held outOfRange addr sys)

/-- A counter that is taken for an item to `dest` is in range: the next one is an `int32_t`, and for
an item to the address it is exact as a `float`. -/
def CounterFits (sys : SendSystem T) (dest : ProtocolAddr) : Prop :=
  sys.protocol.writeCounter < 2 ^ 31 - 1 ∧ (dest = addr → sys.protocol.writeCounter ≤ 2 ^ 24)

/-- No packet to the address is on its way to the socket. -/
def NoneOnWay (sys : SendSystem T) : Prop :=
  (∀ item ∈ sys.ahead, counterTo outOfRange addr item = none) ∧
    ∀ t, held outOfRange addr sys t = none

/-- The next entry of a resend round takes a counter in range while no packet to the address is on
its way. -/
def ResendKeepsOrder (sys : SendSystem T) : SendTask → Prop
  | .resend dest _ (_ :: _) =>
    CounterFits addr sys dest ∧ (dest = addr → NoneOnWay outOfRange addr sys)
  | _ => True

/-- The text of an item with a counter to the address fits in the item. -/
def TextFits (item : QueueItem) : Prop :=
  (counterTo outOfRange addr item).isSome → (item.pkt.str outOfRange).length < 2 ^ 16

/-- The steps that respect the order of the packets to the address, and send their texts as a
whole. -/
def KeepsOrder (sys : SendSystem T) : Action T → Prop
  | .send _ dest _ => CounterFits addr sys dest
  | .sendMustarrive _ _ _ => CounterFits addr sys sys.protocol.possessedAddr
  | .enqueue t => (∀ s ∈ sys.sending t, TextFits outOfRange addr s.item) ∧
      ∀ n ∈ held outOfRange addr sys t,
        ∀ t', t' ≠ t → ∀ n' ∈ held outOfRange addr sys t', n < n'
  | .resendNext => ResendKeepsOrder outOfRange addr sys sys.sendTask
  | .resetCounter => False
  | _ => True

/-- The start of a session with the address: the possession reset has set the counter, and no
earlier packet is on its way. -/
structure SessionStart (sys : SendSystem T) : Prop where
  counter : sys.protocol.writeCounter = -1
  noneOnWay : NoneOnWay outOfRange addr sys

end Line

section Steps

variable {outOfRange : BinaryFloat → ℤ} {addr : ProtocolAddr} {sys : SendSystem T}
  {wire : List QueueItem}

theorem int32_succ {n : ℤ} (hlo : -1 ≤ n) (hhi : n < 2 ^ 31 - 1) : int32 (n + 1) = n + 1 :=
  int32_eq_self (by omega) (by omega)

/-- Counters are taken one after the other. -/
theorem InOrder.int32_succ (h : InOrder outOfRange addr sys wire) {dest : ProtocolAddr}
    (hfits : CounterFits addr sys dest) :
    int32 (sys.protocol.writeCounter + 1) = sys.protocol.writeCounter + 1 :=
  Protocol.int32_succ h.low_le hfits.1

/-- A counter taken for an item to the address is the one on the wire. -/
theorem InOrder.counterTo_takeCounter (h : InOrder outOfRange addr sys wire)
    (hfits : CounterFits addr sys addr) {s : Protocol}
    (hs : s.writeCounter = sys.protocol.writeCounter) (obj : Packet) :
    counterTo outOfRange addr ⟨addr, (s.takeCounter obj).2⟩ = some sys.protocol.writeCounter := by
  have hlow := h.low_le
  have hexact := hfits.2 rfl
  rw [counterTo, if_pos rfl, serializedN_takeCounter s obj, hs]
  rw [hs, abs_le]
  omega

/-- The packets on their way move on, and some of them may be lost. -/
theorem InOrder.mono (h : InOrder outOfRange addr sys wire) {sys' : SendSystem T}
    {wire' : List QueueItem} (hcounter : sys'.protocol.writeCounter = sys.protocol.writeCounter)
    (hline : (wire' ++ sys'.ahead).Sublist (wire ++ sys.ahead))
    (hheld : ∀ t, ∀ n ∈ held outOfRange addr sys' t, n ∈ held outOfRange addr sys t) :
    InOrder outOfRange addr sys' wire' := by
  unfold InOrder
  rw [hcounter]
  exact (h.leave (hline.filterMap _)).giveUp hheld

theorem held_of_sending_none {t : T} (h : sys.sending t = none) :
    held outOfRange addr sys t = none := by
  rw [held, h]
  rfl

/-! ## The tasks -/

section Tasks

variable [DecidableEq T]

theorem held_startSending (t : T) (r : Protocol × QueueItem) (mustarrive : Bool) :
    held outOfRange addr (sys.startSending t r mustarrive) =
      Function.update (held outOfRange addr sys) t (counterTo outOfRange addr r.2) := by
  funext t'
  simp only [held, startSending, Function.update_apply]
  split_ifs <;> rfl

theorem held_stopSending (t : T) (s : Sending) :
    held outOfRange addr (sys.stopSending t s) =
      Function.update (held outOfRange addr sys) t none := by
  funext t'
  simp only [held, stopSending, Function.update_apply]
  split_ifs <;> rfl

/-- A task takes a counter for its item. -/
theorem InOrder.startSending (h : InOrder outOfRange addr sys wire) {t : T} (mustarrive : Bool)
    {s p : Protocol} {dest : ProtocolAddr} (obj : Packet)
    (hidle : sys.sending t = none) (hfits : CounterFits addr sys dest)
    (hs : s.writeCounter = sys.protocol.writeCounter)
    (hp : p.writeCounter = int32 (s.writeCounter + 1)) :
    InOrder outOfRange addr
      (sys.startSending t (p, ⟨dest, (s.takeCounter obj).2⟩) mustarrive) wire := by
  have hcounter : p.writeCounter = sys.protocol.writeCounter + 1 := by
    rw [hp, hs, h.int32_succ hfits]
  unfold InOrder
  rw [held_startSending]
  change Ordered (-1) p.writeCounter (line outOfRange addr sys wire) _
  rw [hcounter]
  by_cases hdest : dest = addr
  · subst hdest
    rw [h.counterTo_takeCounter hfits hs]
    exact h.take t
  · rw [counterTo_of_ne hdest, Function.update_eq_self_iff.2 (held_of_sending_none hidle).symm]
    exact h.skip (by omega)

/-- A task starts to send an item without counter. -/
theorem InOrder.discover (h : InOrder outOfRange addr sys wire) {t : T} (dest : ProtocolAddr)
    (hidle : sys.sending t = none) : InOrder outOfRange addr
      (sys.startSending t (sys.protocol, ⟨dest, sys.protocol.found⟩) false) wire := by
  refine h.mono rfl (.refl _) fun t' n hn => ?_
  rw [held_startSending, counterTo_found,
    Function.update_eq_self_iff.2 (held_of_sending_none hidle).symm] at hn
  exact hn

/-- A task gives up its item. -/
theorem InOrder.stopSending (h : InOrder outOfRange addr sys wire) (t : T) (s : Sending) :
    InOrder outOfRange addr (sys.stopSending t s) wire := by
  refine h.mono rfl (.refl _) fun t' n hn => ?_
  rw [held_stopSending, Function.update_apply] at hn
  split_ifs at hn
  · cases hn
  · exact hn

/-- A task hands its item to the queue: if the item has a counter, it is the smallest one held. -/
theorem InOrder.enqueue (h : InOrder outOfRange addr sys wire) {t : T} {s : Sending}
    (hs : sys.sending t = some s)
    (hleast : ∀ n ∈ held outOfRange addr sys t,
      ∀ t', t' ≠ t → ∀ n' ∈ held outOfRange addr sys t', n < n') :
    InOrder outOfRange addr
      { sys.stopSending t s with sendQueue := sys.sendQueue ++ [s.item] } wire := by
  have hahead : ({ sys.stopSending t s with sendQueue := sys.sendQueue ++ [s.item] } :
      SendSystem T).ahead = sys.ahead ++ [s.item] := by
    unfold ahead SendSystem.stopSending
    cases sys.sendTask <;> rfl
  have hheld : held outOfRange addr sys t = counterTo outOfRange addr s.item := by
    rw [held, hs]
    rfl
  unfold InOrder line
  rw [hahead, ← List.append_assoc, List.filterMap_append]
  change Ordered (-1) sys.protocol.writeCounter (line outOfRange addr sys wire ++ _)
    (held outOfRange addr (sys.stopSending t s))
  rcases hcounter : counterTo outOfRange addr s.item with _ | n
  · rw [List.filterMap_cons_none hcounter, List.filterMap_nil, List.append_nil]
    exact h.stopSending t s
  · rw [List.filterMap_cons_some hcounter, List.filterMap_nil, held_stopSending]
    rw [hcounter] at hheld
    exact h.join hheld (hleast n hheld)

end Tasks

/-! ## The send task -/

section SendTask

/-- `send_task` writes the item it holds to the socket, or loses it. -/
theorem InOrder.transmit (h : InOrder outOfRange addr sys wire) {i j : ℕ} {item : QueueItem}
    (hsend : sys.sendTask = .transmit i item) :
    InOrder outOfRange addr { sys with sendTask := .receive j }
      (wire ++ (sendFromQueue outOfRange sys.protocol item).map Transmission.item) := by
  refine h.mono rfl ?_ fun t n hn => hn
  have hahead : sys.ahead = item :: sys.sendQueue := by
    unfold ahead
    rw [hsend]
  have hone : ((sendFromQueue outOfRange sys.protocol item).map Transmission.item).Sublist
      [item] := by
    unfold sendFromQueue
    split
    · exact .refl _
    · exact List.nil_sublist _
  rw [hahead, List.append_assoc]
  exact (List.Sublist.refl wire).append (hone.append (List.Sublist.refl sys.sendQueue))

/-- An entry of a resend round takes its counter and is written to the socket at once. -/
theorem InOrder.retransmit (h : InOrder outOfRange addr sys wire) {dest : ProtocolAddr}
    {kept todo kept' todo' : List MustArrive} (it : MustArrive)
    (hsend : sys.sendTask = .resend dest kept todo) (hfits : CounterFits addr sys dest)
    (hnone : dest = addr → NoneOnWay outOfRange addr sys) :
    InOrder outOfRange addr
      { sys with
        protocol := (sys.protocol.retransmit dest it).1
        sendTask := .resend dest kept' todo' }
      (wire ++ (transmitted outOfRange (sys.protocol.retransmit dest it).2.2).map
        Transmission.item) := by
  have hahead : sys.ahead = sys.sendQueue := by
    unfold ahead
    rw [hsend]
  unfold Protocol.retransmit
  split
  · rename_i ip port _
    have hcounter : int32 (sys.protocol.writeCounter + 1) = sys.protocol.writeCounter + 1 :=
      h.int32_succ hfits
    unfold InOrder line
    change Ordered (-1) (int32 (sys.protocol.writeCounter + 1))
      ((wire ++ [(⟨.udp ip port, (sys.protocol.takeCounter it.pkt).2⟩ : QueueItem)] ++
        sys.sendQueue).filterMap _)
      (held outOfRange addr sys)
    rw [hcounter, ← hahead]
    by_cases hdest : ProtocolAddr.udp ip port = addr
    · subst hdest
      obtain ⟨hqueue, hheld⟩ := hnone rfl
      have hline := h
      unfold InOrder line at hline
      rw [List.filterMap_append, List.filterMap_eq_nil_iff.2 hqueue, List.append_nil] at hline
      rw [List.filterMap_append, List.filterMap_eq_nil_iff.2 hqueue, List.append_nil,
        List.filterMap_append, List.filterMap_cons_some (h.counterTo_takeCounter hfits rfl it.pkt)]
      exact hline.serve hheld
    · rw [List.filterMap_append, List.filterMap_append,
        List.filterMap_cons_none (counterTo_of_ne hdest), List.filterMap_nil, List.append_nil,
        ← List.filterMap_append]
      exact Ordered.skip h (by omega)
  · have hout : (transmitted outOfRange []).map Transmission.item = [] := rfl
    rw [hout, List.append_nil]
    refine h.mono rfl ?_ fun t n hn => hn
    rw [hahead]
    exact .refl _

/-- The end of a round leaves the packets alone. -/
theorem InOrder.endRound (h : InOrder outOfRange addr sys wire) {i : ℕ} {due : Bool}
    {uninit : ProtocolAddr} {sys' : SendSystem T} (hsend : sys.sendTask = .receive i)
    (hround : sys.endRound due uninit = some sys') : InOrder outOfRange addr sys' wire := by
  have hahead : sys.ahead = sys.sendQueue := by
    unfold ahead
    rw [hsend]
  unfold SendSystem.endRound at hround
  split_ifs at hround
  all_goals
    obtain rfl := Option.some.inj hround
    refine h.mono rfl ?_ fun t n hn => hn
    rw [hahead]
    exact .refl _

end SendTask

/-! ## Runs -/

section Runs

variable [DecidableEq T]

/-- `send_task` takes an item, or exits behind the empty one. -/
theorem InOrder.receive (h : InOrder outOfRange addr sys wire) :
    InOrder outOfRange addr (SendSystem.step outOfRange sys (.receive : Action T)).1
      (wire ++ (SendSystem.step outOfRange sys (.receive : Action T)).2.map
        Transmission.item) := by
  have hidle : InOrder outOfRange addr sys (wire ++ []) := by rwa [List.append_nil]
  unfold SendSystem.step
  rw [act]
  split
  · rename_i i item queue hsend hqueue
    have hahead : sys.ahead = item :: queue := by
      unfold ahead
      rw [hsend, hqueue]
    split_ifs with hround hstop
    · -- `send_task` exits
      rw [Option.getD_some, List.map_nil, List.append_nil]
      refine h.mono rfl ?_ fun t n hn => hn
      rw [hahead]
      exact (List.Sublist.refl wire).append (List.sublist_cons_self ..)
    · rw [Option.getD_some, List.map_nil, List.append_nil]
      refine h.mono rfl ?_ fun t n hn => hn
      rw [hahead]
      exact .refl _
    · exact hidle
  · exact hidle

/-- **Every step that respects the order keeps it.** -/
theorem InOrder.step (h : InOrder outOfRange addr sys wire) {a : Action T}
    (hkeep : KeepsOrder outOfRange addr sys a) :
    InOrder outOfRange addr (SendSystem.step outOfRange sys a).1
      (wire ++ (SendSystem.step outOfRange sys a).2.map Transmission.item) := by
  -- an action that cannot happen changes nothing
  have hidle : InOrder outOfRange addr sys (wire ++ []) := by rwa [List.append_nil]
  unfold SendSystem.step
  cases a with
  | send t dest obj =>
    rw [act]
    split_ifs with hbusy
    · exact hidle
    · rw [Option.getD_some, List.map_nil, List.append_nil]
      have hnone := Option.not_isSome_iff_eq_none.1 hbusy
      exact h.startSending false obj hnone hkeep rfl rfl
  | discover t dest =>
    rw [act]
    split_ifs with hbusy
    · exact hidle
    · rw [Option.getD_some, List.map_nil, List.append_nil]
      exact h.discover dest (Option.not_isSome_iff_eq_none.1 hbusy)
  | sendMustarrive t cmd params =>
    rw [act]
    split_ifs with hbusy
    · exact hidle
    · rw [Option.getD_some, List.map_nil, List.append_nil]
      have hnone : sys.sending t = none := by
        simp only [Bool.or_eq_true, not_or] at hbusy
        exact Option.not_isSome_iff_eq_none.1 hbusy.1.1
      have hstart : InOrder outOfRange addr
          (sys.startSending t (sys.protocol.sendEntry cmd params) true) wire :=
        h.startSending true _ hnone hkeep rfl rfl
      exact hstart.mono rfl (.refl _) fun t n hn => hn
  | enqueue t =>
    rw [act]
    split_ifs with hroom
    · rcases hs : sys.sending t with _ | s
      · exact hidle
      · simp only [Option.map_some, Option.getD_some, List.map_nil, List.append_nil]
        exact h.enqueue hs hkeep.2
    · exact hidle
  | drop t =>
    rw [act]
    split_ifs with hroom
    · exact hidle
    · rcases hs : sys.sending t with _ | s
      · exact hidle
      · simp only [Option.map_some, Option.getD_some, List.map_nil, List.append_nil]
        exact h.stopSending t s
  | resetCounter => exact hkeep.elim
  | acknowledge e =>
    rw [act]
    split_ifs
    · exact hidle
    · rw [Option.getD_some, List.map_nil, List.append_nil]
      exact h.mono rfl (.refl _) fun t n hn => hn
  | receive => exact h.receive
  | transmit =>
    rw [act]
    split
    · rename_i i item hsend
      exact h.transmit hsend
    · exact hidle
  | poll due uninit =>
    rw [act]
    split
    · rename_i i hsend
      split_ifs
      · rcases hround : sys.endRound due uninit with _ | sys'
        · exact hidle
        · rw [Option.map_some, Option.getD_some, List.map_nil, List.append_nil]
          exact h.endRound hsend hround
      · exact hidle
    · exact hidle
  | resendNext =>
    rw [act]
    split
    · rename_i dest kept it todo hsend
      rw [KeepsOrder, hsend] at hkeep
      exact h.retransmit it hsend hkeep.1 hkeep.2
    · rename_i dest kept hsend
      rw [Option.getD_some, List.map_nil, List.append_nil]
      refine h.mono rfl ?_ fun t n hn => hn
      have hahead : sys.ahead = sys.sendQueue := by
        unfold ahead
        rw [hsend]
      rw [hahead]
      exact .refl _
    · exact hidle

/-- What is on its way was so before, or a task has handed it over. -/
theorem ahead_step {a : Action T} {item : QueueItem}
    (h : item ∈ (SendSystem.step outOfRange sys a).1.ahead) :
    item ∈ sys.ahead ∨ ∃ t s, a = .enqueue t ∧ sys.sending t = some s ∧ s.item = item := by
  have hidle (sendTask : SendTask) (hsend : sys.sendTask = sendTask)
      (hnone : ∀ i item, sendTask ≠ .transmit i item) (hmem : item ∈ sys.sendQueue) :
      item ∈ sys.ahead := by
    unfold ahead
    rw [hsend]
    cases sendTask with
    | transmit i item => exact absurd rfl (hnone i item)
    | receive | resend | exited => exact hmem
  unfold SendSystem.step at h
  cases a with
  | send | discover | sendMustarrive =>
    rw [act] at h
    split_ifs at h
    · exact .inl h
    · exact .inl h
  | enqueue t =>
    rw [act] at h
    split_ifs at h
    · rcases hs : sys.sending t with _ | s
      · rw [hs] at h
        exact .inl h
      · rw [hs, Option.map_some, Option.getD_some] at h
        have hahead : ({ sys.stopSending t s with sendQueue := sys.sendQueue ++ [s.item] } :
            SendSystem T).ahead = sys.ahead ++ [s.item] := by
          unfold ahead SendSystem.stopSending
          cases sys.sendTask <;> rfl
        rw [hahead] at h
        rcases List.mem_append.1 h with h | h
        · exact .inl h
        · exact .inr ⟨t, s, rfl, hs, (List.mem_singleton.1 h).symm⟩
    · exact .inl h
  | drop t =>
    rw [act] at h
    split_ifs at h
    · exact .inl h
    · cases hs : sys.sending t with
      | none =>
        rw [hs] at h
        exact .inl h
      | some s =>
        rw [hs] at h
        exact .inl h
  | resetCounter => exact .inl h
  | acknowledge e =>
    rw [act] at h
    split_ifs at h
    · exact .inl h
    · exact .inl h
  | receive =>
    rw [act] at h
    split at h
    · rename_i i first queue hsend hqueue
      have hahead : sys.ahead = first :: queue := by
        unfold ahead
        rw [hsend, hqueue]
      rw [hahead]
      split_ifs at h with hround hstop
      · exact .inl (List.mem_cons_of_mem _ h)
      · exact .inl h
      · exact .inl (hahead ▸ h)
    · exact .inl h
  | transmit =>
    rw [act] at h
    split at h
    · rename_i i first hsend
      have hahead : sys.ahead = first :: sys.sendQueue := by
        unfold ahead
        rw [hsend]
      rw [hahead]
      exact .inl (List.mem_cons_of_mem _ h)
    · exact .inl h
  | poll due uninit =>
    rw [act] at h
    split at h
    · rename_i i hsend
      split_ifs at h
      · unfold SendSystem.endRound at h
        split_ifs at h
        all_goals first
          | exact .inl (hidle _ hsend (by simp) h)
          | exact .inl h
      · exact .inl h
    · exact .inl h
  | resendNext =>
    rw [act] at h
    split at h
    · rename_i dest kept it todo hsend
      exact .inl (hidle _ hsend (by simp) h)
    · rename_i dest kept hsend
      exact .inl (hidle _ hsend (by simp) h)
    · exact .inl h

/-- The bytes of a call of `sendto` are a text, or what is sent of it for an item. -/
theorem data_step {a : Action T} {tr : Transmission}
    (h : tr ∈ (SendSystem.step outOfRange sys a).2) :
    tr.data = tr.item.pkt.str outOfRange ∨
      tr.item ∈ sys.ahead ∧ tr.data = tr.item.sent outOfRange := by
  unfold SendSystem.step at h
  cases a with
  | send | discover | sendMustarrive | acknowledge =>
    rw [act] at h
    split_ifs at h
    · exact absurd h List.not_mem_nil
    · exact absurd h List.not_mem_nil
  | enqueue t | drop t =>
    rw [act] at h
    split_ifs at h
    all_goals first
      | exact absurd h List.not_mem_nil
      | cases hs : sys.sending t with
        | none =>
          rw [hs] at h
          exact absurd h List.not_mem_nil
        | some s =>
          rw [hs] at h
          exact absurd h List.not_mem_nil
  | resetCounter => exact absurd h List.not_mem_nil
  | receive =>
    rw [act] at h
    split at h
    · split_ifs at h
      all_goals exact absurd h List.not_mem_nil
    · exact absurd h List.not_mem_nil
  | transmit =>
    rw [act] at h
    split at h
    · rename_i i first hsend
      have hahead : first ∈ sys.ahead := by
        unfold ahead
        rw [hsend]
        exact List.mem_cons_self
      rw [Option.getD_some, sendFromQueue] at h
      split at h
      · obtain rfl := List.mem_singleton.1 h
        exact .inr ⟨hahead, rfl⟩
      · exact absurd h List.not_mem_nil
    · exact absurd h List.not_mem_nil
  | poll due uninit =>
    rw [act] at h
    split at h
    · split_ifs at h
      · unfold SendSystem.endRound at h
        split_ifs at h
        all_goals exact absurd h List.not_mem_nil
      · exact absurd h List.not_mem_nil
    · exact absurd h List.not_mem_nil
  | resendNext =>
    rw [act] at h
    split at h
    · rename_i dest kept it todo hsend
      obtain ⟨e, -, he⟩ := List.mem_filterMap.1 h
      cases e with
      | transmit item =>
        obtain rfl := Option.some.inj he
        exact .inl rfl
      | enqueue | callback => cases he
    · exact absurd h List.not_mem_nil
    · exact absurd h List.not_mem_nil

variable (outOfRange addr) in
/-- The texts of the packets on their way fit in their items, and those on the wire are whole. -/
structure Whole (sys : SendSystem T) (wire : List Transmission) : Prop where
  ahead : ∀ item ∈ sys.ahead, TextFits outOfRange addr item
  wire : ∀ tr ∈ wire, (counterTo outOfRange addr tr.item).isSome →
    tr.data = tr.item.pkt.str outOfRange

theorem Whole.step {wire : List Transmission} (h : Whole outOfRange addr sys wire) {a : Action T}
    (hkeep : KeepsOrder outOfRange addr sys a) :
    Whole outOfRange addr (SendSystem.step outOfRange sys a).1
      (wire ++ (SendSystem.step outOfRange sys a).2) where
  ahead item hitem := by
    rcases ahead_step hitem with hahead | ⟨t, s, rfl, hs, rfl⟩
    · exact h.ahead item hahead
    · exact hkeep.1 s hs
  wire tr htr hcounter := by
    rcases List.mem_append.1 htr with htr | htr
    · exact h.wire tr htr hcounter
    · rcases data_step htr with hdata | ⟨hahead, hdata⟩
      · exact hdata
      · rw [hdata, QueueItem.sent_eq (h.ahead tr.item hahead hcounter)]

end Runs

end Steps

/-! ## The wire -/

section Wire

variable (outOfRange : BinaryFloat → ℤ) (addr : ProtocolAddr)

/-- The packets to an address on the wire that have a counter. -/
def packetsTo (wire : List Transmission) : List Transmission :=
  wire.filter fun tr => (counterTo outOfRange addr tr.item).isSome

/-- The counters of the packets to an address on the wire. -/
def countersTo (wire : List Transmission) : List ℤ :=
  wire.filterMap fun tr => counterTo outOfRange addr tr.item

/-- The counter that a receiver reads; in a text that is cut it reads none. -/
def Transmission.counter (tr : Transmission) : Option ℤ :=
  if tr.data = tr.item.pkt.str outOfRange then serializedN outOfRange tr.item.pkt else none

/-- A receiver with the packets it is sent; `none` if it drops one of them. -/
def acceptAll (s : Protocol) (wire : List Transmission) : Option Protocol :=
  wire.foldlM (fun s tr =>
    (tr.counter outOfRange).bind fun counter => s.acceptCounter counter false) s

end Wire

/-- The counter test of a receiver, on a list of counters. -/
def acceptCounters (s : Protocol) (counters : List ℤ) : Option Protocol :=
  counters.foldlM (fun s counter => s.acceptCounter counter false) s

/-- A receiver accepts increasing counters. -/
theorem acceptCounters_isSome {counters : List ℤ} (hincr : counters.Pairwise (· < ·)) (s : Protocol)
    (hlow : ∀ n ∈ counters, n = -1 ∨ s.readCounter ≤ n ∧ 0 ≤ n) :
    (acceptCounters s counters).isSome = true := by
  induction counters generalizing s with
  | nil => rfl
  | cons n counters ih =>
    obtain ⟨hlt, htail⟩ := List.pairwise_cons.1 hincr
    rw [acceptCounters, List.foldlM_cons, acceptCounter]
    rcases hlow n (List.mem_cons_self ..) with rfl | ⟨hread, hpos⟩
    · -- the first counter of a session
      rw [if_pos (.inl rfl)]
      refine ih htail _ fun m hm => .inr ?_
      have := hlt m hm
      exact ⟨by change (0 : ℤ) ≤ m; omega, by omega⟩
    · rw [if_neg (by simp; omega), if_neg (by omega)]
      refine ih htail _ fun m hm => .inr ?_
      have := hlt m hm
      exact ⟨by change n ≤ m; omega, by omega⟩

/-- Of whole texts a receiver sees the counters. -/
theorem acceptAll_packetsTo {outOfRange : BinaryFloat → ℤ} {addr : ProtocolAddr}
    {wire : List Transmission} (s : Protocol)
    (h : ∀ tr ∈ wire, (counterTo outOfRange addr tr.item).isSome →
      tr.data = tr.item.pkt.str outOfRange) :
    acceptAll outOfRange s (packetsTo outOfRange addr wire) =
      acceptCounters s (countersTo outOfRange addr wire) := by
  induction wire generalizing s with
  | nil => rfl
  | cons tr wire ih =>
    obtain ⟨hwhole, hwire⟩ := List.forall_mem_cons.1 h
    rcases hcounter : counterTo outOfRange addr tr.item with _ | n
    · have hcounters :
          countersTo outOfRange addr (tr :: wire) = countersTo outOfRange addr wire := by
        simp only [countersTo, List.filterMap_cons, hcounter]
      rw [packetsTo, List.filter_cons_of_neg (by simp [hcounter]), hcounters]
      exact ih s hwire
    · have hread : tr.counter outOfRange = some n := by
        rw [Transmission.counter, if_pos (hwhole (by simp [hcounter])), ← hcounter, counterTo]
        split_ifs with haddr
        · rfl
        · rw [counterTo, if_neg haddr] at hcounter
          cases hcounter
      have hcounters : countersTo outOfRange addr (tr :: wire) =
          n :: countersTo outOfRange addr wire := by
        simp only [countersTo, List.filterMap_cons, hcounter]
      rw [packetsTo, List.filter_cons_of_pos (by simp [hcounter]), hcounters, acceptAll,
        acceptCounters, List.foldlM_cons, List.foldlM_cons, hread, Option.bind_some]
      cases s.acceptCounter n false with
      | none => rfl
      | some s' => exact ih s' hwire

section Session

variable [DecidableEq T] {outOfRange : BinaryFloat → ℤ} {addr : ProtocolAddr} {sys : SendSystem T}
  {actions : List (Action T)}

omit [DecidableEq T] in
theorem SessionStart.inOrder (h : SessionStart outOfRange addr sys) :
    InOrder outOfRange addr sys [] := by
  obtain ⟨hcounter, hahead, hheld⟩ := h
  have hline : line outOfRange addr sys [] = [] := List.filterMap_eq_nil_iff.2 hahead
  have hnobody : held outOfRange addr sys = fun _ => none := funext hheld
  unfold InOrder
  rw [hcounter, hline, hnobody]
  exact Ordered.start le_rfl

omit [DecidableEq T] in
theorem SessionStart.whole (h : SessionStart outOfRange addr sys) :
    Whole outOfRange addr sys [] where
  ahead item hitem hcounter := by
    rw [h.noneOnWay.1 item hitem] at hcounter
    cases hcounter
  wire := nofun

/-- **The packets to an address go out in the order of their counters**, if the session starts
without packets on their way and all steps respect the order: the counters on the wire increase, the
texts are whole, and a receiver whose own session has just started drops none of them. -/
theorem transmitted_increasing (outOfRange : BinaryFloat → ℤ)
    (hstart : SessionStart outOfRange addr sys)
    (hkeep : (SendSystem.step outOfRange).EveryStep (KeepsOrder outOfRange addr) sys actions) :
    let wire :=
      (SendSystem.step outOfRange).outputs ((SendSystem.step outOfRange).trace sys actions)
    (countersTo outOfRange addr wire).Pairwise (· < ·) ∧
      (∀ tr ∈ packetsTo outOfRange addr wire, tr.data = tr.item.pkt.str outOfRange) ∧
      ∀ s : Protocol, s.readCounter ≤ 0 →
        (acceptAll outOfRange s (packetsTo outOfRange addr wire)).isSome := by
  intro wire
  have hrun := hkeep.invariant (t := [])
    (J := fun sys t => InOrder outOfRange addr sys
      (((SendSystem.step outOfRange).outputs t).map Transmission.item))
    (fun sys t a h ha => by
      rw [Machine.outputs_append, Machine.outputs_cons, Machine.outputs_nil, List.append_nil,
        List.map_append]
      exact h.step ha)
    hstart.inOrder
  have hwhole : Whole outOfRange addr _ wire := hkeep.invariant (t := [])
    (J := fun sys t => Whole outOfRange addr sys ((SendSystem.step outOfRange).outputs t))
    (fun sys t a h ha => by
      rw [Machine.outputs_append, Machine.outputs_cons, Machine.outputs_nil, List.append_nil]
      exact h.step ha)
    hstart.whole
  have hcounters : countersTo outOfRange addr wire =
      (wire.map Transmission.item).filterMap (counterTo outOfRange addr) := by
    rw [countersTo, List.filterMap_map]
    rfl
  have hsub : (countersTo outOfRange addr wire).Sublist
      (line outOfRange addr ((SendSystem.step outOfRange).final sys actions)
        (wire.map Transmission.item)) :=
    hcounters ▸ (List.sublist_append_left _ _).filterMap _
  have hincr := hrun.increasing.sublist hsub
  refine ⟨hincr, fun tr htr => ?_, fun s hs => ?_⟩
  · obtain ⟨hmem, hcounter⟩ := List.mem_filter.1 htr
    exact hwhole.wire tr hmem hcounter
  · rw [acceptAll_packetsTo s hwhole.wire]
    refine acceptCounters_isSome hincr s fun n hn => ?_
    have hbound := hrun.line_bounds n (hsub.subset hn)
    omega

end Session

/-! ## Two tasks -/

section Decidable

variable [Fintype T] [DecidableEq T] (outOfRange : BinaryFloat → ℤ) (addr : ProtocolAddr)
  (sys : SendSystem T)

instance (dest : ProtocolAddr) : Decidable (CounterFits addr sys dest) :=
  inferInstanceAs (Decidable (_ ∧ _))

instance : Decidable (NoneOnWay outOfRange addr sys) :=
  inferInstanceAs (Decidable ((∀ item ∈ sys.ahead, _ = _) ∧ ∀ _, _ = _))

instance (task : SendTask) : Decidable (ResendKeepsOrder outOfRange addr sys task) :=
  match task with
  | .resend _ _ (_ :: _) => inferInstanceAs (Decidable (_ ∧ (_ → _)))
  | .resend _ _ [] | .receive _ | .transmit _ _ | .exited => inferInstanceAs (Decidable True)

instance (a : Action T) : Decidable (KeepsOrder outOfRange addr sys a) :=
  match a with
  | .send _ dest _ => inferInstanceAs (Decidable (CounterFits addr sys dest))
  | .sendMustarrive _ _ _ =>
    inferInstanceAs (Decidable (CounterFits addr sys sys.protocol.possessedAddr))
  | .enqueue t => inferInstanceAs (Decidable ((∀ s ∈ sys.sending t,
      ((counterTo outOfRange addr s.item).isSome → (s.item.pkt.str outOfRange).length < 2 ^ 16)) ∧
      ∀ n ∈ held outOfRange addr sys t,
        ∀ t', t' ≠ t → ∀ n' ∈ held outOfRange addr sys t', n < n'))
  | .resendNext => inferInstanceAs (Decidable (ResendKeepsOrder outOfRange addr sys sys.sendTask))
  | .resetCounter => inferInstanceAs (Decidable False)
  | .discover _ _ | .drop _ | .acknowledge _ | .receive | .transmit | .poll _ _ =>
    inferInstanceAs (Decidable True)

end Decidable

/-- A device that was just possessed by a peer, and no task sends. -/
def possessedSystem : SendSystem Bool where
  protocol := (init (literal "owner") (literal "robot") [] true true true).reset (.udp 1 42424)
  sendQueue := []
  mustarriveMutex := false
  sending := fun _ => none
  sendTask := .receive 0

/-- A task takes its counter and hands its item to the queue. -/
def sendWhole (t : Bool) : List (Action Bool) := [.send t (.udp 1 42424) .empty, .enqueue t]

/-- `send_task` empties a queue of some items. -/
def emptyQueue (k : ℕ) : List (Action Bool) := (List.replicate k [.receive, .transmit]).flatten

/-- Two tasks that send one after the other. -/
theorem transmitted_increasing_twoTasks :
    let step := SendSystem.step (T := Bool) fun _ => 0
    let actions := sendWhole true ++ sendWhole false ++ emptyQueue 2
    (countersTo (fun _ => 0) (.udp 1 42424)
      (step.outputs (step.trace possessedSystem actions))).Pairwise (· < ·) :=
  (transmitted_increasing (fun _ => 0) ⟨rfl, by decide +kernel⟩ (by decide +kernel)).1

/-- A task takes the counter 0 and another one the counter 1, and the second is the first to reach
the queue: the counter goes back on the wire, and a receiver drops the overtaken packet. -/
theorem transmitted_overtaken :
    let step := SendSystem.step (T := Bool) fun _ => 0
    let actions := sendWhole true ++ [.send true (.udp 1 42424) .empty,
      .send false (.udp 1 42424) .empty, .enqueue false, .enqueue true] ++ emptyQueue 3
    let wire := step.outputs (step.trace possessedSystem actions)
    SessionStart (fun _ => 0) (.udp 1 42424) possessedSystem ∧
      ¬(countersTo (fun _ => 0) (.udp 1 42424) wire).Pairwise (· < ·) ∧
      (acceptAll (fun _ => 0) possessedSystem.protocol
        (packetsTo (fun _ => 0) (.udp 1 42424) wire)).isNone := by
  intro step actions wire
  exact ⟨⟨rfl, by decide +kernel⟩, by decide +kernel, by decide +kernel⟩

end RbProtocol.Protocol
