import RbProtocol.Library.HighWaterMark
import RbProtocol.Protocol.Sessions

/-!
# Must-arrive packets of the peer

Within a session the mark `m_mustarrive_f` filters must-arrive packets like a high-water mark on
`(uint32_t)f` (`session_refines`), as long as no packet carries `f = -1` once the mark is set: −1
converts to the value that means "no mark".

* `callback_atMostOnce`: under this condition every command is delivered at most once and the mark
  never decreases; `rearmed_delivered_twice` is a session with −1.
* `acknowledged_delivered_iff`: the acknowledgement is sent before the filter looks at the packet,
  so every acknowledged command is delivered exactly if the accepted numbers repeat earlier ones or
  exceed them all; `overtaken_not_delivered` is a session where a command is overtaken.
-/

namespace RbProtocol.Protocol

open Library Json HighWaterMark

variable {outOfRange : BinaryFloat → ℤ}

/-! ## The mark as a high-water mark -/

/-- The key of a must-arrive number in the comparison with `m_mustarrive_f`. -/
def key (f : ℤ) : ℕ := (UInt32.ofInt f).toNat

theorem key_eq (f : ℤ) : (key f : ℤ) = f % 2 ^ 32 := by
  rw [key, UInt32.ofInt, UInt32.toNat_ofNat']
  omega

theorem uint32Max_toNat : uint32Max.toNat = 2 ^ 32 - 1 := rfl

/-- Of the values of an `int`, only −1 converts to the mark of an open filter. -/
theorem key_lt_of_ne {f : ℤ} (hf : int32 f = f) (hne : f ≠ -1) : key f < uint32Max.toNat := by
  have hkey := key_eq f
  rw [int32] at hf
  rw [uint32Max_toNat]
  omega

theorem numberF_int32 {pkt : Packet} {f : ℤ} (h : numberF outOfRange pkt = some f) :
    int32 f = f := by
  rw [numberF] at h
  split_ifs at h
  obtain rfl := Option.some.inj h
  simp only [int32]
  omega

/-- The numbers a high-water-mark filter sees: −1 stays outside of it. -/
def marking (fs : List ℤ) : List ℤ := fs.filter (· ≠ -1)

@[simp] theorem marking_append (fs gs : List ℤ) : marking (fs ++ gs) = marking fs ++ marking gs :=
  List.filter_append ..

theorem marking_singleton {f : ℤ} (h : f ≠ -1) : marking [f] = [f] := by
  simp [marking, h]

/-- The mark and the delivered numbers are those of a high-water-mark filter to which the accepted
numbers were offered. -/
structure Refines (s : UInt32 × Bool) (delivered offered : List ℤ) : Prop where
  int : ∀ f ∈ offered, int32 f = f
  mark : s.1.toNat = (offerAll key (marking offered)).mark.getD uint32Max.toNat
  delivered : marking delivered =
    if s.2 then (offerAll key (marking offered)).passed else []

namespace Refines

variable {s : UInt32 × Bool} {delivered offered : List ℤ}

/-- An open filter, in a new session. -/
theorem start (callback : Bool) : Refines (uint32Max, callback) [] [] :=
  ⟨by simp, rfl, by cases callback <;> rfl⟩

/-- A set mark is not the one of an open filter. -/
theorem mark_lt (h : Refines s delivered offered) {m : ℕ}
    (hm : (offerAll key (marking offered)).mark = some m) : m < uint32Max.toNat := by
  have habove : Exceeds (offerAll key (marking offered)).mark uint32Max.toNat := by
    rw [exceeds_mark_iff]
    intro f hf
    obtain ⟨hmem, hne⟩ := List.mem_filter.1 hf
    exact key_lt_of_ne (h.int f hmem) (of_decide_eq_true hne)
  exact habove m hm

/-- The test of the source is the test of the filter. -/
theorem isRepeated_iff {p : Protocol} (h : Refines p.receiver delivered offered) {f : ℤ} :
    p.isRepeated f = false ↔ Exceeds (offerAll key (marking offered)).mark (key f) := by
  have hmark : p.mustarriveF.toNat = _ := h.mark
  have hrep : p.isRepeated f = false ↔
      p.mustarriveF.toNat = uint32Max.toNat ∨ p.mustarriveF.toNat < key f := by
    rw [isRepeated, Bool.and_eq_false_iff, decide_eq_false_iff_not, decide_eq_false_iff_not,
      not_not,
      UInt32.le_iff_toNat_le, ← UInt32.toNat_inj, not_le, or_comm]
    rfl
  rw [hrep, hmark]
  rcases hcases : (offerAll key (marking offered)).mark with _ | m
  · simp [Exceeds]
  · simp [Exceeds, (h.mark_lt hcases).ne]

/-- **One accepted packet** is offered to the filter. -/
theorem process {p : Protocol} (h : Refines p.receiver delivered offered) (addr : ProtocolAddr)
    {pkt : Packet}
    (hkeep : p.mustarriveF ≠ uint32Max → numberF outOfRange pkt ≠ some (-1)) :
    Refines (p.process outOfRange addr pkt).1.receiver
      (delivered ++ deliveredF outOfRange (p.process outOfRange addr pkt).2)
      (offered ++ (numberF outOfRange pkt).toList) := by
  rcases hf : numberF outOfRange pkt with _ | f
  · obtain ⟨hrec, hout⟩ := p.process_of_numberF_none addr hf
    rw [hrec, hout, Option.toList_none, List.append_nil, List.append_nil]
    exact h
  · obtain ⟨hrec, hout⟩ := p.process_of_numberF addr hf
    rw [hrec, hout, Option.toList_some]
    have hint : ∀ g ∈ offered ++ [f], int32 g = g := by
      intro g hg
      rcases List.mem_append.1 hg with hg | hg
      · exact h.int g hg
      · rw [List.mem_singleton.1 hg]
        exact numberF_int32 hf
    by_cases hne : f = -1
    · -- the filter is open, and −1 leaves it open
      subst hne
      have hopen : p.mustarriveF = uint32Max := not_not.1 fun hset => hkeep hset hf
      have hrep : p.isRepeated (-1) = false := by simp [isRepeated, hopen]
      have hmarking : marking (offered ++ [-1]) = marking offered := by simp [marking]
      refine ⟨hint, ?_, ?_⟩
      · rw [hrep, if_neg Bool.false_ne_true, hmarking, ← h.mark, receiver, hopen]
        rfl
      · rw [hrep, if_neg Bool.false_ne_true, hmarking, marking_append, h.delivered]
        cases hcall : p.callback <;> simp [marking, receiver, hcall]
    · have hoffer : offerAll key (marking (offered ++ [f])) =
          offer key (offerAll key (marking offered)) f := by
        rw [marking_append, marking_singleton hne, offerAll_concat]
      cases hrep : p.isRepeated f
      · -- above the mark
        have hpass := h.isRepeated_iff.1 hrep
        rw [if_neg Bool.false_ne_true, if_neg Bool.false_ne_true]
        refine ⟨hint, ?_, ?_⟩
        · rw [hoffer, offer, if_pos hpass]
          rfl
        · rw [hoffer, offer, if_pos hpass, marking_append, h.delivered]
          cases hcall : p.callback <;> simp [marking, receiver, hcall, hne]
      · -- not above the mark
        have hpass : ¬Exceeds (offerAll key (marking offered)).mark (key f) := by
          rw [← h.isRepeated_iff, hrep]
          decide
        rw [if_pos rfl, if_pos rfl, List.append_nil]
        refine ⟨hint, ?_, ?_⟩
        · rw [hoffer, offer, if_neg hpass]
          exact h.mark
        · rw [hoffer, offer, if_neg hpass]
          exact h.delivered

end Refines

/-! ## Sessions -/

/-- The must-arrive numbers delivered in the steps of a trace. -/
def delivered (outOfRange : BinaryFloat → ℤ) (t : List (Protocol × Op)) : List ℤ :=
  deliveredF outOfRange ((step outOfRange).outputs t)

/-- The must-arrive numbers accepted in the steps of a trace. -/
def offered (outOfRange : BinaryFloat → ℤ) (t : List (Protocol × Op)) : List ℤ :=
  t.filterMap (acceptedF outOfRange)

/-- A must-arrive number is not −1 when the mark is set. -/
def KeepsMark (outOfRange : BinaryFloat → ℤ) (s : Protocol) (op : Op) : Prop :=
  ∀ a ∈ accepted outOfRange s op, a.1.mustarriveF ≠ uint32Max → numberF outOfRange a.2 ≠ some (-1)

instance : DecidableRel (KeepsMark outOfRange) := fun s op =>
  inferInstanceAs (Decidable (∀ a ∈ accepted outOfRange s op, _ → _))

section Session

variable {s : Protocol} {op : Op} {ops : List Op} {t : List (Protocol × Op)}

theorem delivered_concat : delivered outOfRange (t ++ [(s, op)]) =
    delivered outOfRange t ++ deliveredF outOfRange (step outOfRange s op).2 := by
  simp [delivered, Machine.outputs]

theorem offered_concat : offered outOfRange (t ++ [(s, op)]) =
    offered outOfRange t ++ (acceptedF outOfRange (s, op)).toList := by
  rw [offered, List.filterMap_append]
  cases h : acceptedF outOfRange (s, op) <;> simp [offered, h]

/-- One operation inside of a session. -/
theorem refines_step (h : Refines s.receiver (delivered outOfRange t) (offered outOfRange t))
    (hno : ¬startsSession outOfRange s op) (hkeep : KeepsMark outOfRange s op) :
    Refines (step outOfRange s op).1.receiver (delivered outOfRange (t ++ [(s, op)]))
      (offered outOfRange (t ++ [(s, op)])) := by
  rw [delivered_concat, offered_concat, acceptedF]
  rcases hacc : accepted outOfRange s op with _ | ⟨s₁, pkt⟩
  · obtain ⟨hrec, hout⟩ := step_of_not_accepted hacc
    rw [hrec, hout, List.append_nil]
    simpa using h
  · obtain ⟨addr, -, hstep, hrec⟩ := step_of_accepted hacc
    rw [startsSession, hacc, Option.any_some] at hno
    rw [if_neg hno] at hrec
    rw [hstep]
    have hsame : s₁.receiver = s.receiver := hrec
    rw [← hsame] at h
    exact h.process addr (hkeep (s₁, pkt) hacc)

/-- The operation that starts a session. -/
theorem refines_start (hstart : startsSession outOfRange s op) :
    Refines (step outOfRange s op).1.receiver (delivered outOfRange [(s, op)])
      (offered outOfRange [(s, op)]) := by
  rw [← List.nil_append [(s, op)], delivered_concat, offered_concat, acceptedF]
  rcases hacc : accepted outOfRange s op with _ | ⟨s₁, pkt⟩
  · rw [startsSession, hacc] at hstart
    cases hstart
  · obtain ⟨addr, -, hstep, hrec⟩ := step_of_accepted hacc
    rw [startsSession, hacc, Option.any_some] at hstart
    rw [if_pos hstart] at hrec
    rw [hstep]
    have hopen : Refines s₁.receiver [] [] := hrec ▸ Refines.start s.callback
    have hmark : s₁.mustarriveF = uint32Max := congrArg Prod.fst hrec
    exact hopen.process addr fun hset => absurd hmark hset

/-- **A session refines a high-water-mark filter** on the accepted must-arrive numbers. -/
theorem session_refines (hs : Session outOfRange s ops)
    (hkeep : (step outOfRange).EveryStep (KeepsMark outOfRange) s ops) :
    Refines ((step outOfRange).final s ops).receiver
      (delivered outOfRange ((step outOfRange).trace s ops))
      (offered outOfRange ((step outOfRange).trace s ops)) := by
  rcases ops with _ | ⟨op, ops⟩
  · exact hs.elim
  · obtain ⟨hstart, hrest⟩ := hs
    have hboth : (step outOfRange).EveryStep
        (fun s op => ¬startsSession outOfRange s op ∧ KeepsMark outOfRange s op)
        (step outOfRange s op).1 ops := fun c hc =>
      ⟨hrest c hc, (Machine.EveryStep.cons_iff.1 hkeep).2 c hc⟩
    exact hboth.invariant (J := fun s t =>
      Refines s.receiver (delivered outOfRange t) (offered outOfRange t))
      (fun s t op h hop => refines_step h hop.1 hop.2) (refines_start hstart)

end Session

/-! ## At most once -/

section AtMostOnce

variable {s : Protocol} {ops : List Op}

theorem count_marking {f : ℤ} (hf : 0 ≤ f) (fs : List ℤ) : (marking fs).count f = fs.count f := by
  rw [marking, List.count_filter]
  exact decide_eq_true (by omega)

/-- The mark of an initial part of a session stays below that of the whole. -/
theorem Refines.mark_mono {s s' : UInt32 × Bool} {ds ds' fs gs : List ℤ} (h : Refines s ds fs)
    (h' : Refines s' ds' (fs ++ gs)) (hset : s.1 ≠ uint32Max) :
    s'.1 ≠ uint32Max ∧ s.1 ≤ s'.1 := by
  rcases hmark : (offerAll key (marking fs)).mark with _ | m
  · have hopen := h.mark
    rw [hmark] at hopen
    exact absurd (UInt32.toNat_inj.1 hopen) hset
  · obtain ⟨m', hm', hle⟩ := HighWaterMark.mark_mono key (marking gs) hmark
    rw [← marking_append] at hm'
    have heq := h.mark
    have heq' := h'.mark
    rw [hmark, Option.getD_some] at heq
    rw [hm', Option.getD_some] at heq'
    refine ⟨fun hmax => ?_, ?_⟩
    · have hlt := h'.mark_lt hm'
      rw [← heq', hmax] at hlt
      exact lt_irrefl _ hlt
    · rw [UInt32.le_iff_toNat_le, heq, heq']
      exact hle

/-- **Every command is delivered at most once in a session, and the mark never decreases once set**,
if no accepted packet carries `f = -1` while the mark is set. -/
theorem callback_atMostOnce (hs : Session outOfRange s ops)
    (hkeep : (step outOfRange).EveryStep (KeepsMark outOfRange) s ops) :
    (∀ f, 0 ≤ f → (delivered outOfRange ((step outOfRange).trace s ops)).count f ≤ 1) ∧
    ∀ ops₁ ops₂ ops₃, ops = ops₁ ++ ops₂ ++ ops₃ → ops₁ ≠ [] →
      let before := ((step outOfRange).final s ops₁).mustarriveF
      let after := ((step outOfRange).final s (ops₁ ++ ops₂)).mustarriveF
      before ≠ uint32Max → after ≠ uint32Max ∧ before ≤ after := by
  constructor
  · intro f hf
    have hdel := (session_refines hs hkeep).delivered
    rw [← count_marking hf, hdel]
    split_ifs
    · exact List.nodup_iff_count_le_one.1 (nodup_passed key _) f
    · simp
  · rintro ops₁ ops₂ ops₃ rfl hne before after hset
    have hkeep₂ := (Machine.EveryStep.append_iff.1 hkeep).1
    have hs₂ := hs.of_append outOfRange ops₃ (List.append_ne_nil_of_left_ne_nil hne ops₂)
    have hwhole := session_refines hs₂ hkeep₂
    have hpart := session_refines (hs₂.of_append outOfRange ops₂ hne)
      (Machine.EveryStep.append_iff.1 hkeep₂).1
    rw [Machine.trace_append, offered, List.filterMap_append] at hwhole
    exact hpart.mark_mono hwhole hset

end AtMostOnce

/-- A must-arrive command as a peer sends it. -/
def peerCommand (cmd : Bytes) (n f : ℤ) : Packet :=
  ((Packet.empty.set keyC (.string cmd)).set keyN (intNumber n)).set keyF (intNumber f)

/-- Must-arrive commands of one peer, by their counters and numbers. -/
def peerCommands (nfs : List (ℤ × ℤ)) : List Op :=
  nfs.map fun nf => .handleMsg (.udp 1 42424) (peerCommand (literal "joy") nf.1 nf.2)

/-- A device as `start` leaves it. -/
def device : Protocol := init (literal "owner") (literal "robot") [] true true true

/-- A repeated and an overtaken command. -/
theorem callback_atMostOnce_repeated :
    (delivered (fun _ => 0)
      ((step fun _ => 0).trace device (peerCommands
        [(0, 3), (1, 5), (2, 5), (3, 4)]))).count 5 ≤ 1 :=
  (callback_atMostOnce (by decide +kernel) (by decide +kernel)).1 5 (by decide)

/-- After `f = -1` the filter is open again: the command 5 is delivered a second time, and the mark
has gone down from 5 to 3 in between. -/
theorem rearmed_delivered_twice :
    let ops := peerCommands [(0, 5), (1, -1), (2, 3), (3, 5)]
    let mark (k : ℕ) := ((step fun _ => 0).final device (ops.take k)).mustarriveF
    Session (fun _ => 0) device ops ∧
      ¬(delivered (fun _ => 0) ((step fun _ => 0).trace device ops)).count 5 ≤ 1 ∧
      mark 1 = 5 ∧ mark 3 = 3 := by
  decide +kernel

/-! ## Acknowledged commands -/

/-- The operation handles a packet with the must-arrive number `f` and acknowledges it. -/
def Acknowledges (outOfRange : BinaryFloat → ℤ) (c : Protocol × Op) (f : ℤ) : Prop :=
  ∃ addr pkt n, c.2 = .handleMsg addr pkt ∧ numberF outOfRange pkt = some f ∧
    .enqueue ⟨addr, (response (command pkt) (pkt.getInt outOfRange keyF)).set keyN (intNumber n)⟩ ∈
      (step outOfRange c.1 c.2).2

section Acknowledged

variable {s : Protocol} {ops : List Op}

theorem numberF_isSome {pkt : Packet} {f : ℤ} (h : numberF outOfRange pkt = some f) :
    pkt.contains keyF = true := by
  rw [numberF] at h
  split_ifs at h with hf
  exact hf

/-- A must-arrive packet is acknowledged whether or not it is delivered. -/
theorem ack_mem_process (s : Protocol) (addr : ProtocolAddr) {pkt : Packet}
    (h : pkt.contains keyF = true) :
    .enqueue (s.sendTo addr (response (command pkt) (pkt.getInt outOfRange keyF))).2 ∈
      (s.process outOfRange addr pkt).2 := by
  rw [process, if_pos h]
  dsimp only
  split_ifs <;> exact List.mem_cons_self ..

/-- The answer to `discover` is not an acknowledgement. -/
theorem found_ne_response (s : Protocol) (cmd : Bytes) (f n : ℤ) :
    s.found ≠ (response cmd f).set keyN (intNumber n) := by
  intro h
  have hget := congrArg (fun pkt : Packet => pkt.get keyF) h
  simp only [found, response, Packet.get_set, Packet.get_empty] at hget
  revert hget
  simp [storedName, keyF, keyN, keyC, keyOwner, keyName, keyDesc, keyLimit]

/-- Exactly the accepted must-arrive packets are acknowledged. -/
theorem acknowledges_iff (c : Protocol × Op) (f : ℤ) :
    Acknowledges outOfRange c f ↔ acceptedF outOfRange c = some f := by
  obtain ⟨s, op⟩ := c
  constructor
  · rintro ⟨addr, pkt, n, rfl, hf, hmem⟩
    rw [step, handleMsg] at hmem
    rw [acceptedF, accepted]
    split_ifs at hmem with hcmd
    · obtain heq := Effect.enqueue.inj (List.mem_singleton.1 hmem)
      exact absurd (QueueItem.mk.inj heq).2.symm (found_ne_response s _ _ n)
    · rw [if_neg hcmd]
      cases hadmission : s.admission outOfRange addr pkt with
      | none =>
        rw [hadmission] at hmem
        cases hmem
      | some s₁ => exact hf
  · intro h
    obtain ⟨⟨s₁, pkt⟩, hacc, hf⟩ := Option.bind_eq_some_iff.1 h
    obtain ⟨addr, rfl, hstep, -⟩ := step_of_accepted hacc
    refine ⟨addr, pkt, s₁.writeCounter, rfl, hf, ?_⟩
    rw [hstep]
    exact s₁.ack_mem_process addr (numberF_isSome hf)

/-- The must-arrive number an operation receives. -/
def carriedF (outOfRange : BinaryFloat → ℤ) : Op → Option ℤ
  | .handleMsg _ pkt => numberF outOfRange pkt
  | _ => none

/-- The must-arrive numbers that the packets of a run carry are not negative. -/
def NonNegative (outOfRange : BinaryFloat → ℤ) (ops : List Op) : Prop :=
  ∀ op ∈ ops, ∀ f ∈ carriedF outOfRange op, 0 ≤ f

instance : DecidablePred (NonNegative outOfRange) := fun ops =>
  inferInstanceAs (Decidable (∀ op ∈ ops, ∀ f ∈ carriedF outOfRange op, 0 ≤ f))

theorem NonNegative.acceptedF (h : NonNegative outOfRange ops) {c : Protocol × Op}
    (hc : c ∈ (step outOfRange).trace s ops) {f : ℤ} (hf : acceptedF outOfRange c = some f) :
    0 ≤ f := by
  obtain ⟨s', op⟩ := c
  obtain ⟨⟨s₁, pkt⟩, hacc, hnum⟩ := Option.bind_eq_some_iff.1 hf
  obtain ⟨addr, rfl, -, -⟩ := step_of_accepted hacc
  have hmem := List.mem_map_of_mem (f := Prod.snd) hc
  rw [Machine.map_snd_trace] at hmem
  exact h _ hmem f hnum

theorem NonNegative.offered (h : NonNegative outOfRange ops) :
    ∀ f ∈ offered outOfRange ((step outOfRange).trace s ops), 0 ≤ f := by
  intro f hf
  obtain ⟨c, hc, hcf⟩ := List.mem_filterMap.1 hf
  exact h.acceptedF hc hcf

theorem NonNegative.keepsMark (h : NonNegative outOfRange ops) :
    (step outOfRange).EveryStep (KeepsMark outOfRange) s ops := by
  rintro c hc ⟨s₁, pkt⟩ hacc - hf
  have hneg := h.acceptedF hc (f := -1) (Option.bind_eq_some_iff.2 ⟨_, hacc, hf⟩)
  omega

theorem marking_eq_self {fs : List ℤ} (h : ∀ f ∈ fs, 0 ≤ f) : marking fs = fs := by
  rw [marking, List.filter_eq_self]
  intro f hf
  have hnonneg := h f hf
  exact decide_eq_true (by omega)

/-- In a session without negative numbers, the delivered commands are those that pass the filter. -/
theorem mem_delivered_iff (hs : Session outOfRange s ops) (hcall : s.callback = true)
    (h : NonNegative outOfRange ops) {f : ℤ} (hf : 0 ≤ f) :
    f ∈ delivered outOfRange ((step outOfRange).trace s ops) ↔
      f ∈ (offerAll key (offered outOfRange ((step outOfRange).trace s ops))).passed := by
  have hdel := (session_refines hs h.keepsMark).delivered
  rw [receiver, final_callback, hcall, if_pos rfl, marking_eq_self h.offered] at hdel
  rw [← hdel, marking, List.mem_filter, decide_eq_true_iff]
  exact ⟨fun hmem => ⟨hmem, by omega⟩, fun hmem => hmem.1⟩

/-- On values of an `int` that are not negative, the keys are ordered as the values are. -/
theorem key_lt_iff {f g : ℤ} (hf : 0 ≤ f) (hg : 0 ≤ g) (hf' : int32 f = f) (hg' : int32 g = g) :
    key f < key g ↔ f < g := by
  have hkf := key_eq f
  have hkg := key_eq g
  have hbf := int32_bounds f
  have hbg := int32_bounds g
  omega

/-- An acknowledged command of a session is delivered if it passes the filter. -/
theorem acknowledged_delivered_iff_passed (hs : Session outOfRange s ops)
    (hcall : s.callback = true) (hf : NonNegative outOfRange ops) {t u : List (Protocol × Op)}
    {c : Protocol × Op} (hsplit : (step outOfRange).trace s ops = t ++ c :: u) {f : ℤ}
    (hacc : acceptedF outOfRange c = some f) :
    f ∈ delivered outOfRange (t ++ [c]) ↔
      f ∈ (offerAll key (offered outOfRange t ++ [f])).passed := by
  have hc : c ∈ (step outOfRange).trace s ops := by
    rw [hsplit]
    exact List.mem_append_right _ (List.mem_cons_self ..)
  have hnonneg := hf.acceptedF hc hacc
  obtain ⟨ops₁, ops₂, rfl, htrace, hfinal⟩ := Machine.trace_eq_append_cons hsplit
  have hpart : (step outOfRange).trace s (ops₁ ++ [c.2]) = t ++ [c] := by
    rw [Machine.trace_append, htrace, hfinal]
    rfl
  have hoffered : offered outOfRange (t ++ [c]) = offered outOfRange t ++ [f] := by
    rw [offered, List.filterMap_append, List.filterMap_cons_some hacc]
    rfl
  have hsub : ops₁ ++ [c.2] ⊆ ops₁ ++ c.2 :: ops₂ := by simp
  have hs₁ : Session outOfRange s (ops₁ ++ [c.2]) :=
    Session.of_append outOfRange ops₂ (by simpa using hs) (by simp)
  have hiff := mem_delivered_iff hs₁ hcall (fun op hop => hf op (hsub hop)) hnonneg
  rwa [hpart, hoffered] at hiff

/-- **Every acknowledged command of a session is delivered, by the same or an earlier call, exactly
if each accepted number repeats an earlier one or exceeds all of them.** -/
theorem acknowledged_delivered_iff (hs : Session outOfRange s ops) (hcall : s.callback = true)
    (hf : NonNegative outOfRange ops) :
    (∀ t c u, (step outOfRange).trace s ops = t ++ c :: u → ∀ f, Acknowledges outOfRange c f →
      f ∈ delivered outOfRange (t ++ [c])) ↔
    ∀ t c u, (step outOfRange).trace s ops = t ++ c :: u → ∀ f, acceptedF outOfRange c = some f →
      f ∈ offered outOfRange t ∨ ∀ g ∈ offered outOfRange t, g < f := by
  have hint := (session_refines hs hf.keepsMark).int
  have hnonneg := hf.offered (s := s)
  -- in terms of the accepted numbers, both sides speak of a high-water-mark filter
  have hleft : (∀ t c u, (step outOfRange).trace s ops = t ++ c :: u → ∀ f,
      Acknowledges outOfRange c f → f ∈ delivered outOfRange (t ++ [c])) ↔
      ∀ t c u, (step outOfRange).trace s ops = t ++ c :: u → ∀ f, acceptedF outOfRange c = some f →
        f ∈ (offerAll key (offered outOfRange t ++ [f])).passed := by
    simp only [acknowledges_iff]
    exact forall_congr' fun t => forall_congr' fun c => forall_congr' fun u =>
      forall_congr' fun hsplit => forall_congr' fun f => forall_congr' fun hacc =>
        acknowledged_delivered_iff_passed hs hcall hf hsplit hacc
  have hright : (∀ l₁ f l₂, offered outOfRange ((step outOfRange).trace s ops) = l₁ ++ f :: l₂ →
      f ∈ l₁ ∨ ∀ g ∈ l₁, key g < key f) ↔
      ∀ l₁ f l₂, offered outOfRange ((step outOfRange).trace s ops) = l₁ ++ f :: l₂ →
        f ∈ l₁ ∨ ∀ g ∈ l₁, g < f := by
    refine forall_congr' fun l₁ => forall_congr' fun f => forall_congr' fun l₂ =>
      forall_congr' fun hsplit => or_congr_right (forall_congr' fun g => forall_congr' fun hg => ?_)
    rw [hsplit] at hint hnonneg
    have hf : f ∈ l₁ ++ f :: l₂ := List.mem_append_right _ (List.mem_cons_self ..)
    have hg' : g ∈ l₁ ++ f :: l₂ := List.mem_append_left _ hg
    exact key_lt_iff (hnonneg g hg') (hnonneg f hf) (hint g hg') (hint f hf)
  rw [hleft]
  calc
    _ ↔ ∀ l₁ f l₂, offered outOfRange ((step outOfRange).trace s ops) = l₁ ++ f :: l₂ →
        f ∈ (offerAll key (l₁ ++ [f])).passed :=
      (forall_filterMap_split (Q := fun l₁ f => f ∈ (offerAll key (l₁ ++ [f])).passed) _).symm
    _ ↔ _ := forall_mem_passed_iff key _
    _ ↔ _ := hright
    _ ↔ _ := forall_filterMap_split (Q := fun l₁ f => f ∈ l₁ ∨ ∀ g ∈ l₁, g < f) _

end Acknowledged

/-- A command that is sent again, under a fresh counter, because its acknowledgement was lost. -/
theorem acknowledged_delivered_retransmitted :
    let trace := (step fun _ => 0).trace device (peerCommands [(0, 0), (1, 1), (2, 0)])
    ∀ t c u, trace = t ++ c :: u → ∀ f, Acknowledges (fun _ => 0) c f →
      f ∈ delivered (fun _ => 0) (t ++ [c]) := by
  intro trace
  refine (acknowledged_delivered_iff (by decide +kernel) rfl (by decide +kernel)).2 ?_
  refine (forall_filterMap_split (Q := fun l₁ f => f ∈ l₁ ∨ ∀ g ∈ l₁, g < f) trace).1 ?_
  have hoffered : trace.filterMap (acceptedF fun _ => 0) = [0, 1, 0] := by decide +kernel
  rw [hoffered]
  rintro (_ | ⟨a, _ | ⟨b, _ | ⟨c, l₁⟩⟩⟩) f l₂ hl <;> simp at hl ⊢ <;> omega

/-- The command 0 arrives for the first time after the command 1: it is acknowledged, and the
callback never sees it. -/
theorem overtaken_not_delivered :
    let ops := peerCommands [(0, 1), (1, 0)]
    Session (fun _ => 0) device ops ∧ NonNegative (fun _ => 0) ops ∧
      ∃ t c u, (step fun _ => 0).trace device ops = t ++ c :: u ∧ Acknowledges (fun _ => 0) c 0 ∧
        0 ∉ delivered (fun _ => 0) (t ++ [c]) := by
  intro ops
  let s := (step fun _ => 0).final device (peerCommands [(0, 1)])
  let c : Protocol × Op := (s, .handleMsg (.udp 1 42424) (peerCommand (literal "joy") 1 0))
  refine ⟨by decide +kernel, by decide +kernel,
    (step fun _ => 0).trace device (peerCommands [(0, 1)]),
    c, [], rfl, (acknowledges_iff c 0).2 ?_, ?_⟩ <;> decide +kernel

end RbProtocol.Protocol
