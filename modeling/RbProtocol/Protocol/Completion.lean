import RbProtocol.Protocol.MustArrive

/-!
# Completion over many possessions

`is_mustarrive_complete` tells a packet that has left the queue by the absence of its id there, and
the ids start again with each possession.

* `queueIds_step`: an operation appends the ids it issues to those that stay in the queue.
* `completion_stable_iff`: an id that a call of `send_mustarrive` has returned stays complete once
  it is exactly as long as no operation issues it again after its packet has left the queue.
* `Tracks.not_mem_issued`: in one possession no id is issued twice.
-/

namespace RbProtocol.Protocol

open Library Json Retransmission

variable (outOfRange : BinaryFloat → ℤ)

/-- The ids that calls of `send_mustarrive` have returned. -/
def returned (t : List (Protocol × Op)) : List UInt32 :=
  t.filterMap fun c =>
    match c.2 with
    | .sendMustarrive cmd params => some (c.1.sendMustarrive cmd params).2.2
    | _ => none

/-- The ids of the must-arrive queue. -/
def queueIds (s : Protocol) : List UInt32 := s.mustarriveQueue.map MustArrive.id

/-- An operation issues an id that a call has returned, after its packet has left the queue. -/
def Reissues (t : List (Protocol × Op)) (s : Protocol) (op : Op) : Prop :=
  ∃ id ∈ returned t, id ≠ uint32Max ∧ id ∉ s.queueIds ∧ id ∈ issued (events outOfRange s op)

section Step

variable {outOfRange} {s : Protocol} {op : Op}

theorem isMustarriveComplete_iff {id : UInt32} :
    s.isMustarriveComplete id = true ↔ id = uint32Max ∨ id ∉ s.queueIds := by
  simp [isMustarriveComplete, queueIds]

theorem queueIds_sendMustarrive (s : Protocol) (cmd : Bytes) (params : Packet) :
    (s.sendMustarrive cmd params).1.queueIds =
      s.queueIds ++ if s.isPossessed then [s.mustarriveE] else [] := by
  unfold sendMustarrive
  split_ifs
  · exact List.map_append
  · exact (List.append_nil _).symm

theorem queueIds_deliver (s : Protocol) (pkt : Packet) :
    (s.deliver pkt).1.queueIds = s.queueIds ++ issued (s.deliverEvents pkt) := by
  unfold deliver deliverEvents
  by_cases hcmd : command pkt = cmdPossess
  · rw [if_pos hcmd]
    refine (queueIds_sendMustarrive s cmdLog _).trans (congrArg (s.queueIds ++ ·) ?_)
    by_cases hposs : s.isPossessed = true
    · rw [if_pos hposs, if_pos ⟨hcmd, hposs⟩]
      rfl
    · have hno : ¬(command pkt = cmdPossess ∧ s.isPossessed = true) := fun hboth => hposs hboth.2
      rw [if_neg hposs, if_neg hno]
      rfl
  · have hno : ¬(command pkt = cmdPossess ∧ s.isPossessed = true) := fun hboth => hcmd hboth.1
    rw [if_neg hcmd, if_neg hno]
    exact (List.append_nil _).symm

theorem queueIds_process (s : Protocol) (addr : ProtocolAddr) (pkt : Packet) :
    ∃ kept, kept.Sublist s.queueIds ∧ (s.process outOfRange addr pkt).1.queueIds =
      kept ++ issued (s.processEvents outOfRange pkt) := by
  unfold process processEvents
  by_cases hf : pkt.contains keyF = true
  · rw [if_pos hf, if_pos hf]
    refine ⟨s.queueIds, List.Sublist.refl _, ?_⟩
    by_cases hrepeated : s.isRepeated (int32 (pkt.getInt outOfRange keyF)) = true
    · have hack : (s.sendTo addr (response (command pkt) (pkt.getInt outOfRange keyF))).1.isRepeated
          (int32 (pkt.getInt outOfRange keyF)) = true := hrepeated
      simp only
      rw [if_pos hack, if_pos hrepeated]
      exact (List.append_nil _).symm
    · have hack : ¬(s.sendTo addr (response (command pkt)
          (pkt.getInt outOfRange keyF))).1.isRepeated
          (int32 (pkt.getInt outOfRange keyF)) = true := hrepeated
      simp only
      rw [if_neg hack, if_neg hrepeated]
      exact queueIds_deliver _ pkt
  · rw [if_neg hf, if_neg hf]
    by_cases he : pkt.contains keyE = true
    · rw [if_pos he, if_pos he]
      exact ⟨_, List.eraseP_sublist.map MustArrive.id, (List.append_nil _).symm⟩
    · rw [if_neg he, if_neg he]
      exact ⟨s.queueIds, List.Sublist.refl _, queueIds_deliver s pkt⟩

theorem map_fst_filterMap_attempt (l : List (UInt32 × ℤ)) :
    ((l.filterMap attempt).map Prod.fst).Sublist (l.map Prod.fst) := by
  induction l with
  | nil => exact List.Sublist.refl _
  | cons p l ih =>
    rw [List.filterMap_cons]
    unfold attempt
    split_ifs
    · exact ih.cons _
    · exact ih.cons_cons _

theorem queueIds_resend (s : Protocol) (uninit : ProtocolAddr) :
    (s.resendMustarriveLocked uninit).1.queueIds.Sublist s.queueIds := by
  have hprogress := (resendEntries_sender s
    (if s.isPossessed then s.possessedAddr else uninit) s.mustarriveQueue).2
  have hsub := map_fst_filterMap_attempt (s.mustarriveQueue.map progress)
  rw [← hprogress, List.map_map, List.map_map] at hsub
  exact hsub

/-- **An operation appends the ids it issues to those that stay in the queue.** -/
theorem queueIds_step (s : Protocol) (op : Op) :
    ∃ kept, kept.Sublist s.queueIds ∧
      (step outOfRange s op).1.queueIds = kept ++ issued (events outOfRange s op) := by
  cases op with
  | handleMsg addr pkt =>
    rcases hacc : accepted outOfRange s (.handleMsg addr pkt) with _ | ⟨s₁, pkt'⟩
    · rw [(handleMsg_of_not_accepted hacc).1, events, hacc]
      exact ⟨_, List.Sublist.refl _, (List.append_nil _).symm⟩
    · obtain ⟨addr', -, hstep, -⟩ := step_of_accepted hacc
      obtain ⟨kept, hkept, hids⟩ := @queueIds_process outOfRange s₁ addr' pkt'
      have hsender := accepted_sender hacc
      rw [hstep, events, hacc]
      refine ⟨kept, hkept.trans ?_, hids⟩
      split_ifs at hsender
      · rw [queueIds, hsender.1]
        exact List.nil_sublist _
      · have hqueue : s₁.mustarriveQueue = s.mustarriveQueue := congrArg Prod.fst hsender
        rw [queueIds, hqueue]
        exact List.Sublist.refl _
  | send cmd obj =>
    refine ⟨s.queueIds, List.Sublist.refl _, ?_⟩
    refine Eq.trans ?_ (List.append_nil _).symm
    change (s.send cmd obj).1.queueIds = _
    unfold Protocol.send
    split_ifs <;> rfl
  | sendMustarrive cmd params =>
    refine ⟨s.queueIds, List.Sublist.refl _, ?_⟩
    refine (queueIds_sendMustarrive s cmd params).trans (congrArg (s.queueIds ++ ·) ?_)
    rw [events]
    by_cases hposs : s.isPossessed = true
    · rw [if_pos hposs, if_pos hposs, sendMustarrive, if_pos hposs]
      rfl
    · rw [if_neg hposs, if_neg hposs]
      rfl
  | resend uninit => exact ⟨_, queueIds_resend s uninit, (List.append_nil _).symm⟩

/-- An id that is not issued again stays complete. -/
theorem complete_step {id : UInt32} (hcomplete : s.isMustarriveComplete id = true)
    (hid : id ∉ issued (events outOfRange s op)) :
    (step outOfRange s op).1.isMustarriveComplete id = true := by
  obtain ⟨kept, hkept, hids⟩ := @queueIds_step outOfRange s op
  rw [isMustarriveComplete_iff] at hcomplete ⊢
  refine hcomplete.imp_right fun hno => ?_
  rw [hids, List.mem_append, not_or]
  exact ⟨fun hmem => hno (hkept.subset hmem), hid⟩

/-- An id that is issued is not complete. -/
theorem not_complete_step {id : UInt32} (hmax : id ≠ uint32Max)
    (hid : id ∈ issued (events outOfRange s op)) :
    (step outOfRange s op).1.isMustarriveComplete id = false := by
  obtain ⟨kept, -, hids⟩ := @queueIds_step outOfRange s op
  rw [Bool.eq_false_iff, ne_eq, isMustarriveComplete_iff, not_or, not_not, hids]
  exact ⟨hmax, List.mem_append_right _ hid⟩

/-- In one possession with fewer than 2³² packets no id is issued twice. -/
theorem Tracks.not_mem_issued {log : List (Event UInt32)} (h : Tracks s log)
    (hno : startsSession outOfRange s op = false)
    (hbound : (Retransmission.issued (extendLog outOfRange log (s, op))).length < 2 ^ 32)
    {id : UInt32} (hid : id ∈ Retransmission.issued log) :
    id ∉ Retransmission.issued (events outOfRange s op) := by
  intro hagain
  have hpairwise := (h.next hbound).pairwise_issued
  rw [extendLog, hno, if_neg Bool.false_ne_true, issued_append] at hpairwise
  exact UInt32.lt_irrefl id ((List.pairwise_append.1 hpairwise).2.2 id hid id hagain)

theorem returned_append (t u : List (Protocol × Op)) :
    returned (t ++ u) = returned t ++ returned u := List.filterMap_append

end Step

/-- **Completion is stable as long as no returned id is issued again.** Once
`is_mustarrive_complete` is true for an id that a call of `send_mustarrive` has returned, it stays
true, if and only if no operation of the run issues a returned id after its packet has left the
queue. -/
theorem completion_stable_iff (s : Protocol) (ops : List Op) :
    (∀ ops₁ ops₂ ops₃, ops = ops₁ ++ ops₂ ++ ops₃ →
      ∀ id ∈ returned ((step outOfRange).trace s ops₁),
        ((step outOfRange).final s ops₁).isMustarriveComplete id = true →
        ((step outOfRange).final s (ops₁ ++ ops₂)).isMustarriveComplete id = true) ↔
      ∀ ops₁ op ops₂, ops = ops₁ ++ op :: ops₂ →
        ¬Reissues outOfRange ((step outOfRange).trace s ops₁) ((step outOfRange).final s ops₁)
          op := by
  constructor
  · rintro hstable ops₁ op ops₂ hops ⟨id, hreturned, hmax, hleft, hissued⟩
    have hcomplete := isMustarriveComplete_iff.2 (.inr hleft)
    have hafter := hstable ops₁ [op] ops₂ (by rw [hops, List.append_assoc]; rfl) id hreturned
      hcomplete
    rw [Machine.final_append, Machine.final_cons, Machine.final_nil,
      not_complete_step hmax hissued] at hafter
    cases hafter
  · intro hfresh ops₁ ops₂ ops₃ hops id hreturned hcomplete
    induction ops₂ using List.reverseRecOn generalizing ops₃ with
    | nil => rwa [List.append_nil]
    | append_singleton ops₂ op ih =>
      have hbefore := ih (op :: ops₃) (by rw [hops]; simp)
      by_cases hmax : id = uint32Max
      · exact isMustarriveComplete_iff.2 (.inl hmax)
      rw [← List.append_assoc, Machine.final_append, Machine.final_cons, Machine.final_nil]
      refine complete_step hbefore fun hissued => ?_
      refine hfresh (ops₁ ++ ops₂) op ops₃ (by rw [hops]; simp) ⟨id, ?_, hmax, ?_, hissued⟩
      · rw [Machine.trace_append, returned_append]
        exact List.mem_append_left _ hreturned
      · exact (isMustarriveComplete_iff.1 hbefore).resolve_left hmax

/-- A second possession: the packet with the id 1 of the first one is complete, and with the next
packet it is not. -/
theorem completion_unstable :
    let possess := (Packet.empty.set keyC (.string cmdPossess)).set keyN (intNumber 0)
    let session : List Op :=
      [.handleMsg (.udp 1 42424) possess, .sendMustarrive (literal "state") .empty]
    let next : List Op := [.handleMsg (.udp 1 42424) possess]
    let start := init [] [] [] true true true
    1 ∈ returned ((step fun _ => 0).trace start session) ∧
      ((step fun _ => 0).final start (session ++ next)).isMustarriveComplete 1 = true ∧
      ((step fun _ => 0).final start (session ++ session)).isMustarriveComplete 1 = false := by
  decide +kernel

end RbProtocol.Protocol
