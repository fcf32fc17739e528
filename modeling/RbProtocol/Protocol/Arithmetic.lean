import RbProtocol.Library.Checked
import RbProtocol.Protocol.Counter

/-!
# Arithmetic of `handle_msg`

`handle_msg` reads the numbers `n`, `f` and `e` of a packet with `getInt`, which converts a `float`
to `int64_t`, stores `n` and `f` in an `int`, and subtracts the counter from `m_read_counter`. None
of these operations is guarded. `handleMsg?` is `handle_msg` with an error in place of a conversion
or a difference out of range.

* `handleMsg?_eq`: it is `handle_msg` on the packets of `ArithmeticInRange`, and fails on others.
* `arithmetic_defined_iff`: so a run is free of such errors exactly if each of its packets meets
  this condition.
* `arithmetic_undefined`: runs that are not, by one number out of range and by two in range.
-/

namespace RbProtocol.Protocol

open Library Json

/-! ## The code, with checks -/

/-- `Object::getInt`, with an error if the number is out of the range of `int64_t`. -/
def getInt? (pkt : Packet) (key : Key) : Option ℤ :=
  match pkt.get key with
  | some (.number value) => value.toInt? (-2 ^ 63) (2 ^ 63 - 1)
  | _ => some 0

/-- The test for a counter that is less than 25 behind. -/
def isBehind? (s : Protocol) (counter : ℤ) : Option Bool :=
  if counter < s.readCounter then (sub? 31 s.readCounter counter).map fun d => d < 25
  else some false

/-- The counter test of `handle_msg`. -/
def acceptCounter? (s : Protocol) (counter : ℤ) (isPossessCmd : Bool) : Option (Option Protocol) :=
  if counter = -1 ∨ isPossessCmd then some (some { s with readCounter := 0, writeCounter := 0 })
  else
    (s.isBehind? counter).map fun behind =>
      if behind then none else some { s with readCounter := counter }

/-- `handle_msg` from the test for a counter to the possession reset. -/
def admission? (s : Protocol) (addr : ProtocolAddr) (pkt : Packet) : Option (Option Protocol) :=
  if pkt.contains keyN then
    (getInt? pkt keyN).bind fun n =>
    (toSigned? 31 n).bind fun counter =>
    (s.acceptCounter? counter (command pkt = cmdPossess)).map fun admitted =>
      admitted.map fun s => if s.isReset pkt then s.reset addr else s
  else some none

/-- `handle_msg` after the possession reset. The number `f` is read twice. -/
def process? (s : Protocol) (addr : ProtocolAddr) (pkt : Packet) :
    Option (Protocol × List Effect) :=
  if pkt.contains keyF then
    (getInt? pkt keyF).bind fun sent =>
    (getInt? pkt keyF).bind fun read =>
    (toSigned? 31 read).map fun f =>
      let ack := s.sendTo addr (response (command pkt) sent)
      if ack.1.isRepeated f then (ack.1, [.enqueue ack.2])
      else
        let r := { ack.1 with mustarriveF := .ofInt f }.deliver pkt
        (r.1, .enqueue ack.2 :: r.2)
  else if pkt.contains keyE then
    (getInt? pkt keyE).map fun e =>
      ({ s with mustarriveQueue := removeEntry s.mustarriveQueue (.ofInt e) }, [])
  else some (s.deliver pkt)

/-- `Protocol::handle_msg`. -/
def handleMsg? (s : Protocol) (addr : ProtocolAddr) (pkt : Packet) :
    Option (Protocol × List Effect) :=
  if command pkt = cmdDiscover then some (s, [.enqueue ⟨addr, s.found⟩])
  else
    (s.admission? addr pkt).bind fun
      | some s => s.process? addr pkt
      | none => some (s, [])

/-- An operation on the state, with checks in `handle_msg`. -/
def step? : CheckedMachine Protocol Op Effect
  | s, .handleMsg addr pkt => s.handleMsg? addr pkt
  | s, .send cmd obj => some (s.send cmd obj)
  | s, .sendMustarrive cmd params =>
    some ((s.sendMustarrive cmd params).1, (s.sendMustarrive cmd params).2.1)
  | s, .resend uninit => some (s.resendMustarriveLocked uninit)

/-! ## The condition -/

/-- The number a key holds. -/
def numberAt (pkt : Packet) (key : Key) : Option BinaryFloat :=
  match pkt.get key with
  | some (.number value) => some value
  | _ => none

/-- If the key holds a number, this is finite and at least `-2 ^ w` and less than `2 ^ w`, up to
its fraction. -/
def NumberFits (w : ℕ) (pkt : Packet) (key : Key) : Prop := ∀ x ∈ numberAt pkt key, x.FitsSigned w

instance (w : ℕ) (pkt : Packet) (key : Key) : Decidable (NumberFits w pkt key) :=
  inferInstanceAs (Decidable (∀ x ∈ numberAt pkt key, x.FitsSigned w))

/-- The integer part of the number a key holds, and 0 if it holds none. -/
def integerAt (pkt : Packet) (key : Key) : ℤ :=
  ((numberAt pkt key).map BinaryFloat.integerPart).getD 0

/-- How far the counter of a packet is behind `m_read_counter`. -/
def lag (s : Protocol) (pkt : Packet) : ℤ := s.readCounter - integerAt pkt keyN

/-- The packet resets the counters. -/
def ResetsCounters (pkt : Packet) : Prop := integerAt pkt keyN = -1 ∨ command pkt = cmdPossess

instance : DecidablePred ResetsCounters := fun _ => inferInstanceAs (Decidable (_ ∨ _))

/-- The counter is an `int`, and not too far behind `m_read_counter` unless it resets it. -/
def CounterInRange (s : Protocol) (pkt : Packet) : Prop :=
  NumberFits 31 pkt keyN ∧ (ResetsCounters pkt ∨ s.lag pkt < 2 ^ 31)

/-- The must-arrive number that is looked at fits into the type it is read as. -/
def FieldsFit (pkt : Packet) : Prop :=
  if pkt.contains keyF then NumberFits 31 pkt keyF else NumberFits 63 pkt keyE

/-- The condition on a packet, in the state that meets it: a packet with a counter has one that
fits, and unless it is refused its must-arrive numbers fit, too. -/
def ArithmeticInRange (s : Protocol) : Op → Prop
  | .handleMsg _ pkt => command pkt = cmdDiscover ∨ ¬pkt.contains keyN ∨
      CounterInRange s pkt ∧
        (¬ResetsCounters pkt ∧ 0 < s.lag pkt ∧ s.lag pkt < 25 ∨ FieldsFit pkt)
  | _ => True

instance (s : Protocol) (pkt : Packet) : Decidable (CounterInRange s pkt) :=
  inferInstanceAs (Decidable (_ ∧ _))

instance : DecidablePred FieldsFit := fun _ =>
  inferInstanceAs (Decidable (ite _ _ _))

instance : DecidableRel ArithmeticInRange
  | _, .handleMsg .. => inferInstanceAs (Decidable (_ ∨ _))
  | _, .send .. | _, .sendMustarrive .. | _, .resend .. => inferInstanceAs (Decidable True)

/-! ## The checks succeed under the condition -/

section Checks

variable {outOfRange : BinaryFloat → ℤ} {s : Protocol} {pkt : Packet} {key : Key}

theorem getInt_eq_numberAt (pkt : Packet) (key : Key) : pkt.getInt outOfRange key =
    ((numberAt pkt key).map (toLongLong outOfRange)).getD 0 := by
  unfold Packet.getInt numberAt
  rcases pkt.get key with _ | value
  · rfl
  · cases value <;> rfl

theorem getInt?_eq_numberAt (pkt : Packet) (key : Key) : getInt? pkt key =
    (numberAt pkt key).elim (some 0) (BinaryFloat.toInt? (-2 ^ 63) (2 ^ 63 - 1)) := by
  unfold getInt? numberAt
  rcases pkt.get key with _ | value
  · rfl
  · cases value <;> rfl

theorem numberFits_iff {w : ℕ} {x : BinaryFloat} (h : numberAt pkt key = some x) :
    NumberFits w pkt key ↔ x.FitsSigned w := by
  rw [NumberFits, h]
  simp

theorem numberFits_of_none (w : ℕ) (h : numberAt pkt key = none) : NumberFits w pkt key := by
  rw [NumberFits, h]
  simp

/-- The conversion in `getInt`. -/
theorem getInt?_eq (outOfRange : BinaryFloat → ℤ) (pkt : Packet) (key : Key) : getInt? pkt key =
    if NumberFits 63 pkt key then some (pkt.getInt outOfRange key) else none := by
  rw [getInt?_eq_numberAt, getInt_eq_numberAt]
  cases hx : numberAt pkt key with
  | none => rw [if_pos (numberFits_of_none 63 hx)]; rfl
  | some x =>
    rw [Option.elim_some, Option.map_some, Option.getD_some, toLongLong, BinaryFloat.toInt?_signed]
    simp only [numberFits_iff hx]
    split_ifs <;> rfl

/-- What `getInt` reads. -/
theorem getInt_of_numberFits (h : NumberFits 63 pkt key) :
    pkt.getInt outOfRange key = integerAt pkt key := by
  rw [getInt_eq_numberAt, integerAt]
  cases hx : numberAt pkt key with
  | none => rfl
  | some x =>
    rw [Option.map_some, Option.getD_some, toLongLong, BinaryFloat.toInt?_signed,
      if_pos ((numberFits_iff hx).1 h)]
    rfl

/-- A number that fits into `int` fits into `int64_t`, and so does its integer part into `int`. -/
theorem numberFits_int_iff : NumberFits 31 pkt key ↔ NumberFits 63 pkt key ∧
    -2 ^ 31 ≤ integerAt pkt key ∧ integerAt pkt key < 2 ^ 31 := by
  rw [integerAt]
  cases hx : numberAt pkt key with
  | none => simp [numberFits_of_none _ hx]
  | some x =>
    rw [numberFits_iff hx, numberFits_iff hx, Option.map_some, Option.getD_some]
    exact BinaryFloat.fitsSigned_iff_of_le (by decide)

/-- The two conversions of `int x = pkt->getInt(...)`. -/
theorem readInt?_eq (outOfRange : BinaryFloat → ℤ) (pkt : Packet) (key : Key) :
    (getInt? pkt key).bind (toSigned? 31) =
      if NumberFits 31 pkt key then some (int32 (pkt.getInt outOfRange key)) else none := by
  rw [getInt?_eq outOfRange]
  by_cases h : NumberFits 63 pkt key
  · have hread := @getInt_of_numberFits outOfRange pkt key h
    rw [if_pos h, Option.bind_some, hread, toSigned?]
    by_cases hint : -2 ^ 31 ≤ integerAt pkt key ∧ integerAt pkt key < 2 ^ 31
    · rw [if_pos hint, if_pos (numberFits_int_iff.2 ⟨h, hint⟩), int32_eq_self hint.1 hint.2]
    · rw [if_neg hint, if_neg fun hall => hint (numberFits_int_iff.1 hall).2]
  · rw [if_neg h, if_neg fun hall => h (numberFits_int_iff.1 hall).1]
    rfl

/-- The counter of a packet that fits. -/
theorem counter_of_numberFits (h : NumberFits 31 pkt keyN) :
    int32 (pkt.getInt outOfRange keyN) = integerAt pkt keyN := by
  obtain ⟨hlong, hlo, hhi⟩ := numberFits_int_iff.1 h
  rw [getInt_of_numberFits hlong, int32_eq_self hlo hhi]

/-- The counter test subtracts counters that fit. -/
theorem acceptCounter?_eq (s : Protocol) (counter : ℤ) (isPossessCmd : Bool) :
    s.acceptCounter? counter isPossessCmd =
      if (counter = -1 ∨ isPossessCmd = true) ∨ s.readCounter - counter < 2 ^ 31 then
        some (s.acceptCounter counter isPossessCmd) else none := by
  rw [acceptCounter?, acceptCounter]
  by_cases hreset : counter = -1 ∨ isPossessCmd = true
  · rw [if_pos hreset, if_pos hreset, if_pos (.inl hreset)]
  · rw [if_neg hreset, if_neg hreset, isBehind?]
    simp only [hreset, false_or]
    by_cases hlt : counter < s.readCounter
    · rw [if_pos hlt, sub?_of_le 31 hlt.le]
      by_cases hlag : s.readCounter - counter < 2 ^ 31
      · have hint : int32 (s.readCounter - counter) = s.readCounter - counter :=
          int32_eq_self (by omega) hlag
        rw [if_pos hlag, if_pos hlag, hint]
        by_cases hbehind : s.readCounter - counter < 25
        · simp [hlt, hbehind]
        · simp [hbehind]
      · rw [if_neg hlag, if_neg hlag]
        rfl
    · have hlag : s.readCounter - counter < 2 ^ 31 := by omega
      rw [if_neg hlt, if_pos hlag]
      simp [hlt]

theorem admission?_eq (outOfRange : BinaryFloat → ℤ) (s : Protocol) (addr : ProtocolAddr)
    (pkt : Packet) : s.admission? addr pkt =
      if ¬pkt.contains keyN ∨ CounterInRange s pkt then some (s.admission outOfRange addr pkt)
      else none := by
  rw [admission?, admission]
  by_cases hn : pkt.contains keyN = true
  · rw [if_pos hn, if_pos hn, ← Option.bind_assoc, readInt?_eq outOfRange]
    by_cases hfits : NumberFits 31 pkt keyN
    · rw [if_pos hfits, Option.bind_some, acceptCounter?_eq, counter_of_numberFits hfits]
      by_cases hlag : (integerAt pkt keyN = -1 ∨ decide (command pkt = cmdPossess) = true) ∨
          s.readCounter - integerAt pkt keyN < 2 ^ 31
      · have hcounter : CounterInRange s pkt := ⟨hfits, by simpa [ResetsCounters, lag] using hlag⟩
        rw [if_pos hlag, if_pos (.inr hcounter)]
        rfl
      · have hcounter : ¬CounterInRange s pkt := by
          rintro ⟨-, hall⟩
          exact hlag (by simpa [ResetsCounters, lag] using hall)
        rw [if_neg hlag, if_neg (not_or.2 ⟨not_not.2 hn, hcounter⟩)]
        rfl
    · have hcounter : ¬CounterInRange s pkt := fun hall => hfits hall.1
      rw [if_neg hfits, if_neg (not_or.2 ⟨not_not.2 hn, hcounter⟩)]
      rfl
  · rw [if_neg hn, if_neg hn, if_pos (.inl hn)]

theorem process?_eq (outOfRange : BinaryFloat → ℤ) (s : Protocol) (addr : ProtocolAddr)
    (pkt : Packet) : s.process? addr pkt =
      if FieldsFit pkt then some (s.process outOfRange addr pkt) else none := by
  rw [process?, process]
  by_cases hf : pkt.contains keyF = true
  · have hfields : FieldsFit pkt ↔ NumberFits 31 pkt keyF := by rw [FieldsFit, if_pos hf]
    have hread := readInt?_eq outOfRange pkt keyF
    rw [if_pos hf, if_pos hf]
    simp only [hfields]
    rw [getInt?_eq outOfRange] at hread ⊢
    by_cases hlong : NumberFits 63 pkt keyF
    · rw [if_pos hlong, Option.bind_some] at hread ⊢
      rw [Option.bind_some, hread]
      by_cases hint : NumberFits 31 pkt keyF
      · rw [if_pos hint, if_pos hint, Option.map_some]
      · rw [if_neg hint, if_neg hint, Option.map_none]
    · have hint : ¬NumberFits 31 pkt keyF := fun h => hlong (numberFits_int_iff.1 h).1
      rw [if_neg hlong, if_neg hint, Option.bind_none]
  · have hfields : FieldsFit pkt ↔ NumberFits 63 pkt keyE := by rw [FieldsFit, if_neg hf]
    rw [if_neg hf, if_neg hf]
    simp only [hfields]
    by_cases he : pkt.contains keyE = true
    · rw [if_pos he, if_pos he, getInt?_eq outOfRange]
      split_ifs <;> rfl
    · have hnone : pkt.get keyE = none := by
        rwa [Packet.contains_eq_isSome_get, Option.not_isSome_iff_eq_none] at he
      have hnumber : numberAt pkt keyE = none := by rw [numberAt, hnone]
      rw [if_neg he, if_neg he, if_pos (numberFits_of_none 63 hnumber)]

/-- A packet with a counter that fits is refused if it is less than 25 behind. -/
theorem admission_eq_none (outOfRange : BinaryFloat → ℤ) (s : Protocol) (addr : ProtocolAddr)
    {pkt : Packet} (hn : pkt.contains keyN = true) (hfits : CounterInRange s pkt) :
    s.admission outOfRange addr pkt = none ↔
      ¬ResetsCounters pkt ∧ 0 < s.lag pkt ∧ s.lag pkt < 25 := by
  rw [admission, if_pos hn, Option.map_eq_none_iff, acceptCounter, counter_of_numberFits hfits.1]
  have hcond : (integerAt pkt keyN = -1 ∨ decide (command pkt = cmdPossess) = true) ↔
      ResetsCounters pkt := by rw [decide_eq_true_iff]; rfl
  simp only [hcond]
  by_cases hreset : ResetsCounters pkt
  · rw [if_pos hreset]
    exact ⟨fun h => absurd h (Option.some_ne_none _), fun h => absurd hreset h.1⟩
  · have hlag : s.readCounter - integerAt pkt keyN < 2 ^ 31 := hfits.2.resolve_left hreset
    rw [if_neg hreset, lag]
    by_cases hlt : integerAt pkt keyN < s.readCounter
    · rw [int32_eq_self (by omega) hlag]
      simp [hreset, hlt]
    · simp [hlt]

/-- **The checks of `handle_msg` succeed exactly under the condition.** -/
theorem handleMsg?_eq (outOfRange : BinaryFloat → ℤ) (s : Protocol) (addr : ProtocolAddr)
    (pkt : Packet) : s.handleMsg? addr pkt =
      if ArithmeticInRange s (.handleMsg addr pkt) then some (s.handleMsg outOfRange addr pkt)
      else none := by
  rw [handleMsg?, handleMsg]
  by_cases hdiscover : command pkt = cmdDiscover
  · have hin : ArithmeticInRange s (.handleMsg addr pkt) := .inl hdiscover
    rw [if_pos hdiscover, if_pos hdiscover, if_pos hin]
  rw [if_neg hdiscover, if_neg hdiscover, admission?_eq outOfRange]
  by_cases hn : pkt.contains keyN = true
  · by_cases hfits : CounterInRange s pkt
    · rw [if_pos (.inr hfits), Option.bind_some]
      have hnone := s.admission_eq_none outOfRange addr hn hfits
      cases hadmission : s.admission outOfRange addr pkt with
      | none =>
        have hin : ArithmeticInRange s (.handleMsg addr pkt) :=
          .inr (.inr ⟨hfits, .inl (hnone.1 hadmission)⟩)
        rw [if_pos hin]
      | some s₁ =>
        rw [hadmission] at hnone
        have hrefused : ¬(¬ResetsCounters pkt ∧ 0 < s.lag pkt ∧ s.lag pkt < 25) :=
          fun h => absurd (hnone.2 h) (Option.some_ne_none _)
        have hin : ArithmeticInRange s (.handleMsg addr pkt) ↔ FieldsFit pkt := by
          constructor
          · rintro (h | h | ⟨-, h | h⟩)
            · exact absurd h hdiscover
            · exact absurd hn h
            · exact absurd h hrefused
            · exact h
          · exact fun h => .inr (.inr ⟨hfits, .inr h⟩)
        simp only [hin]
        exact process?_eq outOfRange s₁ addr pkt
    · have hin : ¬ArithmeticInRange s (.handleMsg addr pkt) := by
        rintro (h | h | h)
        · exact hdiscover h
        · exact h hn
        · exact hfits h.1
      rw [if_neg (not_or.2 ⟨not_not.2 hn, hfits⟩), if_neg hin, Option.bind_none]
  · have hin : ArithmeticInRange s (.handleMsg addr pkt) := .inr (.inl hn)
    rw [if_pos (.inl hn), if_pos hin, Option.bind_some, admission, if_neg hn]

end Checks

/-! ## Runs -/

section Runs

variable (outOfRange : BinaryFloat → ℤ) (s : Protocol)

theorem step?_eq (op : Op) : step? s op =
    if ArithmeticInRange s op then some (step outOfRange s op) else none := by
  cases op with
  | handleMsg addr pkt => exact handleMsg?_eq outOfRange s addr pkt
  | send | sendMustarrive | resend => exact (if_pos trivial).symm

/-- A run without errors is the run of the code without checks. -/
theorem run?_eq (ops : List Op) : step?.run s ops =
    if (step outOfRange).EveryStep ArithmeticInRange s ops then
      some ((step outOfRange).final s ops,
        (step outOfRange).outputs ((step outOfRange).trace s ops))
    else none :=
  CheckedMachine.run_eq (step?_eq outOfRange) s ops

/-- **All arithmetic of a run is in range** exactly if each packet meets the condition in the state
that handles it. -/
theorem arithmetic_defined_iff (ops : List Op) : (step?.run s ops).isSome ↔
    (step outOfRange).EveryStep ArithmeticInRange s ops := by
  rw [run?_eq outOfRange]
  split_ifs with h
  · exact ⟨fun _ => h, fun _ => rfl⟩
  · exact ⟨fun hsome => absurd hsome Bool.false_ne_true, fun hall => absurd hall h⟩

end Runs

/-- A packet with a counter that is no `int`, one with a must-arrive number that is no `int64_t`,
and two packets with counters that are `int`s with a difference that is none. -/
theorem arithmetic_undefined :
    step?.run device (streamOf [10 ^ 10]) = none ∧
    step?.run device (peerCommands [(0, 10 ^ 19)]) = none ∧
    (step?.run device (streamOf [2 ^ 31 - 128])).isSome ∧
    (step?.run device (streamOf [-2 ^ 31])).isSome ∧
    step?.run device (streamOf [2 ^ 31 - 128, -2 ^ 31]) = none := by
  decide +kernel

end RbProtocol.Protocol
