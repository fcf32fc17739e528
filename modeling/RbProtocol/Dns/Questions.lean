import RbProtocol.Dns.Names

/-!
# The question loop

A question is a name, a type and a class. While the questions of a request are complete and their
names fit `out_buf`, the loop walks over them and appends one record for each question of type A
(`answerQuestions_complete`); it stops early at a rejected name (`answerQuestions_rejected`), and it
returns without a fault in no other case (`answerQuestions_ok`).
-/

namespace RbProtocol.Dns

open Library

/-- A question of a request. -/
structure Question where
  labels : List Label
  type : UInt16
  clazz : UInt16

/-- The bytes of a question: its labels, the closing zero, its type and its class. -/
def Question.encode (q : Question) : Bytes :=
  encodeLabels q.labels ++ 0 :: (htons q.type.toNat ++ htons q.clazz.toNat)

/-- The name is not the root and fits `out_buf`. -/
def Question.Fits (q : Question) : Prop :=
  q.labels ≠ [] ∧ (encodeLabels q.labels).length ≤ outBufSize

/-- A question section. -/
def encodeQuestions (qs : List Question) : Bytes := qs.flatMap Question.encode

/-- The questions the server answers. -/
def Question.isTypeA (q : Question) : Bool := q.type.toNat = qdTypeA

/-- The answer records to questions whose section starts at offset `off`. -/
def answers (espIp : UInt32) : ℕ → List Question → Bytes
  | _, [] => []
  | off, q :: qs =>
    (if q.isTypeA then dnsAnswer off q.type.toNat q.clazz.toNat espIp else []) ++
      answers espIp (off + q.encode.length) qs

/-- The number of questions of type A. -/
def countA (qs : List Question) : ℕ := qs.countP Question.isTypeA

@[simp] theorem encodeQuestions_nil : encodeQuestions [] = [] := rfl

@[simp] theorem encodeQuestions_cons (q : Question) (qs : List Question) :
    encodeQuestions (q :: qs) = q.encode ++ encodeQuestions qs := rfl

theorem encodeQuestions_append (qs qs' : List Question) :
    encodeQuestions (qs ++ qs') = encodeQuestions qs ++ encodeQuestions qs' := List.flatMap_append

@[simp] theorem length_dnsAnswer (off type clazz : ℕ) (espIp : UInt32) :
    (dnsAnswer off type clazz espIp).length = answerSize := rfl

theorem Question.length_encode (q : Question) :
    q.encode.length = (encodeLabels q.labels).length + 1 + questionSize := by
  simp only [Question.encode, List.length_append, List.length_cons, length_htons, questionSize]

theorem length_answers (espIp : UInt32) (off : ℕ) (qs : List Question) :
    (answers espIp off qs).length = countA qs * answerSize := by
  induction qs generalizing off with
  | nil => simp [answers, countA]
  | cons q qs ih =>
    simp only [answers, List.length_append, ih, countA, List.countP_cons]
    split_ifs <;> simp
    ring

theorem countA_le_length (qs : List Question) : countA qs ≤ qs.length := List.countP_le_length

/-! ## One question -/

variable {reqSize k : ℕ} {espIp : UInt32} {s : Loop} {rest : Bytes}

theorem sizeT_sub {a b : ℕ} (h : b ≤ a) (ha : a < 2 ^ 32) : sizeT ((a : ℤ) - b) = a - b := by
  rw [sizeT]
  omega

/-- Where request bytes are left, the cursor is inside the request. -/
theorem length_of_drop {i n : ℕ} {buff : Bytes} (hn : n ≤ buff.length)
    (h : (buff.take n).drop i = rest) (hne : rest ≠ []) : i + rest.length = n ∧ i ≤ n := by
  have hlen := congrArg List.length h
  have := List.length_pos_iff.2 hne
  rw [List.length_drop, List.length_take] at hlen
  omega

/-- The length that `parseDnsName` gets for a name is what is left of the request. -/
theorem parseDnsName_eq (hreq : reqSize ≤ s.buff.length) (hlimit : reqSize ≤ dnsMsgSizeLimit)
    (h : (s.buff.take reqSize).drop s.curQuestion = rest) (hne : rest ≠ []) :
    parseDnsName (s.buff.take reqSize) s.curQuestion (sizeT ((reqSize : ℤ) - s.curQuestion)) =
      parseDnsLabels (s.buff.take reqSize) s.curQuestion [] (min rest.length outBufSize) := by
  obtain ⟨hlen, hle⟩ := length_of_drop hreq h hne
  have : dnsMsgSizeLimit = 256 := rfl
  rw [parseDnsName, sizeT_sub hle (by omega), show reqSize - s.curQuestion = rest.length by omega]

/-- What the loop does with a complete question: pass over it, and answer it if it is of type A. -/
def Loop.afterQuestion (s : Loop) (q : Question) (espIp : UInt32) : Except Fault Loop :=
  if q.isTypeA then do
    let buff ← orFault .bufferWrite
      (writeAt? s.buff s.curAns (dnsAnswer s.curQuestion q.type.toNat q.clazz.toNat espIp))
    return { buff := buff
             curQuestion := s.curQuestion + q.encode.length
             curAns := s.curAns + answerSize
             answerCount := s.answerCount + 1 }
  else return { s with curQuestion := s.curQuestion + q.encode.length }

/-- A complete question takes one round. -/
theorem answerQuestions_question (q : Question) (hq : q.Fits) (hreq : reqSize ≤ s.buff.length)
    (hlimit : reqSize ≤ dnsMsgSizeLimit)
    (h : (s.buff.take reqSize).drop s.curQuestion = q.encode ++ rest) :
    answerQuestions reqSize espIp (k + 1) s =
      s.afterQuestion q espIp >>= answerQuestions reqSize espIp k := by
  have hname : (s.buff.take reqSize).drop s.curQuestion =
      encodeLabels q.labels ++ 0 :: (htons q.type.toNat ++ htons q.clazz.toNat ++ rest) := by
    rw [h, Question.encode]
    simp
  have hne : q.encode ++ rest ≠ [] := by simp [Question.encode]
  have hlen : (q.encode ++ rest).length = q.encode.length + rest.length := List.length_append
  have hparse := parseDnsName_eq hreq hlimit h hne
  rw [parseDnsLabels_accept q.labels hq.1 hname
    (le_min (by rw [hlen, q.length_encode]; omega) hq.2) (by simp)] at hparse
  -- the type and the class lie behind the closing zero
  have hquestion : readAt? (s.buff.take reqSize)
      (s.curQuestion + (encodeLabels q.labels).length + 1) questionSize =
        some (htons q.type.toNat ++ htons q.clazz.toNat) := by
    obtain ⟨hend, -⟩ := length_of_drop hreq h hne
    have hdrop := drop_of_drop hname ((encodeLabels q.labels).length + 1)
    rw [List.drop_length_add_append, List.drop_succ_cons, List.drop_zero] at hdrop
    rw [readAt?, if_pos, Nat.add_assoc, hdrop]
    · rfl
    · rw [List.length_take, min_eq_left hreq, ← hend, hlen, q.length_encode]
      omega
  have hcur : s.curQuestion + (encodeLabels q.labels).length + 1 + questionSize =
      s.curQuestion + q.encode.length := by
    rw [q.length_encode]
    omega
  have hA : q.isTypeA = decide (q.type.toNat = qdTypeA) := rfl
  rw [answerQuestions, Loop.afterQuestion, hA]
  simp only [hparse, bind, Except.bind, hquestion, orFault, ntohs_htons_append q.type.toNat_lt,
    hcur]
  rw [show (htons q.type.toNat ++ htons q.clazz.toNat).drop 2 = htons q.clazz.toNat from rfl,
    ntohs_htons q.clazz.toNat_lt]
  by_cases hA' : q.type.toNat = qdTypeA
  · simp only [hA', ne_eq, not_true, if_false, decide_true, if_true]
    cases writeAt? s.buff s.curAns (dnsAnswer s.curQuestion qdTypeA q.clazz.toNat espIp) <;> rfl
  · simp only [hA', ne_eq, not_false_iff, if_true, decide_false, Bool.false_eq_true, if_false]
    rfl

/-- A rejected name ends the loop. -/
theorem answerQuestions_rejected (hreq : reqSize ≤ s.buff.length)
    (hlimit : reqSize ≤ dnsMsgSizeLimit)
    (h : (s.buff.take reqSize).drop s.curQuestion = rest)
    (hrej : RejectedName (min rest.length outBufSize) rest) :
    answerQuestions reqSize espIp (k + 1) s = .ok none := by
  have hne : rest ≠ [] := by
    obtain ⟨ls, labelLen, tail, rfl, -⟩ := hrej
    simp
  have hparse := parseDnsName_eq hreq hlimit h hne
  rw [parseDnsLabels_rejected (h ▸ hrej) (by simp)] at hparse
  rw [answerQuestions, hparse]
  rfl

/-! ## Runs of questions -/

/-- With room for a record behind the answers, a question only touches that room. -/
theorem Loop.afterQuestion_append (q : Question) (head junk : Bytes) (cur count : ℕ)
    (hroom : answerSize ≤ junk.length) :
    Loop.afterQuestion ⟨head ++ junk, cur, head.length, count⟩ q espIp =
      .ok ⟨(head ++ answers espIp cur [q]) ++ junk.drop (countA [q] * answerSize),
        cur + q.encode.length, (head ++ answers espIp cur [q]).length, count + countA [q]⟩ := by
  rw [Loop.afterQuestion]
  by_cases hA : q.isTypeA
  · have hsplit : junk = junk.take answerSize ++ junk.drop answerSize :=
      (List.take_append_drop _ _).symm
    have hwrite : writeAt? (head ++ (junk.take answerSize ++ junk.drop answerSize)) head.length
        (dnsAnswer cur q.type.toNat q.clazz.toNat espIp) = some (head ++
          (dnsAnswer cur q.type.toNat q.clazz.toNat espIp ++ junk.drop answerSize)) :=
      writeAt?_append head _ (by rw [length_dnsAnswer, List.length_take, min_eq_left hroom])
    rw [← hsplit] at hwrite
    simp only [hA, if_true, hwrite]
    simp [answers, countA, hA, orFault, bind, Except.bind, pure, Except.pure]
  · simp [answers, countA, hA, pure, Except.pure]

/-- **Complete questions are passed over one by one, and their answers follow each other.** -/
theorem answerQuestions_complete (espIp : UInt32) (qs : List Question) (hqs : ∀ q ∈ qs, q.Fits)
    (head junk : Bytes)
    (cur count : ℕ) (hreq : reqSize ≤ head.length) (hlimit : reqSize ≤ dnsMsgSizeLimit)
    (h : (head.take reqSize).drop cur = encodeQuestions qs ++ rest)
    (hroom : qs.length * answerSize ≤ junk.length) :
    answerQuestions reqSize espIp (qs.length + k) ⟨head ++ junk, cur, head.length, count⟩ =
      answerQuestions reqSize espIp k
        ⟨(head ++ answers espIp cur qs) ++ junk.drop (countA qs * answerSize),
          cur + (encodeQuestions qs).length, (head ++ answers espIp cur qs).length,
          count + countA qs⟩ := by
  induction qs generalizing head junk cur count with
  | nil => simp [answers, countA]
  | cons q qs ih =>
    rw [List.length_cons, Nat.add_mul, one_mul] at hroom
    rw [encodeQuestions_cons, List.append_assoc] at h
    have htake : ∀ tail : Bytes, (head ++ tail).take reqSize = head.take reqSize := fun tail =>
      List.take_append_of_le_length hreq
    have hone : countA [q] ≤ 1 := countA_le_length [q]
    rw [List.length_cons, Nat.add_right_comm,
      answerQuestions_question q (hqs q (List.mem_cons_self ..))
        (by rw [List.length_append]; omega) hlimit (by rw [htake, h]),
      Loop.afterQuestion_append q head junk cur count (by omega)]
    change answerQuestions _ _ _ _ = _
    rw [ih (fun q' hq' => hqs q' (List.mem_cons_of_mem _ hq')) _ _ _ _
      (by rw [List.length_append]; omega) (by rw [htake, drop_of_drop h, List.drop_left])
      (by rw [List.length_drop]; simp only [answerSize] at *; omega)]
    simp only [answers, countA, List.countP_cons, List.countP_nil, encodeQuestions_cons,
      List.append_assoc, List.length_append, List.drop_drop, List.append_nil]
    congr 2 <;> ring_nf

end RbProtocol.Dns
