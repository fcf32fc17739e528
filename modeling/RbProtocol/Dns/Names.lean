import RbProtocol.Dns.Server

/-!
# Names in a DNS request

The names `parseDnsName` accepts are runs of labels closed by a zero byte. `Label` is a label with
its length bound, `encodeLabels` the bytes of a run of them. The label loop accepts a run that fits
the remaining length and is closed inside the request (`parseDnsLabels_accept`), rejects at a length
byte that is out of place (`parseDnsLabels_reject`), and returns without a fault only in these two
ways (`parseDnsLabels_ok`).
-/

namespace RbProtocol.Dns

open Library

/-- A label: 1 to 63 bytes. -/
structure Label where
  chars : Bytes
  ne_nil : chars ≠ []
  length_le : chars.length ≤ 63

/-- The label behind its length byte. -/
def Label.encode (l : Label) : Bytes := UInt8.ofNat l.chars.length :: l.chars

/-- A run of labels. -/
def encodeLabels (ls : List Label) : Bytes := ls.flatMap Label.encode

/-- The name as `parseDnsName` writes it to `out_buf`: every label followed by a dot. -/
def dotted (ls : List Label) : Bytes := ls.flatMap fun l => l.chars ++ [46]

@[simp] theorem encodeLabels_nil : encodeLabels [] = [] := rfl

@[simp] theorem encodeLabels_cons (l : Label) (ls : List Label) :
    encodeLabels (l :: ls) = l.encode ++ encodeLabels ls := rfl

@[simp] theorem dotted_nil : dotted [] = [] := rfl

@[simp] theorem dotted_cons (l : Label) (ls : List Label) :
    dotted (l :: ls) = l.chars ++ [46] ++ dotted ls := rfl

@[simp] theorem Label.length_encode (l : Label) : l.encode.length = l.chars.length + 1 := rfl

/-- Separators take the place of the length bytes. -/
theorem length_dotted (ls : List Label) : (dotted ls).length = (encodeLabels ls).length := by
  induction ls with
  | nil => rfl
  | cons l ls ih =>
    simp [ih]
    omega

theorem Label.toNat_length (l : Label) : (UInt8.ofNat l.chars.length).toNat = l.chars.length := by
  have := l.length_le
  rw [UInt8.toNat_ofNat']
  omega

theorem Label.length_pos (l : Label) : 0 < l.chars.length := List.length_pos_iff.2 l.ne_nil

theorem Label.lengthByte_ne_zero (l : Label) : UInt8.ofNat l.chars.length ≠ 0 := by
  intro h
  have hlen := l.toNat_length
  have hpos := l.length_pos
  rw [h] at hlen
  simp only [UInt8.toNat_zero] at hlen
  omega

/-- A run of labels followed by a zero byte does not start with one. -/
theorem head_encodeLabels (l : Label) (ls : List Label) (tail : Bytes) :
    ∃ b rest, b ≠ 0 ∧ encodeLabels (l :: ls) ++ tail = b :: rest :=
  ⟨_, _, l.lengthByte_ne_zero, rfl⟩

variable {req out tail : Bytes} {label maxlen : ℕ}

/-! ## One round of the loop -/

/-- A label that leaves room for its separator is copied, and the next length byte decides. -/
theorem parseDnsLabels_label (l : Label) {next : UInt8}
    (h : req.drop label = l.encode ++ next :: tail) (hfit : l.encode.length ≤ maxlen)
    (hout : out.length + maxlen ≤ outBufSize) :
    parseDnsLabels req label out maxlen =
      if next = 0 then
        .ok (some (label + l.encode.length + 1, (out ++ (l.chars ++ [46])).dropLast))
      else parseDnsLabels req (label + l.encode.length) (out ++ (l.chars ++ [46]))
        (maxlen - l.encode.length) := by
  have hlen := l.toNat_length
  have hpos := l.length_pos
  have hreq : label + l.encode.length < req.length := by
    have := congrArg List.length h
    simp only [List.length_drop, List.length_append, List.length_cons] at this
    omega
  have hfirst : req[label]? = some (UInt8.ofNat l.chars.length) := getElem?_of_drop h 0
  have hnext : req[label + l.chars.length + 1]? = some next := by
    rw [Nat.add_assoc, getElem?_of_drop h, ← l.length_encode,
      List.getElem?_append_right le_rfl, Nat.sub_self]
    rfl
  have hchars : (req.drop (label + 1)).take l.chars.length = l.chars := by
    rw [drop_of_drop h 1]
    simp [Label.encode]
  rw [Label.length_encode] at *
  rw [parseDnsLabels, hfirst]
  simp only [hlen, hnext, hchars]
  rw [if_neg (by simpa [l.lengthByte_ne_zero] using by omega), if_neg (by omega),
    if_neg (by omega), dif_neg (by omega)]
  rfl

/-- A length byte that is zero or larger than the remaining length rejects the name. -/
theorem parseDnsLabels_reject {labelLen : UInt8} (h : req.drop label = labelLen :: tail)
    (hlen : maxlen < labelLen.toNat ∨ labelLen = 0) :
    parseDnsLabels req label out maxlen = .ok none := by
  have hfirst : req[label]? = some labelLen := getElem?_of_drop h 0
  rw [parseDnsLabels, hfirst]
  simp only [if_pos hlen]

/-! ## Runs of labels -/

/-- Labels that fit are passed over until the last length byte decides. -/
theorem parseDnsLabels_labels (ls : List Label) {last : UInt8} (hlast : last ≠ 0)
    (h : req.drop label = encodeLabels ls ++ last :: tail)
    (hfit : (encodeLabels ls).length ≤ maxlen) (hout : out.length + maxlen ≤ outBufSize) :
    parseDnsLabels req label out maxlen =
      parseDnsLabels req (label + (encodeLabels ls).length) (out ++ dotted ls)
        (maxlen - (encodeLabels ls).length) := by
  induction ls generalizing label out maxlen with
  | nil => simp
  | cons l ls ih =>
    simp only [encodeLabels_cons, List.length_append] at hfit h
    obtain ⟨next, rest, hnext, hrest⟩ : ∃ b rest, b ≠ 0 ∧ encodeLabels ls ++ last :: tail =
      b :: rest := by
      cases ls with
      | nil => exact ⟨last, tail, hlast, rfl⟩
      | cons l' ls => exact head_encodeLabels l' ls _
    rw [List.append_assoc, hrest] at h
    rw [parseDnsLabels_label l h (by omega) hout, if_neg hnext,
      ih (by rw [drop_of_drop h, List.drop_left, hrest]) (by omega)
        (by simp only [List.length_append, List.length_singleton, Label.length_encode] at *; omega)]
    simp [Nat.add_assoc, Nat.sub_sub]

/-- **A name that fits and is closed inside the request is accepted.** -/
theorem parseDnsLabels_accept (ls : List Label) (hls : ls ≠ [])
    (h : req.drop label = encodeLabels ls ++ 0 :: tail) (hfit : (encodeLabels ls).length ≤ maxlen)
    (hout : out.length + maxlen ≤ outBufSize) :
    parseDnsLabels req label out maxlen =
      .ok (some (label + (encodeLabels ls).length + 1, (out ++ dotted ls).dropLast)) := by
  -- the labels before the last one are passed over, the last one is followed by the zero byte
  obtain ⟨init, l, rfl⟩ : ∃ init l, ls = init ++ [l] :=
    ⟨ls.dropLast, ls.getLast hls, (List.dropLast_append_getLast hls).symm⟩
  have henc : encodeLabels (init ++ [l]) = encodeLabels init ++ l.encode := by
    simp [encodeLabels]
  have hdot : dotted (init ++ [l]) = dotted init ++ (l.chars ++ [46]) := by simp [dotted]
  rw [henc, List.append_assoc] at h
  rw [henc, List.length_append] at hfit
  rw [parseDnsLabels_labels init l.lengthByte_ne_zero h (by omega) hout,
    parseDnsLabels_label l (by rw [drop_of_drop h, List.drop_left]) (by omega)
      (by rw [List.length_append, length_dotted]; omega), if_pos rfl, henc, hdot,
        List.length_append,
    List.append_assoc]
  congr 4
  omega

/-! ## The two ways to return -/

/-- The bytes at which a name with `maxlen` bytes left is rejected: some labels that fit, and a
length byte that is larger than what they leave, or zero at the very start. -/
def RejectedName (maxlen : ℕ) (bytes : Bytes) : Prop :=
  ∃ ls labelLen tail, bytes = encodeLabels ls ++ labelLen :: tail ∧
    (encodeLabels ls).length ≤ maxlen ∧
    (maxlen < (encodeLabels ls).length + labelLen.toNat ∨ ls = [] ∧ labelLen = 0)

theorem parseDnsLabels_rejected (h : RejectedName maxlen (req.drop label))
    (hout : out.length + maxlen ≤ outBufSize) :
    parseDnsLabels req label out maxlen = .ok none := by
  obtain ⟨ls, labelLen, tail, hbytes, hfit, hlen⟩ := h
  rcases hlen with hlen | ⟨rfl, rfl⟩
  · have hne : labelLen ≠ 0 := by
      rintro rfl
      simp only [UInt8.toNat_zero] at hlen
      omega
    rw [parseDnsLabels_labels ls hne hbytes hfit hout]
    exact parseDnsLabels_reject (by rw [drop_of_drop hbytes, List.drop_left]) (.inl (by omega))
  · exact parseDnsLabels_reject hbytes (.inr rfl)

/-- A length byte with that many bytes behind it starts a label. -/
theorem exists_label {labelLen : UInt8} (h : req[label]? = some labelLen) (hpos : labelLen ≠ 0)
    (hle : labelLen.toNat ≤ 63) (hreq : label + 1 + labelLen.toNat ≤ req.length) :
    ∃ l : Label, l.encode.length = labelLen.toNat + 1 ∧
      req.drop label = l.encode ++ req.drop (label + labelLen.toNat + 1) := by
  have hpos' : 0 < labelLen.toNat := Nat.pos_of_ne_zero fun h0 => hpos (UInt8.toNat_inj.1 h0)
  have hchars : ((req.drop (label + 1)).take labelLen.toNat).length = labelLen.toNat := by
    rw [List.length_take, List.length_drop]
    omega
  have hne : (req.drop (label + 1)).take labelLen.toNat ≠ [] :=
    List.ne_nil_of_length_pos (by omega)
  refine ⟨⟨_, hne, hchars.trans_le hle⟩, ?_, ?_⟩
  · rw [Label.length_encode, hchars]
  · simp only [Label.encode, hchars, UInt8.ofNat_toNat, List.cons_append]
    rw [drop_of_getElem? h, Nat.add_right_comm, ← List.drop_drop (i := labelLen.toNat),
      List.take_append_drop]

/-- **The loop returns without a fault only on a name it rejects or on one that fits and is closed
inside the request.** -/
theorem parseDnsLabels_ok {res : Option (ℕ × Bytes)}
    (h : parseDnsLabels req label out maxlen = .ok res) :
    (res = none ∧ RejectedName maxlen (req.drop label)) ∨
      ∃ ls tail name, ls ≠ [] ∧ req.drop label = encodeLabels ls ++ 0 :: tail ∧
        (encodeLabels ls).length ≤ maxlen ∧
        res = some (label + (encodeLabels ls).length + 1, name) := by
  induction maxlen using Nat.strongRecOn generalizing label out with
  | ind maxlen ih =>
    rw [parseDnsLabels] at h
    rcases hb : req[label]? with _ | labelLen
    · simp [hb] at h
    simp only [hb] at h
    split_ifs at h with hrej hreq hbuf hmax
    · refine .inl ⟨(Except.ok.inj h).symm, [], labelLen, _, drop_of_getElem? hb, by simp, ?_⟩
      simpa using hrej
    obtain ⟨l, hl, henc⟩ := exists_label hb (not_or.1 hrej).2
      (by simp only [outBufSize] at hbuf; omega) (by omega)
    rcases hn : req[label + labelLen.toNat + 1]? with _ | next
    · simp [hn] at h
    have hnext := drop_of_getElem? hn
    simp only [hn] at h
    split_ifs at h with h0
    · -- the next length byte closes the name
      subst h0
      obtain rfl := Except.ok.inj h
      have hone : (encodeLabels [l]).length = labelLen.toNat + 1 := by simpa using hl
      refine .inr ⟨[l], req.drop (label + labelLen.toNat + 2),
        (out ++ ((req.drop (label + 1)).take labelLen.toNat ++ [46])).dropLast, by simp, ?_, ?_, ?_⟩
      · rw [henc, hnext]
        simp
      · omega
      · rw [hone]
        rfl
    · -- the rest of the name is read by the next round
      have hlen : ∀ ls, (encodeLabels (l :: ls)).length =
          labelLen.toNat + 1 + (encodeLabels ls).length := fun ls => by
        rw [encodeLabels_cons, List.length_append, hl]
      rcases ih _ (by omega) h with ⟨rfl, ls, labelLen', tail, hbytes, hfit, hrej'⟩ |
        ⟨ls, tail, name, hls, hbytes, hfit, rfl⟩
      · refine .inl ⟨rfl, l :: ls, labelLen', tail, ?_, ?_, .inl ?_⟩
        · rw [henc, hbytes, encodeLabels_cons, List.append_assoc]
        · rw [hlen]
          omega
        · rw [hlen]
          rcases hrej' with hrej' | ⟨rfl, rfl⟩
          · omega
          · rw [hnext] at hbytes
            simp [h0] at hbytes
      · refine .inr ⟨l :: ls, tail, name, by simp, ?_, ?_, ?_⟩
        · rw [henc, hbytes, encodeLabels_cons, List.append_assoc]
        · rw [hlen]
          omega
        · rw [hlen]
          congr 2
          omega

end RbProtocol.Dns
