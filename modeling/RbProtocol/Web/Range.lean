import RbProtocol.Web.Serve

/-!
# The range of a response

What `Range` asks for is kept in `offset` and `end`. With the offset 0 the response is a 200, whose
length and body fit, as long as the end is in the file. Every other response breaks the law of
ranges: a 206 gives the end it has excluded as its last byte, and a negative offset counts from
nowhere (`rangeLaw_iff`).
-/

namespace RbProtocol.Web

/-- The bytes that are written. -/
def sent (effects : List WebEffect) : Bytes :=
  effects.flatMap fun
    | .send bytes => bytes
    | _ => []

theorem sent_append (as bs : List WebEffect) : sent (as ++ bs) = sent as ++ sent bs :=
  List.flatMap_append

theorem sent_singleton (bytes : Bytes) : sent [.send bytes] = bytes := List.append_nil _

/-- The body of a response. -/
def Served.sent (served : Served) : Bytes := Web.sent served.body

/-- **The law of ranges** for a response with a content. -/
structure RangeLaw (content : Content) (served : Served) : Prop where
  offset_nonneg : 0 ≤ served.req.offset
  offset_le : served.req.offset ≤ served.req.end_
  end_le : served.req.end_ ≤ content.size
  contentLength_eq : served.headers.contentLength = served.sent.length
  sent_eq : served.sent =
    (content.bytes.drop served.req.offset.toNat).take (served.req.end_ - served.req.offset.toNat)
  contentRange_eq : ∀ first last total, served.headers.contentRange = some (first, last, total) →
    (last : ℤ) - first + 1 = served.headers.contentLength ∧ last < content.size ∧
      total = content.size

theorem unsigned_natCast {n : ℕ} (h : n < 2 ^ 32) : unsigned n = n := by
  rw [unsigned]
  omega

/-! ## The body -/

/-- Calls that neither fail nor take fewer bytes than they could. -/
def ChunkIo.complete : ChunkIo := ⟨some bufsize, some bufsize⟩

@[simp] theorem ChunkIo.read_complete : complete.read = some bufsize := rfl

@[simp] theorem ChunkIo.write_complete : complete.write = some bufsize := rfl

/-- `sendfile` sends as many bytes as it should. The induction is on their number. -/
theorem sent_sendfileLoop (file : Bytes) (i : ℕ) {count : ℕ} (res : ℤ)
    (h : count ≤ file.length) :
    sent (sendfileLoop (fun _ => .complete) file i count res).2 = file.take count := by
  induction hn : count using Nat.strong_induction_on generalizing file i count res with
  | _ n ih =>
    subst hn
    rw [sendfileLoop]
    by_cases h0 : count = 0
    · rw [if_pos h0, h0]
      rfl
    · have hchunk : min bufsize (min count bufsize) = min count bufsize := by omega
      have hpos : 0 < bufsize := by decide
      have hlen : (file.take (min count bufsize)).length = min count bufsize :=
        List.length_take_of_le (by omega)
      have htake : (file.take (min count bufsize)).take bufsize = file.take (min count bufsize) :=
        List.take_of_length_le (by omega)
      rw [if_neg h0]
      simp only [ChunkIo.read_complete, ChunkIo.write_complete, hchunk, hlen, htake]
      have hrest := ih (count - min count bufsize) (by omega) (file.drop (min count bufsize))
        (i + 1)
        (Int.bmod (res + (min count bufsize : ℕ)) (2 ^ 32)) (by rw [List.length_drop]; omega) rfl
      rw [← List.singleton_append, sent_append, hrest, sent_singleton, ← List.take_add]
      congr 1
      omega

/-- The loop of `serve_not_found_cb` sends what is between its ends. -/
theorem sent_notFoundLoop (data : Bytes) (pos end_ : ℕ) :
    sent (notFoundLoop data pos end_) = (data.drop pos).take (end_ - pos) := by
  induction hn : end_ - pos using Nat.strong_induction_on generalizing pos with
  | _ n ih =>
    rw [notFoundLoop]
    split_ifs with hlt
    · have hrest := ih (end_ - (pos + min (end_ - pos) 256)) (by omega) _ rfl
      rw [← List.singleton_append, sent_append, hrest, sent_singleton, ← List.drop_drop,
        ← List.take_add]
      congr 1
      omega
    · rw [show n = 0 by omega]
      rfl

/-! ## Responses -/

/-- With the offset 0 the headers are those of a 200, of the length of the range. -/
theorem serveHeadersSuccess_zero {req : HttpRequest} {total : ℕ} (hoffset : req.offset = 0)
    (hend : req.end_ < 2 ^ 32) : (serveHeadersSuccess req total).contentRange = none ∧
      (serveHeadersSuccess req total).contentLength = req.end_ := by
  simp only [serveHeadersSuccess, hoffset, lt_irrefl, if_false, Int.sub_zero]
  exact ⟨trivial, unsigned_natCast hend⟩

/-- A 206 breaks the law, as its last byte is one too many. -/
theorem RangeLaw.offset_eq_zero {content : Content} {served : Served} {total : ℕ}
    (h : RangeLaw content served)
    (hheaders : served.headers = serveHeadersSuccess served.req total) :
    served.req.offset = 0 := by
  have hnonneg := h.offset_nonneg
  have hle := h.offset_le
  have hend := h.end_le.trans_lt content.size_lt
  by_contra hne
  have hpos : 0 < served.req.offset := by omega
  have hrange : served.headers.contentRange = some (served.req.offset, served.req.end_, total) := by
    rw [hheaders]
    exact if_pos hpos
  have hlength : (served.headers.contentLength : ℤ) = served.req.end_ - served.req.offset := by
    rw [hheaders]
    simp only [serveHeadersSuccess, unsigned]
    omega
  have heq := (h.contentRange_eq _ _ _ hrange).1
  omega

/-- A 200 with the right body keeps the law. -/
theorem rangeLaw_zero {content : Content} {served : Served} {total : ℕ}
    (hheaders : served.headers = serveHeadersSuccess served.req total)
    (hoffset : served.req.offset = 0) (hend : served.req.end_ ≤ content.size)
    (hsent : served.sent = content.bytes.take served.req.end_) : RangeLaw content served := by
  obtain ⟨hnone, hlength⟩ := @serveHeadersSuccess_zero _ total hoffset
    (hend.trans_lt content.size_lt)
  rw [← hheaders] at hnone hlength
  have hlen : served.sent.length = served.req.end_ := by
    rw [hsent]
    exact List.length_take_of_le hend
  refine ⟨hoffset.ge, ?_, hend, hlength.trans hlen.symm, ?_, ?_⟩
  · rw [hoffset]
    exact Int.natCast_nonneg _
  · rw [hsent, hoffset]
    rfl
  · intro first last total h
    rw [hnone] at h
    cases h

theorem serveRegular_req (site : Site) (req : HttpRequest) (file : Content) :
    (serveRegular site req file).req.offset = req.offset ∧
      (serveRegular site req file).req.end_ = if req.end_ = 0 then file.size else req.end_ := by
  rw [serveRegular]
  simp only [serveStatic]
  split_ifs <;> exact ⟨rfl, rfl⟩

theorem serveRegular_headers (site : Site) (req : HttpRequest) (file : Content) :
    (serveRegular site req file).headers =
      serveHeadersSuccess (serveRegular site req file).req file.size := rfl

/-- The body of a static file from its start. -/
theorem sent_serveStatic_zero (res : ℤ) {req : HttpRequest} {file : Content}
    (hoffset : req.offset = 0) (hend : req.end_ ≤ file.size) :
    (serveStatic (fun _ => .complete) res req file).sent = file.bytes.take req.end_ := by
  have hcount : unsigned (req.end_ - 0) = req.end_ := by
    rw [Int.sub_zero, unsigned_natCast (hend.trans_lt file.size_lt)]
  have hsent := sent_sendfileLoop (file.bytes.drop (Int.toNat 0)) 0 res
    (show req.end_ ≤ (file.bytes.drop (Int.toNat 0)).length from hend)
  rw [Served.sent, serveStatic]
  simp only [hoffset, hcount, sendfile]
  split_ifs with hlt hres
  · exact hsent
  · rw [sent_append, hsent]
    exact List.append_nil _
  · rw [show req.end_ = 0 from Nat.eq_zero_of_not_pos hlt]
    rfl

/-- **The law of ranges**, without errors and short reads or writes: a static file keeps it if and
only if the range starts at 0 and has no end or one in the file, and the data of the not found
callback if and only if the range starts at 0. -/
theorem rangeLaw_iff (site : Site) (req : HttpRequest) :
    (∀ file, RangeLaw file (serveRegular { site with io := fun _ => .complete } req file) ↔
      req.offset = 0 ∧ (req.end_ = 0 ∨ req.end_ ≤ file.size)) ∧
    ∀ isGzipped data, RangeLaw data (serveNotFound req isGzipped data) ↔ req.offset = 0 := by
  constructor
  · intro file
    obtain ⟨hoffset, hend⟩ := serveRegular_req { site with io := fun _ => .complete } req file
    constructor
    · intro h
      have hzero := h.offset_eq_zero (serveRegular_headers _ req file)
      have hle := h.end_le
      rw [hoffset] at hzero
      rw [hend] at hle
      refine ⟨hzero, ?_⟩
      by_cases h0 : req.end_ = 0
      · exact .inl h0
      · rw [if_neg h0] at hle
        exact .inr hle
    · rintro ⟨hzero, hin⟩
      have hle : (if req.end_ = 0 then file.size else req.end_) ≤ file.size := by
        split_ifs with h0
        · exact le_rfl
        · exact hin.resolve_left h0
      rw [← hend] at hle
      exact rangeLaw_zero (serveRegular_headers _ req file) (hoffset.trans hzero) hle
        (sent_serveStatic_zero site.res (hoffset.trans hzero) hle)
  · intro isGzipped data
    constructor
    · intro h
      exact h.offset_eq_zero rfl
    · intro hzero
      have hle : (serveNotFound req isGzipped data).req.end_ ≤ data.size := by
        simp only [serveNotFound]
        split_ifs with hclamp
        · exact le_rfl
        · omega
      refine rangeLaw_zero rfl hzero hle ?_
      have hstart : unsigned (serveNotFound req isGzipped data).req.offset = 0 := by
        rw [show (serveNotFound req isGzipped data).req.offset = 0 from hzero]
        rfl
      rw [Served.sent, show (serveNotFound req isGzipped data).body =
        if data.size ≤ unsigned (serveNotFound req isGzipped data).req.offset then []
        else notFoundLoop data.bytes (unsigned (serveNotFound req isGzipped data).req.offset)
          (serveNotFound req isGzipped data).req.end_ from rfl, hstart]
      split_ifs with hempty
      · have hnil : data.bytes = [] := List.length_eq_zero_iff.1 (Nat.le_zero.1 hempty)
        rw [hnil, List.take_nil]
        rfl
      · exact sent_notFoundLoop data.bytes 0 _

/-- The numbers from 0 to 9. -/
def tenBytes : Content := ⟨[0, 1, 2, 3, 4, 5, 6, 7, 8, 9], by decide⟩

/-- A site with nothing but files. -/
def plainSite : Site where
  server := ⟨literal "/data", literal "robot"⟩
  wsProtocol := false
  extraCallback := false
  notFoundCallback := none
  files := fun _ => some (.regular tenBytes)
  acceptKey := id
  io := fun _ => .complete
  res := 0

/-- Bytes 2 to 4 of ten: the 206 has three bytes, and a range that ends with the byte 5. -/
theorem not_rangeLaw_partial :
    ¬ RangeLaw tenBytes (serveRegular plainSite
      (handleHeader plainSite.server (literal "Range: bytes=2-4\r\n" ++ [0])
        ⟨literal "/data/ten", 0, 0, false, [], 0, false⟩ 0).1 tenBytes) := by
  intro h
  have heq := (h.contentRange_eq 2 5 10 (by decide +kernel)).1
  revert heq
  decide +kernel

end RbProtocol.Web
