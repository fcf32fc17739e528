import RbProtocol.Web.Response

/-!
# Files that are added

A file that `rb_web_add_file` has added, with as many calls of `write` as it takes, is sent back
byte for byte for its percent-encoded name, whatever characters a browser escapes
(`addFile_served`).
-/

namespace RbProtocol.Web

open Ascii Library

/-! ## `rb_web_add_file` -/

/-- What `write` answers. -/
inductive WriteAnswer
  /-- One byte and so many more, if there are so many. -/
  | wrote (more : ℕ)
  /-- `EINTR`. -/
  | interrupted
  | failed

/-- The loop of `writen`, with `nleft` bytes to go: whether it returns `n`, and the number of bytes
that have been written; `none` while there is no answer. -/
def writenLoop : List WriteAnswer → ℕ → ℕ → Option (Bool × ℕ)
  | _, 0, written => some (true, written)
  | [], _ + 1, _ => none
  | .wrote more :: answers, nleft + 1, written =>
    let nwritten := min (more + 1) (nleft + 1)
    writenLoop answers (nleft + 1 - nwritten) (written + nwritten)
  | .interrupted :: answers, nleft + 1, written => writenLoop answers (nleft + 1) written
  | .failed :: _, _ + 1, written => some (false, written)

/-- The first bytes of a content. -/
def Content.take (content : Content) (n : ℕ) : Content where
  bytes := content.bytes.take n
  size_lt := (List.length_take_le' n content.bytes).trans_lt content.size_lt

/-- The size of the buffer in `rb_web_add_file`. -/
def addFileBuf : ℕ := 256

/-- The name that `snprintf` makes of a file name. -/
def addedName (server : WebServer) (filename : Bytes) : Bytes :=
  (server.workingDirectory ++ slash :: filename).take (addFileBuf - 1)

/-- `rb_web_add_file`: whether it returns `ESP_OK`, and the files. `opens` tells whether `open`
succeeds, which empties the file. -/
def addFile (site : Site) (filename : Bytes) (data : Content) (opens : Bool)
    (answers : List WriteAnswer) : Option (Bool × (Bytes → Option File)) :=
  if !opens then some (false, site.files)
  else
    (writenLoop answers data.size 0).map fun r =>
      (r.1, Function.update site.files (addedName site.server filename)
        (some (.regular (data.take r.2))))

/-- `writen` returns `n` only when everything has been written. -/
theorem writenLoop_true {answers : List WriteAnswer} {nleft written total : ℕ}
    (h : writenLoop answers nleft written = some (true, total)) : total = written + nleft := by
  induction answers generalizing nleft written with
  | nil =>
    cases nleft with
    | zero => exact (Prod.mk.inj (Option.some.inj h)).2.symm
    | succ nleft => cases h
  | cons answer answers ih =>
    cases nleft with
    | zero =>
      have hnone : writenLoop (answer :: answers) 0 written = some (true, written) := by
        cases answer <;> rfl
      rw [hnone] at h
      exact (Prod.mk.inj (Option.some.inj h)).2.symm
    | succ nleft =>
      cases answer with
      | wrote more =>
        have hrest := ih h
        omega
      | interrupted => exact ih h
      | failed => cases h

theorem Content.take_size (content : Content) : content.take content.size = content := by
  unfold take
  congr 1
  exact List.take_length

/-- **A file that has been added** has the data as a whole. -/
theorem addFile_ok {site : Site} {filename : Bytes} {data : Content} {opens : Bool}
    {answers : List WriteAnswer} {files : Bytes → Option File}
    (h : addFile site filename data opens answers = some (true, files)) :
    files = Function.update site.files (addedName site.server filename)
      (some (.regular data)) := by
  unfold addFile at h
  split_ifs at h
  · cases h
  obtain ⟨⟨ok, total⟩, hloop, heq⟩ := Option.map_eq_some_iff.1 h
  obtain ⟨rfl, rfl⟩ := Prod.mk.inj heq
  have htotal := writenLoop_true hloop
  rw [Nat.zero_add] at htotal
  rw [htotal, data.take_size]

/-! ## The name in a request -/

/-- The characters that a browser leaves as they are. -/
structure Kept (keep : UInt8 → Bool) : Prop where
  percent : keep percent = false
  questionMark : keep questionMark = false
  chars : ∀ c, keep c = true → isSpace c = false ∧ c ≠ nul

/-- A name under which a file can be added and asked for. -/
structure Servable (server : WebServer) (keep : UInt8 → Bool) (filename : Bytes) : Prop where
  ne_nil : filename ≠ []
  length_le : filename.length ≤ pathRoom server
  encoded_lt : (percentEncode keep filename).length < 127
  chars : nul ∉ server.workingDirectory ++ slash :: filename
  notExtra : ¬literal "extra/" <+: filename

/-- The request line for a file name. -/
def getLine (keep : UInt8 → Bool) (filename : Bytes) : Bytes :=
  literal "GET /" ++ (percentEncode keep filename ++ literal " HTTP/1.1\r\n")

/-- Headers that do not ask for another thing: their lines fit, and they ask neither for a part of a
file nor for another host nor for WebSocket. -/
structure PlainHeaders (server : WebServer) (r : Request) : Prop where
  fits : ∀ line ∈ r.requestLine :: r.headers, line.length < maxline
  crlf : ∀ line ∈ r.requestLine :: r.headers, [carriageReturn, newline] <:+ line
  whole : ∀ line ∈ r.headers, ¬literal "Ran" <+: line
  noUpgrade : upgradeHeaders r % 256 ≠ 3
  host : lastOf (nonLocalOf server) r.headers false = false

section Served

variable {server : WebServer} {keep : UInt8 → Bool} {filename : Bytes} {r : Request}

theorem escapesWithin_percentEncode (hkeep : Kept keep) (room : ℕ) (s : Bytes) :
    EscapesWithin room (percentEncode keep s) := by
  induction s generalizing room with
  | nil => cases room <;> trivial
  | cons c s ih =>
    cases room with
    | zero => trivial
    | succ room =>
      have hcons : percentEncode keep (c :: s) =
          percentEncodeByte keep c ++ percentEncode keep s := List.flatMap_cons
      rw [hcons]
      unfold percentEncodeByte
      split_ifs with hc
      · have hne : c ≠ percent := by
          rintro rfl
          exact Bool.false_ne_true (hkeep.percent.symm.trans hc)
        exact (escapesWithin_cons hne _).2 (ih room)
      · obtain ⟨hhigh, hlow, -⟩ := hexDigits_byte c
        exact (escapesWithin_escape _ _ _).2 ⟨⟨hhigh, hlow⟩, ih room⟩

/-- The characters of an encoded name end neither the name nor the request line. -/
theorem chars_percentEncode (hkeep : Kept keep) {c : UInt8}
    (h : c ∈ percentEncode keep filename) : (isSpace c = false ∧ c ≠ nul) ∧ c ≠ questionMark := by
  rcases mem_percentEncode h with hc | rfl | hc
  · refine ⟨hkeep.chars c hc, ?_⟩
    rintro rfl
    exact Bool.false_ne_true (hkeep.questionMark.symm.trans hc)
  · decide
  · obtain ⟨hnul, hspace, -⟩ := isHexDigit_spec hc
    refine ⟨⟨hspace, hnul⟩, ?_⟩
    rintro rfl
    exact absurd hc (by decide)

/-- **Such a request asks for the file.** -/
theorem Servable.asks (h : Servable server keep filename) (hkeep : Kept keep)
    (hheaders : PlainHeaders server r) (hline : r.requestLine = getLine keep filename) :
    Asks server r (literal "GET") (percentEncode keep filename) [] ∧
      requestedFile server (percentEncode keep filename) =
        server.workingDirectory ++ slash :: filename := by
  have hname : requestedName (percentEncode keep filename) = filename := by
    unfold requestedName
    rw [if_neg (percentEncode_ne_nil h.ne_nil), percentDecode_percentEncode hkeep.percent]
  have hfile : requestedFile server (percentEncode keep filename) =
      server.workingDirectory ++ slash :: filename := by
    unfold requestedFile
    rw [hname]
  have hget : r.requestLine = literal "GET" ++ space :: (slash :: percentEncode keep filename ++
      space :: literal "HTTP/1.1\r\n") := by
    have hstart : literal "GET /" = literal "GET" ++ [space, slash] := by decide
    have hend : literal " HTTP/1.1\r\n" = space :: literal "HTTP/1.1\r\n" := by decide +kernel
    rw [hline, getLine, hstart, hend, List.append_assoc]
    rfl
  refine ⟨?_, hfile⟩
  exact
    { fits := hheaders.fits
      crlf := hheaders.crlf
      requestLine := ⟨_, hget⟩
      method_ne_nil := by decide +kernel
      method_chars := by decide +kernel
      method_length := by decide +kernel
      target := ⟨literal "HTTP/1.1\r\n", by rw [List.append_nil]; exact hget⟩
      target_chars := fun c hc => by
        rw [List.append_nil] at hc
        exact (chars_percentEncode hkeep hc).1
      target_length := by
        rw [List.append_nil]
        exact h.encoded_lt
      path_chars := fun hmem => (chars_percentEncode hkeep hmem).2 rfl
      query_eq := .inl rfl
      escapes := escapesWithin_percentEncode hkeep _ _
      name_length := by
        rw [hname]
        exact h.length_le
      name_chars := by
        rw [hfile]
        exact h.chars
      notExtra := by
        rw [hname]
        exact h.notExtra
      whole := hheaders.whole
      noUpgrade := fun hall => hheaders.noUpgrade hall.1
      host := hheaders.host }

/-- The name of the file is not cut off. -/
theorem Servable.addedName_eq (h : Servable server keep filename) :
    addedName server filename = server.workingDirectory ++ slash :: filename := by
  have hlength := h.length_le
  have hpos := List.length_pos_iff.2 h.ne_nil
  have hfits : (server.workingDirectory ++ slash :: filename).length ≤ addFileBuf - 1 := by
    rw [List.length_append, List.length_cons, addFileBuf]
    rw [pathRoom, filenameSize] at hlength
    omega
  exact List.take_of_length_le hfits

/-- **A file that has been added is sent back.** -/
theorem addFile_served {site : Site} (h : Servable site.server keep filename) (hkeep : Kept keep)
    {data : Content} {opens : Bool} {answers : List WriteAnswer} {files : Bytes → Option File}
    (hadd : addFile site filename data opens answers = some (true, files))
    (hio : site.io = fun _ => .complete)
    (hheaders : PlainHeaders site.server r) (hline : r.requestLine = getLine keep filename)
    (hplain : ∀ line ∈ r.headers, ¬acceptsGzip line) {connection : Connection}
    (hstream : connection.stream = r.encode) (locals : Locals) (req : HttpRequest) :
    ∃ fuel effects,
      serveConnection { site with files := files } connection locals req fuel = some effects ∧
        sent effects =
          wholeResponse (site.server.workingDirectory ++ slash :: filename) false data := by
  obtain ⟨hasks, hfile⟩ := h.asks hkeep hheaders hline
  obtain ⟨fuel, request, hserve, hsent⟩ :=
    @Asks.serve { site with files := files } _ _ _ _ hasks hio _ hstream locals req
  have hnone : (r.headers.any fun line => acceptsGzip line) = false :=
    List.any_eq_false.2 fun line hmem => by
      rw [decide_eq_true_eq]
      exact hplain line hmem
  have hfound : files (site.server.workingDirectory ++ slash :: filename) =
      some (.regular data) := by
    rw [addFile_ok hadd, h.addedName_eq, Function.update_self]
  have hresponse : response { site with files := files }
      (site.server.workingDirectory ++ slash :: filename) false =
      fileResponse { site with files := files } (site.server.workingDirectory ++ slash :: filename)
        false (files (site.server.workingDirectory ++ slash :: filename)) :=
    if_neg fun hgzip => Bool.false_ne_true hgzip.1
  refine ⟨fuel, _, hserve, ?_⟩
  rw [sent_append, hsent, hfile, hnone, hresponse, hfound]
  exact List.append_nil _

end Served

/-- A name with a space and an escape character, written in two pieces. -/
theorem addFile_served_escaped :
    let r : Request := ⟨literal "GET /a%20b%25 HTTP/1.1\r\n", [], literal "\r\n", [],
      by decide +kernel, by decide⟩
    let files : Bytes → Option File :=
      Function.update plainSite.files (literal "/data/a b%") (some (.regular tenBytes))
    ∃ fuel effects, serveConnection
        { plainSite with files := files } ⟨[.data ⟨r.encode, by decide +kernel, by decide +kernel⟩],
          .eof⟩ ⟨[], [], []⟩ ⟨[], 0, 0, false, [], 0, false⟩ fuel = some effects ∧
      sent effects = wholeResponse (literal "/data/a b%") false tenBytes := by
  intro r files
  have hservable : Servable plainSite.server isHexDigit (literal "a b%") :=
    { ne_nil := by decide +kernel
      length_le := by decide +kernel
      encoded_lt := by decide +kernel
      chars := by decide +kernel
      notExtra := by decide +kernel }
  have hkept : Kept isHexDigit :=
    { percent := rfl
      questionMark := rfl
      chars := fun c hc => ⟨(isHexDigit_spec hc).2.1, (isHexDigit_spec hc).1⟩ }
  have hplain : PlainHeaders plainSite.server r :=
    { fits := by decide +kernel
      crlf := by decide +kernel
      whole := by decide +kernel
      noUpgrade := by decide +kernel
      host := by decide +kernel }
  have hadd : addFile plainSite (literal "a b%") tenBytes true
      [.wrote 3, .interrupted, .wrote 20] =
      some (true, files) := by
    have hname : addedName plainSite.server (literal "a b%") = literal "/data/a b%" := by
      decide +kernel
    have hloop : writenLoop [.wrote 3, .interrupted, .wrote 20] tenBytes.size 0 =
        some (true, tenBytes.size) := by
      decide +kernel
    unfold addFile
    rw [hname, hloop, Option.map_some, tenBytes.take_size]
    rfl
  let connection : Connection :=
    ⟨[.data ⟨r.encode, by decide +kernel, by decide +kernel⟩], .eof⟩
  have hstream : connection.stream = r.encode := List.append_nil _
  have hline : r.requestLine = getLine isHexDigit (literal "a b%") := by decide +kernel
  obtain ⟨fuel, effects, hserve, hsent⟩ := addFile_served hservable hkept hadd rfl hplain hline
    (by decide) hstream ⟨[], [], []⟩ ⟨[], 0, 0, false, [], 0, false⟩
  exact ⟨fuel, effects, hserve, hsent.trans (by decide +kernel)⟩

end RbProtocol.Web
