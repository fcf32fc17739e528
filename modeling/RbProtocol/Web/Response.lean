import RbProtocol.Web.Ownership
import RbProtocol.Web.Range
import RbProtocol.Web.UrlDecode
import RbProtocol.Web.Upgrade

/-!
# From the request to the response

What a client gets for the path that it asks for, if its lines fit in the buffer and it does not ask
for a part of the file: the file under the decoded path in the working directory, or its compressed
form when the client accepts that and there is one; otherwise what the callback has, or an error
(`serveConnection_get`). How `recv` cuts the request does not matter, nor does what was in the
memory of the local variables.
-/

namespace RbProtocol.Web

open Ascii Library

/-! ## What is to be sent -/

/-- A header of a client that accepts compressed files. -/
def acceptsGzip (line : Bytes) : Prop :=
  literal "Accept-Encoding: " <+: cstr line ∧ literal "gzip" <:+: (cstr line).drop 17

instance : DecidablePred acceptsGzip := fun _ => inferInstanceAs (Decidable (_ ∧ _))

/-- A whole content under a file name: its headers, and its bytes. -/
def wholeResponse (filename : Bytes) (gzip : Bool) (content : Content) : Bytes :=
  Headers.text ⟨none, gzip, content.size, literal ".json" <:+: filename, getMimeType filename⟩ ++
    content.bytes

/-- An error and its text. -/
def errorResponse (status : ℕ) (msg longmsg : Bytes) : Bytes :=
  sent (clientError status msg longmsg)

/-- What is sent when no file is found. -/
def notFoundResponse (site : Site) (filename : Bytes) : Bytes :=
  let missing := errorResponse 404 (literal "Not found") (literal "File not found")
  match site.notFoundCallback with
  | none => missing
  | some callback =>
    let nfr := callback (filename.drop site.server.workingDirectory.length)
    match nfr.data with
    | none => missing
    | some data =>
      if data.size = 0 then missing else wholeResponse filename nfr.isGzipped data

/-- What is sent for a file, or for none. -/
def fileResponse (site : Site) (filename : Bytes) (gzip : Bool) : Option File → Bytes
  | none => notFoundResponse site filename
  | some (.regular content) => wholeResponse filename gzip content
  | some .other => errorResponse 400 (literal "Error") (literal "Unknow Error")

/-- The name of a compressed file is tried. -/
def HasGzipName (filename : Bytes) : Prop :=
  3 ≤ filename.length ∧ filename.length + 4 < filenameSize ∧
    filename.drop (filename.length - 3) ≠ literal ".gz"

instance : DecidablePred HasGzipName := fun _ => inferInstanceAs (Decidable (_ ∧ _ ∧ _))

/-- What is sent for a file name. -/
def response (site : Site) (filename : Bytes) (gzip : Bool) : Bytes :=
  if gzip ∧ HasGzipName filename ∧ (site.files (filename ++ literal ".gz")).isSome then
    fileResponse site filename true (site.files (filename ++ literal ".gz"))
  else fileResponse site filename false (site.files filename)

/-! ## What is asked for -/

/-- The name behind the working directory that a path stands for. -/
def requestedName (path : Bytes) : Bytes :=
  if path = [] then literal "index.html" else percentDecode path

/-- The file name. -/
def requestedFile (server : WebServer) (path : Bytes) : Bytes :=
  server.workingDirectory ++ slash :: requestedName path

/-- A request for a path, with a query behind it that is not looked at: its lines fit, it is not for
a part of a file, and neither for another host nor to switch to WebSocket. -/
structure Asks (server : WebServer) (r : Request) (method path query : Bytes) : Prop
    extends r.Plain method where
  method_length : method.length ≤ 9
  target : ∃ more, r.requestLine = method ++ space :: (slash :: (path ++ query) ++ space :: more)
  target_chars : ∀ c ∈ path ++ query, isSpace c = false ∧ c ≠ nul
  target_length : (path ++ query).length < 127
  path_chars : questionMark ∉ path
  query_eq : query = [] ∨ path ≠ [] ∧ query.head? = some questionMark
  escapes : EscapesWithin (pathRoom server) path
  name_length : (requestedName path).length ≤ pathRoom server
  name_chars : nul ∉ requestedFile server path
  notExtra : ¬literal "extra/" <+: requestedName path
  whole : ∀ line ∈ r.headers, ¬literal "Ran" <+: line
  noUpgrade : ¬(upgradeHeaders r % 256 = 3 ∧ method = literal "GET")
  host : lastOf (nonLocalOf server) r.headers false = false

/-! ## The request line -/

section RequestLine

variable {server : WebServer} {r : Request} {method path query : Bytes}

/-- The path is read from the request line. -/
theorem Asks.uri (h : Asks server r method path query) (locals : Locals) (buf : Bytes) :
    (scanRequestLine { locals with buf := store buf (r.requestLine ++ [0]) }).uri =
      store locals.uri (slash :: (path ++ query) ++ [0]) := by
  obtain ⟨more, hmore⟩ := h.target
  have hmethod : ∀ c ∈ method, decide (c ≠ 0) = true := fun c hc =>
    decide_eq_true (h.method_chars c hc).2
  have hmethodWord : ∀ c ∈ method, (!isSpace c) = true := fun c hc => by
    rw [(h.method_chars c hc).1]
    rfl
  have huri : ∀ c ∈ slash :: (path ++ query), decide (c ≠ 0) = true := fun c hc => by
    rcases List.mem_cons.1 hc with rfl | hc
    · rfl
    · exact decide_eq_true (h.target_chars c hc).2
  have huriWord : ∀ c ∈ slash :: (path ++ query), (!isSpace c) = true := fun c hc => by
    rcases List.mem_cons.1 hc with rfl | hc
    · rfl
    · rw [(h.target_chars c hc).1]
      rfl
  have hline : cstr (store buf (r.requestLine ++ [0])) =
      method ++ space :: (slash :: (path ++ query) ++ space :: cstr more) := by
    have hspace : cstr (space :: (slash :: (path ++ query) ++ space :: more)) =
        space :: cstr (slash :: (path ++ query) ++ space :: more) := rfl
    rw [cstr_store, hmore, cstr, List.takeWhile_append_of_pos hmethod, ← cstr, hspace, cstr,
      List.takeWhile_append_of_pos huri]
    rfl
  have hskip : skipSpace (method ++ space :: (slash :: (path ++ query) ++ space :: cstr more)) =
      method ++ space :: (slash :: (path ++ query) ++ space :: cstr more) := by
    obtain ⟨c, rest, hcons⟩ := List.exists_cons_of_ne_nil h.method_ne_nil
    have hc : isSpace c = false := (h.method_chars c (hcons ▸ List.mem_cons_self)).1
    rw [hcons, List.cons_append, skipSpace, List.dropWhile_cons_of_neg (by rw [hc]; decide)]
  have htake : (method ++ space :: (slash :: (path ++ query) ++ space :: cstr more)).takeWhile
      (fun c => !isSpace c) = method := by
    rw [List.takeWhile_append_of_pos hmethodWord]
    exact List.append_nil method
  have hnine : method.take 9 = method := List.take_of_length_le h.method_length
  have hskipUri : skipSpace (space :: (slash :: (path ++ query) ++ space :: cstr more)) =
      slash :: (path ++ query) ++ space :: cstr more := rfl
  have htakeUri : (slash :: (path ++ query) ++ space :: cstr more).takeWhile
      (fun c => !isSpace c) = slash :: (path ++ query) := by
    rw [List.takeWhile_append_of_pos huriWord]
    exact List.append_nil _
  have hlength : (slash :: (path ++ query)).take 127 = slash :: (path ++ query) :=
    List.take_of_length_le (by rw [List.length_cons]; exact h.target_length)
  have hword : scanWord 9 (cstr (store buf (r.requestLine ++ [0]))) =
      some (method, space :: (slash :: (path ++ query) ++ space :: cstr more)) := by
    rw [hline, scanWord]
    simp only [hskip, htake, hnine, if_neg h.method_ne_nil, List.drop_left]
  have hwordUri : scanWord 127 (space :: (slash :: (path ++ query) ++ space :: cstr more)) =
      some (slash :: (path ++ query), space :: cstr more) := by
    rw [scanWord]
    simp only [hskipUri, htakeUri, hlength, if_neg (List.cons_ne_nil _ _), List.drop_left]
  unfold scanRequestLine
  simp only [hword, hwordUri]

/-- The name in front of the decoding. -/
def undecodedName (path : Bytes) : Bytes := if path = [] then literal "index.html" else path

/-- A name that is not empty. -/
theorem uriFilename_cons {c : UInt8} (hc : c ≠ 0) (rest : Bytes) :
    uriFilename (slash :: c :: rest) =
      ((cstr (c :: rest)).findIdx? (· == questionMark)).elim (c :: rest)
        fun i => (c :: rest).set i 0 := by
  have hif (a : Bytes) : (if (c :: rest).headD 0 = 0 then a else c :: rest) = c :: rest := if_neg hc
  unfold uriFilename
  rw [List.headD_cons, if_pos rfl, List.tail_cons]
  simp only [hif]
  cases (cstr (c :: rest)).findIdx? (· == questionMark) with
  | none => rfl
  | some i => rfl

/-- An empty name. -/
theorem uriFilename_nul (rest : Bytes) :
    uriFilename (slash :: 0 :: rest) = literal "index.html" ++ 0 :: rest.drop 10 := by
  have hindex : store (0 :: rest) (literal "index.html" ++ [0]) =
      literal "index.html" ++ 0 :: rest.drop 10 := by
    simp [store, literal]
  have hnone : (cstr (literal "index.html" ++ 0 :: rest.drop 10)).findIdx?
      (· == questionMark) = none := by
    rw [cstr_append_nul]
    decide
  unfold uriFilename
  simp only [List.headD_cons, List.tail_cons, if_true, hindex, hnone]

/-- `filename` in front of a NUL. -/
theorem Asks.uriFilename (h : Asks server r method path query) (garbage : Bytes) :
    ∃ garbage', uriFilename (store garbage (slash :: (path ++ query) ++ [0])) =
      undecodedName path ++ 0 :: garbage' := by
  have hstore : store garbage (slash :: (path ++ query) ++ [0]) =
      slash :: (path ++ (query ++ 0 :: garbage.drop (slash :: (path ++ query) ++ [0]).length)) := by
    simp [store]
  generalize garbage.drop (slash :: (path ++ query) ++ [0]).length = rest at hstore
  rw [hstore]
  have hpathChars : ∀ c ∈ path, (c == questionMark) = false := fun c hc => by
    rw [beq_eq_false_iff_ne]
    rintro rfl
    exact h.path_chars hc
  have htext : 0 ∉ path ++ query := fun hmem => (h.target_chars 0 hmem).2 rfl
  rcases path with _ | ⟨c, path⟩
  · obtain rfl : query = [] := h.query_eq.elim id fun hne => absurd rfl hne.1
    exact ⟨_, uriFilename_nul rest⟩
  have hc : c ≠ 0 := (h.target_chars c List.mem_cons_self).2
  have hstr : cstr (c :: (path ++ (query ++ 0 :: rest))) = c :: path ++ query := by
    have hassoc : c :: (path ++ (query ++ 0 :: rest)) = (c :: path ++ query) ++ 0 :: rest := by
      simp
    rw [hassoc, cstr_append_nul]
    exact cstr_eq_self htext
  rw [List.cons_append, uriFilename_cons hc, hstr]
  rcases h.query_eq with rfl | ⟨-, hquery⟩
  · rw [List.append_nil, List.findIdx?_eq_none_iff.2 hpathChars]
    exact ⟨rest, rfl⟩
  · -- the query starts behind the path, and a NUL is put there
    obtain ⟨query, rfl⟩ : ∃ rest, query = questionMark :: rest := by
      rcases query with _ | ⟨d, query⟩
      · cases hquery
      · obtain rfl := Option.some.inj hquery
        exact ⟨query, rfl⟩
    have hfind : (c :: path ++ questionMark :: query).findIdx? (· == questionMark) =
        some (c :: path).length := by
      rw [List.findIdx?_append, List.findIdx?_eq_none_iff.2 hpathChars, List.findIdx?_cons]
      simp
    rw [hfind]
    refine ⟨query ++ 0 :: rest, ?_⟩
    have hset : ((c :: path) ++ questionMark :: (query ++ 0 :: rest)).set (c :: path).length 0 =
        (c :: path) ++ 0 :: (query ++ 0 :: rest) := by
      rw [List.set_append_right _ _ le_rfl, Nat.sub_self]
      rfl
    exact hset

end RequestLine

/-! ## The request -/

section Parsed

variable {server : WebServer} {r : Request} {method path query : Bytes}

/-- What a header line does to the range and to the compression. -/
theorem handleHeader_content (server : WebServer) {line : Bytes}
    (hwhole : ¬literal "Ran" <+: line) (req : HttpRequest) (upgrades : UInt8) :
    let req' := (handleHeader server line req upgrades).1
    req'.offset = req.offset ∧ req'.end_ = req.end_ ∧
      req'.servingGzip = (decide (acceptsGzip line) || req.servingGzip) := by
  unfold handleHeader
  rw [if_neg hwhole]
  by_cases haccepts : acceptsGzip line
  · rw [if_pos (show literal "Accept-Encoding: " <+: cstr line ∧
      literal "gzip" <:+: (cstr line).drop 17 from haccepts)]
    exact ⟨rfl, rfl, by rw [decide_eq_true haccepts, Bool.true_or]⟩
  · rw [if_neg (show ¬(literal "Accept-Encoding: " <+: cstr line ∧
      literal "gzip" <:+: (cstr line).drop 17) from haccepts), decide_eq_false haccepts,
      Bool.false_or]
    split_ifs
    all_goals first
      | exact ⟨rfl, rfl, rfl⟩
      | cases scanNumeral ((cstr line).drop 23) <;> exact ⟨rfl, rfl, rfl⟩

theorem handleHeaders_content (server : WebServer) {lines : List Bytes}
    (hwhole : ∀ line ∈ lines, ¬literal "Ran" <+: line) (s : HttpRequest × UInt8) :
    let req' := (handleHeaders server lines s).1
    req'.offset = s.1.offset ∧ req'.end_ = s.1.end_ ∧
      req'.servingGzip = (lines.any (fun line => acceptsGzip line) || s.1.servingGzip) := by
  induction lines generalizing s with
  | nil => exact ⟨rfl, rfl, rfl⟩
  | cons line lines ih =>
    obtain ⟨hline, hlines⟩ := List.forall_mem_cons.1 hwhole
    obtain ⟨hoffset, hend, hgzip⟩ := handleHeader_content server hline s.1 s.2
    obtain ⟨ihoffset, ihend, ihgzip⟩ := ih hlines (handleHeader server line s.1 s.2)
    refine ⟨ihoffset.trans hoffset, ihend.trans hend, ihgzip.trans ?_⟩
    rw [hgzip, List.any_cons, ← Bool.or_assoc, Bool.or_comm (lines.any _)]

theorem escapesWithin_of_notMem {src : Bytes} {room : ℕ} (h : percent ∉ src) :
    EscapesWithin room src := by
  induction src generalizing room with
  | nil => cases room <;> trivial
  | cons c src ih =>
    obtain ⟨hc, hsrc⟩ := not_or.1 (List.mem_cons.not.1 h)
    cases room with
    | zero => trivial
    | succ room => exact (escapesWithin_cons (Ne.symm hc) src).2 (ih hsrc)

/-- A name that fits is decoded as a whole. -/
theorem Asks.urlDecode (h : Asks server r method path query) (garbage : Bytes) :
    urlDecode server (undecodedName path ++ 0 :: garbage) filenameSize =
      requestedFile server path := by
  have hnul : (0 : UInt8) ∉ undecodedName path := by
    unfold undecodedName
    split_ifs
    · decide
    · exact fun hmem => (h.target_chars 0 (List.mem_append_left _ hmem)).2 rfl
  have hdecoded : decodedWithin (pathRoom server) (undecodedName path) =
      some (requestedName path) := by
    have hname := h.name_length
    unfold undecodedName requestedName at *
    split_ifs at hname ⊢ with hpath
    · have hescapes : EscapesWithin (pathRoom server) (literal "index.html") :=
        escapesWithin_of_notMem (by decide)
      rw [decodedWithin_of_escapes hescapes]
      have hplain : percentDecode (literal "index.html") = literal "index.html" := by decide
      rw [hplain, List.take_of_length_le hname]
    · rw [decodedWithin_of_escapes h.escapes, List.take_of_length_le hname]
  have hroom : filenameSize - (server.workingDirectory ++ [slash]).length - 1 =
      pathRoom server := by
    rw [List.length_append, List.length_singleton, pathRoom]
    omega
  rw [Web.urlDecode, hroom, urlDecodeLoop_of_decodedWithin hnul hdecoded, requestedFile,
    List.append_assoc]
  rfl

/-- **What `parse_request` makes of such a request.** -/
theorem Asks.parseRequest (h : Asks server r method path query) {connection : Connection}
    (hstream : connection.stream = r.encode) (locals : Locals) (req : HttpRequest) :
    ∃ fuel request, parseRequest server connection locals req fuel = some request ∧
      request.filename = requestedFile server path ∧ request.offset = 0 ∧ request.end_ = 0 ∧
      request.servingGzip = r.headers.any (fun line => acceptsGzip line) ∧
      request.wsVersion = 0 ∧ request.nonLocalHostname = false := by
  obtain ⟨fuel, s', hexact⟩ :=
    headersExact_of_fits server connection locals req r hstream h.length_ne
  obtain ⟨fuel', request', hparse', hhost, -, hversion⟩ :=
    parseRequest_plain h.toPlain server hstream locals req
  have hparse : Web.parseRequest server connection locals req fuel =
      some (finishRequest server (startRequest connection locals req).2 s') :=
    Option.map_eq_some_iff.2 ⟨s', hexact.returns, rfl⟩
  -- both runs end with the same request
  have hsame : request' = finishRequest server (startRequest connection locals req).2 s' := by
    have hmax := parseRequest_mono hparse (le_max_left fuel fuel')
    rw [parseRequest_mono hparse' (le_max_right fuel fuel')] at hmax
    exact Option.some.inj hmax
  obtain ⟨hoffset, hend, hgzip⟩ := handleHeaders_content server h.whole
    ((startRequest connection locals req).1.req, (startRequest connection locals req).1.upgrades)
  rw [← hexact.values] at hoffset hend hgzip
  have hbuf : (startRequest connection locals req).1.buf =
      store locals.buf (r.requestLine ++ [0]) :=
    (startRequest_line (r.lines _ List.mem_cons_self).1 (h.fits _ List.mem_cons_self) hstream).2
  have huri : (startRequest connection locals req).2.uri =
      store locals.uri (slash :: (path ++ query) ++ [0]) := by
    have hscan : (startRequest connection locals req).2 =
        scanRequestLine { locals with buf := (startRequest connection locals req).1.buf } := rfl
    rw [hscan, hbuf, h.uri]
  have hfilename : (finishRequest server (startRequest connection locals req).2 s').filename =
      requestedFile server path := by
    obtain ⟨garbage, hname⟩ := h.uriFilename locals.uri
    have hfinish : (finishRequest server (startRequest connection locals req).2 s').filename =
        Web.urlDecode server (Web.uriFilename (startRequest connection locals req).2.uri)
          filenameSize := rfl
    rw [hfinish, huri, hname, h.urlDecode]
  have hkept : ∀ locals : Locals, (finishRequest server locals s').offset = s'.req.offset ∧
      (finishRequest server locals s').end_ = s'.req.end_ ∧
      (finishRequest server locals s').servingGzip = s'.req.servingGzip := fun locals => by
    unfold finishRequest
    simp only
    split_ifs <;> exact ⟨rfl, rfl, rfl⟩
  obtain ⟨hoffset', hend', hgzip'⟩ := hkept (startRequest connection locals req).2
  refine ⟨fuel, _, hparse, hfilename, hoffset'.trans hoffset, hend'.trans hend, ?_, ?_, ?_⟩
  · rw [hgzip', hgzip]
    exact Bool.or_false _
  · rw [← hsame, hversion, if_neg h.noUpgrade]
  · rw [← hsame, hhost, h.host]

end Parsed

/-! ## The response -/

section Response

variable {site : Site} {req : HttpRequest}

/-- The headers of a whole content. -/
theorem serveHeadersSuccess_whole {content : Content} (hoffset : req.offset = 0)
    (hend : req.end_ = content.size) (hnul : nul ∉ req.filename) :
    (serveHeadersSuccess req content.size).text ++ content.bytes =
      wholeResponse req.filename req.servingGzip content := by
  have hlt : req.end_ < 2 ^ 32 := hend.trans_lt content.size_lt
  obtain ⟨hrange, hlength⟩ := @serveHeadersSuccess_zero req content.size hoffset hlt
  have hheaders : serveHeadersSuccess req content.size = ⟨none, req.servingGzip, content.size,
      literal ".json" <:+: req.filename, getMimeType req.filename⟩ := by
    rw [← hrange, ← hend, ← hlength]
    simp only [serveHeadersSuccess, cstr_eq_self hnul]
  rw [hheaders, wholeResponse]

/-- A regular file is sent as a whole. -/
theorem sent_serveRegular {file : Content} (hio : site.io = fun _ => .complete)
    (hoffset : req.offset = 0) (hend : req.end_ = 0) (hnul : nul ∉ req.filename) :
    sent (serveRegular site req file).effects =
      wholeResponse req.filename req.servingGzip file := by
  have hserved : serveRegular site req file =
      serveStatic (fun _ => .complete) site.res { req with end_ := file.size } file := by
    rw [serveRegular, if_pos hend, hio]
  have hbody : (serveRegular site req file).sent = file.bytes := by
    rw [hserved]
    exact (@sent_serveStatic_zero _ { req with end_ := file.size } _ hoffset le_rfl).trans
      List.take_length
  have heffects : (serveRegular site req file).effects =
      [.send (serveRegular site req file).headers.text] ++ (serveRegular site req file).body := rfl
  have hheaders : (serveRegular site req file).headers =
      serveHeadersSuccess { req with end_ := file.size } file.size := by
    rw [hserved]
    rfl
  have hwhole := @serveHeadersSuccess_whole { req with end_ := file.size } file hoffset rfl hnul
  rw [heffects, sent_append, sent_singleton, ← Served.sent, hbody, hheaders, hwhole]

/-- The data of the callback is sent as a whole. -/
theorem sent_serveNotFound (isGzipped : Bool) (data : Content) (hoffset : req.offset = 0)
    (hend : req.end_ = 0) (hnul : nul ∉ req.filename) :
    sent (serveNotFound req isGzipped data).effects = wholeResponse req.filename isGzipped data := by
  let whole : HttpRequest := { req with servingGzip := isGzipped, end_ := data.size }
  have hserved : serveNotFound req isGzipped data =
      { req := whole
        headers := serveHeadersSuccess whole data.size
        body := if data.size ≤ 0 then [] else notFoundLoop data.bytes 0 data.size } := by
    have hzero : unsigned req.offset = 0 := by
      rw [hoffset]
      rfl
    rw [serveNotFound, if_pos (.inl hend)]
    simp only [hzero, whole]
  have hbody : (serveNotFound req isGzipped data).sent = data.bytes := by
    rw [hserved, Served.sent]
    split_ifs with hempty
    · exact (List.length_eq_zero_iff.1 (Nat.le_zero.1 hempty)).symm
    · exact (sent_notFoundLoop data.bytes 0 data.size).trans List.take_length
  have heffects : (serveNotFound req isGzipped data).effects =
      [.send (serveNotFound req isGzipped data).headers.text] ++
        (serveNotFound req isGzipped data).body := rfl
  have hheaders : (serveNotFound req isGzipped data).headers =
      serveHeadersSuccess whole data.size := by
    rw [hserved]
  rw [heffects, sent_append, sent_singleton, ← Served.sent, hbody, hheaders]
  exact @serveHeadersSuccess_whole whole data hoffset rfl hnul

/-- What is sent for a file that is not found. -/
theorem sent_notFound (hoffset : req.offset = 0) (hend : req.end_ = 0) (hnul : nul ∉ req.filename) :
    sent (match serveNotFoundCb site req with
      | none => clientError 404 (literal "Not found") (literal "File not found")
      | some served => served.effects) = notFoundResponse site req.filename := by
  have hrest : nul ∉ req.filename.drop site.server.workingDirectory.length :=
    fun hmem => hnul (List.mem_of_mem_drop hmem)
  unfold serveNotFoundCb notFoundResponse
  rcases site.notFoundCallback with _ | callback
  · rfl
  simp only [cstr_eq_self hrest]
  rcases (callback (req.filename.drop site.server.workingDirectory.length)).data with _ | data
  · rfl
  by_cases hempty : data.size = 0
  · simp only [if_pos hempty]
    rfl
  · simp only [if_neg hempty]
    exact sent_serveNotFound _ data hoffset hend hnul

/-- What is sent for what is opened. -/
theorem sent_opened (hio : site.io = fun _ => .complete) (hoffset : req.offset = 0)
    (hend : req.end_ = 0) (hnul : nul ∉ req.filename) (file : Option File) :
    sent (match file with
      | none =>
        match serveNotFoundCb site req with
        | none => clientError 404 (literal "Not found") (literal "File not found")
        | some served => served.effects
      | some (.regular file) => (serveRegular site req file).effects
      | some .other => clientError 400 (literal "Error") (literal "Unknow Error")) =
      fileResponse site req.filename req.servingGzip file := by
  rcases file with _ | _ | _
  · exact sent_notFound hoffset hend hnul
  · exact sent_serveRegular hio hoffset hend hnul
  · rfl

/-- What `prepare_gzip` opens. -/
theorem prepareGzip_eq (files : Bytes → Option File) (hnul : nul ∉ req.filename) :
    prepareGzip files req =
      if req.servingGzip ∧ HasGzipName req.filename ∧
          (files (req.filename ++ literal ".gz")).isSome then
        (files (req.filename ++ literal ".gz"), { req with servingGzip := true })
      else (files req.filename, { req with servingGzip := false }) := by
  unfold prepareGzip
  simp only [cstr_eq_self hnul]
  rcases hgzip : req.servingGzip with _ | _
  · rw [Bool.not_false, if_pos rfl, if_neg (fun h => Bool.false_ne_true h.1)]
  have hreq : { req with servingGzip := true } = req := by
    rw [← hgzip]
  rw [Bool.not_true, if_neg Bool.false_ne_true]
  by_cases hname : HasGzipName req.filename
  · obtain ⟨hlong, hfits, hnot⟩ := hname
    have hroom : ¬(req.filename.length < 3 ∨ filenameSize ≤ req.filename.length + 4) := by omega
    rw [if_neg hroom, if_neg hnot]
    rcases hfile : files (req.filename ++ literal ".gz") with _ | file
    · rw [if_neg (fun h => Bool.false_ne_true h.2.2)]
    · rw [if_pos ⟨rfl, ⟨hlong, hfits, hnot⟩, rfl⟩, hreq]
  · rw [if_neg (c := true = true ∧ _) (fun h => hname h.2.1)]
    by_cases hroom : req.filename.length < 3 ∨ filenameSize ≤ req.filename.length + 4
    · rw [if_pos hroom]
    · rw [if_neg hroom, if_pos]
      by_contra hnot
      exact hname ⟨by omega, by omega, hnot⟩

/-- **What `process_serve_file` sends** when no part of the file is asked for. -/
theorem sent_processServeFile (hio : site.io = fun _ => .complete) (hoffset : req.offset = 0)
    (hend : req.end_ = 0) (hnul : nul ∉ req.filename) :
    sent (processServeFile site req) = response site req.filename req.servingGzip := by
  unfold processServeFile response
  rw [prepareGzip_eq site.files hnul]
  split_ifs with hgzip
  · exact @sent_opened _ { req with servingGzip := true } hio hoffset hend hnul _
  · exact @sent_opened _ { req with servingGzip := false } hio hoffset hend hnul _

end Response

/-! ## A connection -/

/-- A position that `strstr` finds is one of the text. -/
theorem strstr_drop {text s : Bytes} {i : ℕ} (h : strstr text s = some i) : text <+: s.drop i := by
  induction s generalizing i with
  | nil =>
    unfold strstr at h
    split_ifs at h with htext
    rw [htext]
    exact List.nil_prefix
  | cons c s ih =>
    unfold strstr at h
    split_ifs at h with htext
    · obtain rfl := Option.some.inj h
      exact htext
    · obtain ⟨j, hj, rfl⟩ := Option.map_eq_some_iff.1 h
      exact ih hj

section Connection

variable {site : Site} {r : Request} {method path query : Bytes}

/-- The name is not one in the directory `/extra/`. -/
theorem Asks.extraPath_eq_none (h : Asks site.server r method path query) {req : HttpRequest}
    (hfilename : req.filename = requestedFile site.server path) : extraPath site req = none := by
  unfold extraPath
  simp only [hfilename, cstr_eq_self h.name_chars]
  rcases hfind : strstr extraDirectorySuffix (requestedFile site.server path) with _ | i
  · rfl
  have hnot : i ≠ site.server.workingDirectory.length := by
    rintro rfl
    have hdrop := strstr_drop hfind
    rw [requestedFile, List.drop_left] at hdrop
    exact h.notExtra ((List.cons_prefix_cons.1 hdrop).2)
  exact if_neg hnot

/-- The request is served from a file, and then the connection is closed. -/
theorem Asks.serve (h : Asks site.server r method path query)
    (hio : site.io = fun _ => .complete) {connection : Connection}
    (hstream : connection.stream = r.encode) (locals : Locals) (req : HttpRequest) :
    ∃ fuel request, serveConnection site connection locals req fuel =
        some (processServeFile site request ++ [.close]) ∧
      sent (processServeFile site request) = response site (requestedFile site.server path)
        (r.headers.any fun line => acceptsGzip line) := by
  obtain ⟨fuel, request, hparse, hfilename, hoffset, hend, hgzip, hversion, hhost⟩ :=
    h.parseRequest hstream locals req
  have hnul : nul ∉ request.filename := hfilename ▸ h.name_chars
  have hprocess : process site request = (false, processServeFile site request) := by
    unfold process
    rw [hhost, hversion, h.extraPath_eq_none hfilename]
    rfl
  refine ⟨fuel, request, ?_, ?_⟩
  · unfold serveConnection
    rw [hparse, Option.map_some, hprocess]
    rfl
  · rw [sent_processServeFile hio hoffset hend hnul, hfilename, hgzip]

end Connection

end RbProtocol.Web
