import RbProtocol.Web.Termination

/-!
# The header lines of a request

What the header loop of `parse_request` looks at. It reads a line into a buffer of 256 bytes, so a
line comes in pieces of at most 255 bytes, and each piece is looked at as if it were a line; a piece
of two bytes that ends with a newline ends the headers.

* `headersExact_iff`: the loop looks at the header lines of a request, each once and from its start,
  and ends at the first empty line, if and only if all the lines up to there fit in the buffer and
  none of them has two bytes.
* `headerLoop_pieces`: on any stream the loop handles the pieces, up to the first that ends the
  headers.
* `headerLoop_lines`: so the request is filled in by the complete header lines, if they fit.
-/

namespace RbProtocol.Web

open Ascii Library

/-! ## Requests -/

/-- A line: its last byte is a newline, and no other. -/
def IsLine (line : Bytes) : Prop := ∃ content, newline ∉ content ∧ line = content ++ [newline]

theorem isLine_iff (line : Bytes) :
    IsLine line ↔ newline ∉ line.dropLast ∧ line = line.dropLast ++ [newline] := by
  constructor
  · rintro ⟨content, hcontent, rfl⟩
    rw [List.dropLast_concat]
    exact ⟨hcontent, rfl⟩
  · exact fun h => ⟨line.dropLast, h⟩

instance : DecidablePred IsLine := fun line => decidable_of_iff _ (isLine_iff line).symm

/-- A line without a content. -/
def IsEmptyLine (line : Bytes) : Prop := line = [newline] ∨ line = [carriageReturn, newline]

instance : DecidablePred IsEmptyLine := fun _ => inferInstanceAs (Decidable (_ ∨ _))

/-- A request: the lines up to the first empty one, and what follows. -/
structure Request where
  requestLine : Bytes
  headers : List Bytes
  emptyLine : Bytes
  body : Bytes
  lines : ∀ line ∈ requestLine :: headers, IsLine line ∧ ¬IsEmptyLine line
  emptyLine_empty : IsEmptyLine emptyLine

/-- A request on the stream. -/
def Request.encode (r : Request) : Bytes :=
  r.requestLine ++ (r.headers.flatten ++ (r.emptyLine ++ r.body))

/-! ## Lines on the stream -/

theorem length_lineOf_le (room : ℕ) (stream : Bytes) : (lineOf room stream).length ≤ room := by
  induction room generalizing stream with
  | zero => exact le_rfl
  | succ room ih =>
    cases stream with
    | nil => exact Nat.zero_le _
    | cons c stream =>
      rw [lineOf]
      split_ifs
      · exact Nat.succ_le_succ (Nat.zero_le _)
      · exact Nat.succ_le_succ (ih stream)

theorem lineOf_initial (room : ℕ) (stream : Bytes) : lineOf room stream <+: stream := by
  induction room generalizing stream with
  | zero => exact List.nil_prefix
  | succ room ih =>
    cases stream with
    | nil => exact List.nil_prefix
    | cons c stream =>
      rw [lineOf]
      split_ifs
      · exact List.cons_prefix_cons.2 ⟨rfl, List.nil_prefix⟩
      · exact List.cons_prefix_cons.2 ⟨rfl, ih stream⟩

/-- A line that fits is read as a whole. -/
theorem lineOf_line {line : Bytes} (h : IsLine line) {room : ℕ} (hroom : line.length ≤ room)
    (ended : RecvEnd) (rest : Bytes) :
    lineOf room (line ++ rest) = line ∧ lineEnd ended room (line ++ rest) = .newline := by
  obtain ⟨content, hcontent, rfl⟩ := h
  induction content generalizing room with
  | nil =>
    obtain ⟨room, rfl⟩ : ∃ k, room = k + 1 := ⟨room - 1, by simp at hroom; omega⟩
    exact ⟨if_pos rfl, if_pos rfl⟩
  | cons c content ih =>
    obtain ⟨hc, hcontent⟩ := not_or.1 (List.mem_cons.not.1 hcontent)
    obtain ⟨room, rfl⟩ : ∃ k, room = k + 1 := ⟨room - 1, by simp at hroom; omega⟩
    obtain ⟨hline, hend⟩ := ih hcontent (Nat.le_of_succ_le_succ hroom)
    have hne : c ≠ newline := fun heq => hc heq.symm
    simp only [List.cons_append, lineOf, lineEnd, if_neg hne]
    exact ⟨congrArg (c :: ·) hline, hend⟩

/-- A line with more bytes behind it, or with a newline, ends in the buffer with a NUL. -/
theorem lineEnd_of_more (ended : RecvEnd) {room : ℕ} {stream : Bytes}
    (h : (lineOf room stream).length < stream.length ∨ newline ∈ lineOf room stream) :
    lineEnd ended room stream = .newline ∨ lineEnd ended room stream = .full := by
  induction room generalizing stream with
  | zero => exact .inr rfl
  | succ room ih =>
    cases stream with
    | nil => exact absurd h (by simp [lineOf])
    | cons c stream =>
      rw [lineOf] at h
      rw [lineEnd]
      split_ifs at h ⊢ with hc
      · exact .inl rfl
      · refine ih (h.imp Nat.lt_of_succ_lt_succ fun hmem => ?_)
        exact (List.mem_cons.1 hmem).resolve_left fun heq => hc heq.symm

theorem IsLine.ne_nil {line : Bytes} (h : IsLine line) : line ≠ [] := by
  obtain ⟨content, -, rfl⟩ := h
  exact List.append_ne_nil_of_right_ne_nil _ (List.cons_ne_nil _ _)

theorem IsEmptyLine.isLine {line : Bytes} (h : IsEmptyLine line) : IsLine line := by
  rcases h with rfl | rfl
  · exact ⟨[], List.not_mem_nil, rfl⟩
  · exact ⟨[carriageReturn], by decide, rfl⟩

/-- A line that fits is the first of the lines that are read. -/
theorem requestLines_line {line : Bytes} (h : IsLine line) (hfits : line.length < maxline)
    (rest : Bytes) : requestLines (line ++ rest) = line :: requestLines rest := by
  obtain ⟨hline, -⟩ := lineOf_line h (Nat.le_sub_one_of_lt hfits) .eof rest
  obtain ⟨c, tail, hcons⟩ := List.exists_cons_of_ne_nil h.ne_nil
  rw [hcons] at hline ⊢
  rw [List.cons_append] at hline ⊢
  rw [requestLines_cons, hline, ← List.cons_append, List.drop_left]

theorem requestLines_lines {lines : List Bytes}
    (h : ∀ line ∈ lines, IsLine line ∧ line.length < maxline) (rest : Bytes) :
    requestLines (lines.flatten ++ rest) = lines ++ requestLines rest := by
  induction lines with
  | nil => rfl
  | cons line lines ih =>
    obtain ⟨⟨hline, hfits⟩, hlines⟩ := List.forall_mem_cons.1 h
    rw [List.flatten_cons, List.append_assoc, requestLines_line hline hfits, ih hlines,
      List.cons_append]

/-- The lines of a stream are the stream. -/
theorem flatten_lines (room : ℕ) (stream : Bytes) : (lines room stream).flatten = stream := by
  fun_induction lines room stream with
  | case1 => rfl
  | case2 c rest ih =>
    rw [List.flatten_cons, ih]
    exact (List.prefix_append_drop (lineOf_initial _ _)).symm

theorem flatten_requestLines (stream : Bytes) : (requestLines stream).flatten = stream :=
  flatten_lines _ stream

/-- Of the lines that are not empty, those of two bytes end the headers. -/
theorem endsHeaders_line {line : Bytes} (h : IsLine line) :
    endsHeaders line = true ↔ line = [newline] ∨ line.length = 2 := by
  obtain ⟨content, hcontent, rfl⟩ := h
  rcases content with _ | ⟨c, _ | ⟨d, content⟩⟩
  · simp [endsHeaders]
  · simp [endsHeaders]
  · simp only [List.mem_cons, not_or] at hcontent
    have hc : c ≠ newline := fun heq => hcontent.1 heq.symm
    have hd : d ≠ newline := fun heq => hcontent.2.1 heq.symm
    simp [endsHeaders, hc, hd]

theorem newline_mem_of_ends {line : Bytes} (h : endsHeaders line = true) : newline ∈ line := by
  rcases line with _ | ⟨c, _ | ⟨d, line⟩⟩
  · cases h
  · have hc : c = newline ∨ 0 = newline := by simpa [endsHeaders] using h
    exact hc.resolve_right (by decide) ▸ List.mem_cons_self
  · have hcd : c = newline ∨ d = newline := by simpa [endsHeaders] using h
    rcases hcd with rfl | rfl
    · exact List.mem_cons_self
    · exact List.mem_cons_of_mem _ List.mem_cons_self

/-- A line in the buffer, with a NUL behind it. -/
theorem endsHeaders_store {line : Bytes} (h : line ≠ []) (buf : Bytes) :
    endsHeaders (store buf (line ++ [0])) = endsHeaders line :=
  (endsHeaders_storeLine buf h .newline).trans (by simp)

/-! ## A round of the loop -/

/-- The line that a round of the header loop looks at. -/
def HeaderState.nextLine (s : HeaderState) : Bytes := (readLine (maxline - 1) s.rio).1.1

/-- The lines that the header loop looks at. -/
def consideredLines (server : WebServer) : ℕ → HeaderState → List Bytes
  | 0, _ => []
  | fuel + 1, s =>
    if endsHeaders s.buf then []
    else s.nextLine :: consideredLines server fuel (nextHeader server s)

/-- What some lines do to the request and to `websocket_upgrade_headers`. -/
def handleHeaders (server : WebServer) (lines : List Bytes) (s : HttpRequest × UInt8) :
    HttpRequest × UInt8 :=
  lines.foldl (fun s line => handleHeader server line s.1 s.2) s

/-- Nothing behind a NUL is in the string. -/
theorem cstr_append_nul (line rest : Bytes) : cstr (line ++ 0 :: rest) = cstr line := by
  induction line with
  | nil => rfl
  | cons c line ih =>
    unfold cstr at ih ⊢
    rw [List.cons_append, List.takeWhile_cons, List.takeWhile_cons, ih]

/-- What is stored with a NUL behind it is the string in the buffer. -/
theorem cstr_store (buf line : Bytes) : cstr (store buf (line ++ [0])) = cstr line := by
  rw [store, List.append_assoc, List.singleton_append]
  exact cstr_append_nul line _

/-- A text without a NUL does not reach over one. -/
theorem prefix_append_nul {text : Bytes} (h : 0 ∉ text) (line rest : Bytes) :
    text <+: line ++ 0 :: rest ↔ text <+: line := by
  induction text generalizing line with
  | nil => exact iff_of_true List.nil_prefix List.nil_prefix
  | cons t text ih =>
    obtain ⟨ht, htext⟩ := not_or.1 (List.mem_cons.not.1 h)
    cases line with
    | nil => simpa [List.cons_prefix_cons] using fun heq => absurd heq.symm ht
    | cons c line => rw [List.cons_append, List.cons_prefix_cons, List.cons_prefix_cons, ih htext]

/-- The line in a buffer, with a NUL behind it, is handled as the line itself. -/
theorem handleHeader_store (server : WebServer) (buf line : Bytes) (req : HttpRequest)
    (upgrades : UInt8) :
    handleHeader server (store buf (line ++ [0])) req upgrades =
      handleHeader server line req upgrades := by
  have hstore : store buf (line ++ [0]) = line ++ 0 :: buf.drop (line.length + 1) := by
    simp [store]
  have hrange : literal "Ran" <+: store buf (line ++ [0]) ↔ literal "Ran" <+: line :=
    hstore ▸ prefix_append_nul (by decide) line _
  unfold handleHeader
  rw [cstr_store]
  simp only [hrange]

/-- An empty line is no header. -/
theorem handleHeader_emptyLine (server : WebServer) {line : Bytes} (h : IsEmptyLine line)
    (req : HttpRequest) (upgrades : UInt8) :
    handleHeader server line req upgrades = (req, upgrades) := by
  rcases h with rfl | rfl <;> rfl

section Round

variable (server : WebServer) (s : HeaderState)

theorem nextLine_eq : s.nextLine = lineOf (maxline - 1) s.rio.stream := by
  obtain ⟨rio', hread, -, -⟩ := readLine_eq (maxline - 1) s.rio
  rw [HeaderState.nextLine, hread]

theorem nextHeader_stream :
    (nextHeader server s).rio.stream = s.rio.stream.drop s.nextLine.length := by
  obtain ⟨rio', hread, hstream⟩ := rioReadlineb_maxline s.rio s.buf
  rw [nextLine_eq, nextHeader, hread]
  exact hstream

/-- **A line is handled as it is in the buffer**, if more bytes follow or it ends with a newline. -/
theorem nextHeader_piece (h : (nextHeader server s).rio.stream ≠ [] ∨ newline ∈ s.nextLine) :
    (nextHeader server s).buf = store s.buf (s.nextLine ++ [0]) ∧
      ((nextHeader server s).req, (nextHeader server s).upgrades) =
        handleHeader server s.nextLine s.req s.upgrades := by
  have hmore : s.nextLine.length < s.rio.stream.length ∨ newline ∈ s.nextLine := by
    refine h.imp_left fun hne => ?_
    rw [nextHeader_stream] at hne
    by_contra hle
    exact hne (List.drop_eq_nil_of_le (not_lt.1 hle))
  obtain ⟨rio', hread, -⟩ := rioReadlineb_maxline s.rio s.buf
  rw [nextLine_eq] at hmore ⊢
  rw [nextHeader, hread]
  rcases lineEnd_of_more s.rio.ended hmore with hend | hend <;> rw [hend] <;>
    exact ⟨rfl, handleHeader_store server s.buf _ s.req s.upgrades⟩

/-- The first of the lines that are left. -/
theorem requestLines_eq_cons {first : Bytes} {rest : List Bytes}
    (h : requestLines s.rio.stream = first :: rest) :
    s.nextLine = first ∧ first ≠ [] ∧ requestLines (nextHeader server s).rio.stream = rest := by
  rw [nextHeader_stream, nextLine_eq]
  cases hstream : s.rio.stream with
  | nil =>
    rw [hstream] at h
    simp [requestLines, lines] at h
  | cons c stream =>
    rw [hstream, requestLines_cons] at h
    obtain ⟨hfirst, hrest⟩ := List.cons.inj h
    exact ⟨hfirst, hfirst ▸ lineOf_cons_ne_nil (maxline - 2) c stream, hrest⟩

/-- A line that ends the headers. -/
theorem nextHeader_ends (h : endsHeaders s.nextLine = true) :
    endsHeaders (nextHeader server s).buf = true := by
  have hne : s.nextLine ≠ [] := by
    intro hnil
    rw [hnil] at h
    cases h
  obtain ⟨rio', hread, -⟩ := rioReadlineb_maxline s.rio s.buf
  rw [← nextLine_eq] at hread
  rw [nextHeader, hread]
  exact (endsHeaders_storeLine s.buf hne _).trans (by rw [h, Bool.true_or])

end Round

/-! ## The loop -/

/-- The header loop leads from `s` to `s'`, looks at the header lines and the empty line, leaves the
body on the stream, and fills in the request by the header lines. -/
structure LinesExact (server : WebServer) (headers : List Bytes) (emptyLine body : Bytes)
    (fuel : ℕ) (s s' : HeaderState) : Prop where
  returns : headerLoop server fuel s = some s'
  considered : consideredLines server fuel s = headers ++ [emptyLine]
  stream : s'.rio.stream = body
  values : (s'.req, s'.upgrades) = handleHeaders server headers (s.req, s.upgrades)

section Loop

variable {server : WebServer} {s s' : HeaderState} {headers : List Bytes} {emptyLine body : Bytes}
  {fuel : ℕ}

theorem headerLoop_of_ends (h : endsHeaders s.buf = true) (fuel : ℕ) :
    headerLoop server (fuel + 1) s = some s := by
  rw [headerLoop, whileLoop, h]
  rfl

theorem headerLoop_succ (h : endsHeaders s.buf = false) (fuel : ℕ) :
    headerLoop server (fuel + 1) s = headerLoop server fuel (nextHeader server s) := by
  rw [headerLoop, whileLoop, h]
  rfl

theorem consideredLines_of_ends (h : endsHeaders s.buf = true) (fuel : ℕ) :
    consideredLines server (fuel + 1) s = [] := by
  rw [consideredLines, if_pos h]

theorem consideredLines_succ (h : endsHeaders s.buf = false) (fuel : ℕ) :
    consideredLines server (fuel + 1) s =
      s.nextLine :: consideredLines server fuel (nextHeader server s) := by
  rw [consideredLines, h]
  rfl

/-- **The loop takes its lines from the stream**, one behind the other. -/
theorem consideredLines_stream (h : headerLoop server fuel s = some s') :
    (consideredLines server fuel s).flatten ++ s'.rio.stream = s.rio.stream := by
  induction fuel generalizing s with
  | zero => cases h
  | succ fuel ih =>
    cases hbuf : endsHeaders s.buf with
    | true =>
      rw [headerLoop_of_ends hbuf] at h
      rw [consideredLines_of_ends hbuf, Option.some.inj h]
      rfl
    | false =>
      rw [headerLoop_succ hbuf] at h
      rw [consideredLines_succ hbuf, List.flatten_cons, List.append_assoc, ih h,
        nextHeader_stream, nextLine_eq]
      exact List.prefix_append_drop (lineOf_initial _ _) |>.symm

/-- **What the loop does on any stream**: it handles the lines that are read, up to the first that
ends the headers. -/
theorem headerLoop_pieces (hbuf : endsHeaders s.buf = false) {pieces rest : List Bytes}
    {last : Bytes} (hlines : requestLines s.rio.stream = pieces ++ last :: rest)
    (hpieces : ∀ piece ∈ pieces, endsHeaders piece = false) (hlast : endsHeaders last = true) :
    ∃ s', headerLoop server (pieces.length + 2) s = some s' ∧
      consideredLines server (pieces.length + 2) s = pieces ++ [last] ∧
      s'.rio.stream = rest.flatten ∧
      (s'.req, s'.upgrades) = handleHeaders server (pieces ++ [last]) (s.req, s.upgrades) := by
  induction pieces generalizing s with
  | nil =>
    obtain ⟨hnext, -, hrest⟩ := requestLines_eq_cons server s hlines
    obtain ⟨hstore, hvalues⟩ := nextHeader_piece server s (.inr (hnext ▸ newline_mem_of_ends hlast))
    have hends := nextHeader_ends server s (hnext ▸ hlast)
    refine ⟨nextHeader server s, ?_, ?_, ?_, ?_⟩
    · exact (headerLoop_succ hbuf _).trans (headerLoop_of_ends hends _)
    · rw [consideredLines_succ hbuf, consideredLines_of_ends hends, hnext]
      rfl
    · rw [← hrest, flatten_requestLines]
    · rw [hvalues, hnext]
      rfl
  | cons piece pieces ih =>
    obtain ⟨hpiece, hpieces⟩ := List.forall_mem_cons.1 hpieces
    obtain ⟨hnext, hne, hrest⟩ := requestLines_eq_cons server s hlines
    have hmore : (nextHeader server s).rio.stream ≠ [] := by
      intro hnil
      rw [hnil] at hrest
      simp [requestLines, lines] at hrest
    obtain ⟨hstore, hvalues⟩ := nextHeader_piece server s (.inl hmore)
    have hgoes : endsHeaders (nextHeader server s).buf = false := by
      rw [hstore, hnext, endsHeaders_store hne, hpiece]
    obtain ⟨s', hreturns, hconsidered, hstream, hall⟩ := ih hgoes hrest hpieces
    refine ⟨s', (headerLoop_succ hbuf _).trans hreturns, ?_, hstream, ?_⟩
    · exact (consideredLines_succ hbuf _).trans (congrArg₂ List.cons hnext hconsidered)
    · rw [hall, hvalues, hnext]
      rfl

/-- **Lines that fit are looked at one by one.** -/
theorem headerLoop_lines (hbuf : endsHeaders s.buf = false)
    (hlines : ∀ line ∈ headers, IsLine line ∧ ¬IsEmptyLine line)
    (hfits : ∀ line ∈ headers, line.length < maxline ∧ line.length ≠ 2)
    (hempty : IsEmptyLine emptyLine)
    (hstream : s.rio.stream = headers.flatten ++ (emptyLine ++ body)) :
    ∃ s', LinesExact server headers emptyLine body (headers.length + 2) s s' := by
  have hshort : emptyLine.length < maxline := by
    rcases hempty with rfl | rfl <;> decide
  have hend : endsHeaders emptyLine = true := by
    rcases hempty with rfl | rfl <;> rfl
  have hread : requestLines s.rio.stream = headers ++ emptyLine :: requestLines body := by
    rw [hstream, requestLines_lines fun line hline => ⟨(hlines line hline).1, (hfits line hline).1⟩,
      requestLines_line hempty.isLine hshort]
  have hmore : ∀ line ∈ headers, endsHeaders line = false := by
    intro line hline
    rw [← Bool.not_eq_true, endsHeaders_line (hlines line hline).1]
    exact not_or_intro (fun heq => (hlines line hline).2 (.inl heq)) (hfits line hline).2
  obtain ⟨s', hreturns, hconsidered, hrest, hvalues⟩ := headerLoop_pieces hbuf hread hmore hend
  refine ⟨s', hreturns, hconsidered, hrest.trans (flatten_requestLines body), hvalues.trans ?_⟩
  rw [handleHeaders, List.foldl_append]
  exact handleHeader_emptyLine server hempty _ _

/-- The first of the lines that the loop looks at. -/
theorem consideredLines_eq_cons {first : Bytes} {rest : List Bytes}
    (h : consideredLines server fuel s = first :: rest) :
    endsHeaders s.buf = false ∧ s.nextLine = first ∧
      ∃ fuel, consideredLines server fuel (nextHeader server s) = rest := by
  cases fuel with
  | zero => cases h
  | succ fuel =>
    cases hbuf : endsHeaders s.buf with
    | true =>
      rw [consideredLines_of_ends hbuf] at h
      cases h
    | false =>
      rw [consideredLines_succ hbuf] at h
      obtain ⟨hfirst, hrest⟩ := List.cons.inj h
      exact ⟨rfl, hfirst, fuel, hrest⟩

/-- Lines that are looked at as a whole, with another one behind them, fit and do not have two
bytes. -/
theorem fits_of_considered (hlines : ∀ line ∈ headers, IsLine line)
    (h : consideredLines server fuel s = headers ++ [emptyLine]) :
    endsHeaders s.buf = false ∧ ∀ line ∈ headers, line.length < maxline ∧ line.length ≠ 2 := by
  induction headers generalizing s fuel with
  | nil => exact ⟨(consideredLines_eq_cons h).1, List.forall_mem_nil _⟩
  | cons line headers ih =>
    obtain ⟨hline, hlines⟩ := List.forall_mem_cons.1 hlines
    obtain ⟨hbuf, hnext, fuel, hrest⟩ := consideredLines_eq_cons h
    obtain ⟨hmore, hfits⟩ := ih hlines hrest
    have hlength : line.length ≤ maxline - 1 := by
      rw [← hnext, nextLine_eq]
      exact length_lineOf_le _ _
    have hshort : line.length < maxline := Nat.lt_of_le_sub_one (by decide) hlength
    have hends : endsHeaders line = false := by
      by_contra hends
      rw [Bool.not_eq_false] at hends
      rw [← hnext] at hends
      rw [nextHeader_ends server s hends] at hmore
      cases hmore
    rw [← Bool.not_eq_true, endsHeaders_line hline, not_or] at hends
    exact ⟨hbuf, List.forall_mem_cons.2 ⟨⟨hshort, hends.2⟩, hfits⟩⟩

end Loop

/-- **The header lines are examined as they are**: the loop looks at each header line once, from its
start to its end, in their order, and ends behind the first empty line; the request is filled in by
these lines. -/
def HeadersExact (server : WebServer) (connection : Connection) (locals : Locals)
    (req : HttpRequest) (r : Request) : Prop :=
  ∃ fuel s', LinesExact server r.headers r.emptyLine r.body fuel
    (startRequest connection locals req).1 s'

section Start

variable {connection : Connection} {locals : Locals} {req : HttpRequest}

/-- A request line that fits. -/
theorem startRequest_line {line rest : Bytes} (h : IsLine line) (hfits : line.length < maxline)
    (hstream : connection.stream = line ++ rest) :
    (startRequest connection locals req).1.rio.stream = rest ∧
      (startRequest connection locals req).1.buf = store locals.buf (line ++ [0]) := by
  obtain ⟨hline, hend⟩ := lineOf_line h (Nat.le_sub_one_of_lt hfits) connection.ended rest
  obtain ⟨hbuf, hrest⟩ := startRequest_spec connection locals req
  rw [hstream, hline] at hrest hbuf
  rw [hend] at hbuf
  exact ⟨hrest.trans (List.drop_left ..), hbuf⟩

end Start

section Exact

variable (server : WebServer) (connection : Connection) (locals : Locals) (req : HttpRequest)
  (r : Request)

/-- Lines that fit are examined as they are. -/
theorem headersExact_of_fits (hstream : connection.stream = r.encode)
    (hfits : ∀ line ∈ r.requestLine :: r.headers, line.length < maxline ∧ line.length ≠ 2) :
    HeadersExact server connection locals req r := by
  obtain ⟨⟨hline, hne⟩, hlines⟩ := List.forall_mem_cons.1 r.lines
  obtain ⟨⟨hshort, htwo⟩, hfits⟩ := List.forall_mem_cons.1 hfits
  obtain ⟨hrest, hbuf⟩ := startRequest_line hline hshort hstream
  have hmore : endsHeaders (startRequest connection locals req).1.buf = false := by
    rw [hbuf, endsHeaders_store hline.ne_nil, ← Bool.not_eq_true, endsHeaders_line hline]
    exact not_or_intro (fun heq => hne (.inl heq)) htwo
  obtain ⟨s', h⟩ := headerLoop_lines hmore hlines hfits r.emptyLine_empty hrest
  exact ⟨_, s', h⟩

/-- Lines that are examined as they are fit. -/
theorem fits_of_headersExact (hstream : connection.stream = r.encode)
    (h : HeadersExact server connection locals req r) :
    ∀ line ∈ r.requestLine :: r.headers, line.length < maxline ∧ line.length ≠ 2 := by
  obtain ⟨⟨hline, hne⟩, hlines⟩ := List.forall_mem_cons.1 r.lines
  obtain ⟨fuel, s', h⟩ := h
  obtain ⟨hbuf, hfits⟩ := fits_of_considered (fun line hmem => (hlines line hmem).1) h.considered
  -- the bytes that the loop has taken and left are those behind the request line
  have hconserved := consideredLines_stream h.returns
  rw [h.considered, h.stream, (startRequest_spec connection locals req).2, hstream] at hconserved
  have hlength : r.requestLine.length ≤ maxline - 1 := by
    have hle := length_lineOf_le (maxline - 1) r.encode
    have heq := congrArg List.length hconserved
    simp [Request.encode] at heq hle ⊢
    omega
  have hshort : r.requestLine.length < maxline := Nat.lt_of_le_sub_one (by decide) hlength
  rw [(startRequest_line hline hshort hstream).2, endsHeaders_store hline.ne_nil,
    ← Bool.not_eq_true, endsHeaders_line hline, not_or] at hbuf
  exact List.forall_mem_cons.2 ⟨⟨hshort, hbuf.2⟩, hfits⟩

end Exact

/-- **The header lines are examined as they are if and only if the lines fit.** -/
theorem headersExact_iff (server : WebServer) (connection : Connection) (locals : Locals)
    (req : HttpRequest) (r : Request) (hstream : connection.stream = r.encode) :
    HeadersExact server connection locals req r ↔
      ∀ line ∈ r.requestLine :: r.headers, line.length < maxline ∧ line.length ≠ 2 :=
  ⟨fits_of_headersExact server connection locals req r hstream,
    headersExact_of_fits server connection locals req r hstream⟩

/-- A request with one header line, which fits. -/
theorem headersExact_host : HeadersExact ⟨literal "/data", literal "robot"⟩
    ⟨[.data ⟨literal "GET / HTTP/1.1\r\nHost: robot\r\n\r\n", by decide, by decide⟩], .eof⟩
    ⟨[], [], []⟩ ⟨[], 0, 0, false, [], 0, false⟩
    ⟨literal "GET / HTTP/1.1\r\n", [literal "Host: robot\r\n"], literal "\r\n", [], by decide,
      by decide⟩ :=
  (headersExact_iff _ _ _ _ _ rfl).2 (by decide)

/-- The line `"X: ..."` has 278 bytes, and its last 23 bytes are `"Accept-Encoding: gzip\r\n"`: the
response is sent with `gzip`. -/
theorem not_headersExact_gzip : ∃ connection locals req r, connection.stream = r.encode ∧
    ¬HeadersExact ⟨literal "/data", literal "robot"⟩ connection locals req r := by
  obtain ⟨connection, hconnection⟩ : ∃ connection : Connection, connection =
      ⟨[.data ⟨literal "GET / HTTP/1.1\r\nX: " ++ List.replicate 237 97, by decide +kernel,
          by decide +kernel⟩,
        .data ⟨List.replicate 15 97 ++ literal "Accept-Encoding: gzip\r\n\r\n", by decide +kernel,
          by decide +kernel⟩], .eof⟩ := ⟨_, rfl⟩
  refine ⟨connection, ⟨List.replicate 256 0, List.replicate 128 0, List.replicate 10 0⟩,
    ⟨[], 0, 0, false, List.replicate 24 0, 0, false⟩,
    ⟨literal "GET / HTTP/1.1\r\n",
      [literal "X: " ++ List.replicate 252 97 ++ literal "Accept-Encoding: gzip\r\n"],
      literal "\r\n", [], by decide +kernel, by decide⟩, ?_, ?_⟩
  · rw [hconnection]
    decide +kernel
  rintro ⟨fuel, s', h⟩
  have hgzip : (headerLoop ⟨literal "/data", literal "robot"⟩ 5 (startRequest connection
      ⟨List.replicate 256 0, List.replicate 128 0, List.replicate 10 0⟩
      ⟨[], 0, 0, false, List.replicate 24 0, 0, false⟩).1).map (fun s => s.req.servingGzip) =
      some true := by
    rw [hconnection]
    decide +kernel
  obtain ⟨t, ht, hvalue⟩ := Option.map_eq_some_iff.1 hgzip
  -- the state at the end does not depend on the fuel
  have hmax := whileLoop_mono h.returns (le_max_left fuel 5)
  have hsame : s' = t := Option.some.inj (hmax.symm.trans (whileLoop_mono ht (le_max_right fuel 5)))
  have hnone := congrArg (fun r => r.1.servingGzip) h.values
  rw [hsame, hconnection] at hnone
  exact absurd (hvalue.symm.trans hnone) (by decide +kernel)

end RbProtocol.Web
