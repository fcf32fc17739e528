import RbProtocol.Web.HeaderLines
import RbProtocol.Web.Serve

/-!
# The switch to WebSocket

When `process` switches the protocol. `parse_request` counts the `Upgrade`, `Connection` and
`Sec-WebSocket-Key` headers together in a `uint8_t`, takes the version of the last header that has
one, and compares the count with 3 and the version with 13. `ws_version` is not set before, so
without such a header it is what the memory held.

`upgradeExact_iff` says for which requests and which memory this is the right decision: none of four
things happens, which are the fields of `Decisive`.
-/

namespace RbProtocol.Web

open Ascii Library

/-! ## The headers of an upgrade -/

/-- An `Upgrade` header. -/
def isUpgrade (line : Bytes) : Prop := literal "Upgrade: websocket" <+: cstr line

/-- A `Connection` header that mentions `Upgrade`. -/
def isConnection (line : Bytes) : Prop :=
  literal "Connection: " <+: cstr line ∧ literal "Upgrade" <:+: (cstr line).drop 12

/-- The 24 characters of a `Sec-WebSocket-Key` header. -/
def keyOf (line : Bytes) : Option Bytes :=
  if (cstr line).length = 19 + 24 + 2 ∧ literal "Sec-WebSocket-Key: " <+: cstr line then
    some (((cstr line).drop 19).take 24)
  else none

/-- The number in a `Sec-WebSocket-Version` header. -/
def versionOf (line : Bytes) : Option ℤ :=
  if literal "Sec-WebSocket-Version: " <+: cstr line then
    (scanNumeral ((cstr line).drop 23)).map fun r => r.1.toLong
  else none

/-- Whether a `Host` header names another host. -/
def nonLocalOf (server : WebServer) (line : Bytes) : Option Bool :=
  if literal "Host: " <+: cstr line then some (!isLocalHost server ((cstr line).drop 6)) else none

/-- The headers that are counted. -/
def Counts (line : Bytes) : Prop := isUpgrade line ∨ isConnection line ∨ (keyOf line).isSome

instance : DecidablePred isUpgrade := fun _ => inferInstanceAs (Decidable (_ <+: _))

instance : DecidablePred isConnection := fun _ => inferInstanceAs (Decidable (_ ∧ _))

instance : DecidablePred Counts := fun _ => inferInstanceAs (Decidable (_ ∨ _ ∨ _))

/-- The last of the values that some lines have, or what was there before. -/
def lastOf {α : Type*} (value : Bytes → Option α) (lines : List Bytes) (before : α) : α :=
  (lines.filterMap value).getLast?.getD before

theorem lastOf_cons {α : Type*} (value : Bytes → Option α) (line : Bytes) (lines : List Bytes)
    (before : α) :
    lastOf value (line :: lines) before = lastOf value lines ((value line).getD before) := by
  unfold lastOf
  cases hvalue : value line with
  | none => rw [List.filterMap_cons_none hvalue, Option.getD_none]
  | some a =>
    rw [List.filterMap_cons_some hvalue, List.getLast?_cons, Option.getD_some]
    rfl

/-- If a line has a value, the last one is that of a line. -/
theorem lastOf_mem {α : Type*} {value : Bytes → Option α} {lines : List Bytes}
    (h : ∃ line ∈ lines, (value line).isSome) (before : α) :
    ∃ line ∈ lines, value line = some (lastOf value lines before) := by
  obtain ⟨line, hline, hsome⟩ := h
  obtain ⟨a, ha⟩ := Option.isSome_iff_exists.1 hsome
  have hne : lines.filterMap value ≠ [] :=
    List.ne_nil_of_mem (List.mem_filterMap.2 ⟨line, hline, ha⟩)
  have hlast : lastOf value lines before = (lines.filterMap value).getLast hne := by
    rw [lastOf, List.getLast?_eq_some_getLast hne, Option.getD_some]
  rw [hlast]
  exact List.mem_filterMap.1 (List.getLast_mem hne)

/-! ## What a header line does -/

/-- The texts that the header loop looks for. -/
def headerTexts : List Bytes :=
  [literal "Ran", literal "Accept-Encoding: ", literal "Upgrade: websocket", literal "Connection: ",
    literal "Sec-WebSocket-Key: ", literal "Sec-WebSocket-Version: ", literal "Host: "]

/-- A line begins with at most one of them. -/
theorem headerTexts_pairwise (text : Bytes) :
    headerTexts.Pairwise fun p q => p <+: text → ¬q <+: text := by
  have hall : headerTexts.Pairwise fun p q => ¬p <+: q ∧ ¬q <+: p := by decide +kernel
  refine hall.imp fun ⟨hpq, hqp⟩ hp hq => ?_
  exact (List.prefix_or_prefix_of_prefix hp hq).elim hpq hqp

/-- A text without a NUL is in front of the string if it is in front of the line. -/
theorem prefix_cstr {text : Bytes} (h : 0 ∉ text) (line : Bytes) :
    text <+: cstr line ↔ text <+: line := by
  induction text generalizing line with
  | nil => exact iff_of_true List.nil_prefix List.nil_prefix
  | cons t text ih =>
    obtain ⟨ht, htext⟩ := not_or.1 (List.mem_cons.not.1 h)
    cases line with
    | nil => exact iff_of_eq rfl
    | cons c line =>
      by_cases hc : c = 0
      · subst hc
        simpa [cstr, List.cons_prefix_cons] using fun heq => absurd heq.symm ht
      · have hcons : cstr (c :: line) = c :: cstr line := List.takeWhile_cons_of_pos (by simpa)
        rw [hcons, List.cons_prefix_cons, List.cons_prefix_cons, ih htext]

/-- `strncmp` with the whole of a text compares with its front. -/
theorem strncmp_eq_zero_iff {text : Bytes} (h : 0 ∉ text) (s : Bytes) :
    strncmp text.length s text = 0 ↔ text <+: s := by
  induction text generalizing s with
  | nil => exact iff_of_true rfl List.nil_prefix
  | cons c text ih =>
    obtain ⟨hc, htext⟩ := not_or.1 (List.mem_cons.not.1 h)
    have hne : c ≠ 0 := fun h0 => hc h0.symm
    cases s with
    | nil =>
      have hpos : c.toNat ≠ 0 := fun h0 => hne (UInt8.toNat_inj.1 h0)
      simp [strncmp, hne.symm, hpos]
    | cons d s =>
      rw [List.length_cons, strncmp, List.cons_prefix_cons, ← ih htext s]
      by_cases hd : d = c
      · subst hd
        simp [hne]
      · have hsub : (d.toNat : ℤ) - c.toNat ≠ 0 := fun h0 =>
          hd (UInt8.toNat_inj.1 (Int.ofNat_inj.1 (sub_eq_zero.1 h0)))
        simp [hd, Ne.symm hd, hsub]

/-- A range is no part of an upgrade. -/
theorem scanRange_values (line : Bytes) (req : HttpRequest) :
    (scanRange line req).wsVersion = req.wsVersion ∧ (scanRange line req).wsKey = req.wsKey ∧
      (scanRange line req).nonLocalHostname = req.nonLocalHostname := by
  unfold scanRange
  split
  · exact ⟨rfl, rfl, rfl⟩
  · split <;> exact ⟨rfl, rfl, rfl⟩

/-- **What a header line does** to the count and to the values. -/
theorem handleHeader_values (server : WebServer) (line : Bytes) (req : HttpRequest)
    (upgrades : UInt8) :
    let h := handleHeader server line req upgrades
    h.2 = upgrades + (if Counts line then 1 else 0) ∧
      h.1.wsVersion = (versionOf line).getD req.wsVersion ∧
      h.1.wsKey = (keyOf line).getD req.wsKey ∧
      h.1.nonLocalHostname = (nonLocalOf server line).getD req.nonLocalHostname := by
  have hhost : strncmp 6 (cstr line) (literal "Host: ") = 0 ↔ literal "Host: " <+: cstr line := by
    have hsix : (literal "Host: ").length = 6 := by decide
    exact hsix ▸ strncmp_eq_zero_iff (by decide) (cstr line)
  have hrange : literal "Ran" <+: line ↔ literal "Ran" <+: cstr line :=
    (prefix_cstr (by decide) line).symm
  have hpairs := headerTexts_pairwise (cstr line)
  simp only [headerTexts, List.pairwise_cons, List.forall_mem_cons] at hpairs
  obtain ⟨hran, haccept, hupgrade, hconnection, hkey, hversion, -⟩ := hpairs
  unfold handleHeader Counts isUpgrade isConnection keyOf versionOf nonLocalOf
  simp only [hhost, hrange]
  by_cases h1 : literal "Ran" <+: cstr line
  · obtain ⟨hv, hk, hn⟩ := scanRange_values (cstr line) req
    simp only [h1, hran.2.1 h1, hran.2.2.1 h1, hran.2.2.2.1 h1, hran.2.2.2.2.1 h1,
      hran.2.2.2.2.2.1 h1, if_true, if_false, false_and, and_false, or_self, Option.isSome_none,
      Bool.false_eq_true, Option.getD_none]
    split_ifs <;> simp [hv, hk, hn]
  by_cases h2 : literal "Accept-Encoding: " <+: cstr line
  · simp only [h1, h2, haccept.1 h2, haccept.2.1 h2, haccept.2.2.1 h2, haccept.2.2.2.1 h2,
      haccept.2.2.2.2.1 h2, if_false, false_and, and_false, or_self, Option.isSome_none,
      Bool.false_eq_true, Option.getD_none]
    split_ifs <;> simp
  by_cases h3 : literal "Upgrade: websocket" <+: cstr line
  · simp [h1, h2, h3, hupgrade.2.1 h3, hupgrade.2.2.1 h3, hupgrade.2.2.2.1 h3]
  by_cases h4 : literal "Connection: " <+: cstr line
  · simp only [h1, h2, h3, h4, hconnection.1 h4, hconnection.2.1 h4, hconnection.2.2.1 h4, if_false,
      false_and, true_and, and_false, false_or, or_false, Option.isSome_none, Bool.false_eq_true,
      Option.getD_none]
    split_ifs <;> simp
  by_cases h5 : literal "Sec-WebSocket-Key: " <+: cstr line
  · simp only [h1, h2, h3, h4, h5, hkey.1 h5, hkey.2.1 h5, if_false, false_and, and_true, false_or,
      Option.getD_none]
    split_ifs <;> simp_all
  by_cases h6 : literal "Sec-WebSocket-Version: " <+: cstr line
  · simp only [h1, h2, h3, h4, h5, h6, hversion.1 h6, if_false, if_true, false_and, and_false,
      or_self, Option.isSome_none, Bool.false_eq_true, Option.getD_none]
    cases scanNumeral ((cstr line).drop 23) <;> simp
  · simp only [h1, h2, h3, h4, h5, h6, if_false, false_and, and_false, or_self, Option.isSome_none,
      Bool.false_eq_true, Option.getD_none]
    split_ifs <;> simp

/-- What the header lines do. -/
theorem handleHeaders_values (server : WebServer) (lines : List Bytes) (s : HttpRequest × UInt8) :
    let h := handleHeaders server lines s
    h.2 = s.2 + UInt8.ofNat (lines.countP fun line => Counts line) ∧
      h.1.wsVersion = lastOf versionOf lines s.1.wsVersion ∧
      h.1.wsKey = lastOf keyOf lines s.1.wsKey ∧
      h.1.nonLocalHostname = lastOf (nonLocalOf server) lines s.1.nonLocalHostname := by
  induction lines generalizing s with
  | nil => exact ⟨(UInt8.add_zero _).symm, rfl, rfl, rfl⟩
  | cons line lines ih =>
    obtain ⟨hcount, hversion, hkey, hhost⟩ := handleHeader_values server line s.1 s.2
    obtain ⟨ihcount, ihversion, ihkey, ihhost⟩ := ih (handleHeader server line s.1 s.2)
    refine ⟨?_, ?_, ?_, ?_⟩
    · refine ihcount.trans ?_
      rw [hcount, List.countP_cons, UInt8.ofNat_add, UInt8.add_assoc,
        UInt8.add_comm (UInt8.ofNat _)]
      congr 2
      by_cases hline : Counts line <;> simp [hline]
    · rw [lastOf_cons, ← hversion]
      exact ihversion
    · rw [lastOf_cons, ← hkey]
      exact ihkey
    · rw [lastOf_cons, ← hhost]
      exact ihhost

/-! ## Requests -/

/-- A request of HTTP whose lines fit in the buffer. -/
structure Request.Plain (r : Request) (method : Bytes) : Prop where
  fits : ∀ line ∈ r.requestLine :: r.headers, line.length < maxline
  crlf : ∀ line ∈ r.requestLine :: r.headers, [carriageReturn, newline] <:+ line
  requestLine : ∃ more, r.requestLine = method ++ space :: more
  method_ne_nil : method ≠ []
  method_chars : ∀ c ∈ method, isSpace c = false ∧ c ≠ nul

section Plain

variable {r : Request} {method : Bytes}

theorem Request.Plain.length_ne (h : r.Plain method) :
    ∀ line ∈ r.requestLine :: r.headers, line.length < maxline ∧ line.length ≠ 2 := by
  intro line hline
  refine ⟨h.fits line hline, fun htwo => ?_⟩
  have hall : [carriageReturn, newline] = line :=
    (h.crlf line hline).eq_of_length htwo.symm
  exact (r.lines line hline).2 (.inr hall.symm)

/-- The method is read from the request line. -/
theorem cstr_method (h : r.Plain method) (locals : Locals) (buf : Bytes) :
    cstr (scanRequestLine { locals with buf := store buf (r.requestLine ++ [0]) }).method =
      method.take 9 := by
  obtain ⟨more, hmore⟩ := h.requestLine
  have hnul : ∀ c ∈ method, decide (c ≠ 0) = true := fun c hc =>
    decide_eq_true (h.method_chars c hc).2
  have hword : ∀ c ∈ method, (!isSpace c) = true := fun c hc => by
    rw [(h.method_chars c hc).1]
    rfl
  have hline : cstr (store buf (r.requestLine ++ [0])) = method ++ space :: cstr more := by
    rw [cstr_store, hmore, cstr, List.takeWhile_append_of_pos hnul]
    rfl
  have hskip : skipSpace (method ++ space :: cstr more) = method ++ space :: cstr more := by
    obtain ⟨c, rest, hcons⟩ := List.exists_cons_of_ne_nil h.method_ne_nil
    have hc : isSpace c = false := (h.method_chars c (hcons ▸ List.mem_cons_self)).1
    rw [hcons, List.cons_append, skipSpace, List.dropWhile_cons_of_neg (by rw [hc]; decide)]
  have htake : (method ++ space :: cstr more).takeWhile (fun c => !isSpace c) = method := by
    rw [List.takeWhile_append_of_pos hword]
    exact List.append_nil method
  have hne : method.take 9 ≠ [] := by
    simpa using h.method_ne_nil
  have hnine : cstr (method.take 9) = method.take 9 :=
    cstr_eq_self fun hmem => (h.method_chars 0 (List.mem_of_mem_take hmem)).2 rfl
  unfold scanRequestLine
  simp only [hline, scanWord, hskip, htake, if_neg hne]
  split <;> exact (cstr_store _ _).trans hnine

/-- What follows the header loop, for the values of an upgrade. -/
theorem finishRequest_values (server : WebServer) (locals : Locals) (s : HeaderState) :
    (finishRequest server locals s).nonLocalHostname = s.req.nonLocalHostname ∧
      (finishRequest server locals s).wsKey = s.req.wsKey ∧
      (finishRequest server locals s).wsVersion =
        if s.upgrades = 3 ∧ cstr locals.method = literal "GET" then s.req.wsVersion else 0 := by
  unfold finishRequest
  by_cases hzero : s.req.wsVersion = 0
  · simp [hzero]
  · by_cases hall : s.upgrades = 3 ∧ cstr locals.method = literal "GET"
    · simp [hall]
    · have hnot : s.upgrades ≠ 3 ∨ cstr locals.method ≠ literal "GET" := not_and_or.1 hall
      simp [hzero, hall, hnot]

/-- The number of headers that are counted. -/
def upgradeHeaders (r : Request) : ℕ := r.headers.countP fun line => Counts line

/-- **What `parse_request` makes of the headers of an upgrade.** -/
theorem parseRequest_plain (h : r.Plain method) (server : WebServer) {connection : Connection}
    (hstream : connection.stream = r.encode) (locals : Locals) (req : HttpRequest) :
    ∃ fuel request, parseRequest server connection locals req fuel = some request ∧
      request.nonLocalHostname = lastOf (nonLocalOf server) r.headers false ∧
      request.wsKey = lastOf keyOf r.headers req.wsKey ∧
      request.wsVersion = if upgradeHeaders r % 256 = 3 ∧ method = literal "GET" then
        lastOf versionOf r.headers req.wsVersion else 0 := by
  obtain ⟨fuel, s', hexact⟩ :=
    headersExact_of_fits server connection locals req r hstream h.length_ne
  obtain ⟨hcount, hversion, hkey, hhost⟩ := handleHeaders_values server r.headers
    ((startRequest connection locals req).1.req, (startRequest connection locals req).1.upgrades)
  rw [← hexact.values] at hcount hversion hkey hhost
  replace hcount : s'.upgrades = 0 + UInt8.ofNat (upgradeHeaders r) := hcount
  replace hversion : s'.req.wsVersion = lastOf versionOf r.headers req.wsVersion := hversion
  obtain ⟨hlocal, hkept, hfinal⟩ :=
    finishRequest_values server (startRequest connection locals req).2 s'
  refine ⟨fuel, _, Option.map_eq_some_iff.2 ⟨s', hexact.returns, rfl⟩, hlocal.trans hhost,
    hkept.trans hkey, hfinal.trans ?_⟩
  -- the count is a `uint8_t`, and the method is the first word of the request line
  have hthree : s'.upgrades = 3 ↔ upgradeHeaders r % 256 = 3 := by
    rw [hcount, UInt8.zero_add, ← UInt8.toNat_inj, UInt8.toNat_ofNat']
    rfl
  have hbuf : (startRequest connection locals req).1.buf =
      store locals.buf (r.requestLine ++ [0]) :=
    (startRequest_line (r.lines _ List.mem_cons_self).1 (h.fits _ List.mem_cons_self) hstream).2
  have hmethod : cstr (startRequest connection locals req).2.method = method.take 9 := by
    have hscan : (startRequest connection locals req).2 =
        scanRequestLine { locals with buf := (startRequest connection locals req).1.buf } := rfl
    rw [hscan, hbuf, cstr_method h]
  have hget : cstr (startRequest connection locals req).2.method = literal "GET" ↔
      method = literal "GET" := by
    rw [hmethod]
    constructor
    · intro htake
      have hlength := congrArg List.length htake
      rw [List.length_take] at hlength
      have hthree : (literal "GET").length = 3 := by decide
      rwa [List.take_of_length_le (by omega)] at htake
    · rintro rfl
      decide
  rw [hversion]
  simp only [hthree, hget]

end Plain

/-! ## The decision -/

/-- A header of each of the three kinds that are counted. -/
structure AllKinds (r : Request) : Prop where
  upgrade : ∃ line ∈ r.headers, isUpgrade line
  connection : ∃ line ∈ r.headers, isConnection line
  key : ∃ line ∈ r.headers, (keyOf line).isSome

/-- What a client sends that wants to switch. -/
structure Offers (r : Request) : Prop extends AllKinds r where
  version : ∃ line ∈ r.headers, versionOf line = some knownWsVersion

/-- The decision that `process` should make, and the key it should answer with. -/
structure UpgradeExact (site : Site) (r : Request) (method : Bytes)
    (result : Bool × List WebEffect) : Prop where
  decision : result.1 = true ↔ method = literal "GET" ∧ Offers r
  accept : result.1 = true → ∃ line ∈ r.headers, ∃ key, keyOf line = some key ∧
    .send (site.acceptKey (key ++ literal "258EAFA5-E914-47DA-95CA-C5AB0DC85B11")) ∈ result.2

/-- The headers, and what was in `ws_version` before, decide as they should. -/
structure Decisive (r : Request) (wsVersion : ℤ) : Prop where
  /-- No header is repeated, but for 256 of them. -/
  repeated : Offers r → upgradeHeaders r % 256 = 3
  /-- No other version follows the known one. -/
  superseded : Offers r → lastOf versionOf r.headers wsVersion = knownWsVersion
  /-- No header that is repeated stands for one that is missing. -/
  substituted : ¬AllKinds r → upgradeHeaders r % 256 = 3 →
    lastOf versionOf r.headers wsVersion ≠ knownWsVersion
  /-- The memory does not stand for a version that is missing. -/
  stale : AllKinds r → (∀ line ∈ r.headers, versionOf line = none) → upgradeHeaders r % 256 = 3 →
    wsVersion ≠ knownWsVersion

/-- The count and the last version decide as they should. -/
theorem decisive_iff (r : Request) (wsVersion : ℤ) : Decisive r wsVersion ↔
    (upgradeHeaders r % 256 = 3 ∧ lastOf versionOf r.headers wsVersion = knownWsVersion ↔
      Offers r) := by
  have hnone (hall : ∀ line ∈ r.headers, versionOf line = none) :
      lastOf versionOf r.headers wsVersion = wsVersion := by
    rw [lastOf, List.filterMap_eq_nil_iff.2 hall]
    rfl
  constructor
  · intro h
    refine ⟨?_, fun hoffers => ⟨h.repeated hoffers, h.superseded hoffers⟩⟩
    rintro ⟨hcount, hlast⟩
    by_cases hkinds : AllKinds r
    · by_cases hread : ∃ line ∈ r.headers, (versionOf line).isSome
      · obtain ⟨line, hline, hversion⟩ := lastOf_mem hread wsVersion
        exact ⟨hkinds, line, hline, hlast ▸ hversion⟩
      · have hall : ∀ line ∈ r.headers, versionOf line = none := fun line hline =>
          Option.not_isSome_iff_eq_none.1 fun hsome => hread ⟨line, hline, hsome⟩
        exact absurd ((hnone hall).symm.trans hlast) (h.stale hkinds hall hcount)
    · exact absurd hlast (h.substituted hkinds hcount)
  · intro h
    refine ⟨fun hoffers => (h.2 hoffers).1, fun hoffers => (h.2 hoffers).2,
      fun hkinds hcount hlast => hkinds (h.1 ⟨hcount, hlast⟩).toAllKinds,
      fun hkinds hall hcount hstale => ?_⟩
    obtain ⟨line, hline, hversion⟩ := (h.1 ⟨hcount, (hnone hall).trans hstale⟩).version
    rw [hall line hline] at hversion
    cases hversion

/-- When a request that is for the robot itself switches the protocol. -/
theorem process_upgrade {site : Site} {request : HttpRequest} (hws : site.wsProtocol = true)
    (hlocal : request.nonLocalHostname = false) :
    ((process site request).1 = true ↔ request.wsVersion = knownWsVersion) ∧
      ((process site request).1 = true →
        .send (site.acceptKey (request.wsKey ++ literal "258EAFA5-E914-47DA-95CA-C5AB0DC85B11")) ∈
          (process site request).2) := by
  by_cases hknown : request.wsVersion = knownWsVersion
  · have hne : request.wsVersion ≠ 0 := by
      rw [hknown]
      decide
    have hswitch : process site request = handleWebsocketSwitchRequest site request := by
      simp [process, hlocal, hws, hne]
    rw [hswitch, handleWebsocketSwitchRequest, if_neg (not_not_intro hknown)]
    exact ⟨iff_of_true rfl hknown, fun _ => List.mem_cons_of_mem _ List.mem_cons_self⟩
  · have hstay : (process site request).1 = false := by
      unfold process
      by_cases hzero : request.wsVersion = 0
      · simp only [hlocal, hzero, ne_eq, not_true_eq_false, Bool.false_eq_true, if_false]
        cases extraPath site request with
        | none => rfl
        | some path =>
          simp only
          split_ifs <;> rfl
      · simp [hlocal, hws, hzero, handleWebsocketSwitchRequest, hknown]
    rw [hstay]
    exact ⟨iff_of_false Bool.false_ne_true hknown, fun hfalse => absurd hfalse Bool.false_ne_true⟩

/-- **The protocol is switched when it should be if and only if the headers, and what was in
`ws_version` before, decide as they should.** -/
theorem upgradeExact_iff (site : Site) (hws : site.wsProtocol = true) (r : Request) (method : Bytes)
    (h : r.Plain method) (hlocal : lastOf (nonLocalOf site.server) r.headers false = false)
    (connection : Connection) (hstream : connection.stream = r.encode) (locals : Locals)
    (req : HttpRequest) :
    ∃ fuel result, (parseRequest site.server connection locals req fuel).map (process site) =
        some result ∧
      (UpgradeExact site r method result ↔
        (method = literal "GET" → Decisive r req.wsVersion)) := by
  obtain ⟨fuel, request, hparse, hhost, hkey, hversion⟩ :=
    parseRequest_plain h site.server hstream locals req
  obtain ⟨hswitch, haccept⟩ := process_upgrade hws (hhost.trans hlocal)
  refine ⟨fuel, process site request, by rw [hparse]; rfl, ?_⟩
  have hdecision : (process site request).1 = true ↔ (upgradeHeaders r % 256 = 3 ∧
      method = literal "GET") ∧ lastOf versionOf r.headers req.wsVersion = knownWsVersion := by
    rw [hswitch, hversion]
    split_ifs with hcond
    · exact (and_iff_right hcond).symm
    · exact iff_of_false (by decide) fun hfalse => hcond hfalse.1
  rw [decisive_iff]
  constructor
  · intro hexact hget
    rw [← and_iff_right (b := Offers r) hget, ← hexact.decision, hdecision]
    exact ⟨fun h => ⟨⟨h.1, hget⟩, h.2⟩, fun h => ⟨h.1.1, h.2⟩⟩
  · intro hdecisive
    have hiff : (process site request).1 = true ↔ method = literal "GET" ∧ Offers r := by
      rw [hdecision]
      constructor
      · rintro ⟨⟨hcount, hget⟩, hlast⟩
        exact ⟨hget, (hdecisive hget).1 ⟨hcount, hlast⟩⟩
      · rintro ⟨hget, hoffers⟩
        obtain ⟨hcount, hlast⟩ := (hdecisive hget).2 hoffers
        exact ⟨⟨hcount, hget⟩, hlast⟩
    refine ⟨hiff, fun htrue => ?_⟩
    obtain ⟨line, hline, hlast⟩ := lastOf_mem (hiff.1 htrue).2.key req.wsKey
    exact ⟨line, hline, _, hlast, hkey ▸ haccept htrue⟩

/-- A request with the four headers switches the protocol, if `ws_version` was 0 before. -/
theorem upgradeExact_offers :
    let site : Site := ⟨⟨literal "/data", literal "robot"⟩, true, false, none, fun _ => none, id,
      fun _ => ⟨none, none⟩, 0⟩
    let r : Request := ⟨literal "GET / HTTP/1.1\r\n", [literal "Host: robot\r\n",
      literal "Upgrade: websocket\r\n", literal "Connection: keep-alive, Upgrade\r\n",
      literal "Sec-WebSocket-Key: dGhlIHNhbXBsZSBub25jZQ==\r\n",
      literal "Sec-WebSocket-Version: 13\r\n"], literal "\r\n", [], by decide +kernel, by decide⟩
    let connection : Connection := ⟨[.data ⟨r.encode, by decide +kernel, by decide +kernel⟩], .eof⟩
    ∃ fuel result, (parseRequest site.server connection ⟨[], [], []⟩
        ⟨[], 0, 0, false, List.replicate 24 0, 0, false⟩ fuel).map (process site) = some result ∧
      UpgradeExact site r (literal "GET") result := by
  intro site r connection
  have hplain : r.Plain (literal "GET") :=
    ⟨by decide +kernel, by decide +kernel, ⟨literal "/ HTTP/1.1\r\n", by decide +kernel⟩,
      by decide +kernel, by decide +kernel⟩
  have hkinds : AllKinds r := ⟨by decide +kernel, by decide +kernel, by decide +kernel⟩
  have hoffers : Offers r := ⟨hkinds, by decide +kernel⟩
  obtain ⟨fuel, result, hresult, hiff⟩ := upgradeExact_iff site rfl r (literal "GET") hplain
    (by decide +kernel) connection (by decide +kernel) _ _
  refine ⟨fuel, result, hresult, hiff.2 fun _ => (decisive_iff _ _).2 ?_⟩
  exact iff_of_true (by decide +kernel) hoffers

/-- Three `Connection` headers and a version are enough, and the answer is computed from what was in
`ws_key`. -/
theorem not_upgradeExact_connection : ∃ site r method connection locals req fuel result,
    site.wsProtocol = true ∧ r.Plain method ∧
    lastOf (nonLocalOf site.server) r.headers false = false ∧ connection.stream = r.encode ∧
    (parseRequest site.server connection locals req fuel).map (process site) = some result ∧
    ¬UpgradeExact site r method result := by
  let site : Site := ⟨⟨literal "/data", literal "robot"⟩, true, false, none, fun _ => none, id,
    fun _ => ⟨none, none⟩, 0⟩
  let r : Request := ⟨literal "GET / HTTP/1.1\r\n", [literal "Connection: Upgrade\r\n",
    literal "Connection: Upgrade\r\n", literal "Connection: Upgrade\r\n",
    literal "Sec-WebSocket-Version: 13\r\n"], literal "\r\n", [], by decide +kernel, by decide⟩
  let connection : Connection := ⟨[.data ⟨r.encode, by decide +kernel, by decide +kernel⟩], .eof⟩
  let request : HttpRequest :=
    ⟨literal "/data/index.html", 0, 0, false, List.replicate 24 7, 13, false⟩
  refine ⟨site, r, literal "GET", connection,
    ⟨List.replicate 256 0, List.replicate 128 0, List.replicate 10 0⟩,
    ⟨[], 0, 0, false, List.replicate 24 7, 0, false⟩, 6, process site request, rfl,
    ⟨by decide +kernel, by decide +kernel, ⟨literal "/ HTTP/1.1\r\n", by decide +kernel⟩,
      by decide +kernel, by decide +kernel⟩, by decide +kernel, by decide +kernel, ?_, fun h => ?_⟩
  · exact Option.map_eq_some_iff.2 ⟨request, by decide +kernel, rfl⟩
  · have hnone : ¬∃ line ∈ r.headers, isUpgrade line := by decide +kernel
    exact hnone (h.decision.1 (by decide +kernel)).2.upgrade

end RbProtocol.Web
