import RbProtocol.Web.Serve

/-!
# Who closes a connection

`tiny_web_task` closes a connection behind `process`, or hands it over to the WebSocket backend. It
does one of the two once, unless `process` has closed the connection itself: behind the extra
callback, and behind a static file whose transfer has succeeded (`ownedOnce_iff`). A transfer
succeeds if no call of `read` and `write` fails and what is in `res`, which is not initialized,
comes to a positive number with the bytes that are written (`transfers_iff`).
-/

namespace RbProtocol.Web

/-- The connection is closed once, or handed over once and not closed. -/
def OwnedOnce (effects : List WebEffect) : Prop :=
  effects.count .close = 1 ∧ effects.count .newConnection = 0 ∨
    effects.count .close = 0 ∧ effects.count .newConnection = 1

instance (effects : List WebEffect) : Decidable (OwnedOnce effects) :=
  inferInstanceAs (Decidable (_ ∨ _))

/-- The bytes that the calls on the chunks from the `i`-th one on write if none of them fails, with
`left` bytes of the file and `count` bytes to go. -/
def writtenBytes (io : ℕ → ChunkIo) (left i count : ℕ) : ℕ :=
  if count = 0 then 0
  else
    let read := min (min ((io i).read.getD 0) (min count bufsize)) left
    min ((io i).write.getD 0) read +
      writtenBytes io (left - read) (i + 1) (count - min count bufsize)
termination_by count
decreasing_by
  rw [bufsize]
  omega

/-- `sendfile` is called, none of its reads and writes fails, and what is in `res` comes to a
positive number with the bytes that are written. -/
def Transfers (site : Site) (req : HttpRequest) (file : Content) : Prop :=
  let count := unsigned (req.end_ - req.offset)
  unsigned req.offset < req.end_ ∧
    (∀ j, bufsize * j < count → (site.io j).read.isSome ∧ (site.io j).write.isSome) ∧
    0 < if count = 0 then site.res
      else Int.bmod (site.res + writtenBytes site.io (file.bytes.drop req.offset.toNat).length 0
        count) (2 ^ 32)

/-- The request is for a path in `/extra/`, and there is a callback for it. -/
def ServedByCallback (site : Site) (req : HttpRequest) : Prop :=
  (extraPath site req).isSome = true ∧ site.extraCallback = true

/-- The file of the request is a regular one, whose transfer succeeds. -/
def TransfersFile (site : Site) (req : HttpRequest) : Prop :=
  ∃ file, (prepareGzip site.files req).1 = some (.regular file) ∧
    Transfers site (serveRegular site (prepareGzip site.files req).2 file).req file

/-- `process` closes the connection. -/
def ClosedByProcess (site : Site) (req : HttpRequest) : Prop :=
  req.nonLocalHostname = false ∧ req.wsVersion = 0 ∧
    (ServedByCallback site req ∨ extraPath site req = none ∧ TransfersFile site req)

/-! ## Calls that only write -/

/-- Calls that leave the connection with its owner. -/
def OnlySends (effects : List WebEffect) : Prop := ∀ e ∈ effects, ∃ bytes, e = .send bytes

theorem OnlySends.nil : OnlySends [] := fun _ h => nomatch h

theorem OnlySends.cons {effects : List WebEffect} (bytes : Bytes) (h : OnlySends effects) :
    OnlySends (.send bytes :: effects) :=
  List.forall_mem_cons.2 ⟨⟨bytes, rfl⟩, h⟩

theorem OnlySends.counts {effects : List WebEffect} (h : OnlySends effects) :
    effects.count .close = 0 ∧ effects.count .newConnection = 0 := by
  constructor <;> rw [List.count_eq_zero] <;> intro hmem <;> obtain ⟨bytes, hb⟩ := h _ hmem <;>
    cases hb

theorem onlySends_clientError (status : ℕ) (msg longmsg : Bytes) :
    OnlySends (clientError status msg longmsg) :=
  OnlySends.nil.cons _

theorem onlySends_temporaryRedirect (location : Bytes) : OnlySends (temporaryRedirect location) :=
  ((OnlySends.nil.cons _).cons _).cons _

theorem onlySends_handleWebsocketSwitchRequest (site : Site) (req : HttpRequest) :
    OnlySends (handleWebsocketSwitchRequest site req).2 := by
  rw [handleWebsocketSwitchRequest]
  split_ifs
  · exact onlySends_clientError _ _ _
  · exact ((OnlySends.nil.cons _).cons _).cons _

theorem onlySends_sendfileLoop (io : ℕ → ChunkIo) (file : Bytes) (i count : ℕ) (res : ℤ) :
    OnlySends (sendfileLoop io file i count res).2 := by
  fun_induction sendfileLoop io file i count res with
  | case1 | case2 | case3 => exact OnlySends.nil
  | case4 file i count res h0 chunk n hread bytes k hwrite sent r ih => exact ih.cons _

theorem onlySends_notFoundLoop (data : Bytes) (pos end_ : ℕ) :
    OnlySends (notFoundLoop data pos end_) := by
  fun_induction notFoundLoop data pos end_ with
  | case1 pos hlt chunk ih => exact ih.cons _
  | case2 => exact OnlySends.nil

theorem onlySends_serveNotFound (req : HttpRequest) (isGzipped : Bool) (data : Content) :
    OnlySends (serveNotFound req isGzipped data).effects := by
  refine OnlySends.cons _ ?_
  rw [show (serveNotFound req isGzipped data).body = if data.size ≤ unsigned req.offset then []
    else notFoundLoop data.bytes (unsigned req.offset)
      (serveNotFound req isGzipped data).req.end_ from rfl]
  split_ifs
  · exact OnlySends.nil
  · exact onlySends_notFoundLoop _ _ _

theorem onlySends_serveNotFoundCb {site : Site} {req : HttpRequest} {served : Served}
    (h : serveNotFoundCb site req = some served) : OnlySends served.effects := by
  rw [serveNotFoundCb] at h
  split at h
  · cases h
  · simp only at h
    split at h
    · cases h
    · split_ifs at h
      exact Option.some.inj h ▸ onlySends_serveNotFound _ _ _

/-! ## What `sendfile` returns -/

/-- The first chunk and the others. -/
theorem forall_chunk_iff {P : ℕ → Prop} {i count : ℕ} (h : count ≠ 0) :
    (∀ j, bufsize * j < count → P (i + j)) ↔
      P i ∧ ∀ j, bufsize * j < count - min count bufsize → P (i + 1 + j) := by
  rw [bufsize]
  constructor
  · intro hall
    refine ⟨hall 0 (by omega), fun j hj => ?_⟩
    have hnext := hall (j + 1) (by omega)
    rwa [← Nat.add_assoc, Nat.add_right_comm] at hnext
  · rintro ⟨hfirst, hrest⟩ j hj
    cases j with
    | zero => exact hfirst
    | succ j =>
      have hnext := hrest j (by omega)
      rwa [Nat.add_right_comm, Nat.add_assoc] at hnext

/-- What `sendfile` returns is positive if no call fails and what was in `res` comes to a positive
number with the bytes that are written. -/
theorem sendfileLoop_pos_iff (io : ℕ → ChunkIo) (file : Bytes) (i count : ℕ) (res : ℤ) :
    0 < (sendfileLoop io file i count res).1 ↔
      (∀ j, bufsize * j < count → (io (i + j)).read.isSome ∧ (io (i + j)).write.isSome) ∧
        0 < if count = 0 then res
          else Int.bmod (res + writtenBytes io file.length i count) (2 ^ 32) := by
  fun_induction sendfileLoop io file i count res with
  | case1 file i res => simp
  | case2 file i count res h0 hread =>
    rw [forall_chunk_iff (P := fun j => (io j).read.isSome ∧ (io j).write.isSome) h0, hread]
    simp
  | case3 file i count res h0 n hread hwrite =>
    rw [forall_chunk_iff (P := fun j => (io j).read.isSome ∧ (io j).write.isSome) h0, hwrite]
    simp
  | case4 file i count res h0 chunk n hread bytes k hwrite sent r ih =>
    rw [forall_chunk_iff (P := fun j => (io j).read.isSome ∧ (io j).write.isSome) h0]
    have hbytes : bytes.length = min (min n chunk) file.length := List.length_take
    have hsent : sent.length = min k bytes.length := List.length_take
    have hwritten : writtenBytes io file.length i count =
        sent.length + writtenBytes io (file.drop bytes.length).length (i + 1) (count - chunk) := by
      rw [writtenBytes, if_neg h0, hread, hwrite, hsent, List.length_drop, hbytes]
      rfl
    rw [ih, hread, hwrite, if_neg h0, hwritten]
    simp only [Option.isSome_some, and_self, true_and]
    refine and_congr_right fun _ => ?_
    split_ifs with hlast
    · rw [hlast, writtenBytes, if_pos rfl, Nat.add_zero]
    · rw [Int.bmod_add_bmod, Nat.cast_add, add_assoc]

theorem transfers_iff (site : Site) (req : HttpRequest) (file : Content) :
    Transfers site req file ↔ unsigned req.offset < req.end_ ∧
      0 < (sendfile site.io site.res file.bytes req.offset
        (unsigned (req.end_ - req.offset))).1 := by
  rw [sendfile, sendfileLoop_pos_iff]
  simp only [Transfers, Nat.zero_add]

/-! ## The calls of a request -/

/-- A static file: the connection is closed behind a transfer that succeeds. -/
theorem serveStatic_counts (site : Site) (req : HttpRequest) (file : Content) :
    (serveStatic site.io site.res req file).effects.count .newConnection = 0 ∧
      (Transfers site req file → (serveStatic site.io site.res req file).effects.count .close = 1) ∧
      (¬ Transfers site req file →
        (serveStatic site.io site.res req file).effects.count .close = 0) := by
  have hsends : OnlySends (sendfile site.io site.res file.bytes req.offset
      (unsigned (req.end_ - req.offset))).2 := onlySends_sendfileLoop _ _ _ _ _
  obtain ⟨hclose, hnew⟩ := hsends.counts
  rw [Served.effects, serveStatic, transfers_iff]
  simp only [List.count_cons]
  by_cases hlt : unsigned req.offset < req.end_
  · by_cases hres : (sendfile site.io site.res file.bytes req.offset
        (unsigned (req.end_ - req.offset))).1 ≤ 0
    · simp [hlt, hres, hclose, hnew]
    · simp [hlt, hres, hclose, hnew, List.count_append]
  · simp [hlt]

/-- Without a regular file nothing but the response is sent. -/
theorem onlySends_processServeFile {site : Site} {req : HttpRequest}
    (hnot : ∀ file, (prepareGzip site.files req).1 ≠ some (.regular file)) :
    OnlySends (processServeFile site req) := by
  rw [processServeFile]
  cases hfile : (prepareGzip site.files req).1 with
  | none =>
    simp only
    cases hserve : serveNotFoundCb site (prepareGzip site.files req).2 with
    | none => exact onlySends_clientError _ _ _
    | some served => exact onlySends_serveNotFoundCb hserve
  | some found =>
    cases found with
    | other => exact onlySends_clientError _ _ _
    | regular file => exact absurd hfile (hnot file)

theorem processServeFile_counts (site : Site) (req : HttpRequest) :
    (processServeFile site req).count .newConnection = 0 ∧
      (TransfersFile site req → (processServeFile site req).count .close = 1) ∧
      (¬ TransfersFile site req → (processServeFile site req).count .close = 0) := by
  by_cases hfile : ∃ file, (prepareGzip site.files req).1 = some (.regular file)
  · obtain ⟨file, hfile⟩ := hfile
    obtain ⟨hnew, hclose, hkeep⟩ := serveStatic_counts site
      (serveRegular site (prepareGzip site.files req).2 file).req file
    rw [processServeFile]
    simp only [hfile]
    refine ⟨hnew, ?_, fun hnot => ?_⟩
    · rintro ⟨file', hfile', htransfers⟩
      rw [hfile] at hfile'
      cases hfile'
      exact hclose htransfers
    · exact hkeep fun htransfers => hnot ⟨file, hfile, htransfers⟩
  · have hsends := onlySends_processServeFile fun file h => hfile ⟨file, h⟩
    refine ⟨hsends.counts.2, ?_, fun _ => hsends.counts.1⟩
    rintro ⟨file, hregular, -⟩
    exact absurd ⟨file, hregular⟩ hfile

/-- **What `process` does with a connection**: it never hands it over, and closes it at most once;
when it asks for it to be handed over, it has not closed it. -/
theorem process_counts (site : Site) (req : HttpRequest) :
    (process site req).2.count .newConnection = 0 ∧
      (ClosedByProcess site req → (process site req).1 = false ∧
        (process site req).2.count .close = 1) ∧
      (¬ ClosedByProcess site req → (process site req).2.count .close = 0) := by
  -- calls that only write close nothing
  have hsends {r : Bool × List WebEffect} (h : OnlySends r.2)
      (hnot : ¬ ClosedByProcess site req) : r.2.count .newConnection = 0 ∧
        (ClosedByProcess site req → r.1 = false ∧ r.2.count .close = 1) ∧
        (¬ ClosedByProcess site req → r.2.count .close = 0) :=
    ⟨h.counts.2, fun hclosed => absurd hclosed hnot, fun _ => h.counts.1⟩
  rw [process]
  by_cases hlocal : req.nonLocalHostname = true
  · rw [if_pos hlocal]
    exact hsends (onlySends_temporaryRedirect _)
      fun h => Bool.false_ne_true (h.1.symm.trans hlocal)
  · rw [if_neg hlocal]
    rw [Bool.not_eq_true] at hlocal
    by_cases hws : req.wsVersion ≠ 0
    · have hnot : ¬ ClosedByProcess site req := fun h => hws h.2.1
      rw [if_pos hws]
      split_ifs
      · exact hsends (onlySends_clientError _ _ _) hnot
      · exact hsends (onlySends_handleWebsocketSwitchRequest _ _) hnot
    · rw [if_neg hws]
      rw [not_not] at hws
      cases hextra : extraPath site req with
      | some path =>
        cases hcallback : site.extraCallback with
        | false =>
          refine hsends (onlySends_clientError _ _ _) fun h => ?_
          rcases h.2.2 with hserved | ⟨hnone, -⟩
          · exact Bool.false_ne_true (hcallback.symm.trans hserved.2)
          · rw [hextra] at hnone
            cases hnone
        | true =>
          have hclosed : ClosedByProcess site req :=
            ⟨hlocal, hws, .inl ⟨by rw [hextra]; rfl, hcallback⟩⟩
          exact ⟨rfl, fun _ => ⟨rfl, rfl⟩, fun h => absurd hclosed h⟩
      | none =>
        have hiff : ClosedByProcess site req ↔ TransfersFile site req := by
          constructor
          · rintro ⟨-, -, ⟨hserved, -⟩ | ⟨-, htransfers⟩⟩
            · rw [hextra] at hserved
              cases hserved
            · exact htransfers
          · exact fun htransfers => ⟨hlocal, hws, .inr ⟨hextra, htransfers⟩⟩
        obtain ⟨hnew, hclose, hkeep⟩ := processServeFile_counts site req
        exact ⟨hnew, fun h => ⟨rfl, hclose (hiff.1 h)⟩, fun h => hkeep (mt hiff.2 h)⟩

/-- **Who closes a connection.** It is closed once, or handed over once, if and only if
`parse_request` returns and `process` does not close it itself. -/
theorem ownedOnce_iff (site : Site) (connection : Connection) (locals : Locals)
    (req : HttpRequest) :
    (∃ fuel effects, serveConnection site connection locals req fuel = some effects ∧
        OwnedOnce effects) ↔
      ∃ fuel parsed, parseRequest site.server connection locals req fuel = some parsed ∧
        ¬ ClosedByProcess site parsed := by
  have hserve {fuel : ℕ} {parsed : HttpRequest}
      (hparse : parseRequest site.server connection locals req fuel = some parsed) :
      serveConnection site connection locals req fuel = some ((process site parsed).2 ++
        if (process site parsed).1 then [.newConnection] else [.close]) := by
    rw [serveConnection, hparse]
    rfl
  constructor
  · rintro ⟨fuel, effects, heffects, howned⟩
    obtain ⟨parsed, hparse, -⟩ := Option.map_eq_some_iff.1 heffects
    refine ⟨fuel, parsed, hparse, fun hclosed => ?_⟩
    obtain ⟨hnew, hclose, -⟩ := process_counts site parsed
    obtain ⟨hresult, hcount⟩ := hclose hclosed
    rw [hserve hparse, hresult] at heffects
    obtain rfl := Option.some.inj heffects
    -- the second `close` is that of `tiny_web_task`
    simp [OwnedOnce, List.count_append, hcount] at howned
  · rintro ⟨fuel, parsed, hparse, hclosed⟩
    obtain ⟨hnew, -, hkeep⟩ := process_counts site parsed
    refine ⟨fuel, _, hserve hparse, ?_⟩
    cases (process site parsed).1 with
    | false => exact .inl (by simp [List.count_append, hkeep hclosed, hnew])
    | true => exact .inr (by simp [List.count_append, hkeep hclosed, hnew])

/-- A site with a callback for `/extra/`. -/
def extraSite : Site where
  server := ⟨literal "/data", literal "robot"⟩
  wsProtocol := false
  extraCallback := true
  notFoundCallback := none
  files := fun _ => none
  acceptKey := id
  io := fun _ => ⟨none, none⟩
  res := 0

/-- A request for `/extra/a` is closed twice. -/
theorem serveConnection_extra :
    ∃ effects, serveConnection extraSite
        ⟨[.data ⟨literal "GET /extra/a HTTP/1.1\r\n\r\n", by decide, by decide⟩], .eof⟩
        ⟨[], [], []⟩ ⟨[], 0, 0, false, [], 0, false⟩ 3 = some effects ∧
      effects = [.extraCallback (literal "a"), .close, .close] ∧ ¬ OwnedOnce effects :=
  ⟨_, by decide +kernel, rfl, by decide⟩

end RbProtocol.Web
