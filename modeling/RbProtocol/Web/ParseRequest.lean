import RbProtocol.Library.Loops
import RbProtocol.Foundations.Scanf
import RbProtocol.Web.Rio

/-!
# Parsing a request

`parse_request` of the web server: the request line, the loop over the header lines and the file
name. The local arrays and the `http_request` are not initialized, so their first contents are
parameters. A `char` array is its list of cells, and `cstr` is the string in it.

The loop looks at the line buffer, not at what `rio_readlineb` returns; it is a `whileLoop`, and
`parseRequest` is `none` as long as the fuel does not suffice.
-/

namespace RbProtocol.Web

open Ascii Library

/-- `MAXLINE`. -/
def maxline : ℕ := 256

/-- `FILENAME_SIZE`. -/
def filenameSize : ℕ := 64

/-- `http_request`. The file name is given without its last NUL. -/
structure HttpRequest where
  filename : Bytes
  offset : ℤ
  end_ : ℕ
  servingGzip : Bool
  wsKey : Bytes
  wsVersion : ℤ
  nonLocalHostname : Bool
  deriving DecidableEq

/-- The strings that `parse_request` reads elsewhere: `working_directory`, of at most 62 bytes, and
`rb_dn_get_local_hostname ()`. -/
structure WebServer where
  workingDirectory : Bytes
  localHostname : Bytes

/-- The local arrays of `parse_request`. -/
structure Locals where
  buf : Bytes
  uri : Bytes
  method : Bytes

/-! ## The header lines -/

/-- `is_local_host`. -/
def isLocalHost (server : WebServer) (hostHeader : Bytes) : Bool :=
  if hostHeader.length < 2 then true
  else
    let host := hostHeader.take (hostHeader.length - 2)
    if 7 ≤ host.length && host.length ≤ 15 && host.all (fun c => c == dot || isDigit c) &&
        host.count dot == 3 then true
    else server.localHostname == host

/-- `sscanf (buf, "Range: bytes=%ld-%u", &req->offset, &req->end)`. -/
def scanRange (line : Bytes) (req : HttpRequest) : HttpRequest :=
  match (scanLiteral (literal "Range:") line).bind fun rest =>
      (scanLiteral (literal "bytes=") (skipSpace rest)).bind scanNumeral with
  | none => req
  | some (offset, rest) =>
    match (scanLiteral (literal "-") rest).bind scanNumeral with
    | none => { req with offset := offset.toLong }
    | some (end_, _) => { req with offset := offset.toLong, end_ := end_.toUnsigned }

/-- What a line does to the request and to `websocket_upgrade_headers`. -/
def handleHeader (server : WebServer) (buf : Bytes) (req : HttpRequest) (upgrades : UInt8) :
    HttpRequest × UInt8 :=
  let line := cstr buf
  if literal "Ran" <+: buf then
    let req := scanRange line req
    (if req.end_ ≠ 0 then { req with end_ := (req.end_ + 1) % 2 ^ 32 } else req, upgrades)
  else if literal "Accept-Encoding: " <+: line ∧ literal "gzip" <:+: line.drop 17 then
    ({ req with servingGzip := true }, upgrades)
  else if literal "Upgrade: websocket" <+: line then (req, upgrades + 1)
  else if literal "Connection: " <+: line ∧ literal "Upgrade" <:+: line.drop 12 then
    (req, upgrades + 1)
  else if line.length = 19 + 24 + 2 ∧ literal "Sec-WebSocket-Key: " <+: line then
    ({ req with wsKey := (line.drop 19).take 24 }, upgrades + 1)
  else if literal "Sec-WebSocket-Version: " <+: line then
    match scanNumeral (line.drop 23) with
    | none => (req, upgrades)
    | some (version, _) => ({ req with wsVersion := version.toLong }, upgrades)
  else if strncmp 6 line (literal "Host: ") = 0 then
    ({ req with nonLocalHostname := !isLocalHost server (line.drop 6) }, upgrades)
  else (req, upgrades)

/-- The state of the header loop. -/
structure HeaderState where
  rio : Rio
  buf : Bytes
  req : HttpRequest
  upgrades : UInt8

/-- The line is `"\n"` or `"\r\n"`, or any other with a newline in these places. -/
def endsHeaders (buf : Bytes) : Bool := buf.getD 0 0 == newline || buf.getD 1 0 == newline

/-- The body of the header loop. -/
def nextHeader (server : WebServer) (s : HeaderState) : HeaderState :=
  let r := rioReadlineb s.rio s.buf maxline
  let h := handleHeader server r.1.2 s.req s.upgrades
  ⟨r.2, r.1.2, h.1, h.2⟩

/-- The header loop. -/
def headerLoop (server : WebServer) : ℕ → HeaderState → Option HeaderState :=
  whileLoop (fun s => !endsHeaders s.buf) (nextHeader server)

/-! ## The file name -/

/-- The loop of `url_decode`, over at most `room` characters. -/
def urlDecodeLoop : ℕ → Bytes → Bytes
  | 0, _ => []
  | room + 1, p =>
    if p.headD 0 = 0 then []
    else if p.headD 0 = percent then
      UInt8.ofNat (strtoulHex (cstr (p.tail.take 2))) :: urlDecodeLoop room (p.drop 3)
    else p.headD 0 :: urlDecodeLoop room p.tail

/-- `url_decode`. -/
def urlDecode (server : WebServer) (src : Bytes) (max : ℕ) : Bytes :=
  let pathPrefix := server.workingDirectory ++ [slash]
  pathPrefix ++ urlDecodeLoop (max - pathPrefix.length - 1) src

/-- The cells of `filename`: the part of `uri` behind a slash and before a question mark. The name
`"."` for an empty part is never used, as that has become `"index.html"`. -/
def uriFilename (uri : Bytes) : Bytes :=
  if uri.headD 0 = slash then
    let filename := uri.tail
    let filename := if filename.headD 0 = 0 then store filename (literal "index.html" ++ [0])
      else filename
    match (cstr filename).findIdx? (· == questionMark) with
    | some i => filename.set i 0
    | none => filename
  else uri

/-! ## The request -/

/-- `sscanf (buf, "%9s %127s", method, uri)`. -/
def scanRequestLine (locals : Locals) : Locals :=
  match scanWord 9 (cstr locals.buf) with
  | none => locals
  | some (method, rest) =>
    let locals := { locals with method := store locals.method (method ++ [0]) }
    match scanWord 127 rest with
    | none => locals
    | some (uri, _) => { locals with uri := store locals.uri (uri ++ [0]) }

/-- The state before the header loop, and the local arrays: the request line has been read. -/
def startRequest (connection : Connection) (locals : Locals) (req : HttpRequest) :
    HeaderState × Locals :=
  let req := { req with offset := 0, end_ := 0, servingGzip := false, nonLocalHostname := false }
  let r := rioReadlineb (rioReadinitb connection) locals.buf maxline
  (⟨r.2, r.1.2, req, 0⟩, scanRequestLine { locals with buf := r.1.2 })

/-- What follows the header loop. -/
def finishRequest (server : WebServer) (locals : Locals) (s : HeaderState) : HttpRequest :=
  let req := s.req
  let req :=
    if req.wsVersion ≠ 0 ∧ (s.upgrades ≠ 3 ∨ cstr locals.method ≠ literal "GET") then
      { req with wsVersion := 0 }
    else req
  { req with filename := urlDecode server (uriFilename locals.uri) filenameSize }

/-- `parse_request`. -/
def parseRequest (server : WebServer) (connection : Connection) (locals : Locals)
    (req : HttpRequest) (fuel : ℕ) : Option HttpRequest :=
  let start := startRequest connection locals req
  (headerLoop server fuel start.1).map (finishRequest server start.2)

/-- More fuel changes nothing. -/
theorem parseRequest_mono {server : WebServer} {connection : Connection} {locals : Locals}
    {req result : HttpRequest} {m n : ℕ}
    (h : parseRequest server connection locals req m = some result) (hmn : m ≤ n) :
    parseRequest server connection locals req n = some result := by
  obtain ⟨s, hs, rfl⟩ := Option.map_eq_some_iff.1 h
  exact Option.map_eq_some_iff.2 ⟨s, whileLoop_mono hs hmn, rfl⟩

example : parseRequest ⟨literal "/data", literal "robot"⟩
    ⟨[.data ⟨literal "GET /a%20b?c HTTP/1.1\r\nRange: bytes=-5-9\r\n", by decide, by decide⟩,
      .again, .data ⟨literal "Host: robot\r\n\r\n", by decide, by decide⟩], .eof⟩
    ⟨[], [], []⟩ ⟨[], 1, 1, true, [], 13, true⟩ 4 =
    some ⟨literal "/data/a b", -5, 10, false, [], 0, false⟩ := by decide +kernel

/-- `parse_request` returns. -/
def Terminates (server : WebServer) (connection : Connection) (locals : Locals)
    (req : HttpRequest) : Prop :=
  ∃ fuel, (parseRequest server connection locals req fuel).isSome

end RbProtocol.Web
