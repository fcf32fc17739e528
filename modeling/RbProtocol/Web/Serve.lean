import RbProtocol.Foundations.Printf
import RbProtocol.Library.Lists
import RbProtocol.Web.ParseRequest

/-!
# Serving a request

What the web server does with a request: `process` and the functions it calls, as the calls they
make on the connection. The results of `write` matter in `sendfile` only; there the files and the
connection may fail, or take fewer bytes than asked for. An `off_t` is a `long`, and in the
arithmetic with a `size_t` it is converted to `unsigned long`, of 32 bits.
-/

namespace RbProtocol.Web

open Ascii Library

/-- A `long` as `unsigned long`. -/
def unsigned (n : ℤ) : ℕ := (n % 2 ^ 32).toNat

/-- A content whose size is a `size_t`. -/
structure Content where
  bytes : Bytes
  size_lt : bytes.length < 2 ^ 32

/-- `size`. -/
def Content.size (content : Content) : ℕ := content.bytes.length

/-- What `open` finds under a name. -/
inductive File
  | regular (content : Content)
  | other

/-- `not_found_response_t`. -/
structure NotFoundResponse where
  data : Option Content
  isGzipped : Bool

/-- The results of `read` and `write` on a chunk: an error, or at most so many bytes. -/
structure ChunkIo where
  read : Option ℕ
  write : Option ℕ

/-- What `process` finds elsewhere: the settings, the files, the digest of `mbedtls` (`acceptKey`),
and what meets `sendfile`: the results of its calls, and what is in its `res`, which is not
initialized. -/
structure Site where
  server : WebServer
  wsProtocol : Bool
  extraCallback : Bool
  notFoundCallback : Option (Bytes → NotFoundResponse)
  files : Bytes → Option File
  acceptKey : Bytes → Bytes
  io : ℕ → ChunkIo
  res : ℤ

/-- The calls on a connection. -/
inductive WebEffect
  /-- Bytes that are written. -/
  | send (bytes : Bytes)
  | close
  /-- `extra_path_callback`. -/
  | extraCallback (path : Bytes)
  /-- `rb_web_ws_new_connection`, which adds a client, or closes the connection when `ws_protocol`
  has been cleared in the meantime. -/
  | newConnection
  deriving DecidableEq

/-! ## Responses -/

/-- `"%u"`, `"%ld"` and `"%lu"`. -/
def decimal (n : ℤ) : Bytes := formatLongLong n

/-- `client_error`. -/
def clientError (status : ℕ) (msg longmsg : Bytes) : List WebEffect :=
  [.send (literal "HTTP/1.1 " ++ decimal status ++ literal " " ++ msg ++ literal "\r\n" ++
    literal "Content-length: " ++ decimal longmsg.length ++ literal "\r\n\r\n" ++ longmsg)]

/-- `temporary_redirect`. -/
def temporaryRedirect (location : Bytes) : List WebEffect :=
  [.send (literal "HTTP/1.1 302 Temporary Redirect\r\nLocation: http://"), .send location,
    .send (literal "\r\n\r\n")]

/-- `meme_types`. -/
def mimeTypes : List (Bytes × Bytes) :=
  [(literal ".css", literal "text/css"), (literal ".html", literal "text/html"),
    (literal ".jpeg", literal "image/jpeg"), (literal ".jpg", literal "image/jpeg"),
    (literal ".ico", literal "image/x-icon"), (literal ".js", literal "application/javascript"),
    (literal ".png", literal "image/png"), (literal ".json", literal "application/json")]

/-- `get_mime_type`. -/
def getMimeType (filename : Bytes) : Bytes :=
  match lastIdx? (· == dot) filename with
  | none => literal "text/plain"
  | some i => (mimeTypes.lookup (filename.drop i)).getD (literal "text/plain")

/-- What `serve_headers_success` prints. -/
structure Headers where
  contentRange : Option (ℤ × ℕ × ℕ)
  gzip : Bool
  contentLength : ℕ
  noStore : Bool
  contentType : Bytes

/-- The text of the headers, which is never cut off. -/
def Headers.text (headers : Headers) : Bytes :=
  (match headers.contentRange with
    | some (first, last, total) =>
      literal "HTTP/1.1 206 Partial\r\nContent-Range: bytes " ++ decimal first ++ literal "-" ++
        decimal last ++ literal "/" ++ decimal total ++ literal "\r\n"
    | none => literal "HTTP/1.1 200 OK\r\nAccept-Ranges: bytes\r\n") ++
  (if headers.gzip then literal "Content-Encoding: gzip\r\n" else []) ++
  literal "Content-Length: " ++ decimal headers.contentLength ++ literal "\r\n" ++
  (if headers.noStore then literal "Cache-Control: no-store\r\n"
    else literal "Cache-Control: private,max-age=259200\r\n") ++
  literal "Content-Type: " ++ headers.contentType ++ literal "\r\n\r\n"

/-- `serve_headers_success`. -/
def serveHeadersSuccess (req : HttpRequest) (totalSize : ℕ) : Headers where
  contentRange := if 0 < req.offset then some (req.offset, req.end_, totalSize) else none
  gzip := req.servingGzip
  contentLength := unsigned (req.end_ - req.offset)
  noStore := literal ".json" <:+: cstr req.filename
  contentType := getMimeType (cstr req.filename)

/-- A response with a content: the request it is for, as it is by then. -/
structure Served where
  req : HttpRequest
  headers : Headers
  body : List WebEffect

/-- The calls of a response. -/
def Served.effects (served : Served) : List WebEffect := .send served.headers.text :: served.body

/-! ## Files -/

/-- The size of the buffer in `serve_static`. -/
def bufsize : ℕ := 256

/-- The loop of `sendfile` from its `i`-th chunk on, with what is left of the file. -/
def sendfileLoop (io : ℕ → ChunkIo) (file : Bytes) (i count : ℕ) (res : ℤ) : ℤ × List WebEffect :=
  if count = 0 then (res, [])
  else
    let chunk := min count bufsize
    match (io i).read with
    | none => (-1, [])
    | some n =>
      let bytes := file.take (min n chunk)
      match (io i).write with
      | none => (-1, [])
      | some k =>
        let sent := bytes.take k
        let r := sendfileLoop io (file.drop bytes.length) (i + 1) (count - chunk)
          (Int.bmod (res + sent.length) (2 ^ 32))
        (r.1, .send sent :: r.2)
termination_by count
decreasing_by
  rw [bufsize]
  omega

/-- `sendfile`. A negative offset is not sought. -/
def sendfile (io : ℕ → ChunkIo) (res : ℤ) (file : Bytes) (offset : ℤ) (count : ℕ) :
    ℤ × List WebEffect :=
  sendfileLoop io (file.drop offset.toNat) 0 count res

/-- `serve_static`. Its loop ends with its first round. -/
def serveStatic (io : ℕ → ChunkIo) (res : ℤ) (req : HttpRequest) (file : Content) : Served where
  req := req
  headers := serveHeadersSuccess req file.size
  body :=
    if unsigned req.offset < req.end_ then
      let r := sendfile io res file.bytes req.offset (unsigned (req.end_ - req.offset))
      if r.1 ≤ 0 then r.2 else r.2 ++ [.close]
    else []

/-- The loop of `serve_not_found_cb`. -/
def notFoundLoop (data : Bytes) (pos end_ : ℕ) : List WebEffect :=
  if pos < end_ then
    let chunk := min (end_ - pos) 256
    .send ((data.drop pos).take chunk) :: notFoundLoop data (pos + chunk) end_
  else []
termination_by end_ - pos

/-- `serve_not_found_cb` with the data of its callback. -/
def serveNotFound (req : HttpRequest) (isGzipped : Bool) (data : Content) : Served :=
  let req := { req with
    servingGzip := isGzipped
    end_ := if req.end_ = 0 ∨ data.size < req.end_ then data.size else req.end_ }
  { req := req
    headers := serveHeadersSuccess req data.size
    body :=
      if data.size ≤ unsigned req.offset then []
      else notFoundLoop data.bytes (unsigned req.offset) req.end_ }

/-- `serve_not_found_cb`; `none` is 0. -/
def serveNotFoundCb (site : Site) (req : HttpRequest) : Option Served :=
  match site.notFoundCallback with
  | none => none
  | some callback =>
    let nfr := callback (cstr (req.filename.drop site.server.workingDirectory.length))
    match nfr.data with
    | none => none
    | some data => if data.size = 0 then none else some (serveNotFound req nfr.isGzipped data)

/-- `prepare_gzip`: the file that is opened, and the request. -/
def prepareGzip (files : Bytes → Option File) (req : HttpRequest) : Option File × HttpRequest :=
  let name := cstr req.filename
  let plain := (files name, { req with servingGzip := false })
  if !req.servingGzip then plain
  else if name.length < 3 ∨ filenameSize ≤ name.length + 4 then plain
  else if name.drop (name.length - 3) = literal ".gz" then plain
  else
    match files (name ++ literal ".gz") with
    | some file => (some file, { req with filename := name })
    | none => (plain.1, { req with filename := name, servingGzip := false })

/-- `process_serve_file` on a regular file. -/
def serveRegular (site : Site) (req : HttpRequest) (file : Content) : Served :=
  let req := if req.end_ = 0 then { req with end_ := file.size } else req
  serveStatic site.io site.res req file

/-- `process_serve_file`. -/
def processServeFile (site : Site) (req : HttpRequest) : List WebEffect :=
  let r := prepareGzip site.files req
  match r.1 with
  | none =>
    match serveNotFoundCb site r.2 with
    | none => clientError 404 (literal "Not found") (literal "File not found")
    | some served => served.effects
  | some (.regular file) => (serveRegular site r.2 file).effects
  | some .other => clientError 400 (literal "Error") (literal "Unknow Error")

/-! ## Requests -/

/-- `strstr`: the first position of a text. -/
def strstr (text : Bytes) : Bytes → Option ℕ
  | [] => if text = [] then some 0 else none
  | c :: s => if text <+: c :: s then some 0 else (strstr text s).map (· + 1)

/-- `EXTRA_DIRECTORY_SUFFIX`. -/
def extraDirectorySuffix : Bytes := literal "/extra/"

/-- A path in the directory `/extra/`. -/
def extraPath (site : Site) (req : HttpRequest) : Option Bytes :=
  let filename := cstr req.filename
  match strstr extraDirectorySuffix filename with
  | none => none
  | some i =>
    if i = site.server.workingDirectory.length then
      some (filename.drop (i + extraDirectorySuffix.length))
    else none

/-- `KNOWN_WS_VERSION`. -/
def knownWsVersion : ℤ := 13

/-- `rb_web_handle_websocket_switch_request`: whether it returns 0, and its calls. -/
def handleWebsocketSwitchRequest (site : Site) (req : HttpRequest) : Bool × List WebEffect :=
  if req.wsVersion ≠ knownWsVersion then (false, clientError 426 (literal "Upgrade Required") [])
  else
    (true, [.send (literal
        "HTTP/1.1 101 Switching Protocols\r\nUpgrade: websocket\r\nConnection: Upgrade\r\nSec-WebSocket-Accept: "),
      .send (site.acceptKey (req.wsKey ++ literal "258EAFA5-E914-47DA-95CA-C5AB0DC85B11")),
      .send (literal "\r\n\r\n")])

/-- `process`, behind `parse_request`: whether it returns 1, and its calls. -/
def process (site : Site) (req : HttpRequest) : Bool × List WebEffect :=
  if req.nonLocalHostname then (false, temporaryRedirect site.server.localHostname)
  else if req.wsVersion ≠ 0 then
    if !site.wsProtocol then (false, clientError 400 (literal "WS not enabled") [])
    else handleWebsocketSwitchRequest site req
  else
    match extraPath site req with
    | some path =>
      if !site.extraCallback then
        (false, clientError 400 (literal "Error") (literal "No extra_path_callback specified."))
      else (false, [.extraCallback path, .close])
    | none => (false, processServeFile site req)

/-- A connection that `tiny_web_task` has accepted. -/
def serveConnection (site : Site) (connection : Connection) (locals : Locals) (req : HttpRequest)
    (fuel : ℕ) : Option (List WebEffect) :=
  (parseRequest site.server connection locals req fuel).map fun req =>
    let r := process site req
    r.2 ++ if r.1 then [.newConnection] else [.close]

end RbProtocol.Web
