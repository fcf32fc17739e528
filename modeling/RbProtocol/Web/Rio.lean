import RbProtocol.Foundations.Ascii

/-!
# Buffered reading

`rio_read` and `rio_readlineb` of the web server, on the results that `recv` gives one after the
other: pieces of the stream, `EAGAIN` and `EINTR`, and then the end of the stream or an error for
ever.

What a call reads is a function of the bytes that are left, however they are cut into pieces
(`readLine_eq`): the bytes up to a newline, but at most `maxlen - 1` (`lineOf`).
-/

namespace RbProtocol.Web

open Ascii

/-- `RIO_BUFSIZE`. -/
def rioBufsize : ℕ := 256

/-- A piece of the stream that one `recv` returns. -/
structure Piece where
  bytes : Bytes
  ne_nil : bytes ≠ []
  length_le : bytes.length ≤ rioBufsize

/-- A result of `recv` while the connection is open. -/
inductive Recv
  | data (piece : Piece)
  /-- `EAGAIN`. -/
  | again
  /-- `EINTR`. -/
  | interrupted

/-- The result of every later `recv`. -/
inductive RecvEnd
  /-- The client has closed the connection: 0. -/
  | eof
  /-- Any other error. -/
  | error
  deriving DecidableEq

/-- What `recv` returns on a connection. -/
structure Connection where
  recvs : List Recv
  ended : RecvEnd

/-- `rio_t`, with the unread bytes of `rio_buf`, and what `recv` will return. -/
structure Rio where
  unread : Bytes
  recvs : List Recv
  ended : RecvEnd

/-- `rio_readinitb`. -/
def rioReadinitb (connection : Connection) : Rio := ⟨[], connection.recvs, connection.ended⟩

/-- The bytes of some results. -/
def Recv.stream (recvs : List Recv) : Bytes :=
  recvs.flatMap fun
    | .data piece => piece.bytes
    | .again | .interrupted => []

/-- The bytes the client sends. -/
def Connection.stream (connection : Connection) : Bytes := Recv.stream connection.recvs

/-- The bytes that are left. -/
def Rio.stream (rio : Rio) : Bytes := rio.unread ++ Recv.stream rio.recvs

/-- The loop of `rio_read` that refills the buffer: the bytes of the next piece, if there is one. -/
def refill : List Recv → Option Bytes × List Recv
  | [] => (none, [])
  | .data piece :: recvs => (some piece.bytes, recvs)
  | .again :: recvs | .interrupted :: recvs => refill recvs

/-- What `rio_read` returns. -/
inductive RioResult
  | bytes (bs : Bytes)
  /-- 0. -/
  | eof
  /-- −1. -/
  | error

/-- `RecvEnd` as it is returned. -/
def RecvEnd.result : RecvEnd → RioResult
  | eof => .eof
  | error => .error

/-- `rio_read`. -/
def rioRead (rio : Rio) (n : ℕ) : RioResult × Rio :=
  match rio.unread with
  | _ :: _ => (.bytes (rio.unread.take n), { rio with unread := rio.unread.drop n })
  | [] =>
    match refill rio.recvs with
    | (none, recvs) => (rio.ended.result, { rio with recvs := recvs })
    | (some bytes, recvs) => (.bytes (bytes.take n), ⟨bytes.drop n, recvs, rio.ended⟩)

/-- How the loop of `rio_readlineb` ends. -/
inductive LineEnd
  | newline
  /-- `maxlen - 1` bytes have been read. -/
  | full
  | eof
  | error
  deriving DecidableEq

/-- `RecvEnd` as an end of the loop. -/
def RecvEnd.lineEnd : RecvEnd → LineEnd
  | eof => .eof
  | error => .error

/-- The loop of `rio_readlineb`, over `room` bytes: the bytes it reads and how it ends. -/
def readLine : ℕ → Rio → (Bytes × LineEnd) × Rio
  | 0, rio => (([], .full), rio)
  | room + 1, rio =>
    match rioRead rio 1 with
    | (.bytes bs, rio) =>
      let c := bs.headD 0
      if c = newline then (([c], .newline), rio)
      else
        let r := readLine room rio
        ((c :: r.1.1, r.1.2), r.2)
    | (.eof, rio) => (([], .eof), rio)
    | (.error, rio) => (([], .error), rio)

/-- Bytes stored at the start of a buffer. -/
def store (buf bytes : Bytes) : Bytes := bytes ++ buf.drop bytes.length

/-- What `rio_readlineb` does with a line: its result and the buffer. At the end of the stream the
buffer is as it was; an error leaves the bytes that have been read without a NUL. -/
def storeLine (usrbuf : Bytes) : Bytes × LineEnd → ℤ × Bytes
  | (line, .newline) => (line.length, store usrbuf (line ++ [0]))
  | (line, .full) => (line.length + 1, store usrbuf (line ++ [0]))
  | (line, .eof) =>
    if line.length = 0 then (0, usrbuf) else (line.length + 1, store usrbuf (line ++ [0]))
  | (line, .error) => (-1, store usrbuf line)

/-- `rio_readlineb`: the result, the buffer and the reader. -/
def rioReadlineb (rio : Rio) (usrbuf : Bytes) (maxlen : ℕ) : (ℤ × Bytes) × Rio :=
  let r := readLine (maxlen - 1) rio
  (storeLine usrbuf r.1, r.2)

/-! ## Lines of the stream -/

/-- The next line of a stream: up to a newline, at most `room` bytes. -/
def lineOf : ℕ → Bytes → Bytes
  | 0, _ => []
  | _ + 1, [] => []
  | room + 1, c :: stream => if c = newline then [c] else c :: lineOf room stream

/-- How the next line of a stream ends. -/
def lineEnd (ended : RecvEnd) : ℕ → Bytes → LineEnd
  | 0, _ => .full
  | _ + 1, [] => ended.lineEnd
  | room + 1, c :: stream => if c = newline then .newline else lineEnd ended room stream

/-- A refill takes the first piece. -/
theorem refill_spec (recvs : List Recv) :
    (∃ recvs', refill recvs = (none, recvs') ∧ Recv.stream recvs = [] ∧ Recv.stream recvs' = []) ∨
      ∃ bytes recvs', refill recvs = (some bytes, recvs') ∧ bytes ≠ [] ∧
        Recv.stream recvs = bytes ++ Recv.stream recvs' := by
  induction recvs with
  | nil => exact .inl ⟨[], rfl, rfl, rfl⟩
  | cons r recvs ih =>
    cases r with
    | data piece => exact .inr ⟨piece.bytes, recvs, rfl, piece.ne_nil, rfl⟩
    | again => exact ih
    | interrupted => exact ih

/-- **A byte is read from the front of the stream**, if there is one. -/
theorem rioRead_one (rio : Rio) :
    ∃ rio', rio'.ended = rio.ended ∧ rio'.stream = rio.stream.tail ∧
      rioRead rio 1 =
        (match rio.stream with
          | [] => rio.ended.result
          | c :: _ => .bytes [c], rio') := by
  obtain ⟨unread, recvs, ended⟩ := rio
  cases unread with
  | cons c unread => exact ⟨⟨unread, recvs, ended⟩, rfl, rfl, rfl⟩
  | nil =>
    rcases refill_spec recvs with ⟨recvs', hrefill, hnone, hnone'⟩ |
      ⟨_ | ⟨c, bytes⟩, recvs', hrefill, hne, hstream⟩
    · refine ⟨⟨[], recvs', ended⟩, rfl, ?_, ?_⟩
      · simp [Rio.stream, hnone, hnone']
      · simp [rioRead, hrefill, Rio.stream, hnone]
    · exact absurd rfl hne
    · refine ⟨⟨bytes, recvs', ended⟩, rfl, ?_, ?_⟩
      · simp [Rio.stream, hstream]
      · simp [rioRead, hrefill, Rio.stream, hstream]

/-- **Reading a line does not depend on the pieces of the stream.** -/
theorem readLine_eq (room : ℕ) (rio : Rio) :
    ∃ rio', readLine room rio =
        ((lineOf room rio.stream, lineEnd rio.ended room rio.stream), rio') ∧
      rio'.ended = rio.ended ∧ rio'.stream = rio.stream.drop (lineOf room rio.stream).length := by
  induction room generalizing rio with
  | zero => exact ⟨rio, rfl, rfl, rfl⟩
  | succ room ih =>
    obtain ⟨next, hended, hstream, hread⟩ := rioRead_one rio
    cases hs : rio.stream with
    | nil =>
      rw [hs] at hstream hread
      refine ⟨next, ?_, hended, hstream⟩
      rw [readLine, hread, lineOf, lineEnd]
      cases rio.ended <;> rfl
    | cons c stream =>
      rw [hs] at hstream hread
      rw [readLine, hread, lineOf, lineEnd]
      by_cases hc : c = newline
      · simp only [List.headD_cons, hc, if_true]
        exact ⟨next, rfl, hended, hstream⟩
      · obtain ⟨rio', hline, hended', hstream'⟩ := ih next
        rw [hended, hstream] at hline
        rw [hstream] at hstream'
        simp only [List.headD_cons, hc, if_false, hline, List.tail_cons]
        exact ⟨rio', rfl, hended'.trans hended, hstream'⟩

/-- **A call of `rio_readlineb`** stores the next line of the stream. -/
theorem rioReadlineb_eq (rio : Rio) (usrbuf : Bytes) (maxlen : ℕ) :
    ∃ rio', rioReadlineb rio usrbuf maxlen = (storeLine usrbuf (lineOf (maxlen - 1) rio.stream,
        lineEnd rio.ended (maxlen - 1) rio.stream), rio') ∧ rio'.ended = rio.ended ∧
      rio'.stream = rio.stream.drop (lineOf (maxlen - 1) rio.stream).length := by
  obtain ⟨rio', hread, hended, hstream⟩ := readLine_eq (maxlen - 1) rio
  exact ⟨rio', by rw [rioReadlineb, hread], hended, hstream⟩

theorem lineOf_cons_ne_nil (room : ℕ) (c : UInt8) (stream : Bytes) :
    lineOf (room + 1) (c :: stream) ≠ [] := by
  rw [lineOf]
  split_ifs <;> exact List.cons_ne_nil _ _

/-- An error is met only behind the last byte. -/
theorem lineEnd_eq_error {ended : RecvEnd} {room : ℕ} {stream : Bytes}
    (h : lineEnd ended room stream = .error) : ended = .error ∧ lineOf room stream = stream := by
  induction room generalizing stream with
  | zero => cases h
  | succ room ih =>
    cases stream with
    | nil =>
      cases ended with
      | eof => cases h
      | error => exact ⟨rfl, rfl⟩
    | cons c stream =>
      rw [lineEnd] at h
      rw [lineOf]
      split_ifs at h ⊢ with hc
      obtain ⟨hended, hline⟩ := ih h
      exact ⟨hended, by rw [hline]⟩

/-- The lines of a stream, each of at most `room + 1` bytes. -/
def lines (room : ℕ) (stream : Bytes) : List Bytes :=
  match stream with
  | [] => []
  | c :: rest =>
    lineOf (room + 1) (c :: rest) ::
      lines room ((c :: rest).drop (lineOf (room + 1) (c :: rest)).length)
termination_by stream.length
decreasing_by
  have := List.length_pos_iff.2 (lineOf_cons_ne_nil room c rest)
  rw [List.length_drop, List.length_cons]
  omega

end RbProtocol.Web
