import RbProtocol.Web.ParseRequest

/-!
# When `parse_request` returns

The header loop ends at a line whose first or second byte is a newline. `rio_readlineb` stores no
such line at the end of the stream, where it stores nothing, nor at an error; the result that says
so is not looked at, and the loop reads again for ever. So `parse_request` returns exactly when such
a line is among those that are sent (`parseRequest_terminates_iff`). The only other way out is a
newline that the line buffer happened to hold before the first line, when this line has less than
two bytes.
-/

namespace RbProtocol.Web

open Ascii Library

/-- The lines that `parse_request` reads of a stream. -/
def requestLines (stream : Bytes) : List Bytes := lines (maxline - 2) stream

theorem requestLines_cons (c : UInt8) (rest : Bytes) :
    requestLines (c :: rest) = lineOf (maxline - 1) (c :: rest) ::
      requestLines ((c :: rest).drop (lineOf (maxline - 1) (c :: rest)).length) := by
  rw [requestLines, lines]
  rfl

/-- A newline that was in the buffer before the first line is still there: nothing was sent, or one
byte before an error. -/
def StaleNewline (connection : Connection) (buf : Bytes) : Prop :=
  (connection.stream = [] ∧ endsHeaders buf) ∨
    (connection.stream.length = 1 ∧ connection.ended = .error ∧ buf.getD 1 0 = newline)

/-- The buffer behind a line: the NUL that ends the line is no newline, but an error writes none. -/
theorem endsHeaders_storeLine (buf : Bytes) {line : Bytes} (hne : line ≠ []) (e : LineEnd) :
    endsHeaders (storeLine buf (line, e)).2 =
      (endsHeaders line || (e == .error && line.length == 1 && buf.getD 1 0 == newline)) := by
  obtain ⟨c, line, rfl⟩ := List.exists_cons_of_ne_nil hne
  have h0 : ((0 : UInt8) == newline) = false := rfl
  cases line with
  | nil => cases e <;> simp [storeLine, store, endsHeaders, h0]
  | cons d line => cases e <;> simp [storeLine, store, endsHeaders]

/-- At the end of the stream, or at an error there, the buffer stays as it is. -/
theorem storeLine_nil (buf : Bytes) (ended : RecvEnd) :
    (storeLine buf ([], ended.lineEnd)).2 = buf := by
  cases ended <;> rfl

section HeaderLoop

variable {server : WebServer}

/-- A line goes from the stream to the buffer. -/
theorem rioReadlineb_maxline (rio : Rio) (buf : Bytes) :
    ∃ rio', rioReadlineb rio buf maxline = (storeLine buf (lineOf (maxline - 1) rio.stream,
        lineEnd rio.ended (maxline - 1) rio.stream), rio') ∧
      rio'.stream = rio.stream.drop (lineOf (maxline - 1) rio.stream).length := by
  obtain ⟨rio', hread, -, hstream⟩ := rioReadlineb_eq rio buf maxline
  exact ⟨rio', hread, hstream⟩

/-- **The header loop ends exactly if one of the lines that are left ends it.** The induction is on
the bytes that are left. -/
theorem halts_nextHeader_iff (s : HeaderState) (h : endsHeaders s.buf = false) :
    Halts (fun s => !endsHeaders s.buf) (nextHeader server) s ↔
      ∃ line ∈ requestLines s.rio.stream, endsHeaders line = true := by
  induction hn : s.rio.stream.length using Nat.strong_induction_on generalizing s with
  | _ n ih =>
    cases hs : s.rio.stream with
    | nil =>
      -- nothing is stored any more
      have hnever : ¬Halts (fun s => !endsHeaders s.buf) (nextHeader server) s := by
        refine not_halts_of_invariant
          (I := fun s => endsHeaders s.buf = false ∧ s.rio.stream = [])
          (fun s hs => by rw [hs.1]; rfl) (fun s hs => ?_) ⟨h, hs⟩
        obtain ⟨hbuf, hstream⟩ := hs
        obtain ⟨rio', hread, hstream'⟩ := rioReadlineb_maxline s.rio s.buf
        rw [hstream] at hread hstream'
        refine ⟨?_, ?_⟩
        · rw [nextHeader, hread]
          exact (congrArg endsHeaders (storeLine_nil s.buf s.rio.ended)).trans hbuf
        · rw [nextHeader, hread]
          exact hstream'
      simp [hnever, requestLines, lines]
    | cons c rest =>
      obtain ⟨rio', hread, hstream'⟩ := rioReadlineb_maxline s.rio s.buf
      rw [hs] at hread hstream'
      have hne : lineOf (maxline - 1) (c :: rest) ≠ [] := lineOf_cons_ne_nil _ c rest
      have hrio : (nextHeader server s).rio.stream =
          (c :: rest).drop (lineOf (maxline - 1) (c :: rest)).length := by
        rw [nextHeader, hread]
        exact hstream'
      have hbuf : endsHeaders (nextHeader server s).buf =
          endsHeaders (lineOf (maxline - 1) (c :: rest)) := by
        have hold : (s.buf.getD 1 0 == newline) = false := (Bool.or_eq_false_iff.1 h).2
        rw [nextHeader, hread]
        refine (endsHeaders_storeLine s.buf hne _).trans ?_
        rw [hold, Bool.and_false, Bool.or_false]
      have hpos := List.length_pos_iff.2 hne
      rw [← halts_body_iff (by rw [h]; rfl), requestLines_cons, List.exists_mem_cons_iff]
      cases hline : endsHeaders (lineOf (maxline - 1) (c :: rest)) with
      | true => exact iff_of_true (halts_of_not_test (by rw [hbuf, hline]; rfl)) (.inl rfl)
      | false =>
        rw [ih _ ?_ (nextHeader server s) (hbuf.trans hline) rfl, hrio]
        · simp
        · rw [hrio, ← hn, hs, List.length_drop, List.length_cons]
          omega

variable (connection : Connection) (locals : Locals) (req : HttpRequest)

theorem terminates_iff_halts : Terminates server connection locals req ↔
    Halts (fun s => !endsHeaders s.buf) (nextHeader server)
      (startRequest connection locals req).1 := by
  simp only [Terminates, parseRequest, Option.isSome_map]
  rfl

/-- The request line in the buffer, and the lines behind it. -/
theorem startRequest_spec :
    (startRequest connection locals req).1.buf =
        (storeLine locals.buf (lineOf (maxline - 1) connection.stream,
          lineEnd connection.ended (maxline - 1) connection.stream)).2 ∧
      (startRequest connection locals req).1.rio.stream =
        connection.stream.drop (lineOf (maxline - 1) connection.stream).length := by
  obtain ⟨rio', hread, hstream⟩ := rioReadlineb_maxline (rioReadinitb connection) locals.buf
  rw [startRequest, hread]
  exact ⟨rfl, hstream⟩

/-- What the buffer ends the headers by, behind a request line that is not empty. -/
theorem endsHeaders_start {connection : Connection} {c : UInt8} {rest : Bytes}
    (hstream : connection.stream = c :: rest) :
    endsHeaders (startRequest connection locals req).1.buf = true ↔
      endsHeaders (lineOf (maxline - 1) (c :: rest)) = true ∨
        StaleNewline connection locals.buf := by
  have hne : lineOf (maxline - 1) (c :: rest) ≠ [] := lineOf_cons_ne_nil _ c rest
  rw [(startRequest_spec connection locals req).1, hstream, endsHeaders_storeLine _ hne,
    Bool.or_eq_true]
  cases hline : endsHeaders (lineOf (maxline - 1) (c :: rest)) with
  | true => simp
  | false =>
    simp only [Bool.false_eq_true, false_or, Bool.and_eq_true, beq_iff_eq]
    constructor
    · rintro ⟨⟨herror, hlength⟩, hold⟩
      obtain ⟨hended, hall⟩ := lineEnd_eq_error herror
      exact .inr ⟨by rw [hstream, ← hall, hlength], hended, hold⟩
    · rintro (⟨hnil, -⟩ | ⟨hlength, hended, hold⟩)
      · rw [hstream] at hnil
        cases hnil
      · -- the only byte is no newline
        rw [hstream, List.length_cons] at hlength
        obtain rfl := List.length_eq_zero_iff.1 (Nat.succ.inj hlength)
        have hc : c ≠ newline := by
          rintro rfl
          exact absurd hline (by decide)
        have hone : lineOf (maxline - 1) [c] = [c] := by
          simp [maxline, lineOf]
        refine ⟨⟨?_, by rw [hone]; rfl⟩, hold⟩
        simp [maxline, lineEnd, hc, hended, RecvEnd.lineEnd]

end HeaderLoop

/-- **`parse_request` returns exactly when a line that ends the headers is sent**, or a newline was
in the buffer by chance. -/
theorem parseRequest_terminates_iff (server : WebServer) (connection : Connection)
    (locals : Locals) (req : HttpRequest) :
    Terminates server connection locals req ↔
      (∃ line ∈ requestLines connection.stream, endsHeaders line = true) ∨
        StaleNewline connection locals.buf := by
  rw [terminates_iff_halts]
  obtain ⟨hbuf, hrest⟩ := startRequest_spec connection locals req
  cases hstream : connection.stream with
  | nil =>
    rw [hstream] at hrest hbuf
    replace hbuf := hbuf.trans (storeLine_nil locals.buf connection.ended)
    cases h : endsHeaders locals.buf with
    | true =>
      exact iff_of_true (halts_of_not_test (by rw [hbuf, h]; rfl)) (.inr (.inl ⟨hstream, h⟩))
    | false =>
      rw [halts_nextHeader_iff _ (by rw [hbuf, h]), hrest]
      simp [requestLines, lines, StaleNewline, hstream, h]
  | cons c rest =>
    have hstart := endsHeaders_start locals req hstream
    cases h : endsHeaders (startRequest connection locals req).1.buf with
    | true =>
      refine iff_of_true (halts_of_not_test (by rw [h]; rfl)) ?_
      rw [requestLines_cons, List.exists_mem_cons_iff]
      exact (hstart.1 h).imp_left .inl
    | false =>
      obtain ⟨hline, hstale⟩ := not_or.1 (mt hstart.2 (by rw [h]; exact Bool.false_ne_true))
      rw [halts_nextHeader_iff _ h, hrest, hstream, requestLines_cons, List.exists_mem_cons_iff]
      simp [hline, hstale]

/-- The request line alone, and nothing behind it. -/
theorem not_terminates_requestLine : ¬Terminates ⟨literal "/data", literal "robot"⟩
    ⟨[.data ⟨literal "GET / HTTP/1.1\r\n", by decide, by decide⟩], .eof⟩
    ⟨List.replicate 256 0, List.replicate 128 0, List.replicate 10 0⟩
    ⟨[], 0, 0, false, List.replicate 24 0, 0, false⟩ := by
  rw [terminates_iff_halts, halts_nextHeader_iff _ (by decide +kernel)]
  decide +kernel

end RbProtocol.Web
