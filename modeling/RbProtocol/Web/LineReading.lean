import RbProtocol.Library.Buffer
import RbProtocol.Web.HeaderLines

/-!
# The read buffer

`rio_t` with its cells: the buffer, the pointer to the next unread byte and the number of unread
bytes, which `rio_read` updates one by one, on results of `recv` that cut the stream into pieces.
The buffers are bounds-checked, so a result also says that no byte outside of them is touched.

* `RioT.readlineb_eq`: `rio_readlineb` is the reader of the unread bytes, `rioReadlineb`.
* `readLines_eq`: successive calls store the lines of the stream, each with a NUL, and then nothing,
  however the stream was cut.
-/

namespace RbProtocol.Web

open Ascii Library

/-! ## The code -/

/-- `rio_t`: `rio_cnt`, the position of `rio_bufptr` in `rio_buf`, and `rio_buf`; with what `recv`
will return on `rio_fd`. -/
structure RioT where
  cnt : ℤ
  bufptr : ℕ
  buf : Bytes
  recvs : List Recv
  ended : RecvEnd

/-- What `recv` returns at the end. -/
def RecvEnd.code : RecvEnd → ℤ
  | eof => 0
  | error => -1

namespace RioT

/-- `rio_readinitb`, on a buffer that holds anything. -/
def readinitb (buf : Bytes) (connection : Connection) : RioT where
  cnt := 0
  bufptr := 0
  buf := buf
  recvs := connection.recvs
  ended := connection.ended

/-- The refill loop of `rio_read`, and the early return of `rio_read` in it, if there is one. -/
def refillLoop (rp : RioT) : List Recv → Option (Option RioResult × RioT)
  | [] =>
    if 0 < rp.cnt then some (none, { rp with recvs := [] })
    else some (some rp.ended.result, { rp with cnt := rp.ended.code, recvs := [] })
  | r :: recvs =>
    if 0 < rp.cnt then some (none, { rp with recvs := r :: recvs })
    else
      match r with
      | .data piece => (writeAt? rp.buf 0 piece.bytes).bind fun buf =>
        refillLoop { rp with cnt := piece.bytes.length, buf := buf, bufptr := 0 } recvs
      | .again | .interrupted => refillLoop { rp with cnt := -1 } recvs

/-- `rio_read`: what it returns, with the bytes it copies. -/
def read (rp : RioT) (n : ℕ) : Option (RioResult × RioT) :=
  (rp.refillLoop rp.recvs).bind fun
    | (some result, rp) => some (result, rp)
    | (none, rp) =>
      let cnt := if rp.cnt < n then rp.cnt.toNat else n
      (readAt? rp.buf rp.bufptr cnt).map fun bytes =>
        (.bytes bytes, { rp with bufptr := rp.bufptr + cnt, cnt := rp.cnt - cnt })

/-- The end of `rio_readlineb`: the NUL is written, and `n` returned. -/
def terminate (rp : RioT) (usrbuf : Bytes) (n bufp : ℕ) : Option ((ℤ × Bytes) × RioT) :=
  (writeAt? usrbuf bufp [0]).map fun usrbuf => ((n, usrbuf), rp)

/-- The loop of `rio_readlineb`, over `room = maxlen - n` iterations: the result, the buffer and the
reader. No number is larger than `maxlen`, the size of a buffer, which an `int` holds. -/
def lineLoop (rp : RioT) (usrbuf : Bytes) : (room n bufp : ℕ) → Option ((ℤ × Bytes) × RioT)
  | 0, n, bufp => rp.terminate usrbuf n bufp
  | room + 1, n, bufp =>
    (rp.read 1).bind fun
      | (.bytes bytes, rp) =>
        let c := bytes.headD 0
        (writeAt? usrbuf bufp [c]).bind fun usrbuf =>
          if c = newline then rp.terminate usrbuf n (bufp + 1)
          else lineLoop rp usrbuf room (n + 1) (bufp + 1)
      | (.eof, rp) => if n = 1 then some ((0, usrbuf), rp) else rp.terminate usrbuf n bufp
      | (.error, rp) => some ((-1, usrbuf), rp)

/-- `rio_readlineb`: the result, the buffer and the reader. -/
def readlineb (rp : RioT) (usrbuf : Bytes) (maxlen : ℕ) : Option ((ℤ × Bytes) × RioT) :=
  rp.lineLoop usrbuf (maxlen - 1) 1 0

/-- Successive calls of `rio_readlineb`, each with the buffer it is given: their results and what
the buffers hold after them. -/
def readLines (maxlen : ℕ) : RioT → List Bytes → Option (List (ℤ × Bytes))
  | _, [] => some []
  | rp, usrbuf :: bufs => (rp.readlineb usrbuf maxlen).bind fun r =>
    (readLines maxlen r.2 bufs).map fun results => r.1 :: results

/-! ## The unread bytes -/

/-- The unread bytes of the buffer are inside of it. -/
structure Valid (rp : RioT) : Prop where
  size : rp.buf.length = rioBufsize
  inside : rp.bufptr + rp.cnt.toNat ≤ rioBufsize

/-- The reader of the unread bytes. -/
def abs (rp : RioT) : Rio := ⟨(rp.buf.drop rp.bufptr).take rp.cnt.toNat, rp.recvs, rp.ended⟩

variable {rp : RioT}

theorem readinitb_valid {buf : Bytes} (h : buf.length = rioBufsize) (connection : Connection) :
    (readinitb buf connection).Valid := ⟨h, Nat.zero_le _⟩

@[simp] theorem abs_readinitb (buf : Bytes) (connection : Connection) :
    (readinitb buf connection).abs = rioReadinitb connection := rfl

/-- The number of unread bytes. -/
theorem Valid.length_unread (h : rp.Valid) : rp.abs.unread.length = rp.cnt.toNat := by
  have hinside := h.inside
  have hsize := h.size
  rw [abs, List.length_take, List.length_drop]
  omega

/-- With unread bytes, there is no refill. -/
theorem refillLoop_of_pos (hcnt : 0 < rp.cnt) (recvs : List Recv) :
    rp.refillLoop recvs = some (none, { rp with recvs := recvs }) := by
  cases recvs with
  | nil => rw [refillLoop, if_pos hcnt]
  | cons r recvs => cases r <;> rw [refillLoop, if_pos hcnt]

/-- With no unread bytes, the loop refills the buffer with the next piece, if there is one. -/
theorem refillLoop_spec (hvalid : rp.Valid) (hcnt : ¬0 < rp.cnt) (recvs : List Recv) :
    (∃ recvs', refill recvs = (none, recvs') ∧ ∃ rp', rp'.Valid ∧ rp'.abs = ⟨[], recvs', rp.ended⟩ ∧
      rp.refillLoop recvs = some (some rp.ended.result, rp')) ∨
    ∃ bytes recvs', refill recvs = (some bytes, recvs') ∧ bytes ≠ [] ∧ ∃ rp', rp'.Valid ∧
      rp'.abs = ⟨bytes, recvs', rp.ended⟩ ∧ rp.refillLoop recvs = some (none, rp') := by
  induction recvs generalizing rp with
  | nil =>
    have hcode : rp.ended.code.toNat = 0 := by cases rp.ended <;> rfl
    refine .inl ⟨[], rfl, { rp with cnt := rp.ended.code, recvs := [] }, ⟨hvalid.size, ?_⟩, ?_, ?_⟩
    · simp only [hcode]
      exact (Nat.le_add_right _ _).trans hvalid.inside
    · simp only [abs, hcode, List.take_zero]
    · rw [refillLoop, if_neg hcnt]
  | cons r recvs ih =>
    have hagain : ({ rp with cnt := -1 } : RioT).Valid :=
      ⟨hvalid.size, (Nat.le_add_right _ _).trans hvalid.inside⟩
    have hneg : ¬(0 : ℤ) < -1 := by decide
    cases r with
    | again =>
      rw [refillLoop, if_neg hcnt]
      exact ih hagain hneg
    | interrupted =>
      rw [refillLoop, if_neg hcnt]
      exact ih hagain hneg
    | data piece =>
      have hpos : (0 : ℤ) < piece.bytes.length := by
        exact_mod_cast List.length_pos_iff.2 piece.ne_nil
      obtain ⟨buf, hbuf⟩ : ∃ buf, writeAt? rp.buf 0 piece.bytes = some buf := by
        rw [← Option.isSome_iff_exists, writeAt?_isSome_iff, hvalid.size, Nat.zero_add]
        exact piece.length_le
      have htake : (buf.drop 0).take piece.bytes.length = piece.bytes := by
        rw [writeAt?] at hbuf
        split_ifs at hbuf
        obtain rfl := Option.some.inj hbuf
        exact List.take_left
      refine .inr ⟨piece.bytes, recvs, rfl, piece.ne_nil,
        ⟨piece.bytes.length, 0, buf, recvs, rp.ended⟩, ⟨?_, ?_⟩, ?_, ?_⟩
      · exact (length_writeAt? hbuf).trans hvalid.size
      · exact (Nat.zero_add _).trans_le piece.length_le
      · exact congrArg (Rio.mk · recvs rp.ended) htake
      · rw [refillLoop, if_neg hcnt, hbuf, Option.bind_some, refillLoop_of_pos hpos]

/-- Unread bytes are copied from the front. -/
theorem copy_eq (hvalid : rp.Valid) (hcnt : 0 < rp.cnt) (n : ℕ) :
    let cnt := if rp.cnt < n then rp.cnt.toNat else n
    let rp' : RioT := { rp with bufptr := rp.bufptr + cnt, cnt := rp.cnt - cnt }
    readAt? rp.buf rp.bufptr cnt = some (rp.abs.unread.take n) ∧ rp'.Valid ∧
      rp'.abs = { rp.abs with unread := rp.abs.unread.drop n } := by
  intro cnt rp'
  have hsize := hvalid.size
  have hinside := hvalid.inside
  have hmin : cnt = min n rp.cnt.toNat := by
    simp only [cnt]
    split_ifs <;> omega
  have hle : rp.bufptr + cnt ≤ rp.buf.length := by omega
  refine ⟨?_, ⟨hsize, ?_⟩, ?_⟩
  · rw [readAt?, if_pos hle, hmin, ← List.take_take]
    rfl
  · simp only [rp']
    omega
  · have hunread : (rp.buf.drop (rp.bufptr + cnt)).take (rp.cnt - cnt).toNat =
        ((rp.buf.drop rp.bufptr).take rp.cnt.toNat).drop n := by
      rw [List.drop_take, List.drop_drop]
      rcases le_total n rp.cnt.toNat with hn | hn
      · rw [hmin, min_eq_left hn]
        congr 1
        omega
      · have hzero : (rp.cnt - cnt).toNat = 0 := by omega
        rw [hzero, Nat.sub_eq_zero_of_le hn, List.take_zero, List.take_zero]
    exact congrArg (Rio.mk · rp.recvs rp.ended) hunread

/-- **Bytes are read** as `rioRead` reads them. -/
theorem read_eq (hvalid : rp.Valid) (n : ℕ) : ∃ rp', rp'.Valid ∧
    rp'.abs = (rioRead rp.abs n).2 ∧ rp.read n = some ((rioRead rp.abs n).1, rp') := by
  have hlen := hvalid.length_unread
  by_cases hcnt : 0 < rp.cnt
  · obtain ⟨hread, hvalid', habs'⟩ := copy_eq hvalid hcnt n
    obtain ⟨c, unread, hunread⟩ := List.exists_cons_of_ne_nil (l := rp.abs.unread) (by
      intro hnil
      rw [hnil, List.length_nil] at hlen
      omega)
    have hstep : rioRead rp.abs n = (.bytes (rp.abs.unread.take n),
        { rp.abs with unread := rp.abs.unread.drop n }) := by
      rw [rioRead, hunread]
    refine ⟨_, hvalid', habs'.trans (congrArg Prod.snd hstep).symm, ?_⟩
    rw [read, refillLoop_of_pos hcnt, hstep]
    exact congrArg (Option.map _) hread
  · have hnil : rp.abs.unread = [] := List.length_eq_zero_iff.1 (by omega)
    rcases refillLoop_spec hvalid hcnt rp.recvs with
      ⟨recvs', hrefill, rp', hvalid', habs', hloop⟩ |
      ⟨bytes, recvs', hrefill, hne, rp', hvalid', habs', hloop⟩
    · have hstep : rioRead rp.abs n = (rp.ended.result, ⟨[], recvs', rp.ended⟩) := by
        rw [rioRead, hnil]
        simp only [abs, hrefill, ← hnil]
      refine ⟨rp', hvalid', habs'.trans (congrArg Prod.snd hstep).symm, ?_⟩
      rw [read, hloop, hstep, Option.bind_some]
    · have hstep : rioRead rp.abs n =
          (.bytes (bytes.take n), ⟨bytes.drop n, recvs', rp.ended⟩) := by
        rw [rioRead, hnil]
        simp only [abs, hrefill]
      have hunread : rp'.abs.unread = bytes := congrArg Rio.unread habs'
      have hcnt' : 0 < rp'.cnt := by
        have hlen' := hvalid'.length_unread
        have hpos := List.length_pos_iff.2 hne
        rw [hunread] at hlen'
        omega
      obtain ⟨hread, hvalid'', habs''⟩ := copy_eq hvalid' hcnt' n
      rw [hunread] at hread habs''
      refine ⟨_, hvalid'', ?_, ?_⟩
      · rw [habs'', habs', hstep]
      · rw [read, hloop, hstep, Option.bind_some]
        exact congrArg (Option.map _) hread

/-! ## Lines -/

/-- A byte behind those that are stored. -/
theorem writeAt?_store {buf stored : Bytes} (c : UInt8) (h : stored.length < buf.length) :
    writeAt? (store buf stored) stored.length [c] = some (store buf (stored ++ [c])) := by
  obtain ⟨d, rest, hdrop⟩ := List.exists_cons_of_ne_nil (l := buf.drop stored.length) (by
    rw [Ne, List.drop_eq_nil_iff]
    omega)
  have hrest : buf.drop (stored ++ [c]).length = rest := by
    rw [List.length_append, ← List.drop_drop, hdrop]
    rfl
  have hstore : store buf stored = stored ++ ([d] ++ rest) := by
    rw [store, hdrop]
    rfl
  rw [hstore, @writeAt?_append UInt8 [d] [c] stored rest rfl, store, hrest,
    List.append_assoc]

theorem terminate_store {usrbuf stored : Bytes} (n : ℕ) (h : stored.length < usrbuf.length) :
    rp.terminate (store usrbuf stored) n stored.length =
      some (((n : ℤ), store usrbuf (stored ++ [0])), rp) := by
  rw [terminate, writeAt?_store 0 h]
  rfl

/-- The loop of `rio_readlineb` behind some stored bytes. The induction is on the room that is
left. -/
theorem lineLoop_eq (hvalid : rp.Valid) {room : ℕ} {usrbuf stored : Bytes}
    (hroom : stored.length + room < usrbuf.length) : ∃ rp', rp'.Valid ∧
      rp'.abs = (readLine room rp.abs).2 ∧
      rp.lineLoop (store usrbuf stored) room (stored.length + 1) stored.length =
        some (storeLine usrbuf (stored ++ (readLine room rp.abs).1.1,
          (readLine room rp.abs).1.2), rp') := by
  induction room generalizing rp stored with
  | zero =>
    refine ⟨rp, hvalid, rfl, ?_⟩
    rw [lineLoop, terminate_store _ hroom, readLine, List.append_nil]
    rfl
  | succ room ih =>
    have hstored : stored.length < usrbuf.length := by omega
    obtain ⟨rp₁, hvalid₁, habs₁, hread⟩ := read_eq hvalid 1
    rw [lineLoop, hread, Option.bind_some, readLine]
    rcases hone : rioRead rp.abs 1 with ⟨bytes | _ | _, rio₁⟩
    · obtain rfl : rp₁.abs = rio₁ := by rw [habs₁, hone]
      have hlen : (stored ++ [bytes.headD 0]).length = stored.length + 1 :=
        List.length_append
      simp only [writeAt?_store _ hstored, Option.bind_some]
      by_cases hc : bytes.headD 0 = newline
      · refine ⟨rp₁, hvalid₁, ?_, ?_⟩
        · rw [if_pos hc]
        · rw [if_pos hc, if_pos hc, ← hlen, terminate_store _ (by omega), storeLine]
      · obtain ⟨rp₂, hvalid₂, habs₂, hloop⟩ :=
          @ih rp₁ hvalid₁ (stored ++ [bytes.headD 0]) (by omega)
        refine ⟨rp₂, hvalid₂, ?_, ?_⟩
        · rw [if_neg hc, habs₂]
        · rw [hlen] at hloop
          rw [if_neg hc, if_neg hc, hloop, List.append_assoc]
          rfl
    · refine ⟨rp₁, hvalid₁, by rw [habs₁, hone], ?_⟩
      simp only [List.append_nil, storeLine]
      by_cases hnil : stored = []
      · subst hnil
        rfl
      · have hpos := List.length_pos_iff.2 hnil
        rw [if_neg (by omega), if_neg (by omega), terminate_store _ hstored]
        rfl
    · refine ⟨rp₁, hvalid₁, by rw [habs₁, hone], ?_⟩
      simp only [List.append_nil, storeLine]

/-- **`rio_readlineb` on the cells** is `rioReadlineb` on the unread bytes. -/
theorem readlineb_eq (hvalid : rp.Valid) {maxlen : ℕ} (hpos : 0 < maxlen) {usrbuf : Bytes}
    (hbuf : maxlen ≤ usrbuf.length) : ∃ rp', rp'.Valid ∧
      rp'.abs = (rioReadlineb rp.abs usrbuf maxlen).2 ∧
      rp.readlineb usrbuf maxlen = some ((rioReadlineb rp.abs usrbuf maxlen).1, rp') := by
  have hroom : ([] : Bytes).length + (maxlen - 1) < usrbuf.length := by
    rw [List.length_nil]
    omega
  exact lineLoop_eq hvalid hroom

end RioT

/-! ## The lines of the stream -/

/-- A line of at most `room` bytes and the lines behind it: it ends at its first newline, with as
many bytes as there is room, or at the end of the stream. -/
structure IsCut (room : ℕ) (line : Bytes) (after : List Bytes) : Prop where
  ne_nil : line ≠ []
  newline_last : newline ∉ line.dropLast
  length_le : line.length ≤ room
  ends : newline ∈ line ∨ line.length = room ∨ after = []

theorem newline_not_mem_dropLast_lineOf (room : ℕ) (stream : Bytes) :
    newline ∉ (lineOf room stream).dropLast := by
  induction room generalizing stream with
  | zero => exact List.not_mem_nil
  | succ room ih =>
    cases stream with
    | nil => exact List.not_mem_nil
    | cons c stream =>
      rw [lineOf]
      split_ifs with hc
      · exact List.not_mem_nil
      · cases hline : lineOf room stream with
        | nil => exact List.not_mem_nil
        | cons d line =>
          have hrest := ih stream
          rw [hline] at hrest
          rw [List.dropLast_cons_cons, List.mem_cons, not_or]
          exact ⟨fun heq => hc heq.symm, hrest⟩

/-- Where a line ends. -/
theorem lineOf_ends (room : ℕ) (stream : Bytes) : newline ∈ lineOf room stream ∨
    (lineOf room stream).length = room ∨ lineOf room stream = stream := by
  induction room generalizing stream with
  | zero => exact .inr (.inl rfl)
  | succ room ih =>
    cases stream with
    | nil => exact .inr (.inr rfl)
    | cons c stream =>
      rw [lineOf]
      split_ifs with hc
      · exact .inl (hc ▸ List.mem_singleton_self c)
      · rcases ih stream with h | h | h
        · exact .inl (List.mem_cons_of_mem c h)
        · exact .inr (.inl (congrArg Nat.succ h))
        · exact .inr (.inr (congrArg (c :: ·) h))

theorem lineEnd_eq_newline_iff (ended : RecvEnd) (room : ℕ) (stream : Bytes) :
    lineEnd ended room stream = .newline ↔ newline ∈ lineOf room stream := by
  induction room generalizing stream with
  | zero => simp [lineEnd, lineOf]
  | succ room ih =>
    cases stream with
    | nil => cases ended <;> simp [lineEnd, lineOf, RecvEnd.lineEnd]
    | cons c stream =>
      rw [lineEnd, lineOf]
      split_ifs with hc
      · simp [hc]
      · rw [ih, List.mem_cons]
        exact ⟨.inr, fun h => h.resolve_left fun heq => hc heq.symm⟩

/-- Every line of a stream ends where a line ends. -/
theorem isCut_of_lines (room : ℕ) (stream : Bytes) (before : List Bytes) (line : Bytes)
    (after : List Bytes) (h : lines room stream = before ++ line :: after) :
    IsCut (room + 1) line after := by
  fun_induction lines room stream generalizing before with
  | case1 => exact absurd h.symm (List.append_ne_nil_of_right_ne_nil _ (List.cons_ne_nil _ _))
  | case2 c rest ih =>
    cases before with
    | cons first before => exact ih before (List.cons.inj h).2
    | nil =>
      obtain ⟨rfl, hafter⟩ := List.cons.inj h
      refine ⟨lineOf_cons_ne_nil room c rest, newline_not_mem_dropLast_lineOf _ _,
        length_lineOf_le _ _, (lineOf_ends (room + 1) (c :: rest)).imp_right ?_⟩
      rintro (hlength | hall)
      · exact .inl hlength
      · rw [hall, List.drop_length] at hafter
        refine .inr (hafter.symm.trans ?_)
        rw [lines]

/-! ## Successive calls -/

/-- What `rio_readlineb` returns for a line: behind a line without a newline it counts the NUL. -/
def lineResult (line : Bytes) : ℤ :=
  if newline ∈ line then line.length else line.length + 1

/-- The results of calls that store lines, and the buffers after them: behind the last line nothing
is stored, and 0 returned. -/
def storeLines : List Bytes → List Bytes → List (ℤ × Bytes)
  | _, [] => []
  | [], usrbuf :: bufs => (0, usrbuf) :: storeLines [] bufs
  | line :: lines, usrbuf :: bufs =>
    (lineResult line, store usrbuf (line ++ [0])) :: storeLines lines bufs

/-- A line of the stream is stored with a NUL. -/
theorem storeLine_lineOf (room : ℕ) (usrbuf : Bytes) (c : UInt8) (rest : Bytes) :
    storeLine usrbuf (lineOf (room + 1) (c :: rest), lineEnd .eof (room + 1) (c :: rest)) =
      (lineResult (lineOf (room + 1) (c :: rest)),
        store usrbuf (lineOf (room + 1) (c :: rest) ++ [0])) := by
  have hnewline := lineEnd_eq_newline_iff .eof (room + 1) (c :: rest)
  have hne := List.length_pos_iff.2 (lineOf_cons_ne_nil room c rest)
  rw [lineResult]
  cases hend : lineEnd .eof (room + 1) (c :: rest) with
  | newline =>
    rw [if_pos (hnewline.1 hend)]
    rfl
  | full =>
    rw [if_neg fun hmem => LineEnd.noConfusion (hend.symm.trans (hnewline.2 hmem))]
    rfl
  | eof =>
    rw [if_neg fun hmem => LineEnd.noConfusion (hend.symm.trans (hnewline.2 hmem)), storeLine,
      if_neg hne.ne']
  | error => cases (lineEnd_eq_error hend).1

namespace RioT

/-- The calls on a reader, from its unread bytes on. The induction is on the calls; a line is taken
from the stream by each. -/
theorem readLines_of_valid {rp : RioT} (hvalid : rp.Valid) (hended : rp.ended = .eof) (room : ℕ)
    {bufs : List Bytes} (hbufs : ∀ buf ∈ bufs, room + 2 ≤ buf.length) :
    readLines (room + 2) rp bufs = some (storeLines (lines room rp.abs.stream) bufs) := by
  induction bufs generalizing rp with
  | nil =>
    rw [readLines, storeLines]
  | cons usrbuf bufs ih =>
    obtain ⟨hbuf, hbufs⟩ := List.forall_mem_cons.1 hbufs
    obtain ⟨rp', hvalid', habs, hread⟩ := readlineb_eq hvalid (Nat.succ_pos _) hbuf
    obtain ⟨rio', hline, hended', hstream⟩ := rioReadlineb_eq rp.abs usrbuf (room + 2)
    rw [hline] at habs hread
    have habsended : rp.abs.ended = .eof := hended
    have heof : rp'.ended = .eof := ((congrArg Rio.ended habs).trans hended').trans habsended
    rw [readLines, hread, Option.bind_some, ih hvalid' heof hbufs, Option.map_some, habs, hstream,
      habsended, Nat.add_sub_assoc (by decide)]
    cases rp.abs.stream with
    | nil =>
      have hlines : lines room [] = [] := by rw [lines]
      rw [List.drop_nil, hlines, storeLines]
      rfl
    | cons c rest =>
      rw [lines, storeLines, storeLine_lineOf]

end RioT

/-- **Line reading does not depend on the pieces of the stream.** Successive calls of
`rio_readlineb` store the lines of the stream, each with a NUL, and then nothing. The lines are cut
at newlines and at `maxlen - 1` bytes, and together they are the stream. -/
theorem readLines_eq {maxlen : ℕ} (hmaxlen : 2 ≤ maxlen) {connection : Connection}
    (hended : connection.ended = .eof) {rioBuf : Bytes} (hsize : rioBuf.length = rioBufsize)
    {bufs : List Bytes} (hbufs : ∀ buf ∈ bufs, maxlen ≤ buf.length) :
    let stored := lines (maxlen - 2) connection.stream
    RioT.readLines maxlen (RioT.readinitb rioBuf connection) bufs = some (storeLines stored bufs) ∧
      stored.flatten = connection.stream ∧
      ∀ before line after, stored = before ++ line :: after → IsCut (maxlen - 1) line after := by
  obtain ⟨room, rfl⟩ : ∃ room, maxlen = room + 2 := ⟨maxlen - 2, by omega⟩
  refine ⟨?_, flatten_lines _ _, isCut_of_lines _ _⟩
  exact RioT.readLines_of_valid (RioT.readinitb_valid hsize connection) hended _ hbufs

/-- A stream in two pieces, with nothing to read in between. -/
def twoPieces : Connection where
  recvs := [.data ⟨[97, 98], by decide, by decide⟩, .again,
    .data ⟨[99, 100, 10, 101], by decide, by decide⟩]
  ended := .eof

/-- Five calls with a buffer of four bytes. -/
theorem readLines_twoPieces :
    RioT.readLines 4 (RioT.readinitb (List.replicate 256 7) twoPieces)
      (List.replicate 5 [1, 2, 3, 4]) =
    some [(4, [97, 98, 99, 0]), (2, [100, 10, 0, 4]), (2, [101, 0, 3, 4]), (0, [1, 2, 3, 4]),
      (0, [1, 2, 3, 4])] := by
  have hlines : lines 2 twoPieces.stream = [[97, 98, 99], [100, 10], [101]] := by
    simp [lines, lineOf, Connection.stream, Recv.stream, twoPieces, newline]
  have hread := (@readLines_eq 4 (by decide) twoPieces rfl (List.replicate 256 7)
    List.length_replicate (List.replicate 5 [1, 2, 3, 4]) (by decide)).1
  rw [hlines] at hread
  exact hread

end RbProtocol.Web
