import RbProtocol.Library.Buffer
import RbProtocol.Foundations.PercentEncoding
import RbProtocol.Web.ParseRequest

/-!
# Decoding the path of a request

`url_decode` with every access checked: its source is a string with its NUL, and nothing behind it;
its destination are the cells of `filename`. At a percent sign it takes the next two bytes without
a look at them, and goes on behind them, also when the string ends there.

* `urlDecodesExactly_iff`: it stays within both arrays and writes the working directory, a slash and
  as much of the decoded path as fits, if and only if every percent sign that it comes to has two
  hexadecimal digits behind it.
* `urlDecode_of_checked`: then the result of `urlDecode` does not depend on what lies behind the
  NUL.
-/

namespace RbProtocol.Web

open Ascii Library

/-! ## The code -/

/-- The loop of `url_decode` and the NUL behind it, over at most `room` characters: `p` is an offset
in `src` and `d` one in `dest`. An access outside of them is `none`. -/
def urlDecodeLoop? (src : Bytes) : ℕ → ℕ → Bytes → ℕ → Option Bytes
  | 0, p, dest, d => src[p]?.bind fun _ => writeAt? dest d [0]
  | room + 1, p, dest, d =>
    src[p]?.bind fun c =>
      if c = 0 then writeAt? dest d [0]
      else if c = percent then
        (readAt? src (p + 1) 2).bind fun code =>
          (writeAt? dest d [UInt8.ofNat (strtoulHex (cstr code))]).bind fun dest =>
            urlDecodeLoop? src room (p + 3) dest (d + 1)
      else (writeAt? dest d [c]).bind fun dest => urlDecodeLoop? src room (p + 1) dest (d + 1)

/-- `url_decode`: the cells of `dest` at the end. -/
def urlDecode? (server : WebServer) (src dest : Bytes) (max : ℕ) : Option Bytes :=
  let folder := server.workingDirectory ++ [slash]
  (writeAt? dest 0 (folder.take (filenameSize - 1) ++ [0])).bind fun dest =>
    urlDecodeLoop? src (max - folder.length - 1) 0 dest folder.length

/-! ## The property -/

/-- The characters of a path that fit behind the working directory and a slash. -/
def pathRoom (server : WebServer) : ℕ := filenameSize - 2 - server.workingDirectory.length

/-- The working directory, a slash and as much of the decoded path as fits. -/
def decodedFilename (server : WebServer) (src : Bytes) : Bytes :=
  server.workingDirectory ++ slash :: (percentDecode src).take (pathRoom server)

/-- **The path is decoded exactly**: without an access outside of the two arrays, `dest` holds the
decoded file name and a NUL, and behind it what it held before. -/
def UrlDecodesExactly (server : WebServer) (src dest : Bytes) : Prop :=
  urlDecode? server (src ++ [0]) dest filenameSize =
    some (decodedFilename server src ++ 0 :: dest.drop ((decodedFilename server src).length + 1))

/-- Every percent sign that is met while at most `room` characters are written has two hexadecimal
digits behind it. -/
def EscapesWithin : ℕ → Bytes → Prop
  | 0, _ => True
  | _ + 1, [] => True
  | room + 1, c :: src =>
    if c = percent then
      match src with
      | a :: b :: src => isHexDigit a ∧ isHexDigit b ∧ EscapesWithin room src
      | _ => False
    else EscapesWithin room src

instance decidableEscapesWithin : ∀ (room : ℕ) (src : Bytes), Decidable (EscapesWithin room src)
  | 0, _ => inferInstanceAs (Decidable True)
  | _ + 1, [] => inferInstanceAs (Decidable True)
  | room + 1, c :: src =>
    if hc : c = percent then
      match src with
      | [] | [_] => isFalse (by simp [EscapesWithin, hc])
      | a :: b :: src =>
        have := decidableEscapesWithin room src
        decidable_of_iff (isHexDigit a ∧ isHexDigit b ∧ EscapesWithin room src)
          (by simp [EscapesWithin, hc])
    else
      have := decidableEscapesWithin room src
      decidable_of_iff (EscapesWithin room src) (by simp [EscapesWithin, hc])

/-! ## What the loop writes -/

/-- The characters that the loop writes for a string, `none` if it comes to read behind it. -/
def decodedWithin : ℕ → Bytes → Option Bytes
  | 0, _ => some []
  | _ + 1, [] => some []
  | room + 1, c :: src =>
    if c = percent then
      match src with
      | a :: b :: src =>
        (decodedWithin room src).map (UInt8.ofNat (strtoulHex (cstr [a, b])) :: ·)
      | _ => none
    else (decodedWithin room src).map (c :: ·)

section Loop

variable {room : ℕ} {src : Bytes}

@[simp] theorem decodedWithin_zero (src : Bytes) : decodedWithin 0 src = some [] := by
  rw [decodedWithin]

@[simp] theorem decodedWithin_nil (room : ℕ) : decodedWithin room [] = some [] := by
  cases room <;> rw [decodedWithin]

theorem decodedWithin_escape (a b : UInt8) (src : Bytes) :
    decodedWithin (room + 1) (percent :: a :: b :: src) =
      (decodedWithin room src).map (UInt8.ofNat (strtoulHex (cstr [a, b])) :: ·) := by
  rw [decodedWithin, if_pos rfl]

theorem decodedWithin_cons {c : UInt8} (h : c ≠ percent) (src : Bytes) :
    decodedWithin (room + 1) (c :: src) = (decodedWithin room src).map (c :: ·) := by
  rw [decodedWithin.eq_def]
  simp only [if_neg h]

/-- Writing a cell behind those that are written. -/
theorem writeAt?_next (written : Bytes) (c x : UInt8) (pad : Bytes) :
    writeAt? (written ++ x :: pad) written.length [c] = some (written ++ [c] ++ pad) := by
  have hwrite := @writeAt?_append _ [x] [c] written pad rfl
  rwa [List.singleton_append, ← List.append_assoc] at hwrite

/-- The NUL at the end. -/
theorem writeAt?_nul (written : Bytes) {pad : Bytes} (h : pad ≠ []) :
    writeAt? (written ++ pad) written.length [0] = some (written ++ ([] ++ 0 :: pad.drop 1)) := by
  obtain ⟨x, pad, rfl⟩ := List.exists_cons_of_ne_nil h
  rw [writeAt?_next, List.append_assoc]
  rfl

/-- **The loop writes these characters and a NUL**, and reads behind the string if there are
none. -/
theorem urlDecodeLoop?_eq (front : Bytes) {written pad : Bytes} (hsrc : 0 ∉ src)
    (hpad : room < pad.length) :
    urlDecodeLoop? (front ++ (src ++ [0])) room front.length (written ++ pad) written.length =
      (decodedWithin room src).map fun out =>
        written ++ (out ++ 0 :: pad.drop (out.length + 1)) := by
  have hne : pad ≠ [] := List.length_pos_iff.1 (Nat.zero_lt_of_lt hpad)
  have hnul := writeAt?_nul written hne
  induction room generalizing front src written pad with
  | zero =>
    rw [decodedWithin_zero, Option.map_some, urlDecodeLoop?, hnul]
    cases src <;> simp
  | succ room ih =>
    rcases src with _ | ⟨c, src⟩
    · simp [urlDecodeLoop?, hnul]
    obtain ⟨hc, hsrc⟩ := not_or.1 (List.mem_cons.not.1 hsrc)
    obtain ⟨x, pad, rfl⟩ := List.exists_cons_of_ne_nil hne
    have hread : (front ++ (c :: src ++ [0]))[front.length]? = some c := by simp
    have hc0 : ¬c = 0 := fun heq => hc heq.symm
    have hroom : room < pad.length := Nat.lt_of_succ_lt_succ hpad
    have hpad' : pad ≠ [] := List.length_pos_iff.1 (Nat.zero_lt_of_lt hroom)
    rw [urlDecodeLoop?, hread, Option.bind_some, if_neg hc0]
    by_cases hpercent : c = percent
    · subst hpercent
      rw [if_pos rfl]
      rcases src with _ | ⟨a, _ | ⟨b, src⟩⟩
      · -- the second byte of the escape is behind the NUL
        simp [readAt?, decodedWithin]
      · -- the loop goes on behind the NUL
        have hcode : (readAt? (front ++ ([percent, a] ++ [0])) (front.length + 1) 2).isSome := by
          simp [readAt?]
        obtain ⟨code, hcode⟩ := Option.isSome_iff_exists.1 hcode
        rw [hcode, Option.bind_some, writeAt?_next, Option.bind_some]
        cases room <;> simp [urlDecodeLoop?, decodedWithin]
      · have hcode : readAt? (front ++ (percent :: a :: b :: src ++ [0])) (front.length + 1) 2 =
            some [a, b] := by
          have hfront := readAt?_append (front ++ [percent]) [a, b] (src ++ [0])
          simpa using hfront
        have hnext := @ih src (front ++ [percent, a, b])
          (written ++ [UInt8.ofNat (strtoulHex (cstr [a, b]))]) pad
          (fun h => hsrc (by simp [h])) hroom hpad' (writeAt?_nul _ hpad')
        rw [hcode, Option.bind_some, writeAt?_next, Option.bind_some, decodedWithin_escape]
        simp only [List.append_assoc, List.length_append, List.length_cons, List.length_nil]
          at hnext
        simpa [Function.comp_def] using hnext
    · have hnext := @ih src (front ++ [c]) (written ++ [c]) pad hsrc hroom hpad'
        (writeAt?_nul _ hpad')
      rw [if_neg hpercent, writeAt?_next, Option.bind_some, decodedWithin_cons hpercent]
      simpa [Function.comp_def] using hnext

/-! ## When the characters are the decoded ones -/

theorem escapesWithin_escape (a b : UInt8) (src : Bytes) :
    EscapesWithin (room + 1) (percent :: a :: b :: src) ↔
      (isHexDigit a = true ∧ isHexDigit b = true) ∧ EscapesWithin room src := by
  simp [EscapesWithin, and_assoc]

theorem escapesWithin_cons {c : UInt8} (h : c ≠ percent) (src : Bytes) :
    EscapesWithin (room + 1) (c :: src) ↔ EscapesWithin room src := by
  simp [EscapesWithin, h]

/-- A text has another character where the decoded text has a percent sign. -/
def Departs (out text : Bytes) : Prop :=
  ∃ u c v w, c ≠ percent ∧ out = u ++ c :: v ∧ text = u ++ percent :: w

theorem Departs.cons {out text : Bytes} (h : Departs out text) (c : UInt8) :
    Departs (c :: out) (c :: text) := by
  obtain ⟨u, d, v, w, hd, rfl, rfl⟩ := h
  exact ⟨c :: u, d, v, w, hd, rfl, rfl⟩

/-- **The loop writes the decoded text** if the escapes that it comes to are complete. -/
theorem decodedWithin_of_escapes (h : EscapesWithin room src) :
    decodedWithin room src = some ((percentDecode src).take room) := by
  induction room generalizing src with
  | zero => rw [decodedWithin_zero, List.take_zero]
  | succ room ih =>
    rcases src with _ | ⟨c, src⟩
    · exact decodedWithin_nil _
    by_cases hpercent : c = percent
    · subst hpercent
      rcases src with _ | ⟨a, _ | ⟨b, src⟩⟩
      · simp [EscapesWithin] at h
      · simp [EscapesWithin] at h
      · obtain ⟨⟨ha, hb⟩, h⟩ := (escapesWithin_escape a b src).1 h
        rw [decodedWithin_escape, ih h, percentDecode_escape ha hb, strtoulHex_digits ha hb]
        rfl
    · rw [decodedWithin_cons hpercent, ih ((escapesWithin_cons hpercent src).1 h),
        percentDecode_cons_of_ne hpercent]
      rfl

/-- At the first other percent sign the loop departs from the decoded text. -/
theorem departs_of_not_escapes {out : Bytes} (h : ¬EscapesWithin room src)
    (hout : decodedWithin room src = some out) : Departs out ((percentDecode src).take room) := by
  induction room generalizing src out with
  | zero => exact absurd trivial h
  | succ room ih =>
    rcases src with _ | ⟨c, src⟩
    · exact absurd trivial h
    by_cases hpercent : c = percent
    · subst hpercent
      rcases src with _ | ⟨a, _ | ⟨b, src⟩⟩
      · simp [decodedWithin] at hout
      · simp [decodedWithin] at hout
      rw [decodedWithin_escape] at hout
      obtain ⟨out, hrest, rfl⟩ := Option.map_eq_some_iff.1 hout
      by_cases hhex : isHexDigit a = true ∧ isHexDigit b = true
      · rw [escapesWithin_escape, and_iff_right hhex] at h
        rw [percentDecode_escape hhex.1 hhex.2, strtoulHex_digits hhex.1 hhex.2]
        exact (ih h hrest).cons _
      · rw [percentDecode_cons_of_not_escape hhex]
        exact ⟨[], _, out, _, strtoulHex_ne_percent hhex, rfl, rfl⟩
    · rw [decodedWithin_cons hpercent] at hout
      obtain ⟨out, hrest, rfl⟩ := Option.map_eq_some_iff.1 hout
      rw [percentDecode_cons_of_ne hpercent]
      exact (ih (fun hrest => h ((escapesWithin_cons hpercent src).2 hrest)) hrest).cons c

end Loop

section UrlDecode

variable (server : WebServer) {src dest : Bytes}

/-- The cells that `url_decode` leaves: those of a text and a NUL, and what was there behind. -/
theorem urlDecode?_eq (hsrc : 0 ∉ src) (hdest : dest.length = filenameSize)
    (hdir : server.workingDirectory.length ≤ 62) :
    urlDecode? server (src ++ [0]) dest filenameSize =
      (decodedWithin (pathRoom server) src).map fun out =>
        let text := server.workingDirectory ++ slash :: out
        text ++ 0 :: dest.drop (text.length + 1) := by
  obtain ⟨folder, hfolder⟩ : ∃ l, l = server.workingDirectory ++ [slash] := ⟨_, rfl⟩
  have hlength : folder.length = server.workingDirectory.length + 1 := by
    rw [hfolder, List.length_append]
    rfl
  have htake : folder.take (filenameSize - 1) = folder :=
    List.take_of_length_le (by rw [hlength, filenameSize]; omega)
  have hwrite : writeAt? dest 0 (folder ++ [0]) =
      some (folder ++ 0 :: dest.drop (folder.length + 1)) := by
    rw [writeAt?, if_pos (by simp [hlength, hdest, filenameSize]; omega)]
    simp
  have hroom : filenameSize - folder.length - 1 = pathRoom server := by
    rw [hlength, pathRoom]
    omega
  have hpad : pathRoom server < (0 :: dest.drop (folder.length + 1)).length := by
    rw [List.length_cons, List.length_drop, hdest, hlength, pathRoom, filenameSize]
    omega
  have hloop := @urlDecodeLoop?_eq (pathRoom server) src [] folder _ hsrc hpad
  rw [urlDecode?, ← hfolder, htake, hwrite, hroom]
  refine hloop.trans (congrArg (Option.map · _) (funext fun out => ?_))
  simp [hfolder, Nat.add_comm, Nat.add_left_comm]

/-- **The path is decoded exactly** if and only if every percent sign that `url_decode` comes to is
followed by two hexadecimal digits. -/
theorem urlDecodesExactly_iff (hsrc : 0 ∉ src) (hdest : dest.length = filenameSize)
    (hdir : server.workingDirectory.length ≤ 62) :
    UrlDecodesExactly server src dest ↔ EscapesWithin (pathRoom server) src := by
  rw [UrlDecodesExactly, urlDecode?_eq server hsrc hdest hdir]
  constructor
  · intro h
    by_contra hnot
    obtain ⟨out, hout, hcells⟩ := Option.map_eq_some_iff.1 h
    obtain ⟨u, c, v, w, hc, rfl, htext⟩ := departs_of_not_escapes hnot hout
    rw [decodedFilename, htext] at hcells
    simp only [List.append_assoc, List.cons_append, List.append_cancel_left_eq, List.cons.injEq,
      true_and] at hcells
    exact hc hcells.1
  · intro h
    rw [decodedWithin_of_escapes h]
    rfl

/-- A path with an escape that is complete. -/
theorem urlDecodesExactly_space :
    UrlDecodesExactly ⟨literal "/data", literal "robot"⟩ (literal "a%20b") (List.replicate 64 0) :=
  (urlDecodesExactly_iff _ (by decide) (by decide) (by decide)).2 (by decide)

/-- The path `"a%"`: the second byte of the escape is behind the NUL. -/
theorem not_urlDecodesExactly_percent :
    ¬UrlDecodesExactly ⟨literal "/data", literal "robot"⟩ (literal "a%") (List.replicate 64 0) := by
  intro h
  have hnone : urlDecode? ⟨literal "/data", literal "robot"⟩ (literal "a%" ++ [0])
      (List.replicate 64 0) filenameSize = none := by decide +kernel
  rw [UrlDecodesExactly, hnone] at h
  cases h

/-! ## What lies behind the NUL -/

theorem urlDecodeLoop_of_decodedWithin {room : ℕ} {out : Bytes} (hsrc : 0 ∉ src)
    (h : decodedWithin room src = some out) (garbage : Bytes) :
    urlDecodeLoop room (src ++ 0 :: garbage) = out := by
  induction room generalizing src out with
  | zero =>
    rw [decodedWithin_zero] at h
    rw [urlDecodeLoop, Option.some.inj h]
  | succ room ih =>
    rcases src with _ | ⟨c, src⟩
    · rw [decodedWithin_nil] at h
      simpa [urlDecodeLoop] using h
    obtain ⟨hc, hsrc⟩ := not_or.1 (List.mem_cons.not.1 hsrc)
    have hc0 : ¬c = 0 := fun heq => hc heq.symm
    rw [List.cons_append, urlDecodeLoop, List.headD_cons, if_neg hc0, List.tail_cons]
    by_cases hpercent : c = percent
    · subst hpercent
      rcases src with _ | ⟨a, _ | ⟨b, src⟩⟩
      · simp [decodedWithin] at h
      · simp [decodedWithin] at h
      rw [decodedWithin_escape] at h
      obtain ⟨out, hout, rfl⟩ := Option.map_eq_some_iff.1 h
      rw [if_pos rfl]
      exact congrArg (_ :: ·) (ih (fun hmem => hsrc (by simp [hmem])) hout)
    · rw [decodedWithin_cons hpercent] at h
      obtain ⟨out, hout, rfl⟩ := Option.map_eq_some_iff.1 h
      rw [if_neg hpercent]
      exact congrArg (c :: ·) (ih hsrc hout)

/-- **Within its arrays `url_decode` does not depend on what lies behind the NUL.** -/
theorem urlDecode_of_checked {cells : Bytes} (hsrc : 0 ∉ src) (hdest : dest.length = filenameSize)
    (hdir : server.workingDirectory.length ≤ 62)
    (h : urlDecode? server (src ++ [0]) dest filenameSize = some cells) (garbage : Bytes) :
    let text := urlDecode server (src ++ 0 :: garbage) filenameSize
    cells = text ++ 0 :: dest.drop (text.length + 1) := by
  rw [urlDecode?_eq server hsrc hdest hdir] at h
  obtain ⟨out, hout, rfl⟩ := Option.map_eq_some_iff.1 h
  have hroom : filenameSize - (server.workingDirectory ++ [slash]).length - 1 =
      pathRoom server := by
    rw [List.length_append, List.length_singleton, pathRoom]
    omega
  have htext : urlDecode server (src ++ 0 :: garbage) filenameSize =
      server.workingDirectory ++ slash :: out := by
    rw [urlDecode, hroom, urlDecodeLoop_of_decodedWithin hsrc hout, List.append_assoc]
    rfl
  rw [htext]

end UrlDecode

end RbProtocol.Web
