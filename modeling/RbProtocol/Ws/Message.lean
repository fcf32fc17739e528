import RbProtocol.Library.Framing
import RbProtocol.Foundations.Network
import RbProtocol.Ws.Client

/-!
# WebSocket messages

A message is a list of fragments, each with its masking key and its form of the length. On the
stream it is a masked text frame followed by masked continuation frames, the last of which has the
FIN flag (`Message.encode`).

Masking twice with the same key gives the data back, also from any multiple of four bytes on
(`drop_unmask`), which is what the decoder relies on when it restarts the key in every chunk.
-/

namespace RbProtocol.Ws

/-! ## Masking -/

@[simp] theorem length_unmask (key data : Bytes) : (unmask key data).length = data.length :=
  List.length_mapIdx

theorem getElem?_unmask (key data : Bytes) (i : ℕ) :
    (unmask key data)[i]? = data[i]?.map fun b => b ^^^ key.getD (i % 4) 0 := by
  rw [unmask, List.getElem?_mapIdx]

/-- Masking is its own inverse. -/
@[simp] theorem unmask_unmask (key data : Bytes) : unmask key (unmask key data) = data := by
  ext1 i
  rw [getElem?_unmask, getElem?_unmask, Option.map_map]
  refine (Option.map_congr fun b _ => ?_).trans Option.map_id'
  rw [Function.comp_apply, UInt8.xor_assoc, UInt8.xor_self, UInt8.xor_zero]

/-- **The key starts again at each multiple of four bytes.** -/
theorem drop_unmask (key data : Bytes) {k : ℕ} (hk : 4 ∣ k) :
    (unmask key data).drop k = unmask key (data.drop k) := by
  ext1 i
  rw [List.getElem?_drop, getElem?_unmask, getElem?_unmask, List.getElem?_drop]
  have hmod : (k + i) % 4 = i % 4 := by omega
  rw [hmod]

theorem take_unmask (key data : Bytes) (n : ℕ) :
    (unmask key data).take n = unmask key (data.take n) := by
  ext1 i
  rw [List.getElem?_take, getElem?_unmask, getElem?_unmask, List.getElem?_take]
  split_ifs <;> rfl

/-! ## Frames -/

/-- A fragment of a message: the masking key, the data and the form of the length, which is 16 bits
wide or 7. -/
structure Fragment where
  key : Bytes
  data : Bytes
  wide : Bool
  key_length : key.length = 4
  data_length : data.length ≤ if wide then 65535 else 125

namespace Fragment

/-- The first byte of a frame. -/
def flags (first last : Bool) : UInt8 :=
  (if last then 0x80 else 0) ||| if first then opcodeText else opcodeContinue

/-- The 7 bits of the length in the second byte. -/
def len0 (f : Fragment) : ℕ := if f.wide then 126 else f.data.length

/-- The two bytes at the start of a frame. -/
def header (f : Fragment) (first last : Bool) : Bytes :=
  [flags first last, 0x80 ||| UInt8.ofNat f.len0]

/-- The data as it is sent. -/
def masked (f : Fragment) : Bytes := unmask f.key f.data

/-- The bytes of a frame behind its length. -/
def body (f : Fragment) : Bytes := f.key ++ f.masked

/-- A frame. -/
def encode (f : Fragment) (first last : Bool) : Bytes :=
  f.header first last ++ ((if f.wide then htons f.data.length else []) ++ f.body)

@[simp] theorem length_header (f : Fragment) (first last : Bool) :
    (f.header first last).length = 2 :=
  rfl

theorem data_length_lt (f : Fragment) : f.data.length < 2 ^ 16 := by
  have h := f.data_length
  split_ifs at h <;> omega

theorem data_length_le_of_not_wide {f : Fragment} (h : f.wide = false) : f.data.length ≤ 125 := by
  have hlen := f.data_length
  rw [h] at hlen
  exact hlen

end Fragment

/-! ## Messages -/

/-- The data of some fragments. -/
def dataOf (fs : List Fragment) : Bytes := fs.flatMap Fragment.data

/-- The frames of some fragments, the last ones of a message. -/
def encodeFragments (first : Bool) : List Fragment → Bytes
  | [] => []
  | f :: fs => f.encode first fs.isEmpty ++ encodeFragments false fs

/-- A message: at least one fragment, and at most 32768 bytes. -/
structure Message where
  fragments : List Fragment
  fragments_ne_nil : fragments ≠ []
  size_le : (dataOf fragments).length ≤ maxPayload

/-- The payload of a message. -/
def Message.payload (m : Message) : Bytes := dataOf m.fragments

/-- A message on the stream. -/
def Message.encode (m : Message) : Bytes := encodeFragments true m.fragments

/-- Messages one behind the other. -/
def encodeAll (ms : List Message) : Bytes := ms.flatMap Message.encode

/-- The messages of a stream that are complete in its first `n` bytes. -/
def completed : List Message → ℕ → List Message
  | [], _ => []
  | m :: ms, n => if m.encode.length ≤ n then m :: completed ms (n - m.encode.length) else []

@[simp] theorem encodeAll_cons (m : Message) (ms : List Message) :
    encodeAll (m :: ms) = m.encode ++ encodeAll ms := rfl

@[simp] theorem dataOf_cons (f : Fragment) (fs : List Fragment) :
    dataOf (f :: fs) = f.data ++ dataOf fs := rfl

theorem completed_eq (ms : List Message) (n : ℕ) :
    completed ms n = Library.completeUnits Message.encode ms n := by
  induction ms generalizing n with
  | nil => rfl
  | cons m ms ih => rw [completed, Library.completeUnits, ih]

/-- The complete messages are the first ones, as many as fit. -/
theorem completed_append (ms₁ ms₂ : List Message) (n : ℕ) :
    completed (ms₁ ++ ms₂) ((encodeAll ms₁).length + n) = ms₁ ++ completed ms₂ n := by
  rw [completed_eq, completed_eq]
  exact Library.completeUnits_append Message.encode ms₁ ms₂ n

end RbProtocol.Ws
