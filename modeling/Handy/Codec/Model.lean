import Handy.Net.Buffer
import Mathlib.Algebra.Group.Int.Defs
import Mathlib.Algebra.Group.Nat.Defs
import Mathlib.Data.List.Infix

/-! # The message codecs

`CodecBase` and its three implementations. A slice is kept as the two offsets
its pointers have in the block it was cut from, so that a negative length shows
as `pe < pb` instead of being rounded to an empty slice. Sizes that the source
narrows to `int` go through `toInt32`.
-/

namespace Handy

abbrev Bytes := List UInt8

/-- A `size_t` or `uint32_t` converted to a 32-bit `int`. -/
def toInt32 (n : Nat) : Int :=
  if n % 2 ^ 32 < 2 ^ 31 then (n % 2 ^ 32 : Nat) else (n % 2 ^ 32 : Nat) - 2 ^ 32

theorem toInt32_of_lt {n : Nat} (h : n < 2 ^ 31) : toInt32 n = n := by
  have hm : n % 2 ^ 32 = n := Nat.mod_eq_of_lt (by omega)
  rw [toInt32, hm, if_pos h]

theorem toInt32_le (n : Nat) : toInt32 n ≤ n := by
  unfold toInt32
  have h := Nat.mod_le n (2 ^ 32)
  split <;> omega

theorem toInt32_lt (n : Nat) : toInt32 n < 2 ^ 31 := by
  unfold toInt32
  split <;> omega

/-- `pb_` and `pe_` as offsets from the start of the block they point into. -/
structure Slice where
  pb : Int
  pe : Int
deriving DecidableEq, Repr

namespace Slice

/-- `Slice(const char *d, size_t n)`; `pe_` is `d + n`, also when `n` came from
a negative number. -/
def ofLen (d n : Int) : Slice := ⟨d, d + n⟩

/-- A slice no decoder has assigned. -/
def unset : Slice := ⟨0, 0⟩

/-- Well formed, and inside the first `r` bytes of the block. -/
def Within (s : Slice) (r : Int) : Prop := 0 ≤ s.pb ∧ s.pb ≤ s.pe ∧ s.pe ≤ r

instance (s : Slice) (r : Int) : Decidable (s.Within r) :=
  inferInstanceAs (Decidable (_ ∧ _ ∧ _))

/-- The bytes of a well-formed slice of `data`. -/
def read {α : Type} (s : Slice) (data : List α) : List α :=
  (data.drop s.pb.toNat).take (s.pe - s.pb).toNat

theorem read_ofLen {α : Type} (b n : Nat) (data : List α) :
    (ofLen b n).read data = (data.drop b).take n := by
  have hlen : ((b : Int) + n - b).toNat = n := by omega
  simp only [read, ofLen, hlen, Int.toNat_natCast]

end Slice

/-- `CodecBase`. A decoder returns its `int` and the slice left in `msg`; an
encoder appends one frame to the buffer it is given. -/
structure Codec (α : Type) where
  tryDecode : List α → Int × Slice
  encode : List α → Buffer α → Buffer α
  frame : List α → List α
  contents_encode : ∀ msg buf, (encode msg buf).contents = buf.contents ++ frame msg

/-- The interface comment of `tryDecode`: never more bytes than there are. -/
def Codec.Bounded {α : Type} (codec : Codec α) : Prop :=
  ∀ data, (codec.tryDecode data).1 ≤ data.length

/-- Every decoder but the length-prefixed one answers a lone `0x04` at once. -/
def isEot (data : Bytes) : Bool := data == [0x04]

/-! ## Lines -/

namespace LineCodec

/-- The `for` loop over `i`; the list is `data` from `i` on. -/
def scan (data : Bytes) : Nat → Bytes → Int × Slice
  | _, [] => (0, .unset)
  | i, c :: rest =>
      if c = 0x0a then
        if 0 < i ∧ data[i - 1]? = some 0x0d then
          (toInt32 (i + 1), .ofLen 0 (i - 1 : Nat))
        else (toInt32 (i + 1), .ofLen 0 i)
      else scan data (i + 1) rest

def tryDecode (data : Bytes) : Int × Slice :=
  if isEot data then (1, .ofLen 0 data.length) else scan data 0 data

def encode (msg : Bytes) (buf : Buffer UInt8) : Buffer UInt8 :=
  (buf.append msg).append [0x0d, 0x0a]

def codec : Codec UInt8 where
  tryDecode := tryDecode
  encode := encode
  frame msg := msg ++ [0x0d, 0x0a]
  contents_encode := by simp [encode]

end LineCodec

/-! ## Brackets -/

namespace BracketCodec

/-- The `for` loop over `i`; `i - 1` is `size_t` arithmetic but the loop only
reaches a closing bracket behind the opening one. -/
def scan : Nat → Bytes → Int × Slice
  | _, [] => (0, .unset)
  | i, c :: rest =>
      if c = 0x7d then (toInt32 (i + 1), .ofLen 1 ((i : Int) - 1)) else scan (i + 1) rest

def tryDecode (data : Bytes) : Int × Slice :=
  if isEot data then (1, .ofLen 0 data.length)
  else if data.length ≤ 2 then (0, .unset)
  else if data[0]? ≠ some 0x7b then (0, .unset)
  else scan 0 data

def encode (msg : Bytes) (buf : Buffer UInt8) : Buffer UInt8 :=
  ((buf.append [0x7b]).append msg).append [0x7d]

def codec : Codec UInt8 where
  tryDecode := tryDecode
  encode := encode
  frame msg := [0x7b] ++ msg ++ [0x7d]
  contents_encode := by simp [encode]

end BracketCodec

/-! ## Length prefix -/

/-- The four bytes a little-endian host keeps for a `uint32_t`. -/
def wordBytes (v : Nat) : Bytes :=
  [UInt8.ofNat v, UInt8.ofNat (v / 2 ^ 8), UInt8.ofNat (v / 2 ^ 16), UInt8.ofNat (v / 2 ^ 24)]

/-- A `uint32_t` read from memory, least significant byte first. -/
def loadWord : Bytes → Nat
  | a :: b :: c :: d :: _ =>
      a.toNat + 2 ^ 8 * b.toNat + 2 ^ 16 * c.toNat + 2 ^ 24 * d.toNat
  | _ => 0

/-- `port::htobe`: the bytes in memory, read most significant first. `hton` and
`ntoh` are both this. -/
def htobe (v : Nat) : Nat :=
  match wordBytes v with
  | a :: b :: c :: d :: _ =>
      2 ^ 24 * a.toNat + 2 ^ 16 * b.toNat + 2 ^ 8 * c.toNat + d.toNat
  | _ => 0

namespace LengthCodec

/-- `"mBdT"`. -/
def magic : Bytes := [0x6d, 0x42, 0x64, 0x54]

/-- `net::ntoh(*(int32_t *)(data.data() + 4))`. -/
def lengthField (data : Bytes) : Int := toInt32 (htobe (loadWord (data.drop 4)))

def tryDecode (data : Bytes) : Int × Slice :=
  if data.length < 8 then (0, .unset)
  else
    let len := lengthField data
    if 1024 * 1024 < len ∨ data.take 4 ≠ magic then (-1, .unset)
    else if len + 8 ≤ toInt32 data.length then (len + 8, .ofLen 8 len)
    else (0, .unset)

def encode (msg : Bytes) (buf : Buffer UInt8) : Buffer UInt8 :=
  ((buf.append magic).append (wordBytes (htobe (msg.length % 2 ^ 32)))).append msg

def codec : Codec UInt8 where
  tryDecode := tryDecode
  encode := encode
  frame msg := magic ++ wordBytes (htobe (msg.length % 2 ^ 32)) ++ msg
  contents_encode := by simp [encode]

end LengthCodec

/-- The three codecs of `codec.h`. -/
inductive CodecKind where
  | line
  | length
  | bracket
deriving DecidableEq, Repr

def CodecKind.codec : CodecKind → Codec UInt8
  | line => LineCodec.codec
  | length => LengthCodec.codec
  | bracket => BracketCodec.codec

/-! ## Byte order -/

theorem htobe_eq (v : Nat) :
    htobe v = 2 ^ 24 * (v % 2 ^ 8) + 2 ^ 16 * (v / 2 ^ 8 % 2 ^ 8) +
      2 ^ 8 * (v / 2 ^ 16 % 2 ^ 8) + v / 2 ^ 24 % 2 ^ 8 := by
  simp [htobe, wordBytes]

theorem loadWord_wordBytes_append (v : Nat) (h : v < 2 ^ 32) (rest : Bytes) :
    loadWord (wordBytes v ++ rest) = v := by
  simp only [wordBytes, List.cons_append, List.nil_append, loadWord, UInt8.toNat_ofNat']
  omega

/-- A word is read from its four bytes and no further. -/
theorem loadWord_append {x : Bytes} (h : 4 ≤ x.length) (t : Bytes) :
    loadWord (x ++ t) = loadWord x := by
  rcases x with _ | ⟨a, _ | ⟨b, _ | ⟨c, _ | ⟨d, x⟩⟩⟩⟩
  · simp at h
  · simp at h
  · simp at h
  · simp at h
  · rfl

theorem htobe_lt (v : Nat) : htobe v < 2 ^ 32 := by
  rw [htobe_eq]
  omega

theorem htobe_digits {a b c d : Nat} (ha : a < 2 ^ 8) (hb : b < 2 ^ 8) (hc : c < 2 ^ 8)
    (hd : d < 2 ^ 8) : htobe (a + 2 ^ 8 * b + 2 ^ 16 * c + 2 ^ 24 * d) =
      d + 2 ^ 8 * c + 2 ^ 16 * b + 2 ^ 24 * a := by
  have h0 : (a + 2 ^ 8 * b + 2 ^ 16 * c + 2 ^ 24 * d) % 2 ^ 8 = a := by omega
  have h1 : (a + 2 ^ 8 * b + 2 ^ 16 * c + 2 ^ 24 * d) / 2 ^ 8 % 2 ^ 8 = b := by omega
  have h2 : (a + 2 ^ 8 * b + 2 ^ 16 * c + 2 ^ 24 * d) / 2 ^ 16 % 2 ^ 8 = c := by omega
  have h3 : (a + 2 ^ 8 * b + 2 ^ 16 * c + 2 ^ 24 * d) / 2 ^ 24 % 2 ^ 8 = d := by omega
  rw [htobe_eq, h0, h1, h2, h3]
  omega

theorem htobe_htobe (v : Nat) (h : v < 2 ^ 32) : htobe (htobe v) = v := by
  have hv : v = v % 2 ^ 8 + 2 ^ 8 * (v / 2 ^ 8 % 2 ^ 8) + 2 ^ 16 * (v / 2 ^ 16 % 2 ^ 8) +
      2 ^ 24 * (v / 2 ^ 24 % 2 ^ 8) := by omega
  have ha : v % 2 ^ 8 < 2 ^ 8 := Nat.mod_lt _ (by decide)
  have hb : v / 2 ^ 8 % 2 ^ 8 < 2 ^ 8 := Nat.mod_lt _ (by decide)
  have hc : v / 2 ^ 16 % 2 ^ 8 < 2 ^ 8 := Nat.mod_lt _ (by decide)
  have hd : v / 2 ^ 24 % 2 ^ 8 < 2 ^ 8 := Nat.mod_lt _ (by decide)
  calc
    htobe (htobe v) = htobe (v / 2 ^ 24 % 2 ^ 8 + 2 ^ 8 * (v / 2 ^ 16 % 2 ^ 8) +
        2 ^ 16 * (v / 2 ^ 8 % 2 ^ 8) + 2 ^ 24 * (v % 2 ^ 8)) := by
      rw [← htobe_digits ha hb hc hd, ← hv]
    _ = v := by rw [htobe_digits hd hc hb ha, ← hv]

end Handy
