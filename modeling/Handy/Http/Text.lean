import Handy.Codec.Model
import Mathlib.Data.List.DropRight

/-! # Cutting text

The cursor functions of `Slice` and the C functions under them, in the default
locale. A slice that a function advances is returned as the bytes left of it.
-/

namespace Handy

/-- `isspace`. -/
def isspace (c : UInt8) : Bool := c == 0x20 || (0x09 ≤ c && c ≤ 0x0d)

/-- `isdigit`. -/
def isdigit (c : UInt8) : Bool := 0x30 ≤ c && c ≤ 0x39

/-- `tolower`. -/
def tolower (c : UInt8) : UInt8 := if 0x41 ≤ c ∧ c ≤ 0x5a then c + 0x20 else c

/-- Not a character `eatLine` stops at. -/
def inLine (c : UInt8) : Bool := c != 0x0a && c != 0x0d

namespace Slice

/-- `Slice::eatWord`: the word, and what is left behind it. -/
def eatWord (s : Bytes) : Bytes × Bytes :=
  let b := s.dropWhile isspace
  (b.takeWhile (!isspace ·), b.dropWhile (!isspace ·))

/-- `Slice::eatLine`: the line, and what is left from its end on. -/
def eatLine (s : Bytes) : Bytes × Bytes := (s.takeWhile inLine, s.dropWhile inLine)

/-- `Slice::trimSpace`. -/
def trimSpace (s : Bytes) : Bytes := (s.dropWhile isspace).rdropWhile isspace

end Slice

/-! ## Numbers -/

/-- The digits at the front, read as a decimal number. -/
def digits (s : Bytes) : Nat :=
  (s.takeWhile isdigit).foldl (fun n c => 10 * n + (c.toNat - 0x30)) 0

/-- `strtol` in base ten: white space, a sign, digits, and `LONG_MAX` or
`LONG_MIN` when they are out of range. -/
def strtol (s : Bytes) : Int :=
  match s.dropWhile isspace with
  | 0x2d :: s => max (-2 ^ 63) (-(digits s : Int))
  | 0x2b :: s => min (2 ^ 63 - 1) (digits s)
  | s => min (2 ^ 63 - 1) (digits s)

/-- `atoi`: `strtol` converted to an `int` of 32 bits. -/
def atoi (s : Bytes) : Int := (strtol s).bmod (2 ^ 32)

/-- An `int` converted to `size_t`. -/
def toSize (v : Int) : Nat := (v % 2 ^ 64).toNat

/-- A `size_t` that is added to a pointer. -/
def toDiff (n : Nat) : Int := if n < 2 ^ 63 then n else (n : Int) - 2 ^ 64

theorem atoi_range (s : Bytes) : -2 ^ 31 ≤ atoi s ∧ atoi s < 2 ^ 31 := by
  have h1 := Int.le_bmod (x := strtol s) (m := 2 ^ 32) (by decide)
  have h2 := Int.bmod_lt (x := strtol s) (m := 2 ^ 32) (by decide)
  unfold atoi
  omega

theorem toSize_of_nonneg {v : Int} (h : 0 ≤ v) (hlt : v < 2 ^ 31) : (toSize v : Int) = v := by
  unfold toSize
  omega

theorem toSize_of_neg {v : Int} (h : v < 0) (hle : -2 ^ 31 ≤ v) :
    (toSize v : Int) = 2 ^ 64 + v := by
  unfold toSize
  omega

example : atoi [0x20, 0x2d, 0x31, 0x32, 0x78] = -12 := by decide +kernel

/-! ## Words and lines -/

namespace Slice

theorem eatLine_append (s : Bytes) : (eatLine s).1 ++ (eatLine s).2 = s :=
  List.takeWhile_append_dropWhile

theorem length_eatLine (s : Bytes) : (eatLine s).2.length ≤ s.length :=
  (List.dropWhile_suffix inLine).length_le

theorem eatWord_append (s : Bytes) :
    s.takeWhile isspace ++ (eatWord s).1 ++ (eatWord s).2 = s := by
  unfold eatWord
  rw [List.append_assoc, List.takeWhile_append_dropWhile, List.takeWhile_append_dropWhile]

/-- The first line is empty exactly when the text begins with a line end. -/
theorem eatLine_eq_nil (c : UInt8) (s : Bytes) :
    (eatLine (c :: s)).1 = [] ↔ c = 0x0a ∨ c = 0x0d := by
  unfold eatLine inLine
  rw [List.takeWhile_cons]
  split
  · next h =>
      simp only [Bool.and_eq_true, bne_iff_ne, ne_eq] at h
      simp [h]
  · next h =>
      simp only [Bool.and_eq_true, bne_iff_ne, ne_eq, not_and_or, not_not] at h
      simp [h]

end Slice

end Handy
