import Handy.Http.Text
import Handy.Lib.Cut

/-! # Scanning a line of a configuration file

`LineScanner` goes over a line that ends with a zero: `p` is the text from the pointer up
to that zero, so that the end of the text is the zero. Once `err` is set the scanner reads
nothing more, also where `match` has stepped over the zero.
-/

namespace Handy

structure LineScanner where
  p : Bytes
  err : Bool
deriving DecidableEq, Repr

namespace LineScanner

/-- `rstrip`, on the text between the two pointers. -/
def rstrip (s : Bytes) : Bytes := s.rdropWhile isspace

/-- The text a `while (!err && ..)` loop goes over. -/
def stretch (ls : LineScanner) (test : UInt8 → Bool) : Bytes :=
  if ls.err then [] else ls.p.takeWhile test

def skip (ls : LineScanner) (i : Nat) : LineScanner := { ls with p := ls.p.drop i }

def skipSpaces (ls : LineScanner) : LineScanner := ls.skip (ls.stretch isspace).length

/-- `*p` behind the spaces; `none` is the zero. -/
def peekChar (ls : LineScanner) : LineScanner × Option UInt8 :=
  let ls := ls.skipSpaces
  (ls, ls.p.head?)

/-- `match`. -/
def matchChar (ls : LineScanner) (c : UInt8) : LineScanner :=
  let ls := ls.skipSpaces
  { p := ls.p.tail, err := ls.p.head? != some c }

/-- `consumeTill`; `none` is the zero. -/
def consumeTill (ls : LineScanner) (c : Option UInt8) : LineScanner × Bytes :=
  let ls := ls.skipSpaces
  let text := ls.stretch fun b => some b != c
  let e := ls.p.drop text.length
  if e.head? ≠ c then ({ ls with err := true }, []) else ({ ls with p := e }, rstrip text)

/-- The `while` loop of `consumeTillEnd`: what it goes over. -/
def tillEnd : Bool → Bytes → Bytes
  | _, [] => []
  | wasspace, c :: rest =>
      if c = 0x3b ∨ c = 0x23 then []
      else if wasspace then []
      else c :: tillEnd (isspace c) rest

def consumeTillEnd (ls : LineScanner) : LineScanner × Bytes :=
  let ls := ls.skipSpaces
  let text := if ls.err then [] else tillEnd false ls.p
  (ls.skip text.length, rstrip text)

/-! ## Scanners without an error -/

section Fine

variable (p : Bytes)

theorem skipSpaces_fine : skipSpaces ⟨p, false⟩ = ⟨p.dropWhile isspace, false⟩ := by
  rw [skipSpaces, skip, stretch, if_neg Bool.false_ne_true, Cut.drop_takeWhile]

theorem peekChar_fine :
    peekChar ⟨p, false⟩ = (⟨p.dropWhile isspace, false⟩, (p.dropWhile isspace).head?) := by
  rw [peekChar, skipSpaces_fine]

theorem peekChar_err : peekChar ⟨p, true⟩ = (⟨p, true⟩, p.head?) := rfl

theorem matchChar_err (c : UInt8) : matchChar ⟨p, true⟩ c = ⟨p.tail, p.head? != some c⟩ := rfl

theorem consumeTillEnd_err : consumeTillEnd ⟨p, true⟩ = (⟨p, true⟩, []) := rfl

theorem consumeTill_fine (c : Option UInt8) :
    consumeTill ⟨p, false⟩ c =
      if ((p.dropWhile isspace).dropWhile fun b => some b != c).head? ≠ c
      then (⟨p.dropWhile isspace, true⟩, [])
      else (⟨(p.dropWhile isspace).dropWhile fun b => some b != c, false⟩,
        rstrip ((p.dropWhile isspace).takeWhile fun b => some b != c)) := by
  unfold consumeTill
  simp only [skipSpaces_fine, stretch, Bool.false_eq_true, if_false, Cut.drop_takeWhile]

theorem stop_eq (c : UInt8) : (fun b : UInt8 => some b != some c) = (· != c) := rfl

/-- The stop character is there: the text in front of it is taken. -/
theorem consumeTill_found {c : UInt8} (h : c ∈ p.dropWhile isspace) :
    consumeTill ⟨p, false⟩ (some c) =
      (⟨(p.dropWhile isspace).dropWhile (· != c), false⟩,
        rstrip ((p.dropWhile isspace).takeWhile (· != c))) := by
  rw [consumeTill_fine, stop_eq, if_neg]
  rw [not_not]
  cases hstop : (p.dropWhile isspace).dropWhile (· != c) with
  | nil => exact absurd (List.dropWhile_eq_nil_iff.mp hstop c h) (by simp)
  | cons b rest =>
      have hb := Cut.ends_dropWhile (· != c) (p.dropWhile isspace) b (by rw [hstop, List.head?_cons])
      rw [List.head?_cons, bne_eq_false_iff_eq.mp hb]

/-- It is not: nothing is taken, and the error is set. -/
theorem consumeTill_missing {c : UInt8} (h : c ∉ p.dropWhile isspace) :
    consumeTill ⟨p, false⟩ (some c) = (⟨p.dropWhile isspace, true⟩, []) := by
  have hall : (p.dropWhile isspace).dropWhile (· != c) = [] :=
    List.dropWhile_eq_nil_iff.mpr fun b hb => bne_iff_ne.mpr fun heq => h (heq ▸ hb)
  rw [consumeTill_fine, stop_eq, hall, if_pos]
  exact fun hnone => nomatch hnone

theorem consumeTill_zero :
    consumeTill ⟨p, false⟩ none = (⟨[], false⟩, rstrip (p.dropWhile isspace)) := by
  have htest : (fun b : UInt8 => some b != none) = fun _ => true := rfl
  have hall : (p.dropWhile isspace).takeWhile (fun _ => true) = p.dropWhile isspace :=
    List.takeWhile_eq_self_iff.mpr fun _ _ => rfl
  have hnone : (p.dropWhile isspace).dropWhile (fun _ => true) = [] :=
    List.dropWhile_eq_nil_iff.mpr fun _ _ => rfl
  rw [consumeTill_fine, htest, hall, hnone, if_neg]
  exact fun h => h rfl

end Fine

end LineScanner

end Handy
