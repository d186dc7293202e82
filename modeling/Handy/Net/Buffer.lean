import Mathlib.Data.List.TakeDrop

/-! # The byte buffer

`Buffer` is the offset representation of the source: a block of `cap_` cells of
which `b_ .. e_` are live. The two offset facts every operation relies on are
fields, so a buffer whose offsets ran past each other cannot be built and
`consume` and `addSize` have to be given what the source leaves to its callers.
The cells are a type parameter: no operation looks at one.

The proofs of this file stop at `contents`, the live cells as a list. Everything
above it uses the `contents` equations only.
-/

namespace Handy

/-- `buf_`, `b_`, `e_`, `exp_`; `cap_` is the length of the block and a null
`buf_` is the empty block. -/
structure Buffer (α : Type) where
  buf : List α
  b : Nat
  e : Nat
  exp : Nat
  b_le_e : b ≤ e
  e_le_cap : e ≤ buf.length

namespace Buffer

section Offsets

variable {α : Type}

/-- The constructor leaves `exp_` at 512. -/
def new : Buffer α := ⟨[], 0, 0, 512, Nat.le_refl 0, Nat.le_refl 0⟩

def cap (x : Buffer α) : Nat := x.buf.length

def size (x : Buffer α) : Nat := x.e - x.b

def empty (x : Buffer α) : Bool := x.e == x.b

def space (x : Buffer α) : Nat := x.cap - x.e

/-- The bytes from `begin()` to `end()`. -/
def contents (x : Buffer α) : List α := (x.buf.drop x.b).take x.size

def clear (x : Buffer α) : Buffer α := ⟨[], 0, 0, x.exp, Nat.le_refl 0, Nat.le_refl 0⟩

def setSuggestSize (x : Buffer α) (sz : Nat) : Buffer α := { x with exp := sz }

@[simp] theorem contents_length (x : Buffer α) : x.contents.length = x.size := by
  have hb := x.b_le_e
  have he := x.e_le_cap
  simp only [contents, size, List.length_take, List.length_drop]
  omega

@[simp] theorem contents_new : (new : Buffer α).contents = [] := rfl

@[simp] theorem contents_clear (x : Buffer α) : x.clear.contents = [] := rfl

theorem size_eq_zero_iff (x : Buffer α) : x.size = 0 ↔ x.contents = [] := by
  rw [← contents_length, List.length_eq_zero_iff]

@[simp] theorem empty_iff (x : Buffer α) : x.empty = true ↔ x.contents = [] := by
  have hb := x.b_le_e
  rw [← size_eq_zero_iff, empty, beq_iff_eq, size]
  omega

private theorem take_contents (x : Buffer α) (tail : List α) :
    (x.contents ++ tail).take x.size = x.contents := by
  rw [← contents_length, List.take_left]

/-- `moveHead` copies the live bytes to the front; the tail keeps stale cells. -/
def moveHead (x : Buffer α) : Buffer α :=
  { x with
    buf := x.contents ++ x.buf.drop x.size
    b := 0
    e := x.size
    b_le_e := Nat.zero_le _
    e_le_cap := by simp }

@[simp] theorem contents_moveHead (x : Buffer α) : x.moveHead.contents = x.contents :=
  take_contents x _

@[simp] theorem cap_moveHead (x : Buffer α) : x.moveHead.cap = x.cap := by
  have hb := x.b_le_e
  have he := x.e_le_cap
  simp only [cap, moveHead, List.length_append, contents_length, List.length_drop, size]
  omega

/-- Bytes written at `end()` and then counted by `addSize`. -/
def fill (x : Buffer α) (p : List α) (_ : p.length ≤ x.space) : Buffer α :=
  { x with
    buf := x.buf.take x.e ++ p ++ x.buf.drop (x.e + p.length)
    e := x.e + p.length
    b_le_e := Nat.le_add_right_of_le x.b_le_e
    e_le_cap := by
      have he := x.e_le_cap
      simp only [List.length_append, List.length_take]
      omega }

theorem cap_fill (x : Buffer α) (p : List α) (h : p.length ≤ x.space) : (x.fill p h).cap = x.cap := by
  have he := x.e_le_cap
  simp only [space, cap] at h
  simp only [cap, fill, List.length_append, List.length_take, List.length_drop]
  omega

@[simp] theorem contents_fill (x : Buffer α) (p : List α) (h : p.length ≤ x.space) :
    (x.fill p h).contents = x.contents ++ p := by
  have hb := x.b_le_e
  have he := x.e_le_cap
  have hd : x.b ≤ (x.buf.take x.e).length := by simp only [List.length_take]; omega
  have hlive : (x.buf.take x.e).drop x.b = x.contents := by
    simp only [contents, size, List.drop_take]
  have hn : x.e + p.length - x.b = (x.contents ++ p).length := by
    simp only [List.length_append, contents_length, size]
    omega
  simp only [contents, fill, size, List.append_assoc]
  rw [List.drop_append_of_le_length hd, hlive, ← List.append_assoc, hn, List.take_left]
  rfl

/-- `consume(len)`: a buffer drained to nothing releases its block. The source
takes any `len`; past `size()` it leaves `b_` beyond `e_`, so the bound is asked
for here and checked where a caller does not have it. -/
def consume (x : Buffer α) (len : Nat) (h : len ≤ x.size) : Buffer α :=
  if x.e - (x.b + len) = 0 then x.clear
  else { x with
    b := x.b + len
    b_le_e := by
      have hb := x.b_le_e
      simp only [size] at h
      omega }

@[simp] theorem contents_consume (x : Buffer α) (len : Nat) (h : len ≤ x.size) :
    (x.consume len h).contents = x.contents.drop len := by
  unfold consume
  split
  · have hlen : x.contents.length ≤ len := by
      rw [contents_length, size]
      omega
    rw [List.drop_eq_nil_of_le hlen, contents_clear]
  · simp only [contents, size, List.drop_take, List.drop_drop]
    congr 1
    omega

@[simp] theorem exp_fill (x : Buffer α) (p : List α) (h : p.length ≤ x.space) :
    (x.fill p h).exp = x.exp := rfl

@[simp] theorem exp_consume (x : Buffer α) (len : Nat) (h : len ≤ x.size) :
    (x.consume len h).exp = x.exp := by
  unfold consume
  split <;> rfl

theorem cap_consume (x : Buffer α) (len : Nat) (h : len ≤ x.size) :
    (x.consume len h).cap ≤ x.cap := by
  unfold consume
  split
  · exact Nat.zero_le _
  · exact Nat.le_refl _

end Offsets

variable {α : Type} [Inhabited α]

/-- `expand` moves the live bytes into a new block of
`max(exp_, max(2 * cap_, size() + len))` cells; the rest of it is uninitialised. -/
def expand (x : Buffer α) (len : Nat) : Buffer α :=
  let ncap := max x.exp (max (2 * x.cap) (x.size + len))
  { x with
    buf := x.contents ++ List.replicate (ncap - x.size) default
    b := 0
    e := x.size
    b_le_e := Nat.zero_le _
    e_le_cap := by simp }

@[simp] theorem contents_expand (x : Buffer α) (len : Nat) :
    (x.expand len).contents = x.contents := take_contents x _

theorem cap_expand (x : Buffer α) (len : Nat) :
    (x.expand len).cap = max x.exp (max (2 * x.cap) (x.size + len)) := by
  simp only [cap, expand, List.length_append, contents_length, List.length_replicate]
  omega

/-- `makeRoom(len)`: stay, move the live bytes to the front, or expand. -/
def makeRoom (x : Buffer α) (len : Nat) : Buffer α :=
  if x.e + len ≤ x.cap then x
  else if x.size + len < x.cap / 2 then x.moveHead
  else x.expand len

@[simp] theorem contents_makeRoom (x : Buffer α) (len : Nat) :
    (x.makeRoom len).contents = x.contents := by
  unfold makeRoom
  split
  · rfl
  · split <;> simp

theorem makeRoom_space (x : Buffer α) (len : Nat) : len ≤ (x.makeRoom len).space := by
  unfold makeRoom
  split
  · simp only [space]
    omega
  · split
    · simp only [space, cap_moveHead]
      simp only [moveHead]
      omega
    · simp only [space, cap_expand]
      simp only [expand]
      omega

/-- `makeRoom()`: ask for `exp_` more bytes when fewer are free. -/
def makeRoomExp (x : Buffer α) : Buffer α :=
  if x.space < x.exp then x.expand 0 else x

@[simp] theorem contents_makeRoomExp (x : Buffer α) : x.makeRoomExp.contents = x.contents := by
  unfold makeRoomExp
  split <;> simp

@[simp] theorem exp_makeRoomExp (x : Buffer α) : x.makeRoomExp.exp = x.exp := by
  unfold makeRoomExp
  split <;> rfl

/-- Where some size is suggested a read never finds the room gone. -/
theorem makeRoomExp_space (x : Buffer α) (h : 1 ≤ x.exp) : 1 ≤ x.makeRoomExp.space := by
  have hb := x.b_le_e
  have he := x.e_le_cap
  unfold makeRoomExp
  split
  · simp only [space, cap_expand]
    simp only [expand, size, cap]
    omega
  · omega

/-- `append(p, len)`: `allocRoom(len)`, then copy. -/
def append (x : Buffer α) (p : List α) : Buffer α :=
  (x.makeRoom p.length).fill p (x.makeRoom_space p.length)

@[simp] theorem contents_append (x : Buffer α) (p : List α) :
    (x.append p).contents = x.contents ++ p := by
  simp [append]

/-- `absorb(buf)` for another buffer: an empty buffer swaps representations and
keeps its own `exp_`, any other one appends and clears `buf`. The second
component is what `buf` holds afterwards. -/
def absorb (x buf : Buffer α) : Buffer α × Buffer α :=
  if x.size = 0 then ({ buf with exp := x.exp }, { x with exp := buf.exp })
  else (x.append buf.contents, buf.clear)

theorem absorb_contents (x buf : Buffer α) :
    (x.absorb buf).1.contents = x.contents ++ buf.contents ∧ (x.absorb buf).2.contents = [] := by
  unfold absorb
  split
  · next h =>
      have hx := (size_eq_zero_iff x).mp h
      rw [hx]
      exact ⟨rfl, hx⟩
  · simp

@[simp] theorem contents_absorb (x buf : Buffer α) :
    (x.absorb buf).1.contents = x.contents ++ buf.contents := (absorb_contents x buf).1

@[simp] theorem rest_absorb (x buf : Buffer α) : (x.absorb buf).2.contents = [] :=
  (absorb_contents x buf).2

/-- `copyFrom(b)`: the same offsets into a fresh block, of which only the live
bytes are copied. -/
def copyFrom (b : Buffer α) : Buffer α :=
  { b with
    buf := List.replicate b.b default ++ b.contents ++ List.replicate (b.cap - b.e) default
    e_le_cap := by
      have hb := b.b_le_e
      simp only [List.length_append, List.length_replicate, contents_length, size]
      omega }

@[simp] theorem contents_copyFrom (b : Buffer α) : b.copyFrom.contents = b.contents := by
  have hlive : (b.contents ++ List.replicate (b.cap - b.e) default).take b.size = b.contents :=
    take_contents b _
  change ((List.replicate b.b default ++ b.contents ++ _).drop b.b).take b.size = b.contents
  rw [List.append_assoc, List.drop_left' (List.length_replicate ..), hlive]

@[simp] theorem cap_copyFrom (b : Buffer α) : b.copyFrom.cap = b.cap := by
  have hb := b.b_le_e
  have he := b.e_le_cap
  simp only [cap, copyFrom, List.length_append, List.length_replicate, contents_length, size]
  omega

end Buffer

end Handy
