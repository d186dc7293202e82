import Handy.Net.Buffer
import Mathlib.Algebra.Group.Nat.Defs

/-! # The buffer as the machine has it

`RawBuffer` is `Buffer` without its invariant: five members of type `size_t`
arithmetic, where every sum wraps around at `2^64`, and a block whose bounds each
access is checked against. `raw` is a well-formed buffer in this form; one lemma
for each operation says which well-formed buffer it yields. What can go wrong is
`e_ + len` wrapping around in `makeRoom`, which then believes there is room.
-/

namespace Handy

/-- `std::bad_alloc`, and an access outside the block. -/
inductive MemFault where
  | badAlloc
  | outOfBounds
deriving DecidableEq, Repr

/-- What `new char[n]` grants; the language grants no object beyond `PTRDIFF_MAX`. -/
structure Heap where
  grants : Nat → Bool
  lt_of_grants : ∀ n, grants n = true → n < 2 ^ 63

/-- Everything the language can grant. -/
def Heap.full : Heap := ⟨fun n => decide (n < 2 ^ 63), fun _ h => of_decide_eq_true h⟩

structure RawBuffer (α : Type) where
  buf : List α
  b : Nat
  e : Nat
  cap : Nat
  exp : Nat
deriving DecidableEq, Repr

namespace RawBuffer

variable {α : Type}

/-- Sums and differences of `size_t`. -/
def add (m n : Nat) : Nat := (m + n) % 2 ^ 64

def sub (m n : Nat) : Nat := (2 ^ 64 + m - n) % 2 ^ 64

def new : RawBuffer α := ⟨[], 0, 0, 0, 512⟩

def clear (x : RawBuffer α) : RawBuffer α := { x with buf := [], b := 0, e := 0, cap := 0 }

def size (x : RawBuffer α) : Nat := sub x.e x.b

def space (x : RawBuffer α) : Nat := sub x.cap x.e

/-- The bytes of `begin() .. end()`, read through the block. -/
def live (x : RawBuffer α) : Except MemFault (List α) :=
  if x.b ≤ x.e ∧ x.e ≤ x.buf.length then .ok ((x.buf.drop x.b).take (x.e - x.b))
  else .error .outOfBounds

/-- Bytes stored at `buf_ + at`. -/
def memcpy (x : RawBuffer α) (dst : Nat) (p : List α) : Except MemFault (RawBuffer α) :=
  if dst + p.length ≤ x.buf.length then
    .ok { x with buf := x.buf.take dst ++ p ++ x.buf.drop (dst + p.length) }
  else .error .outOfBounds

def moveHead (x : RawBuffer α) : Except MemFault (RawBuffer α) := do
  let bytes ← x.live
  let x ← x.memcpy 0 bytes
  return { x with e := sub x.e x.b, b := 0 }

def addSize (x : RawBuffer α) (len : Nat) : RawBuffer α := { x with e := add x.e len }

def consume (x : RawBuffer α) (len : Nat) : RawBuffer α :=
  let x := { x with b := add x.b len }
  if x.size = 0 then x.clear else x

def setSuggestSize (x : RawBuffer α) (sz : Nat) : RawBuffer α := { x with exp := sz }

variable [Inhabited α]

/-- `new char[n]`, uninitialised. -/
def newBlock (heap : Heap) (n : Nat) : Except MemFault (List α) :=
  if heap.grants n then .ok (List.replicate n default) else .error .badAlloc

def expand (heap : Heap) (x : RawBuffer α) (len : Nat) : Except MemFault (RawBuffer α) := do
  let ncap := max x.exp (max ((2 * x.cap) % 2 ^ 64) (add x.size len))
  let p ← newBlock heap ncap
  let bytes ← x.live
  memcpy { buf := p, b := 0, e := sub x.e x.b, cap := ncap, exp := x.exp } 0 bytes

def makeRoom (heap : Heap) (x : RawBuffer α) (len : Nat) : Except MemFault (RawBuffer α) :=
  if add x.e len ≤ x.cap then .ok x
  else if add x.size len < x.cap / 2 then x.moveHead
  else x.expand heap len

/-- `makeRoom()`. -/
def makeRoomExp (heap : Heap) (x : RawBuffer α) : Except MemFault (RawBuffer α) :=
  if x.space < x.exp then x.expand heap 0 else .ok x

/-- `allocRoom(len)`: the offset of the room and the buffer that counts it. -/
def allocRoom (heap : Heap) (x : RawBuffer α) (len : Nat) :
    Except MemFault (Nat × RawBuffer α) := do
  let x ← x.makeRoom heap len
  return (x.e, x.addSize len)

def append (heap : Heap) (x : RawBuffer α) (p : List α) : Except MemFault (RawBuffer α) := do
  let (room, x) ← x.allocRoom heap p.length
  x.memcpy room p

/-- `appendValue(v)`, given the bytes `v` has in memory. -/
def appendValue (heap : Heap) (x : RawBuffer α) (v : List α) : Except MemFault (RawBuffer α) :=
  x.append heap v

def copyFrom (heap : Heap) (b : RawBuffer α) : Except MemFault (RawBuffer α) :=
  if b.buf = [] then .ok b
  else do
    let p ← newBlock heap b.cap
    let bytes ← b.live
    { b with buf := p }.memcpy b.b bytes

/-- `absorb(buf)` for another buffer, and what `buf` holds afterwards. -/
def absorb (heap : Heap) (x buf : RawBuffer α) :
    Except MemFault (RawBuffer α × RawBuffer α) :=
  if x.size = 0 then .ok ({ buf with exp := x.exp }, { x with exp := buf.exp })
  else do
    let bytes ← buf.live
    let x ← x.append heap bytes
    return (x, buf.clear)

/-! ## Well-formed buffers -/

/-- A well-formed buffer as the machine has it. -/
def raw (x : Buffer α) : RawBuffer α := ⟨x.buf, x.b, x.e, x.cap, x.exp⟩

section Fields

omit [Inhabited α]

@[simp] theorem raw_buf (x : Buffer α) : (raw x).buf = x.buf := rfl

@[simp] theorem raw_b (x : Buffer α) : (raw x).b = x.b := rfl

@[simp] theorem raw_e (x : Buffer α) : (raw x).e = x.e := rfl

@[simp] theorem raw_cap (x : Buffer α) : (raw x).cap = x.cap := rfl

@[simp] theorem raw_exp (x : Buffer α) : (raw x).exp = x.exp := rfl

end Fields

/-- The operation throws, or it yields `y`, in a block the language can grant. -/
def Yields (r : Except MemFault (RawBuffer α)) (y : Buffer α) : Prop :=
  r = .error .badAlloc ∨ r = .ok (raw y) ∧ y.cap < 2 ^ 63

theorem add_of_lt {m n : Nat} (h : m + n < 2 ^ 64) : add m n = m + n := Nat.mod_eq_of_lt h

theorem sub_of_le {m n : Nat} (h : n ≤ m) (hm : m < 2 ^ 64) : sub m n = m - n := by
  rw [sub]
  omega

/-- A sum that wraps around comes out below both its terms. -/
theorem add_of_wraps {m n : Nat} (hm : m < 2 ^ 64) (hn : n < 2 ^ 64) (h : 2 ^ 64 ≤ m + n) :
    add m n < m := by
  rw [add]
  omega

section Refine

variable {x : Buffer α} (hx : x.cap < 2 ^ 63)

include hx

omit [Inhabited α] in
theorem size_raw : (raw x).size = x.size := by
  have he := x.e_le_cap
  have hlt : x.e < 2 ^ 64 := by
    simp only [Buffer.cap] at hx
    omega
  exact sub_of_le x.b_le_e hlt

omit [Inhabited α] in
theorem space_raw : (raw x).space = x.space := by
  apply sub_of_le x.e_le_cap
  exact Nat.lt_trans hx (by decide)

omit hx [Inhabited α] in
theorem live_raw : (raw x).live = .ok x.contents := if_pos ⟨x.b_le_e, x.e_le_cap⟩

omit [Inhabited α] in
theorem moveHead_raw : (raw x).moveHead = .ok (raw x.moveHead) := by
  have hb := x.b_le_e
  have he := x.e_le_cap
  have hfits : 0 + x.contents.length ≤ (raw x).buf.length := by
    simp only [Buffer.contents_length, Buffer.size, raw]
    omega
  have hsub : sub x.e x.b = x.size := size_raw hx
  rw [moveHead, live_raw]
  show (memcpy (raw x) 0 x.contents >>= fun y => pure { y with e := sub y.e y.b, b := 0 }) = _
  rw [memcpy, if_pos hfits]
  show Except.ok _ = Except.ok _
  simp only [raw, hsub, Buffer.cap_moveHead]
  simp only [Buffer.moveHead, List.take_zero, List.nil_append, Buffer.contents_length, Nat.zero_add]

theorem expand_yields (heap : Heap) {len : Nat} (hlen : x.size + len < 2 ^ 64) :
    Yields ((raw x).expand heap len) (x.expand len) := by
  have hcap : (2 * x.cap) % 2 ^ 64 = 2 * x.cap := Nat.mod_eq_of_lt (by omega)
  have hncap : max (raw x).exp (max ((2 * (raw x).cap) % 2 ^ 64) (add (raw x).size len)) =
      (x.expand len).cap := by
    rw [size_raw hx, add_of_lt hlen, raw_cap, hcap, raw_exp, Buffer.cap_expand]
  rw [expand, hncap, newBlock]
  cases hgrant : heap.grants (x.expand len).cap with
  | false => exact Or.inl rfl
  | true =>
      refine Or.inr ⟨?_, heap.lt_of_grants _ hgrant⟩
      have hfits : 0 + x.contents.length ≤ (List.replicate (x.expand len).cap (default : α)).length := by
        rw [List.length_replicate, Buffer.cap_expand, Buffer.contents_length]
        omega
      rw [if_pos rfl, live_raw]
      show memcpy _ 0 x.contents = _
      rw [memcpy, if_pos hfits]
      have hsub : sub (raw x).e (raw x).b = x.size := size_raw hx
      rw [hsub]
      simp only [raw, Buffer.cap_expand]
      simp only [Buffer.expand, List.take_zero, List.nil_append, Buffer.contents_length, Nat.zero_add,
        List.drop_replicate]

theorem makeRoom_yields (heap : Heap) {len : Nat} (hlen : x.e + len < 2 ^ 64) :
    Yields ((raw x).makeRoom heap len) (x.makeRoom len) := by
  have hsize : x.size + len < 2 ^ 64 := by
    simp only [Buffer.size]
    omega
  rw [makeRoom, raw_e, add_of_lt hlen, size_raw hx, add_of_lt hsize, raw_cap, Buffer.makeRoom]
  split
  · exact Or.inr ⟨rfl, hx⟩
  · split
    · rw [moveHead_raw hx]
      exact Or.inr ⟨rfl, by rwa [Buffer.cap_moveHead]⟩
    · exact expand_yields hx heap hsize

/-- A request whose sum wraps around is taken to be met. -/
theorem makeRoom_wraps (heap : Heap) {len : Nat} (hlen : len < 2 ^ 64)
    (hwrap : 2 ^ 64 ≤ x.e + len) : (raw x).makeRoom heap len = .ok (raw x) := by
  have he := x.e_le_cap
  simp only [Buffer.cap] at hx
  have hlt : add x.e len < x.e := add_of_wraps (by omega) hlen hwrap
  apply if_pos
  show add x.e len ≤ x.buf.length
  omega

theorem makeRoomExp_yields (heap : Heap) :
    Yields ((raw x).makeRoomExp heap) x.makeRoomExp := by
  rw [makeRoomExp, space_raw hx, Buffer.makeRoomExp]
  show Yields (if x.space < x.exp then _ else _) _
  split
  · apply expand_yields hx
    have hb := x.b_le_e
    have he := x.e_le_cap
    simp only [Buffer.cap] at hx
    simp only [Buffer.size]
    omega
  · exact Or.inr ⟨rfl, hx⟩

omit hx [Inhabited α] in
/-- Bytes written at `end()` and counted. -/
theorem memcpy_fill {p : List α} (hp : p.length ≤ x.space) (e : Nat) :
    memcpy { raw x with e := e } x.e p = .ok { raw (x.fill p hp) with e := e } := by
  have he := x.e_le_cap
  have hfits : x.e + p.length ≤ x.buf.length := by
    simp only [Buffer.space, Buffer.cap] at hp
    omega
  rw [memcpy]
  show (if x.e + p.length ≤ x.buf.length then _ else _) = _
  rw [if_pos hfits]
  simp only [raw, Buffer.cap_fill]
  rfl

theorem append_yields (heap : Heap) {p : List α} (hp : x.e + p.length < 2 ^ 64) :
    Yields ((raw x).append heap p) (x.append p) := by
  rw [append, allocRoom]
  rcases makeRoom_yields hx heap hp with h | ⟨h, hcap⟩
  · rw [h]
    exact Or.inl rfl
  · rw [h]
    refine Or.inr ⟨?_, by rwa [Buffer.append, Buffer.cap_fill]⟩
    have hroom := x.makeRoom_space p.length
    have he := (x.makeRoom p.length).e_le_cap
    have hadd : add (x.makeRoom p.length).e p.length = (x.makeRoom p.length).e + p.length := by
      apply add_of_lt
      simp only [Buffer.space] at hroom
      simp only [Buffer.cap] at hcap hroom
      omega
    show memcpy { raw (x.makeRoom p.length) with e := add (x.makeRoom p.length).e p.length }
      (x.makeRoom p.length).e p = _
    rw [memcpy_fill hroom, hadd]
    rfl

theorem append_wraps (heap : Heap) {p : List α} (hp : p.length < 2 ^ 64)
    (hwrap : 2 ^ 64 ≤ x.e + p.length) : (raw x).append heap p = .error .outOfBounds := by
  rw [append, allocRoom, makeRoom_wraps hx heap hp hwrap]
  have hfits : ¬ x.e + p.length ≤ x.buf.length := by
    simp only [Buffer.cap] at hx
    omega
  exact if_neg hfits

omit [Inhabited α] in
theorem consume_raw {len : Nat} (hlen : len ≤ x.size) :
    (raw x).consume len = raw (x.consume len hlen) := by
  have hb := x.b_le_e
  have he := x.e_le_cap
  simp only [Buffer.cap] at hx
  simp only [Buffer.size] at hlen
  have hadd : add x.b len = x.b + len := add_of_lt (by omega)
  have hsub : sub x.e (x.b + len) = x.e - (x.b + len) := sub_of_le (by omega) (by omega)
  simp only [consume, size, raw_b, raw_e, hadd, hsub, Buffer.consume]
  split
  · rfl
  · rfl

theorem copyFrom_yields (heap : Heap) : Yields ((raw x).copyFrom heap) x.copyFrom := by
  have hb := x.b_le_e
  have he := x.e_le_cap
  rw [copyFrom]
  by_cases hnull : x.buf = []
  · have hzero : x.e = 0 ∧ x.b = 0 := by
      rw [hnull, List.length_nil] at he
      omega
    rw [raw_buf, if_pos hnull]
    refine Or.inr ⟨?_, by rwa [Buffer.cap_copyFrom]⟩
    simp [raw, Buffer.copyFrom, Buffer.contents, Buffer.size, Buffer.cap, hnull, hzero]
  · rw [raw_buf, if_neg hnull, newBlock, raw_cap]
    cases hgrant : heap.grants x.cap with
    | false => exact Or.inl rfl
    | true =>
        refine Or.inr ⟨?_, by rwa [Buffer.cap_copyFrom]⟩
        rw [if_pos rfl, live_raw]
        show memcpy { raw x with buf := List.replicate x.cap default } x.b x.contents = _
        have hfits : x.b + x.contents.length ≤ (List.replicate x.cap (default : α)).length := by
          rw [List.length_replicate, Buffer.contents_length, Buffer.size, Buffer.cap]
          omega
        rw [memcpy, if_pos hfits]
        have hhead : min x.b x.cap = x.b := by
          rw [Buffer.cap]
          omega
        have htail : x.cap - (x.b + x.size) = x.cap - x.e := by
          rw [Buffer.size]
          omega
        simp only [raw, Buffer.cap_copyFrom]
        simp only [Buffer.copyFrom, List.take_replicate, List.drop_replicate,
          Buffer.contents_length, hhead, htail]

theorem absorb_yields (heap : Heap) {y : Buffer α} (hy : y.cap < 2 ^ 63) :
    absorb heap (raw x) (raw y) = .error .badAlloc ∨
      absorb heap (raw x) (raw y) = .ok (raw (x.absorb y).1, raw (x.absorb y).2) ∧
        (x.absorb y).1.cap < 2 ^ 63 ∧ (x.absorb y).2.cap < 2 ^ 63 := by
  rw [absorb, size_raw hx, Buffer.absorb]
  by_cases hempty : x.size = 0
  · rw [if_pos hempty, if_pos hempty]
    exact Or.inr ⟨rfl, hy, hx⟩
  · rw [if_neg hempty, if_neg hempty, live_raw]
    have hfits : x.e + y.contents.length < 2 ^ 64 := by
      have hex := x.e_le_cap
      have hey := y.e_le_cap
      simp only [Buffer.cap] at hx hy
      rw [Buffer.contents_length, Buffer.size]
      omega
    change ((raw x).append heap y.contents >>= _) = _ ∨ ((raw x).append heap y.contents >>= _) = _ ∧ _
    rcases append_yields hx heap hfits with h | ⟨h, hcap⟩
    · rw [h]
      exact Or.inl rfl
    · rw [h]
      exact Or.inr ⟨rfl, hcap, Nat.two_pow_pos 63⟩

end Refine

end RawBuffer

end Handy
