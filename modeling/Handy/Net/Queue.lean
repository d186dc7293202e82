import Handy.Net.RawBuffer
import Mathlib.Logic.Function.Basic

/-! # Buffers as byte queues

A program holds any number of buffers and applies one operation at a time.
`denote` is what an operation means for the byte lists the buffers stand for;
`QueueRun` says that a run stays inside memory, that every buffer it reaches
represents its list, and that the two `makeRoom` leave the room they promise. A
run ends where `new` throws. The lists are met exactly as long as no request
makes `e_ + len` wrap around.
-/

namespace Handy

/-- One call; bytes a call stores from outside come with it. -/
inductive BufferOp (ι α : Type) where
  | append (i : ι) (p : List α)
  | appendValue (i : ι) (v : List α)
  | allocRoom (i : ι) (p : List α)
  | makeRoom (i : ι) (len : Nat)
  | makeRoomExp (i : ι)
  | addSize (i : ι) (p : List α)
  | consume (i : ι) (len : Nat)
  | clear (i : ι)
  | absorb (i j : ι)
  | setSuggestSize (i : ι) (sz : Nat)
  | copy (i j : ι)
  | assign (i j : ι)
deriving Repr

/-- The buffers of the program. -/
abbrev Buffers (ι α : Type) := ι → RawBuffer α

namespace Buffers

open RawBuffer Function

variable {ι α : Type}

def new : Buffers ι α := fun _ => RawBuffer.new

variable [DecidableEq ι]

/-- One buffer is given to a member function, the others stay. -/
def call (s : Buffers ι α) (i : ι) (f : RawBuffer α → Except MemFault (RawBuffer α)) :
    Except MemFault (Buffers ι α) := do
  let x ← f (s i)
  return update s i x

variable [Inhabited α]

/-- `allocRoom(len)` and the bytes the caller fills the room with. -/
def fillRoom (heap : Heap) (p : List α) (x : RawBuffer α) : Except MemFault (RawBuffer α) := do
  let (room, x) ← x.allocRoom heap p.length
  x.memcpy room p

/-- Bytes written at `end()`, then `addSize`. -/
def writeEnd (p : List α) (x : RawBuffer α) : Except MemFault (RawBuffer α) := do
  let x ← x.memcpy x.e p
  return x.addSize p.length

def exec (heap : Heap) (s : Buffers ι α) : BufferOp ι α → Except MemFault (Buffers ι α)
  | .append i p => call s i fun x => x.append heap p
  | .appendValue i v => call s i fun x => x.appendValue heap v
  | .allocRoom i p => call s i fun x => fillRoom heap p x
  | .makeRoom i len => call s i fun x => x.makeRoom heap len
  | .makeRoomExp i => call s i fun x => x.makeRoomExp heap
  | .addSize i p => call s i fun x => writeEnd p x
  | .consume i len => call s i fun x => .ok (x.consume len)
  | .clear i => call s i fun x => .ok x.clear
  | .absorb i j =>
      if i = j then .ok s
      else do
        let (x, buf) ← (s i).absorb heap (s j)
        return update (update s i x) j buf
  | .setSuggestSize i sz => call s i fun x => .ok (x.setSuggestSize sz)
  | .copy i j => call s i fun _ => (s j).copyFrom heap
  | .assign i j => if i = j then .ok s else call s i fun _ => (s j).copyFrom heap

/-! ## What the operations denote -/

omit [Inhabited α] in
def denote (q : ι → List α) : BufferOp ι α → ι → List α
  | .append i p => update q i (q i ++ p)
  | .appendValue i v => update q i (q i ++ v)
  | .allocRoom i p => update q i (q i ++ p)
  | .makeRoom _ _ => q
  | .makeRoomExp _ => q
  | .addSize i p => update q i (q i ++ p)
  | .consume i len => update q i ((q i).drop len)
  | .clear i => update q i []
  | .absorb i j => if i = j then q else update (update q i (q i ++ q j)) j []
  | .setSuggestSize _ _ => q
  | .copy i j => update q i (q j)
  | .assign i j => update q i (q j)

omit [DecidableEq ι] [Inhabited α] in
/-- The offsets are in order, the block is as long as `cap_` says, and the live
cells are the list. -/
def Represents (s : Buffers ι α) (q : ι → List α) : Prop :=
  ∀ i, (s i).b ≤ (s i).e ∧ (s i).e ≤ (s i).cap ∧ (s i).cap = (s i).buf.length ∧
    ((s i).buf.drop (s i).b).take ((s i).e - (s i).b) = q i

omit [DecidableEq ι] [Inhabited α] in
/-- The room an operation promises. -/
def Room (s s' : Buffers ι α) : BufferOp ι α → Prop
  | .makeRoom i len => len ≤ (s' i).space
  | .makeRoomExp i => 1 ≤ (s i).exp → 1 ≤ (s' i).space
  | _ => True

/-- What a run shows of the lists: memory is never left, and every state
represents the lists its operations denote. -/
def QueueRun (s : Buffers ι α) (q : ι → List α) : List (Heap × BufferOp ι α) → Prop
  | [] => Represents s q
  | (heap, op) :: ops => Represents s q ∧
      match exec heap s op with
      | .ok s' => Room s s' op ∧ QueueRun s' (denote q op) ops
      | .error .badAlloc => True
      | .error .outOfBounds => False

/-- Each operation of the run satisfies `P`, read at the state it meets. -/
def Throughout (P : Buffers ι α → BufferOp ι α → Prop) (s : Buffers ι α) :
    List (Heap × BufferOp ι α) → Prop
  | [] => True
  | (heap, op) :: ops => P s op ∧
      match exec heap s op with
      | .ok s' => Throughout P s' ops
      | .error _ => True

omit [DecidableEq ι] [Inhabited α] in
/-- What the callers owe: `size_t` arguments, no more bytes taken or counted
than there are, and a new object to copy into. -/
def Allowed (s : Buffers ι α) : BufferOp ι α → Prop
  | .append _ p | .appendValue _ p | .allocRoom _ p => p.length < 2 ^ 64
  | .makeRoom _ len => len < 2 ^ 64
  | .addSize i p => p.length ≤ (s i).space
  | .consume i len => len ≤ (s i).size
  | .setSuggestSize _ sz => sz < 2 ^ 64
  | .copy i j => i ≠ j
  | _ => True

omit [DecidableEq ι] [Inhabited α] in
/-- The sum `makeRoom` forms does not wrap around. -/
def RequestFits (s : Buffers ι α) : BufferOp ι α → Prop
  | .append i p | .appendValue i p | .allocRoom i p => (s i).e + p.length < 2 ^ 64
  | .makeRoom i len => (s i).e + len < 2 ^ 64
  | _ => True

/-! ## One operation -/

/-- Well-formed buffers, none beyond what the language grants. -/
structure Formed (ι α : Type) where
  bufs : ι → Buffer α
  cap_lt : ∀ i, (bufs i).cap < 2 ^ 63

namespace Formed

omit [DecidableEq ι] [Inhabited α] in
/-- The program's buffers, as the machine has them. -/
def store (w : Formed ι α) : Buffers ι α := fun i => raw (w.bufs i)

omit [DecidableEq ι] [Inhabited α] in
def lists (w : Formed ι α) : ι → List α := fun i => (w.bufs i).contents

omit [DecidableEq ι] [Inhabited α] in
theorem represents (w : Formed ι α) : Represents w.store w.lists := fun i =>
  ⟨(w.bufs i).b_le_e, (w.bufs i).e_le_cap, rfl, rfl⟩

omit [Inhabited α] in
def set (w : Formed ι α) (i : ι) (x : Buffer α) (hx : x.cap < 2 ^ 63) : Formed ι α where
  bufs := update w.bufs i x
  cap_lt k := by
    by_cases hk : k = i
    · rw [hk, update_self]
      exact hx
    · rw [update_of_ne hk]
      exact w.cap_lt k

omit [Inhabited α] in
theorem store_set (w : Formed ι α) (i : ι) (x : Buffer α) (hx : x.cap < 2 ^ 63) :
    (w.set i x hx).store = update w.store i (raw x) := by
  funext k
  by_cases hk : k = i
  · subst hk
    simp only [store, set, update_self]
  · simp only [store, set, update_of_ne hk]

omit [Inhabited α] in
theorem lists_set (w : Formed ι α) (i : ι) (x : Buffer α) (hx : x.cap < 2 ^ 63) :
    (w.set i x hx).lists = update w.lists i x.contents := by
  funext k
  by_cases hk : k = i
  · subst hk
    simp only [lists, set, update_self]
  · simp only [lists, set, update_of_ne hk]

end Formed

/-- The operation throws, or it leaves well-formed buffers with these lists and
the room it promises. -/
def Serves (heap : Heap) (w : Formed ι α) (op : BufferOp ι α) : Prop :=
  exec heap w.store op = .error .badAlloc ∨ ∃ w' : Formed ι α,
    exec heap w.store op = .ok w'.store ∧ w'.lists = denote w.lists op ∧ Room w.store w'.store op

/-- What a member function yields on its own it yields in the program. -/
theorem serves_of_yields {heap : Heap} {w : Formed ι α} {op : BufferOp ι α} {y : Buffer α} (i : ι)
    (f : RawBuffer α → Except MemFault (RawBuffer α)) (hexec : exec heap w.store op = call w.store i f)
    (hf : Yields (f (raw (w.bufs i))) y) (hlists : update w.lists i y.contents = denote w.lists op)
    (hroom : y.cap < 2 ^ 63 → Room w.store (update w.store i (raw y)) op) : Serves heap w op := by
  rw [Serves, hexec, call]
  rcases hf with h | ⟨h, hy⟩
  · left
    change (f (raw (w.bufs i)) >>= _) = _
    rw [h]
    rfl
  · refine Or.inr ⟨w.set i y hy, ?_, ?_, ?_⟩
    · change (f (raw (w.bufs i)) >>= _) = _
      rw [h, Formed.store_set]
      rfl
    · rw [Formed.lists_set, hlists]
    · rw [Formed.store_set]
      exact hroom hy

omit [Inhabited α] in
/-- Updating to what is there already. -/
theorem update_lists_self (w : Formed ι α) (i : ι) {x : Buffer α}
    (hx : x.contents = (w.bufs i).contents) : update w.lists i x.contents = w.lists := by
  rw [hx]
  exact update_eq_self i w.lists

theorem makeRoom_serves (heap : Heap) (w : Formed ι α) (i : ι) {len : Nat}
    (hfits : (w.bufs i).e + len < 2 ^ 64) : Serves heap w (.makeRoom i len) := by
  apply serves_of_yields i (fun x => x.makeRoom heap len) rfl (makeRoom_yields (w.cap_lt i) heap hfits)
  · exact update_lists_self w i (Buffer.contents_makeRoom _ _)
  · intro hcap
    show len ≤ (update w.store i _ i).space
    rw [update_self, space_raw hcap]
    exact Buffer.makeRoom_space _ _

theorem makeRoomExp_serves (heap : Heap) (w : Formed ι α) (i : ι) :
    Serves heap w (.makeRoomExp i) := by
  apply serves_of_yields i (fun x => x.makeRoomExp heap) rfl (makeRoomExp_yields (w.cap_lt i) heap)
  · exact update_lists_self w i (Buffer.contents_makeRoomExp _)
  · intro hcap hexp
    show 1 ≤ (update w.store i _ i).space
    rw [update_self, space_raw hcap]
    exact Buffer.makeRoomExp_space _ hexp

theorem append_serves (heap : Heap) (w : Formed ι α) (i : ι) {p : List α}
    (hfits : (w.bufs i).e + p.length < 2 ^ 64) : Serves heap w (.append i p) := by
  apply serves_of_yields i (fun x => x.append heap p) rfl (append_yields (w.cap_lt i) heap hfits)
  · rw [Buffer.contents_append]
    rfl
  · exact fun _ => trivial

theorem addSize_serves (heap : Heap) (w : Formed ι α) (i : ι) {p : List α}
    (hp : p.length ≤ (w.bufs i).space) : Serves heap w (.addSize i p) := by
  have hcap := w.cap_lt i
  have hadd : add (w.bufs i).e p.length = (w.bufs i).e + p.length := by
    apply add_of_lt
    simp only [Buffer.space] at hp
    have he := (w.bufs i).e_le_cap
    simp only [Buffer.cap] at hp hcap
    omega
  have hfill : writeEnd p (raw (w.bufs i)) = .ok (raw ((w.bufs i).fill p hp)) := by
    rw [writeEnd]
    have h := memcpy_fill hp (w.bufs i).e
    change memcpy (raw (w.bufs i)) (w.bufs i).e p = _ at h
    rw [raw_e, h]
    show Except.ok _ = _
    simp only [addSize, hadd]
    rfl
  apply serves_of_yields i (writeEnd p) rfl (Or.inr ⟨hfill, by rwa [Buffer.cap_fill]⟩)
  · rw [Buffer.contents_fill]
    rfl
  · exact fun _ => trivial

theorem consume_serves (heap : Heap) (w : Formed ι α) (i : ι) {len : Nat}
    (hlen : len ≤ (w.bufs i).size) : Serves heap w (.consume i len) := by
  have hcap := w.cap_lt i
  have hle := Buffer.cap_consume (w.bufs i) len hlen
  apply serves_of_yields i (fun x => .ok (x.consume len)) rfl
    (Or.inr ⟨congrArg Except.ok (consume_raw hcap hlen), Nat.lt_of_le_of_lt hle hcap⟩)
  · rw [Buffer.contents_consume]
    rfl
  · exact fun _ => trivial

theorem copy_serves (heap : Heap) (w : Formed ι α) (i j : ι) : Serves heap w (.copy i j) := by
  apply serves_of_yields i (fun _ => (raw (w.bufs j)).copyFrom heap) rfl
    (copyFrom_yields (w.cap_lt j) heap)
  · rw [Buffer.contents_copyFrom]
    rfl
  · exact fun _ => trivial

theorem absorb_serves (heap : Heap) (w : Formed ι α) {i j : ι} (hij : i ≠ j) :
    Serves heap w (.absorb i j) := by
  rw [Serves]
  simp only [exec, if_neg hij, denote]
  change (RawBuffer.absorb heap (raw (w.bufs i)) (raw (w.bufs j)) >>= _) = _ ∨
    ∃ w' : Formed ι α, (RawBuffer.absorb heap (raw (w.bufs i)) (raw (w.bufs j)) >>= _) = _ ∧ _
  rcases absorb_yields (w.cap_lt i) heap (w.cap_lt j) with h | ⟨h, hi, hj⟩
  · rw [h]
    exact Or.inl rfl
  · rw [h]
    refine Or.inr ⟨(w.set i _ hi).set j _ hj, ?_, ?_, trivial⟩
    · rw [Formed.store_set, Formed.store_set]
      rfl
    · rw [Formed.lists_set, Formed.lists_set, Buffer.contents_absorb, Buffer.rest_absorb]
      rfl

/-- Every operation whose request does not wrap around does what it denotes. -/
theorem serves (heap : Heap) (w : Formed ι α) (op : BufferOp ι α) (hok : Allowed w.store op)
    (hfits : RequestFits w.store op) : Serves heap w op := by
  cases op with
  | append i p => exact append_serves heap w i hfits
  | appendValue i v => exact append_serves heap w i hfits
  | allocRoom i p => exact append_serves heap w i hfits
  | makeRoom i len => exact makeRoom_serves heap w i hfits
  | makeRoomExp i => exact makeRoomExp_serves heap w i
  | addSize i p =>
      have hp : p.length ≤ (w.bufs i).space := by
        rw [← space_raw (w.cap_lt i)]
        exact hok
      exact addSize_serves heap w i hp
  | consume i len =>
      have hlen : len ≤ (w.bufs i).size := by
        rw [← size_raw (w.cap_lt i)]
        exact hok
      exact consume_serves heap w i hlen
  | clear i =>
      apply serves_of_yields (y := (w.bufs i).clear) i (fun x => .ok x.clear) rfl
        (Or.inr ⟨rfl, Nat.two_pow_pos 63⟩) rfl
      exact fun _ => trivial
  | absorb i j =>
      by_cases hij : i = j
      · exact Or.inr ⟨w, if_pos hij, (if_pos hij).symm, trivial⟩
      · exact absorb_serves heap w hij
  | setSuggestSize i sz =>
      apply serves_of_yields (y := (w.bufs i).setSuggestSize sz) i
        (fun x => .ok (x.setSuggestSize sz)) rfl (Or.inr ⟨rfl, w.cap_lt i⟩)
      · exact update_lists_self w i rfl
      · exact fun _ => trivial
  | copy i j => exact copy_serves heap w i j
  | assign i j =>
      by_cases hij : i = j
      · subst hij
        exact Or.inr ⟨w, if_pos rfl, (update_eq_self i w.lists).symm, trivial⟩
      · have h := copy_serves heap w i j
        rw [Serves] at h ⊢
        rwa [exec, if_neg hij]

/-- A request that wraps around is met with no room, or written outside the block. -/
theorem wraps (heap : Heap) (w : Formed ι α) (op : BufferOp ι α) (hok : Allowed w.store op)
    (hwrap : ¬ RequestFits w.store op) : exec heap w.store op = .error .outOfBounds ∨
      exec heap w.store op = .ok w.store ∧ ¬ Room w.store w.store op := by
  have happend : ∀ i (p : List α), p.length < 2 ^ 64 → ¬ (w.bufs i).e + p.length < 2 ^ 64 →
      call w.store i (fun x => x.append heap p) = .error .outOfBounds := by
    intro i p hp hnot
    change (RawBuffer.append heap (raw (w.bufs i)) p >>= _) = _
    rw [append_wraps (w.cap_lt i) heap hp (Nat.le_of_not_lt hnot)]
    rfl
  cases op with
  | append i p => exact Or.inl (happend i p hok hwrap)
  | appendValue i v => exact Or.inl (happend i v hok hwrap)
  | allocRoom i p => exact Or.inl (happend i p hok hwrap)
  | makeRoom i len =>
      have hcap := w.cap_lt i
      have he := (w.bufs i).e_le_cap
      right
      constructor
      · change (RawBuffer.makeRoom heap (raw (w.bufs i)) len >>= _) = _
        rw [makeRoom_wraps hcap heap hok (Nat.le_of_not_lt hwrap)]
        exact congrArg Except.ok (update_eq_self i w.store)
      · intro hroom
        change len ≤ (raw (w.bufs i)).space at hroom
        change ¬ (w.bufs i).e + len < 2 ^ 64 at hwrap
        rw [space_raw hcap, Buffer.space] at hroom
        simp only [Buffer.cap] at hcap hroom
        omega
  | makeRoomExp i => exact absurd trivial hwrap
  | addSize i p => exact absurd trivial hwrap
  | consume i len => exact absurd trivial hwrap
  | clear i => exact absurd trivial hwrap
  | absorb i j => exact absurd trivial hwrap
  | setSuggestSize i sz => exact absurd trivial hwrap
  | copy i j => exact absurd trivial hwrap
  | assign i j => exact absurd trivial hwrap

/-! ## Runs -/

/-- Buffers as the constructor leaves them. -/
def Formed.new : Formed ι α := ⟨fun _ => Buffer.new, fun _ => Nat.two_pow_pos 63⟩

theorem queueRun_iff (ops : List (Heap × BufferOp ι α)) (w : Formed ι α)
    (hok : Throughout Allowed w.store ops) :
    QueueRun w.store w.lists ops ↔ Throughout RequestFits w.store ops := by
  induction ops generalizing w with
  | nil => exact iff_of_true w.represents trivial
  | cons c ops ih =>
      obtain ⟨heap, op⟩ := c
      by_cases hfits : RequestFits w.store op
      · rcases serves heap w op hok.1 hfits with h | ⟨w', h, hlists, hroom⟩
        · have hrun : QueueRun w.store w.lists ((heap, op) :: ops) := by
            rw [QueueRun, h]
            exact ⟨w.represents, trivial⟩
          have hall : Throughout RequestFits w.store ((heap, op) :: ops) := by
            rw [Throughout, h]
            exact ⟨hfits, trivial⟩
          exact iff_of_true hrun hall
        · rw [Throughout, h] at hok
          rw [QueueRun, Throughout, h, ← hlists]
          constructor
          · exact fun hrun => ⟨hfits, (ih w' hok.2).mp hrun.2.2⟩
          · exact fun hall => ⟨w.represents, hroom, (ih w' hok.2).mpr hall.2⟩
      · apply iff_of_false
        · intro hrun
          rw [QueueRun] at hrun
          rcases wraps heap w op hok.1 hfits with h | ⟨h, hroom⟩
          · rw [h] at hrun
            exact hrun.2
          · rw [h] at hrun
            exact hroom hrun.2.1
        · exact fun hall => hfits hall.1


/-! ## Any number of buffers -/

omit [Inhabited α] in
instance (s : Buffers ι α) : (op : BufferOp ι α) → Decidable (Allowed s op)
  | .append _ p => inferInstanceAs (Decidable (p.length < 2 ^ 64))
  | .appendValue _ v => inferInstanceAs (Decidable (v.length < 2 ^ 64))
  | .allocRoom _ p => inferInstanceAs (Decidable (p.length < 2 ^ 64))
  | .makeRoom _ len => inferInstanceAs (Decidable (len < 2 ^ 64))
  | .addSize i p => inferInstanceAs (Decidable (p.length ≤ (s i).space))
  | .consume i len => inferInstanceAs (Decidable (len ≤ (s i).size))
  | .setSuggestSize _ sz => inferInstanceAs (Decidable (sz < 2 ^ 64))
  | .copy i j => inferInstanceAs (Decidable (i ≠ j))
  | .makeRoomExp _ => isTrue trivial
  | .clear _ => isTrue trivial
  | .absorb _ _ => isTrue trivial
  | .assign _ _ => isTrue trivial

instance decidableThroughout {P : Buffers ι α → BufferOp ι α → Prop}
    [∀ s op, Decidable (P s op)] : (s : Buffers ι α) → (ops : List (Heap × BufferOp ι α)) →
      Decidable (Throughout P s ops)
  | _, [] => isTrue trivial
  | s, (heap, op) :: ops =>
      letI : Decidable (match exec heap s op with
          | .ok s' => Throughout P s' ops
          | .error _ => True) :=
        match exec heap s op with
        | .ok s' => decidableThroughout s' ops
        | .error _ => isTrue trivial
      inferInstanceAs (Decidable (_ ∧ _))

end Buffers

open Buffers in
/-- From fresh buffers on, memory is never left, every buffer represents the list
its operations denote and the promised room is there, if and only if no request
makes `e_ + len` wrap around. -/
theorem buffers_are_queues_iff {ι α : Type} [DecidableEq ι] [Inhabited α]
    (ops : List (Heap × BufferOp ι α)) (hok : Throughout Allowed new ops) :
    QueueRun new (fun _ => []) ops ↔ Throughout RequestFits new ops :=
  queueRun_iff ops Formed.new hok

open Buffers in
/-- Two buffers that grow, move their bytes, swap and copy. -/
theorem buffers_are_queues_iff_pair :
    let ops : List (Heap × BufferOp Bool UInt8) :=
      [(.full, .setSuggestSize true 1), (.full, .setSuggestSize false 2),
        (.full, .append true [1, 2, 3]), (.full, .consume true 2), (.full, .append true [4]),
        (.full, .absorb false true), (.full, .absorb false false), (.full, .makeRoomExp true),
        (.full, .addSize true [9]), (.full, .copy true false), (.full, .assign false true)]
    QueueRun new (fun _ => []) ops ↔ Throughout RequestFits new ops :=
  buffers_are_queues_iff _ (by decide)

open Buffers in
/-- With one byte in the buffer `makeRoom(SIZE_MAX)` returns and has made no room. -/
theorem makeRoom_gives_no_room :
    let ops : List (Heap × BufferOp Unit UInt8) :=
      [(.full, .setSuggestSize () 1), (.full, .append () [7]), (.full, .makeRoom () (2 ^ 64 - 1))]
    Throughout Allowed new ops ∧ ¬ QueueRun new (fun _ => []) ops := by
  refine ⟨by decide, ?_⟩
  rintro ⟨-, -, -, -, -, hroom, -⟩
  change 2 ^ 64 - 1 ≤ 0 at hroom
  omega

end Handy
