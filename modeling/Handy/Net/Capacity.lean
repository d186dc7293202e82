import Handy.Lib.Run
import Handy.Net.Buffer

/-! # How large a buffer gets

`makeRoom(len)` doubles the block only when the live bytes and the request fill half of
it, and moves the live bytes to the front otherwise. `makeRoom()` doubles it whenever
the space behind the live bytes runs out, however much is free in front of them.
-/

namespace Handy

namespace Buffer

variable {α : Type}

/-- One call on a buffer; bytes that the caller stores come with it. -/
inductive Call (α : Type) where
  | append (p : List α)
  | makeRoom (len : Nat)
  | makeRoomExp
  | addSize (p : List α)
  | consume (len : Nat)
  | clear

/-- The bytes that `size()` grows by, or that room is asked for. -/
def Call.requests : Call α → Nat
  | .append p => p.length
  | .makeRoom len => len
  | .addSize p => p.length
  | _ => 0

/-- What is larger than `size()` and `space()` allow changes nothing. -/
def call [Inhabited α] (x : Buffer α) : Call α → Buffer α
  | .append p => x.append p
  | .makeRoom len => x.makeRoom len
  | .makeRoomExp => x.makeRoomExp
  | .addSize p => if h : p.length ≤ x.space then x.fill p h else x
  | .consume len => if h : len ≤ x.size then x.consume len h else x
  | .clear => x.clear

/-- No more than `limit` bytes are live or just asked for. -/
def Within (limit : Nat) (x : Buffer α) (c : Call α) : Prop := x.size + c.requests ≤ limit

/-- What the capacity of a buffer with `exp_` of `exp` is to stay below. -/
def bound (exp limit : Nat) : Nat := max exp (4 * (limit + exp) + 2)

/-- Where `makeRoom()` grows the block, the block is still small. -/
def GrowsSmall (limit : Nat) (x : Buffer α) : Call α → Prop
  | .makeRoomExp => x.space < x.exp → x.cap ≤ 2 * (limit + x.exp) + 1
  | _ => True

/-- Where `makeRoom()` grows the block, `makeRoom(exp_)` does not move the live bytes to the
front. -/
def GrowsFull (x : Buffer α) : Call α → Prop
  | .makeRoomExp => x.space < x.exp → x.cap / 2 ≤ x.size + x.exp
  | _ => True

section Calls

variable [Inhabited α]

@[simp] theorem exp_makeRoom (x : Buffer α) (len : Nat) : (x.makeRoom len).exp = x.exp := by
  unfold makeRoom
  split
  · rfl
  · split <;> rfl

theorem exp_call (x : Buffer α) (c : Call α) : (x.call c).exp = x.exp := by
  cases c with
  | append p => exact x.exp_makeRoom p.length
  | makeRoom len => exact x.exp_makeRoom len
  | makeRoomExp => exact x.exp_makeRoomExp
  | addSize p =>
      rw [call]
      split <;> rfl
  | consume len =>
      rw [call]
      split
      · exact x.exp_consume len _
      · rfl
  | clear => rfl

theorem cap_makeRoom_le {x : Buffer α} {len limit : Nat} (hcap : x.cap ≤ bound x.exp limit)
    (hwithin : x.size + len ≤ limit) : (x.makeRoom len).cap ≤ bound x.exp limit := by
  unfold bound at hcap ⊢
  unfold makeRoom
  split
  · exact hcap
  · split
    · rw [cap_moveHead]
      exact hcap
    · rw [cap_expand]
      omega

/-- `makeRoom()` keeps the block within the bound just when it is small where it grows. -/
theorem cap_makeRoomExp_iff {x : Buffer α} {limit : Nat} (hcap : x.cap ≤ bound x.exp limit)
    (hwithin : x.size ≤ limit) :
    x.makeRoomExp.cap ≤ bound x.exp limit ↔
      (x.space < x.exp → x.cap ≤ 2 * (limit + x.exp) + 1) := by
  unfold bound at hcap ⊢
  unfold makeRoomExp
  split
  · rw [cap_expand]
    omega
  · next hroom =>
      constructor
      · intro _ hspace
        exact absurd hspace hroom
      · exact fun _ => hcap

/-- Every other call keeps it within the bound. -/
theorem cap_call_iff {x : Buffer α} {c : Call α} {limit : Nat} (hcap : x.cap ≤ bound x.exp limit)
    (hwithin : Within limit x c) :
    (x.call c).cap ≤ bound x.exp limit ↔ GrowsSmall limit x c := by
  cases c with
  | append p =>
      have hle : (x.append p).cap ≤ bound x.exp limit := by
        rw [append, cap_fill]
        exact cap_makeRoom_le hcap hwithin
      exact iff_of_true hle trivial
  | makeRoom len => exact iff_of_true (cap_makeRoom_le hcap hwithin) trivial
  | makeRoomExp => exact cap_makeRoomExp_iff hcap hwithin
  | addSize p =>
      rw [call]
      split
      · rw [cap_fill]
        exact iff_of_true hcap trivial
      · exact iff_of_true hcap trivial
  | consume len =>
      rw [call]
      split
      · exact iff_of_true (Nat.le_trans (x.cap_consume len _) hcap) trivial
      · exact iff_of_true hcap trivial
  | clear => exact iff_of_true (Nat.zero_le _) trivial

theorem run_cap_iff {x : Buffer α} {calls : List (Call α)} {exp limit : Nat} (hexp : x.exp = exp)
    (hcap : x.cap ≤ bound exp limit) (hwithin : Driven.Along call (Within limit) x calls) :
    Driven.Along call (fun x c => (x.call c).cap ≤ bound exp limit) x calls ↔
      Driven.Along call (GrowsSmall limit) x calls := by
  induction calls generalizing x with
  | nil => exact Iff.rfl
  | cons c calls ih =>
      subst hexp
      have hone := cap_call_iff hcap hwithin.1
      constructor
      · intro h
        exact ⟨hone.mp h.1, (ih (exp_call x c) h.1 hwithin.2).mp h.2⟩
      · intro h
        have hnext := hone.mpr h.1
        exact ⟨hnext, (ih (exp_call x c) hnext hwithin.2).mpr h.2⟩

omit [Inhabited α] in
theorem growsSmall_of_full {x : Buffer α} {c : Call α} {limit : Nat} (hwithin : Within limit x c)
    (hfull : GrowsFull x c) : GrowsSmall limit x c := by
  cases c with
  | makeRoomExp =>
      intro hspace
      have hhalf := hfull hspace
      have hsize : x.size ≤ limit := hwithin
      omega
  | _ => trivial

/-- If `makeRoom()` grew the block only where `makeRoom(exp_)` does, the bound would hold. -/
theorem capacity_bounded_of_full (exp limit : Nat) (calls : List (Call α))
    (hwithin : Driven.Along call (Within limit) (new.setSuggestSize exp) calls)
    (hfull : Driven.Along call GrowsFull (new.setSuggestSize exp) calls) :
    Driven.Along call (fun x c => (x.call c).cap ≤ bound exp limit) (new.setSuggestSize exp)
      calls := by
  apply (run_cap_iff rfl (Nat.zero_le _) hwithin).mpr
  have hboth := Driven.along_and.mpr ⟨hwithin, hfull⟩
  exact hboth.imp fun x c h => growsSmall_of_full h.1 h.2

end Calls

/-- From an empty buffer, with no more than `limit` bytes live or just asked for, the
capacity stays within its bound just as long as every `makeRoom()` that finds less than
`exp_` bytes of space finds a block of at most half of it. -/
theorem capacity_bounded_iff [Inhabited α] (exp limit : Nat) (calls : List (Call α))
    (hwithin : Driven.Along call (Within limit) (new.setSuggestSize exp) calls) :
    Driven.Along call (fun x c => (x.call c).cap ≤ bound exp limit) (new.setSuggestSize exp) calls ↔
      Driven.Along call (GrowsSmall limit) (new.setSuggestSize exp) calls :=
  run_cap_iff rfl (Nat.zero_le _) hwithin

instance (limit : Nat) (x : Buffer α) (c : Call α) : Decidable (Within limit x c) :=
  inferInstanceAs (Decidable (_ ≤ _))

instance (limit : Nat) (x : Buffer α) : (c : Call α) → Decidable (GrowsSmall limit x c)
  | .makeRoomExp => inferInstanceAs (Decidable (_ → _))
  | .append _ => isTrue trivial
  | .makeRoom _ => isTrue trivial
  | .addSize _ => isTrue trivial
  | .consume _ => isTrue trivial
  | .clear => isTrue trivial

/-- Room is made in each way, the second time in front. -/
theorem capacity_bounded_iff_calls :
    Driven.Along call (fun x c => (x.call c).cap ≤ bound 4 8) (new.setSuggestSize 4)
      ([.makeRoomExp, .addSize [1, 2, 3], .makeRoomExp, .append [4, 5], .consume 4, .makeRoom 6,
        .append [6, 7], .clear] : List (Call UInt8)) :=
  (capacity_bounded_iff 4 8 _ (by decide +kernel)).mpr (by decide +kernel)

/-- Bytes come and go one at a time, and one stays. -/
def trickle : List (Call UInt8) :=
  [.makeRoomExp, .addSize [0]] ++
    (List.replicate 12 [.makeRoomExp, .addSize [0], .consume 1]).flatten

/-- With two bytes live at most and an `exp_` of one the block grows to sixteen. -/
theorem trickle_grows :
    Driven.Along call (Within 2) (new.setSuggestSize 1) trickle ∧ bound 1 2 = 14 ∧
      (Driven.run call (new.setSuggestSize 1) trickle).cap = 16 ∧
      ¬ Driven.Along call (fun x c => (x.call c).cap ≤ bound 1 2) (new.setSuggestSize 1) trickle := by
  refine ⟨by decide +kernel, by decide, by decide +kernel, ?_⟩
  decide +kernel

end Buffer

end Handy
