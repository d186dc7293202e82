import Handy.Lib.Rotation
import Handy.Lib.Run

/-! # Several event bases

`MultiBase::allocBase` hands out the bases of a vector in turn. The counter is an atomic
`int` that wraps around, and the remainder is taken of it as a `size_t`, so the turn can
jump where the counter leaves the positive numbers and where it comes back.
-/

namespace Handy

/-- `bases_.size()` and `id_`. -/
structure MultiBase where
  size : Nat
  id : Int32
deriving DecidableEq

namespace MultiBase

/-- `MultiBase(sz)`. -/
def new (sz : Nat) : MultiBase := ⟨sz, 0⟩

/-- An `int` converted to `size_t`. -/
def toSizeT (c : Int32) : Nat := (c.toInt % 18446744073709551616).toNat

/-- `MultiBase::allocBase`: the index of the base, and what is left. -/
def allocBase (b : MultiBase) : Nat × MultiBase :=
  let c := b.id
  (toSizeT c % b.size, { b with id := b.id + 1 })

/-- The bases that `m` calls hand out. -/
def allocs (b : MultiBase) : Nat → List Nat
  | 0 => []
  | m + 1 => b.allocBase.1 :: b.allocBase.2.allocs m

/-- What the call number `k` hands out. -/
def alloc (sz k : Nat) : Nat := toSizeT (Int32.ofNat k) % sz

theorem allocs_from (sz k m : Nat) :
    allocs ⟨sz, Int32.ofNat k⟩ m = (List.range m).map fun r => alloc sz (k + r) := by
  induction m generalizing k with
  | zero => rfl
  | succ m ih =>
      have hnext : (allocBase ⟨sz, Int32.ofNat k⟩).2 = ⟨sz, Int32.ofNat (k + 1)⟩ := by
        rw [Int32.ofNat_add]
        rfl
      rw [allocs, hnext, ih, List.range_succ_eq_map, List.map_cons, List.map_map]
      congr 1
      apply List.map_congr_left
      intro r _
      rw [Function.comp_apply, Nat.succ_eq_add_one, Nat.add_right_comm, Nat.add_assoc]

theorem allocs_new (sz m : Nat) : (new sz).allocs m = (List.range m).map (alloc sz) := by
  have hfrom := allocs_from sz 0 m
  simp only [Nat.zero_add] at hfrom
  exact hfrom

theorem toSizeT_ofNat (k : Nat) :
    toSizeT (Int32.ofNat k) =
      if k % 2 ^ 32 < 2 ^ 31 then k % 2 ^ 32 else k % 2 ^ 32 + (2 ^ 64 - 2 ^ 32) := by
  have hsize : Int32.size = 2 ^ 32 := rfl
  unfold toSizeT
  rw [Int32.toInt_ofNat', hsize, Int.bmod_def]
  split
  · next hlow =>
      rw [if_pos (by omega)]
      omega
  · next hhigh =>
      rw [if_neg (by omega)]
      omega

/-- Between two jumps of the counter the bases come in turn. -/
theorem pieces_alloc (sz : Nat) : Rotation.Pieces (alloc sz) sz (2 ^ 31) := by
  intro q
  rcases Nat.mod_two_eq_zero_or_one q with heven | hodd
  · refine ⟨0, fun r hr => ?_⟩
    have hmod : (q * 2 ^ 31 + r) % 2 ^ 32 = r := by omega
    rw [alloc, toSizeT_ofNat, hmod, if_pos hr, Nat.zero_add]
  · refine ⟨2 ^ 64 - 2 ^ 31, fun r hr => ?_⟩
    have hmod : (q * 2 ^ 31 + r) % 2 ^ 32 = 2 ^ 31 + r := by omega
    have hsum : 2 ^ 31 + r + (2 ^ 64 - 2 ^ 32) = 2 ^ 64 - 2 ^ 31 + r := by omega
    rw [alloc, toSizeT_ofNat, hmod, if_neg (by omega), hsum]

/-- A number of bases that divides the range of the counter is never out of turn. -/
theorem alloc_of_dvd {sz : Nat} (h : sz ∣ 2 ^ 31) (k : Nat) : alloc sz k = k % sz := by
  have h32 : sz ∣ 2 ^ 32 := Nat.dvd_trans h ⟨2, by decide⟩
  have h64 : sz ∣ 2 ^ 64 - 2 ^ 32 := Nat.dvd_trans h ⟨2 ^ 33 - 2, by decide⟩
  rw [alloc, toSizeT_ofNat]
  split
  · exact Nat.mod_mod_of_dvd k h32
  · obtain ⟨c, hc⟩ := h64
    rw [hc, Nat.add_mul_mod_self_left]
    exact Nat.mod_mod_of_dvd k h32

theorem count_map_range (f : Nat → Nat) (m i : Nat) :
    ((List.range m).map f).count i = Nat.count (f · = i) m := by
  rw [Nat.count, List.count, List.countP_map]
  rfl

theorem allocs_lt {sz : Nat} (h : 0 < sz) (m : Nat) : ∀ i ∈ (new sz).allocs m, i < sz := by
  intro i hi
  rw [allocs_new] at hi
  obtain ⟨k, -, rfl⟩ := List.mem_map.mp hi
  exact Nat.mod_lt _ h

/-- Every call hands out a base of the vector. After `m` calls no base has been handed out more
often than another by more than the number of half turns of the counter begun, and if their
number divides `2 ^ 31` never by more than one. -/
theorem allocBase_fair (sz m i j : Nat) (hi : i < sz) (hj : j < sz) :
    (∀ base ∈ (new sz).allocs m, base < sz) ∧
      ((new sz).allocs m).count i ≤ ((new sz).allocs m).count j + (m + 2 ^ 31 - 1) / 2 ^ 31 ∧
      (sz ∣ 2 ^ 31 → ((new sz).allocs m).count i ≤ ((new sz).allocs m).count j + 1) := by
  refine ⟨allocs_lt (Nat.zero_lt_of_lt hi) m, ?_, fun hdvd => ?_⟩
  · rw [allocs_new, count_map_range, count_map_range]
    exact Rotation.count_le (pieces_alloc sz) (by decide) hi hj m
  · have hturns : ∀ k, Nat.count (alloc sz · = k) m = Rotation.turns sz 0 m k := by
      intro k
      unfold Rotation.turns
      simp only [alloc_of_dvd hdvd, Nat.zero_add]
    rw [allocs_new, count_map_range, count_map_range, hturns, hturns]
    exact Rotation.turns_le hi hj 0 m

theorem allocBase_fair_four :
    ((new 4).allocs 6).count 1 = 2 ∧
      ((new 4).allocs 6).count 1 ≤ ((new 4).allocs 6).count 3 + 1 := by
  have h := allocBase_fair 4 6 1 3 (by decide) (by decide)
  exact ⟨by decide, h.2.2 (by decide)⟩

end MultiBase

end Handy
