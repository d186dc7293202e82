import Mathlib.Data.Nat.Count

/-! # Taking turns

Numbers counted round and round modulo `n`, from anywhere: over any number of turns no
one comes up more than once more often than another. A count that jumps can favour
someone once more at each jump.
-/

namespace Rotation

/-- How often `i` comes up in `m` turns from `a` on. -/
def turns (n a m i : Nat) : Nat := Nat.count (fun k => (a + k) % n = i) m

/-- The turns of `i` are the multiples of `n` passed, seen from where `i` is one. -/
theorem turns_eq {n i : Nat} (hi : i < n) (a m : Nat) :
    turns n a m i + (a + (n - 1 - i)) / n = (a + m + (n - 1 - i)) / n := by
  induction m with
  | zero => simp [turns]
  | succ m ih =>
      have hstep : (a + (m + 1) + (n - 1 - i)) / n =
          (a + m + (n - 1 - i)) / n + if (a + m) % n = i then 1 else 0 := by
        have hnext : a + (m + 1) + (n - 1 - i) = a + m + (n - 1 - i) + 1 := by omega
        have hiff : n ∣ a + m + (n - 1 - i) + 1 ↔ (a + m) % n = i := by
          have hsum : a + m + (n - 1 - i) + 1 = (a + m) + (n - i) := by omega
          have hmod := Nat.mod_lt (a + m) (Nat.zero_lt_of_lt hi)
          have hdiv := Nat.div_add_mod (a + m) n
          rw [hsum]
          constructor
          · intro hdvd
            have hdvd' : n ∣ (a + m) % n + (n - i) := by
              rw [← hdiv, Nat.add_assoc] at hdvd
              exact (Nat.dvd_add_right (Nat.dvd_mul_right n _)).mp hdvd
            obtain ⟨c, hc⟩ := hdvd'
            have hone : c = 1 := by
              have hpos : 0 < n * c := by omega
              have hlt : n * c < n * 2 := by omega
              have hc0 := Nat.pos_of_mul_pos_left hpos
              have hc2 := Nat.lt_of_mul_lt_mul_left hlt
              omega
            subst hone
            omega
          · intro heq
            refine ⟨(a + m) / n + 1, ?_⟩
            rw [Nat.mul_add, Nat.mul_one]
            omega
        rw [hnext, Nat.succ_div]
        simp only [hiff]
      rw [turns, Nat.count_succ, ← turns, hstep, ← ih]
      omega

/-- No one is more than one turn ahead. -/
theorem turns_le {n i j : Nat} (hi : i < n) (hj : j < n) (a m : Nat) :
    turns n a m i ≤ turns n a m j + 1 := by
  have hn : 0 < n := Nat.zero_lt_of_lt hi
  have hleft := turns_eq hi a m
  have hright := turns_eq hj a m
  have hupper : (a + m + (n - 1 - i)) / n ≤ (a + (n - 1 - i)) / n + m / n + 1 := by
    have hsum : a + m + (n - 1 - i) = a + (n - 1 - i) + m := by omega
    rw [hsum, Nat.add_div hn]
    split <;> omega
  have hlower : (a + (n - 1 - j)) / n + m / n ≤ (a + m + (n - 1 - j)) / n := by
    have hsum : a + m + (n - 1 - j) = a + (n - 1 - j) + m := by omega
    rw [hsum, Nat.add_div (a := a + (n - 1 - j)) (b := m) hn]
    exact Nat.le_add_right _ _
  omega

section Pieces

variable {f : Nat → Nat} {n size : Nat}

/-- Turns that start anew after each `size` of them. -/
def Pieces (f : Nat → Nat) (n size : Nat) : Prop :=
  ∀ q, ∃ a, ∀ r < size, f (q * size + r) = (a + r) % n

theorem count_piece (h : Pieces f n size) (q : Nat) :
    ∃ a, ∀ r ≤ size, ∀ i,
      Nat.count (f · = i) (q * size + r) = Nat.count (f · = i) (q * size) + turns n a r i := by
  obtain ⟨a, ha⟩ := h q
  refine ⟨a, fun r hr i => ?_⟩
  rw [Nat.count_add, turns]
  congr 1
  apply Nat.le_antisymm
  · exact Nat.count_mono_left fun k hk heq => (ha k (by omega)).symm.trans heq
  · exact Nat.count_mono_left fun k hk heq => (ha k (by omega)).trans heq

theorem count_pieces_le (h : Pieces f n size) {i j : Nat} (hi : i < n) (hj : j < n) (q : Nat) :
    Nat.count (f · = i) (q * size) ≤ Nat.count (f · = j) (q * size) + q := by
  induction q with
  | zero => simp
  | succ q ih =>
      obtain ⟨a, ha⟩ := count_piece h q
      have hmore := turns_le hi hj a size
      rw [Nat.succ_mul, ha size (Nat.le_refl _) i, ha size (Nat.le_refl _) j]
      omega

/-- No one is more turns ahead than pieces have begun. -/
theorem count_le (h : Pieces f n size) (hsize : 0 < size) {i j : Nat} (hi : i < n) (hj : j < n)
    (m : Nat) : Nat.count (f · = i) m ≤ Nat.count (f · = j) m + (m + size - 1) / size := by
  have hwhole := count_pieces_le h hi hj (m / size)
  have hsplit : m / size * size + m % size = m := by
    rw [Nat.mul_comm]
    exact Nat.div_add_mod m size
  have hrest := Nat.mod_lt m hsize
  obtain ⟨a, ha⟩ := count_piece h (m / size)
  have hi' := ha (m % size) (Nat.le_of_lt hrest) i
  have hj' := ha (m % size) (Nat.le_of_lt hrest) j
  have hmore := turns_le hi hj a (m % size)
  rw [hsplit] at hi' hj'
  by_cases hzero : m % size = 0
  · have hnone : ∀ k, turns n a 0 k = 0 := fun k => Nat.count_zero _
    rw [hzero, hnone] at hi' hj'
    have hle : m / size ≤ (m + size - 1) / size := Nat.div_le_div_right (by omega)
    omega
  · have hle : m / size + 1 ≤ (m + size - 1) / size := by
      rw [Nat.le_div_iff_mul_le hsize, Nat.succ_mul]
      omega
    omega

end Pieces

end Rotation
