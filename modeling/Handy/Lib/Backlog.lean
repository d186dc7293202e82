import Mathlib.Data.List.Pairwise

/-! # One job a turn

A server that takes at most one job in each of its turns, out of those that have
arrived by then. A sequence of turns is the list of how many jobs have arrived in
all when each turn is taken. `done_eq_iff` says when the turns suffice for `n`
jobs: there are `n` of them, and at no point are more jobs still to come than
turns.
-/

namespace Backlog

/-- The jobs done after the turns, `k` of them before. -/
def done (k : Nat) : List Nat → Nat
  | [] => k
  | w :: ws => done (if k < w then k + 1 else k) ws

/-- At every point the jobs that have not arrived are at most as many as the turns
to come; `k` have arrived before the first. -/
def KeepsUp (n k : Nat) : List Nat → Prop
  | [] => n ≤ k
  | w :: ws => n ≤ k + (w :: ws).length ∧ KeepsUp n w ws

instance decidableKeepsUp (n k : Nat) : (ws : List Nat) → Decidable (KeepsUp n k ws)
  | [] => inferInstanceAs (Decidable (n ≤ k))
  | w :: ws =>
      letI := decidableKeepsUp n w ws
      inferInstanceAs (Decidable (n ≤ k + (w :: ws).length ∧ KeepsUp n w ws))

@[simp] theorem done_nil (k : Nat) : done k [] = k := rfl

theorem KeepsUp.le {n k : Nat} {ws : List Nat} (h : KeepsUp n k ws) : n ≤ k + ws.length := by
  cases ws with
  | nil => exact h
  | cons w ws => exact h.1

/-- With no job left over at the start, all `n` are done if and only if the turns
keep up with them. -/
theorem done_eq_iff {n j k : Nat} {ws : List Nat} (hjk : j ≤ k) (hkn : k ≤ n)
    (hsorted : (k :: ws).Pairwise (· ≤ ·)) (hbound : ∀ w ∈ ws, w ≤ n) :
    done j ws = n ↔ n ≤ j + ws.length ∧ KeepsUp n k ws := by
  induction ws generalizing j k with
  | nil =>
      simp only [done_nil, KeepsUp, List.length_nil]
      omega
  | cons w ws ih =>
      obtain ⟨hfirst, hrest⟩ := List.pairwise_cons.mp hsorted
      have hkw : k ≤ w := hfirst w List.mem_cons_self
      have hwn : w ≤ n := hbound w List.mem_cons_self
      have hlater : ∀ v ∈ ws, v ≤ n := fun v hv => hbound v (List.mem_cons_of_mem w hv)
      rw [done]
      by_cases hjob : j < w
      · rw [if_pos hjob, ih (by omega) hwn hrest hlater]
        simp only [KeepsUp, List.length_cons]
        constructor
        · rintro ⟨hn, hkeeps⟩
          exact ⟨by omega, by omega, hkeeps⟩
        · rintro ⟨hn, -, hkeeps⟩
          exact ⟨by omega, hkeeps⟩
      · -- the queue is empty after this turn, so it starts afresh
        rw [if_neg hjob, ih (by omega) hwn hrest hlater]
        simp only [KeepsUp, List.length_cons]
        constructor
        · rintro ⟨hn, hkeeps⟩
          exact ⟨by omega, by omega, hkeeps⟩
        · rintro ⟨-, -, hkeeps⟩
          have hn := hkeeps.le
          exact ⟨by omega, hkeeps⟩

end Backlog
