import Handy.Base.Timers

/-! # The poll timeout

`nextTimeout_` is what `loop_once` lets the poller wait at most. `refreshNearest`
converts the distance to the earliest timer to `int` and clamps it after that, so a
distance far below zero can come out positive. Between refreshes entries only go
away, which moves the earliest timer up and never breaks the bound.
-/

namespace Handy

namespace Timers

/-- The clock that the last `refreshNearest` of a step reads, if there is one: `runAt`
calls it, `repeatableTimeout` does, and `handleTimeouts` does at its end. -/
def refreshedAt (s : Timers) (choice : Choice) : Option Int :=
  if s.fault.isSome then none
  else
    match choice with
    | .runAt _ _ clock => if s.UserRuns ∧ s.exit = false then some clock else none
    | .go clock =>
        match s.stack with
        | .sweep tid :: _ =>
            match s.timers.first? with
            | some (key, task) =>
                if key < tid then
                  match task with
                  | .user => none
                  | .repeatable id => if s.timerReps.get? id = none then none else some clock
                else some clock
            | none => some clock
        | _ => none
    | _ => none

/-- A step and the clock of the last refresh up to it. -/
def timed (p : Timers × Int) (choice : Choice) : Timers × Int :=
  (p.1.step choice, (p.1.refreshedAt choice).getD p.2)

/-- `nextTimeout_` is not negative and ends no later than the earliest timer, as seen
from the last refresh. -/
def WakesInTime (p : Timers × Int) : Prop :=
  0 ≤ p.1.nextTimeout ∧
    ∀ t task, p.1.timers.first? = some (t, task) → p.1.nextTimeout ≤ max 0 (t.first - p.2)

/-- The earliest timer is not in the past, or it is late by no more than half a turn of
an `int`, beside whole turns. -/
def NotLost (s : Timers) (clock : Int) : Prop :=
  ∀ t task, s.timers.first? = some (t, task) →
    clock ≤ t.first ∨ (clock - t.first) % 2 ^ 32 ≤ 2 ^ 31

/-- The step refreshes, if at all, with no timer lost. -/
def KeepsSight (p : Timers × Int) (choice : Choice) : Prop :=
  ∀ clock, p.1.refreshedAt choice = some clock → NotLost (p.1.step choice) clock

/-- What a step can do to the map and to `nextTimeout_`. -/
inductive Refreshed (s : Timers) : Option Int → Timers → Prop
  | refresh (t : Timers) (clock : Int) : Refreshed s (some clock) (t.refreshNearest clock)
  | keep {t : Timers} (hnext : t.nextTimeout = s.nextTimeout)
      (hsub : ∀ key task, t.timers.get? key = some task → s.timers.get? key = some task) :
      Refreshed s none t

theorem Refreshed.same {s t : Timers} (hnext : t.nextTimeout = s.nextTimeout)
    (htimers : t.timers = s.timers) : Refreshed s none t :=
  .keep hnext fun _ _ hkey => htimers ▸ hkey

theorem Refreshed.cancel {s t : Timers} {id : TimerId} {answer : Bool}
    (h : s.cancel id = .ok (answer, t)) : Refreshed s none t := by
  unfold Timers.cancel at h
  split at h
  · split at h
    · cases h
    · next p hp =>
        cases h
        refine Refreshed.keep rfl fun key task hkey => ?_
        dsimp only at hkey
        split at hkey
        · exact (OrdMap.get?_of_erase hkey).2
        · exact hkey
  · split at h
    · cases h
      exact Refreshed.keep rfl fun key task hkey => (OrdMap.get?_of_erase hkey).2
    · cases h
      exact Refreshed.same rfl rfl

theorem Refreshed.runAt (s : Timers) (milli interval clock : Int) :
    Refreshed s (if s.exit = false then some clock else none)
      (s.runAt milli interval clock).2 := by
  unfold Timers.runAt
  by_cases hexit : s.exit = true
  · rw [if_pos hexit, if_neg (by simp [hexit])]
    exact Refreshed.same rfl rfl
  · rw [if_neg hexit, if_pos (Bool.eq_false_of_not_eq_true hexit)]
    split
    · exact Refreshed.refresh _ _
    · exact Refreshed.refresh _ _

/-- The head of the loop of `handleTimeouts`: a one-shot task is entered without a refresh. -/
theorem Refreshed.sweep (s : Timers) (tid : TimerId) (rest : List TimerFrame) (clock : Int) :
    Refreshed s
      (match s.timers.first? with
        | some (key, task) =>
            if key < tid then
              match task with
              | .user => none
              | .repeatable id => if s.timerReps.get? id = none then none else some clock
            else some clock
        | none => some clock)
      (s.sweep tid rest clock) := by
  unfold Timers.sweep
  cases hfirst : s.timers.first? with
  | none => exact Refreshed.refresh _ _
  | some entry =>
      obtain ⟨key, task⟩ := entry
      dsimp only
      by_cases hlt : key < tid
      · rw [if_pos hlt, if_pos hlt]
        cases task with
        | user => exact Refreshed.keep rfl fun key task hkey => (OrdMap.get?_of_erase hkey).2
        | repeatable id =>
            dsimp only
            unfold repeatableTimeout
            dsimp only
            cases s.timerReps.get? id with
            | none => exact Refreshed.keep rfl fun key task hkey => (OrdMap.get?_of_erase hkey).2
            | some r => exact Refreshed.refresh _ _
      · rw [if_neg hlt, if_neg hlt]
        exact Refreshed.refresh _ _

theorem refreshed_step (s : Timers) (choice : Choice) :
    Refreshed s (s.refreshedAt choice) (s.step choice) := by
  unfold step refreshedAt
  split
  · exact Refreshed.same rfl rfl
  · cases choice with
    | runAt milli interval clock =>
        dsimp only
        by_cases hruns : s.UserRuns = true
        · simp only [hruns, if_true, true_and]
          exact Refreshed.runAt s milli interval clock
        · rw [if_neg hruns, if_neg fun hc => hruns hc.1]
          exact Refreshed.same rfl rfl
    | cancel id =>
        dsimp only
        split
        · split
          · next answer t h => exact Refreshed.cancel h
          · exact Refreshed.same rfl rfl
        · exact Refreshed.same rfl rfl
    | handleTimeouts now =>
        dsimp only
        split
        · exact Refreshed.same rfl rfl
        · exact Refreshed.same rfl rfl
    | go clock =>
        dsimp only
        rcases s.stack with _ | ⟨_ | _, rest⟩
        · exact Refreshed.same rfl rfl
        · exact Refreshed.sweep s _ rest clock
        · exact Refreshed.same rfl rfl
    | ret =>
        dsimp only
        split
        · exact Refreshed.same rfl rfl
        · exact Refreshed.same rfl rfl
    | exit => exact Refreshed.same rfl rfl
    | clear =>
        dsimp only
        split
        · exact Refreshed.keep rfl fun key task hkey => by cases hkey
        · exact Refreshed.same rfl rfl

/-! ## The bound -/

theorem narrow32_wrap64 (n : Int) : narrow32 (wrap64 n) = narrow32 n := by
  rw [narrow32, wrap64, narrow32]
  omega

/-- The clamped distance is no longer than the real one, except where half a turn of an
`int` is missing. -/
theorem clamp_le_iff (n : Int) :
    (if narrow32 n < 0 then 0 else narrow32 n) ≤ max 0 n ↔ 0 ≤ n ∨ (-n) % 2 ^ 32 ≤ 2 ^ 31 := by
  rw [narrow32]
  split
  · next hneg => exact iff_of_true (by omega) (by omega)
  · next hpos =>
      by_cases hn : 0 ≤ n
      · exact iff_of_true (by omega) (Or.inl hn)
      · omega

theorem refreshNearest_timers (s : Timers) (clock : Int) :
    (s.refreshNearest clock).timers = s.timers := by
  unfold refreshNearest
  split
  · rfl
  · rfl

/-- A refresh sets the bound if and only if no timer is lost. -/
theorem wakesInTime_refresh_iff (s : Timers) (clock : Int) :
    WakesInTime (s.refreshNearest clock, clock) ↔ NotLost (s.refreshNearest clock) clock := by
  unfold WakesInTime NotLost
  dsimp only
  rw [refreshNearest_timers]
  unfold refreshNearest
  cases hfirst : s.timers.first? with
  | none =>
      apply iff_of_true
      · exact ⟨Int.pow_nonneg (by decide), fun t task h => by cases h⟩
      · exact fun t task h => by cases h
  | some entry =>
      obtain ⟨key, what⟩ := entry
      dsimp only
      rw [narrow32_wrap64]
      have hclamp := clamp_le_iff (key.first - clock)
      have hneg : -(key.first - clock) = clock - key.first := by omega
      rw [hneg] at hclamp
      constructor
      · rintro ⟨_, hbound⟩ t task h
        cases h
        exact (hclamp.mp (hbound key what rfl)).imp_left fun hle => by omega
      · intro hlost
        refine ⟨by split <;> omega, fun t task h => ?_⟩
        cases h
        exact hclamp.mpr ((hlost key what rfl).imp_left fun hle => by omega)

theorem WakesInTime.shrink {s t : Timers} {clock : Int} (h : WakesInTime (s, clock))
    (hnext : t.nextTimeout = s.nextTimeout)
    (hsub : ∀ key task, t.timers.get? key = some task → s.timers.get? key = some task) :
    WakesInTime (t, clock) := by
  obtain ⟨hnonneg, hbound⟩ := h
  constructor
  · show 0 ≤ t.nextTimeout
    rw [hnext]
    exact hnonneg
  · intro key task hfirst
    show t.nextTimeout ≤ _
    rw [hnext]
    have hkey := hsub key task (OrdMap.get?_first hfirst)
    cases hold : s.timers.first? with
    | none =>
        rw [OrdMap.get?_of_first_none hold] at hkey
        cases hkey
    | some entry =>
        obtain ⟨a, w⟩ := entry
        have hle := TimerId.le_iff.mp (OrdMap.first_le hold hkey)
        have hnow := hbound a w hold
        dsimp only at hnow ⊢
        omega

/-- One step keeps the bound if and only if it refreshes with no timer lost. -/
theorem WakesInTime.timed_iff {p : Timers × Int} (h : WakesInTime p) (choice : Choice) :
    WakesInTime (timed p choice) ↔ KeepsSight p choice := by
  obtain ⟨s, last⟩ := p
  have hstep := refreshed_step s choice
  unfold timed KeepsSight
  dsimp only
  generalize s.step choice = t at hstep ⊢
  generalize s.refreshedAt choice = clock? at hstep ⊢
  cases hstep with
  | refresh u clock =>
      rw [Option.getD_some, wakesInTime_refresh_iff]
      constructor
      · intro hlost c hc
        cases hc
        exact hlost
      · exact fun hlost => hlost clock rfl
  | keep hnext hsub =>
      exact iff_of_true (h.shrink hnext hsub) fun clock hclock => by cases hclock

end Timers

open Timers in
/-- Along any run of `runAt`, `cancel` and `handleTimeouts`, with tasks that call them too:
`nextTimeout_` is never negative and never ends past the earliest timer, after each call
that refreshes it and after each `cancel` between, if and only if no refresh finds the
earliest timer in the past by more than half a turn of an `int`, beside whole turns. -/
theorem poll_timeout_iff (clock : Int) (choices : List Timers.Choice) :
    Driven.Along timed (fun p choice => WakesInTime (timed p choice)) (new, clock) choices ↔
      Driven.Along timed KeepsSight (new, clock) choices :=
  Driven.along_iff (fun _ choice h => h.timed_iff choice)
    ⟨Int.pow_nonneg (by decide), fun t task h => by cases h⟩

open Timers in
/-- A timer at 0, registered at a clock of our days: the poller may wait for nine days. -/
theorem poll_sleeps_past_timer :
    ¬ Driven.Along timed (fun p choice => WakesInTime (timed p choice)) (new, 1700000000000)
      [.runAt 0 0 1700000000000] := by
  intro h
  have hbound := h.1.2 ⟨0, 1⟩ .user rfl
  revert hbound
  decide

end Handy
