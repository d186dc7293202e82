import Handy.Base.TimerLife
import Mathlib.Algebra.Group.Nat.Defs
import Mathlib.Data.Int.Order.Basic

/-! # A pass over the timers

`handleTimeouts` called by the loop, with tasks that leave the store alone. A turn
of its loop starts one task and, if the task repeats, puts its next expiry into the
map being drained. That key is above the one just taken out, and an entry below the
bound is worth the turns it can still cause, which each turn brings down.
-/

namespace Handy

namespace Timers

/-! ## Calls -/

/-- A turn of the loop of `handleTimeouts`: a task is started and returns, or the
call ends. -/
def turn (s : Timers) (clock : Int) : Timers := (s.step (.go clock)).step .ret

/-- The entry that the next turn takes out. -/
def due? (s : Timers) : Option (TimerId × TimerTask) :=
  match s.stack, s.timers.first? with
  | .sweep tid :: _, some (key, task) => if key < tid then some (key, task) else none
  | _, _ => none

/-- The entries that turns take out, in order. -/
def fired (s : Timers) : List Int → List (TimerId × TimerTask)
  | [] => []
  | clock :: clocks => s.due?.toList ++ fired (s.turn clock) clocks

/-- What the task of an entry writes into the history. -/
def startedBy : TimerId × TimerTask → TimerEvent
  | (key, .user) => .started key
  | (_, .repeatable tid) => .started tid

/-- A call from outside any task. `clocks` are the readings of `refreshNearest` in the
turns of the loop; turns after its end do nothing. -/
inductive Call where
  | runAt (milli interval clock : Int)
  | handleTimeouts (now : Int) (clocks : List Int)
deriving DecidableEq, Repr

def Call.now? : Call → Option Int
  | .runAt _ _ _ => none
  | .handleTimeouts now _ => some now

/-- The state when `handleTimeouts` has read the clock. -/
def enter (s : Timers) (now : Int) : Timers := s.step (.handleTimeouts now)

def call (s : Timers) : Call → Timers
  | .runAt milli interval clock => s.step (.runAt milli interval clock)
  | .handleTimeouts now clocks => Driven.run turn (s.enter now) clocks

/-- What the calls are given: an `int64_t` time and no negative interval. -/
def Call.Proper : Call → Prop
  | .runAt milli interval _ => (-2 ^ 63 ≤ milli ∧ milli < 2 ^ 63) ∧ 0 ≤ interval
  | .handleTimeouts _ _ => True

/-- The clock does not go back, and no expiry up to the first one after it overflows. -/
def Call.Before : Call → Call → Prop
  | .runAt milli interval _, .handleTimeouts now _ =>
      milli ≤ now → milli + interval * ((now - milli) / interval + 1) < 2 ^ 63
  | .handleTimeouts now _, .handleTimeouts now' _ => now ≤ now'
  | _, .runAt _ _ _ => True

def Returns (s : Timers) (c : Call) : Prop := (s.call c).stack = []

/-- Calls that can come before `handleTimeouts` at `now`. -/
structure History (calls : List Call) (now : Int) : Prop where
  proper : ∀ c ∈ calls, c.Proper
  returns : Driven.Along call Returns new calls
  before : (calls ++ [Call.handleTimeouts now []]).Pairwise Call.Before

/-- A call of `handleTimeouts` at `now`, after `calls`, that took `s` to `s'` and fired the
entries `es`: it fired what was due, in order. -/
structure Exact (calls : List Call) (now : Int) (s : Timers) (es : List (TimerId × TimerTask))
    (s' : Timers) : Prop where
  ordered : es.Pairwise fun a b => a.1 < b.1
  due : ∀ e ∈ es, e.1.first ≤ now
  starts : s'.log = (es.map startedBy).reverse ++ s.log
  oneShot : s'.timerSeq < 2 ^ 62 → ∀ id, s.timers.get? id = some .user →
    if id.first ≤ now then s'.log.count (.started id) = 1 ∧ s'.timers.get? id = none
    else s'.log.count (.started id) = 0 ∧ s'.timers.get? id = some .user
  repeating : s'.timerSeq < 2 ^ 62 → ∀ earlier milli interval clock later,
    calls = earlier ++ .runAt milli interval clock :: later → 0 < interval →
    let tid := (Timers.runAt (Driven.run call new earlier) milli interval clock).1
    let n := s'.log.count (.started tid)
    (n : Int) = (if now < milli then 0 else (now - milli) / interval + 1) ∧
      (∃ seq, ∀ key, s'.timers.get? key = some (.repeatable tid) ↔
        key = ⟨milli + n * interval, seq⟩) ∧
      ∀ k : Nat, now < milli + k * interval ↔ n ≤ k

/-! ## A turn -/

/-- What holds of a node: its entry lies at its expiry, and it can be re-armed up to the
first time after each of `nows` without overflow. -/
structure Sound (nows : List Int) (r : TimerRepeatable) : Prop where
  key : r.timerid.first = r.expiry
  positive : 0 < r.interval
  low : -2 ^ 63 ≤ r.expiry
  room : ∀ now ∈ nows, r.expiry ≤ now →
    r.expiry + r.interval * ((now - r.expiry) / r.interval + 1) < 2 ^ 63

/-- What every call keeps; `nows` are the readings still to come. -/
structure Steady (nows : List Int) (s : Timers) : Prop where
  inv : s.Inv
  alive : s.fault = none
  sound : ∀ tid r, s.timerReps.get? tid = some r → Sound nows r

/-- The node of a repeating task that has been fired once more. -/
def again (r : TimerRepeatable) (seq : Int) : TimerRepeatable :=
  ⟨r.expiry + r.interval, r.interval, ⟨r.expiry + r.interval, seq⟩⟩

theorem steps_left {a d now : Int} (hd : 0 < d) :
    (now - (a + d)) / d + 1 = (now - a) / d := by
  have hsub : now - (a + d) = now - a + d * (-1) := by omega
  rw [hsub, Int.add_mul_ediv_left _ _ (by omega)]
  omega

/-- The last time a node is re-armed to is the same before and after. -/
theorem last_expiry {a d now : Int} (hd : 0 < d) :
    a + d + d * ((now - (a + d)) / d + 1) = a + d * ((now - a) / d + 1) := by
  rw [steps_left hd, Int.mul_add, Int.mul_one]
  omega

theorem Sound.next_lt {nows : List Int} {r : TimerRepeatable} (h : Sound nows r) {now : Int}
    (hnow : now ∈ nows) (hdue : r.expiry ≤ now) : r.expiry + r.interval < 2 ^ 63 := by
  have hroom := h.room now hnow hdue
  have hpos := h.positive
  have hdiv : 0 ≤ (now - r.expiry) / r.interval := Int.ediv_nonneg (by omega) (by omega)
  have hmul : r.interval * 1 ≤ r.interval * ((now - r.expiry) / r.interval + 1) :=
    Int.mul_le_mul_of_nonneg_left (by omega) (by omega)
  omega

theorem Sound.again {nows : List Int} {r : TimerRepeatable} (h : Sound nows r) (seq : Int) :
    Sound nows (again r seq) where
  key := rfl
  positive := h.positive
  low := by
    have hlow := h.low
    have hpos := h.positive
    show -2 ^ 63 ≤ r.expiry + r.interval
    omega
  room now hnow hdue := by
    have hpos := h.positive
    have hdue' : r.expiry ≤ now := by
      change r.expiry + r.interval ≤ now at hdue
      omega
    have hroom := h.room now hnow hdue'
    show r.expiry + r.interval + r.interval * ((now - (r.expiry + r.interval)) / r.interval + 1)
      < 2 ^ 63
    rw [last_expiry hpos]
    exact hroom

theorem wrap64_of_range {n : Int} (h : -2 ^ 63 ≤ n ∧ n < 2 ^ 63) : wrap64 n = n := by
  rw [wrap64]
  omega

theorem Sound.wrap_next {nows : List Int} {r : TimerRepeatable} (h : Sound nows r) {now : Int}
    (hnow : now ∈ nows) (hdue : r.expiry ≤ now) :
    wrap64 (r.expiry + r.interval) = r.expiry + r.interval := by
  apply wrap64_of_range
  have hlow := h.low
  have hpos := h.positive
  exact ⟨by omega, h.next_lt hnow hdue⟩

/-- What a turn can be, between `handleTimeouts` with its bound and its end. -/
inductive Turned (s : Timers) (bound : TimerId) : Timers → Prop
  | ended (next : Int) (hdue : s.due? = none)
      (hrest : ∀ key task, s.timers.get? key = some task → bound ≤ key) :
      Turned s bound { s with stack := [], nextTimeout := next }
  | oneShot {key : TimerId} (hdue : s.due? = some (key, .user)) (hlt : key < bound)
      (hfirst : s.timers.first? = some (key, .user)) :
      Turned s bound { s with timers := s.timers.erase key, log := .started key :: s.log }
  | repeating {tid : TimerId} {r : TimerRepeatable} (next : Int)
      (hdue : s.due? = some (r.timerid, .repeatable tid)) (hlt : r.timerid < bound)
      (hfirst : s.timers.first? = some (r.timerid, .repeatable tid))
      (hr : s.timerReps.get? tid = some r) :
      Turned s bound
        { s with
          timerSeq := s.timerSeq + 1
          timerReps := s.timerReps.insert tid (again r (s.timerSeq + 1))
          timers := (s.timers.erase r.timerid).insert (again r (s.timerSeq + 1)).timerid
            (.repeatable tid)
          log := .started tid :: s.log
          nextTimeout := next }

theorem refreshNearest_frame (s : Timers) (clock : Int) :
    ∃ next, s.refreshNearest clock = { s with nextTimeout := next } := by
  unfold refreshNearest
  split
  · exact ⟨_, rfl⟩
  · exact ⟨_, rfl⟩

theorem lt_bound {key : TimerId} {now : Int} (h : key < ⟨now, 2 ^ 62⟩) : key.first ≤ now := by
  have hlt := TimerId.lt_iff.mp h
  dsimp only at hlt
  omega

theorem step_go {s : Timers} (halive : s.fault = none) {bound : TimerId} {rest : List TimerFrame}
    (hstack : s.stack = .sweep bound :: rest) (clock : Int) :
    s.step (.go clock) = s.sweep bound rest clock := by
  rw [step, if_neg (by simp [halive])]
  simp only [hstack]

theorem step_ret_task {s : Timers} (halive : s.fault = none) {rest : List TimerFrame}
    (hstack : s.stack = .task :: rest) : s.step .ret = { s with stack := rest } := by
  rw [step, if_neg (by simp [halive])]
  simp only [hstack]

theorem step_ret_empty {s : Timers} (hstack : s.stack = []) : s.step .ret = s := by
  rw [step]
  split
  · rfl
  · simp only [hstack]

theorem turn_over {s : Timers} (halive : s.fault = none) {bound : TimerId}
    (hstack : s.stack = [.sweep bound]) (clock : Int)
    (hsweep : s.sweep bound [] clock = refreshNearest { s with stack := [] } clock) :
    ∃ next, s.turn clock = { s with stack := [], nextTimeout := next } := by
  obtain ⟨next, hnext⟩ := refreshNearest_frame { s with stack := [] } clock
  refine ⟨next, ?_⟩
  rw [turn, step_go halive hstack, hsweep, hnext]
  exact step_ret_empty rfl

theorem turn_task {s t : Timers} (halive : s.fault = none) {bound : TimerId}
    (hstack : s.stack = [.sweep bound]) (clock : Int)
    (hsweep : s.sweep bound [] clock = { t with stack := [.task, .sweep bound] })
    (ht : t.stack = [.sweep bound]) (hfault : t.fault = none) : s.turn clock = t := by
  have hret : step { t with stack := [.task, .sweep bound] } .ret =
      { t with stack := [.sweep bound] } :=
    step_ret_task (s := { t with stack := [.task, .sweep bound] }) hfault rfl
  rw [turn, step_go halive hstack, hsweep, hret, ← ht]

/-- A turn fires the first one-shot timer that is below the bound. -/
theorem turn_oneShot {s : Timers} (halive : s.fault = none) {bound : TimerId}
    (hstack : s.stack = [.sweep bound]) {key : TimerId}
    (hfirst : s.timers.first? = some (key, .user)) (hlt : key < bound) (clock : Int) :
    s.turn clock = { s with timers := s.timers.erase key, log := .started key :: s.log } :=
  turn_task halive hstack clock (by simp only [sweep, hfirst, if_pos hlt, hstack]) hstack halive

theorem turn_of_empty {s : Timers} (hstack : s.stack = []) (clock : Int) : s.turn clock = s := by
  have hgo : s.step (.go clock) = s := by
    rw [step, hstack]
    split
    · rfl
    · rfl
  rw [turn, hgo]
  exact step_ret_empty hstack

theorem due?_of_sweep {s : Timers} {bound : TimerId} {rest : List TimerFrame}
    (hstack : s.stack = .sweep bound :: rest) {key : TimerId} {task : TimerTask}
    (hfirst : s.timers.first? = some (key, task)) :
    s.due? = if key < bound then some (key, task) else none := by
  rw [due?, hstack, hfirst]

/-- A sweep that finds a repeating task due fires it and puts it back an interval later. -/
theorem sweep_repeats {s : Timers} {bound : TimerId} {tid : TimerId} {r : TimerRepeatable}
    (hfirst : s.timers.first? = some (r.timerid, .repeatable tid)) (hlt : r.timerid < bound)
    (hr : s.timerReps.get? tid = some r)
    (hwrap : wrap64 (r.expiry + r.interval) = r.expiry + r.interval) (clock : Int) :
    ∃ next, s.sweep bound [] clock = { s with
      timerSeq := s.timerSeq + 1
      timerReps := s.timerReps.insert tid (again r (s.timerSeq + 1))
      timers := (s.timers.erase r.timerid).insert (again r (s.timerSeq + 1)).timerid
        (.repeatable tid)
      log := .started tid :: s.log
      stack := .task :: s.stack
      nextTimeout := next } := by
  simp only [sweep, hfirst, if_pos hlt, repeatableTimeout, hr, hwrap]
  exact refreshNearest_frame _ clock

theorem Steady.turned {nows : List Int} {s : Timers} (h : s.Steady nows) {now : Int}
    (hnow : now ∈ nows) (hstack : s.stack = [.sweep ⟨now, 2 ^ 62⟩]) (clock : Int) :
    Turned s ⟨now, 2 ^ 62⟩ (s.turn clock) := by
  cases hfirst : s.timers.first? with
  | none =>
      obtain ⟨next, hturn⟩ := turn_over h.alive hstack clock (by rw [sweep, hfirst])
      rw [hturn]
      apply Turned.ended
      · rw [due?, hstack, hfirst]
      · intro key task hkey
        rw [OrdMap.get?_of_first_none hfirst] at hkey
        cases hkey
  | some entry =>
      obtain ⟨key, task⟩ := entry
      have hdue := due?_of_sweep hstack hfirst
      by_cases hlt : key < ⟨now, 2 ^ 62⟩
      · rw [if_pos hlt] at hdue
        cases task with
        | user =>
            rw [turn_oneShot h.alive hstack hfirst hlt clock]
            exact Turned.oneShot hdue hlt hfirst
        | repeatable tid =>
            obtain ⟨r, hr, rfl⟩ := h.inv.linked.owned key tid (OrdMap.get?_first hfirst)
            have hsound := h.sound tid r hr
            have hpast : r.expiry ≤ now := hsound.key ▸ lt_bound hlt
            obtain ⟨next, hsweep⟩ :=
              sweep_repeats hfirst hlt hr (hsound.wrap_next hnow hpast) clock
            rw [turn_task h.alive hstack clock (t := { s with
                timerSeq := s.timerSeq + 1
                timerReps := s.timerReps.insert tid (again r (s.timerSeq + 1))
                timers := (s.timers.erase r.timerid).insert (again r (s.timerSeq + 1)).timerid
                  (.repeatable tid)
                log := .started tid :: s.log
                nextTimeout := next })
              (by rw [hsweep, hstack]) hstack h.alive]
            exact Turned.repeating next hdue hlt hfirst hr
      · rw [if_neg hlt] at hdue
        obtain ⟨next, hturn⟩ :=
          turn_over h.alive hstack clock (by simp only [sweep, hfirst, if_neg hlt])
        rw [hturn]
        apply Turned.ended next hdue
        intro a w ha
        exact le_trans (not_lt.mp hlt) (OrdMap.first_le hfirst ha)

theorem Steady.turn {nows : List Int} {s : Timers} (h : s.Steady nows) {now : Int}
    (hnow : now ∈ nows) (hstack : s.stack = [.sweep ⟨now, 2 ^ 62⟩]) (clock : Int) :
    (s.turn clock).Steady nows := by
  have hgo : (s.step (.go clock)).Inv := h.inv.step trivial
  have hinv : (s.turn clock).Inv := hgo.step trivial
  have hturned := h.turned hnow hstack clock
  generalize s.turn clock = t at hinv hturned ⊢
  cases hturned with
  | ended next hdue hrest => exact ⟨hinv, h.alive, h.sound⟩
  | oneShot hdue hlt hfirst => exact ⟨hinv, h.alive, h.sound⟩
  | @repeating tid r next hdue hlt hfirst hr =>
      refine ⟨hinv, h.alive, fun a q hq => ?_⟩
      rw [OrdMap.get?_insert] at hq
      split at hq
      · cases hq
        exact (h.sound tid r hr).again _
      · exact h.sound a q hq

/-! ## The turns left -/

/-- The turns an entry still causes before `handleTimeouts` ends. -/
def turnsLeft (bound : TimerId) (reps : OrdMap TimerId TimerRepeatable) (key : TimerId) :
    TimerTask → Nat
  | .user => if key < bound then 1 else 0
  | .repeatable tid =>
      match reps.get? tid with
      | some r => if key < bound then ((bound.first - key.first) / r.interval + 1).toNat else 0
      | none => 0

/-- The turns all entries still cause. -/
def load (s : Timers) (bound : TimerId) : Nat := s.timers.weight (turnsLeft bound s.timerReps)

theorem turnsLeft_again {reps : OrdMap TimerId TimerRepeatable} {tid : TimerId}
    {r : TimerRepeatable} (hr : reps.get? tid = some r) (seq : Int) (bound : TimerId) :
    turnsLeft bound (reps.insert tid (again r seq)) = turnsLeft bound reps := by
  funext key task
  cases task with
  | user => rfl
  | repeatable a =>
      simp only [turnsLeft, OrdMap.get?_insert]
      by_cases ha : a = tid
      · rw [if_pos ha, ha, hr]
        rfl
      · rw [if_neg ha]

theorem turnsLeft_lt {reps : OrdMap TimerId TimerRepeatable} {tid : TimerId}
    {r : TimerRepeatable} (hr : reps.get? tid = some r) (hpos : 0 < r.interval)
    (hkey : r.timerid.first = r.expiry) (seq : Int) {now : Int}
    (hlt : r.timerid < ⟨now, 2 ^ 62⟩) :
    turnsLeft ⟨now, 2 ^ 62⟩ reps (again r seq).timerid (.repeatable tid) <
      turnsLeft ⟨now, 2 ^ 62⟩ reps r.timerid (.repeatable tid) := by
  have hpast := lt_bound hlt
  have hdiv : 0 ≤ (now - r.expiry) / r.interval := Int.ediv_nonneg (by omega) (by omega)
  have hleft : (now - (r.expiry + r.interval)) / r.interval + 1 = (now - r.expiry) / r.interval :=
    steps_left hpos
  have hnext : (again r seq).timerid.first = r.expiry + r.interval := rfl
  simp only [turnsLeft, hr, if_pos hlt, hkey]
  by_cases hagain : (again r seq).timerid < ⟨now, 2 ^ 62⟩
  · rw [if_pos hagain, hnext, hleft]
    omega
  · rw [if_neg hagain]
    omega

theorem Turned.load_lt {nows : List Int} {s t : Timers} (h : s.Steady nows) {now : Int}
    (hturned : Turned s ⟨now, 2 ^ 62⟩ t) :
    t.stack = [] ∨ (t.stack = s.stack ∧ t.load ⟨now, 2 ^ 62⟩ < s.load ⟨now, 2 ^ 62⟩) := by
  cases hturned with
  | ended next hdue hrest => exact Or.inl rfl
  | oneShot hdue hlt hfirst =>
      apply Or.inr
      refine ⟨rfl, ?_⟩
      rw [load, load, OrdMap.weight_erase_first _ hfirst, turnsLeft, if_pos hlt]
      exact Nat.lt_add_of_pos_left Nat.one_pos
  | @repeating tid r next hdue hlt hfirst hr =>
      apply Or.inr
      refine ⟨rfl, ?_⟩
      have hsound := h.sound tid r hr
      have hfresh : s.timers.get? (again r (s.timerSeq + 1)).timerid = none :=
        h.inv.fresh_key (Int.lt_succ _)
      have hnone : (s.timers.erase r.timerid).get? (again r (s.timerSeq + 1)).timerid = none := by
        rw [OrdMap.get?_erase, hfresh, ite_self]
      simp only [load, turnsLeft_again hr]
      rw [OrdMap.weight_insert _ _ hnone, OrdMap.weight_erase_first _ hfirst]
      exact Nat.add_lt_add_right (turnsLeft_lt hr hsound.positive hsound.key _ hlt) _

theorem turns_of_empty {s : Timers} (hstack : s.stack = []) (clocks : List Int) :
    Driven.run turn s clocks = s := by
  induction clocks with
  | nil => rfl
  | cons clock clocks ih => rw [Driven.run_cons, turn_of_empty hstack, ih]

/-- What a turn keeps, a pass keeps. -/
theorem Steady.turns_keep {I : Timers → Prop} {nows : List Int} {now : Int} (hnow : now ∈ nows)
    (keep : ∀ t clock, t.Steady nows → t.stack = [.sweep ⟨now, 2 ^ 62⟩] → I t → I (t.turn clock))
    {s : Timers} (h : s.Steady nows) (hstack : s.stack = [.sweep ⟨now, 2 ^ 62⟩]) (hs : I s)
    (clocks : List Int) : I (Driven.run Timers.turn s clocks) := by
  induction clocks generalizing s with
  | nil => exact hs
  | cons clock clocks ih =>
      rw [Driven.run_cons]
      have hnext := keep s clock h hstack hs
      rcases (h.turned hnow hstack clock).load_lt h with hempty | ⟨hsame, _⟩
      · rw [turns_of_empty hempty]
        exact hnext
      · exact ih (h.turn hnow hstack clock) (hsame.trans hstack) hnext

/-- The loop of `handleTimeouts` ends. -/
theorem Steady.ends {nows : List Int} {s : Timers} (h : s.Steady nows) {now : Int}
    (hnow : now ∈ nows) (hstack : s.stack = [.sweep ⟨now, 2 ^ 62⟩]) (clocks : List Int)
    (hlong : s.load ⟨now, 2 ^ 62⟩ < clocks.length) :
    (Driven.run Timers.turn s clocks).stack = [] := by
  induction clocks generalizing s with
  | nil => exact absurd hlong (Nat.not_lt_zero _)
  | cons clock clocks ih =>
      rw [Driven.run_cons]
      rcases (h.turned hnow hstack clock).load_lt h with hempty | ⟨hsame, hless⟩
      · rw [turns_of_empty hempty]
        exact hempty
      · apply ih (h.turn hnow hstack clock) (hsame.trans hstack)
        rw [List.length_cons] at hlong
        omega

/-! ## The entries a pass takes out -/

/-- Turns below `bound` took `s` to `s'` and fired `es`. -/
structure Pass (bound : TimerId) (s : Timers) (es : List (TimerId × TimerTask)) (s' : Timers) :
    Prop where
  ordered : es.Pairwise fun a b => a.1 < b.1
  above : ∀ b, (∀ key task, s.timers.get? key = some task → b < key) → ∀ e ∈ es, b < e.1
  below : ∀ e ∈ es, e.1 < bound
  starts : s'.log = (es.map startedBy).reverse ++ s.log
  owned : ∀ key tid, (key, .repeatable tid) ∈ es → .returned tid .repeating ∈ s.log
  rest : s'.stack = [] → ∀ key task, s'.timers.get? key = some task → bound ≤ key

theorem Pass.nothing {bound : TimerId} {s s' : Timers} (hlog : s'.log = s.log)
    (hrest : s'.stack = [] → ∀ key task, s'.timers.get? key = some task → bound ≤ key) :
    Pass bound s [] s' where
  ordered := List.Pairwise.nil
  above _ _ _ he := absurd he List.not_mem_nil
  below _ he := absurd he List.not_mem_nil
  starts := hlog
  owned _ _ he := absurd he List.not_mem_nil
  rest := hrest

/-- The first entry is fired; all keys behind it, a new one included, are above. -/
theorem Pass.cons {bound : TimerId} {s t s' : Timers} {e : TimerId × TimerTask}
    {es : List (TimerId × TimerTask)} (hp : Pass bound t es s')
    (hkey : s.timers.get? e.1 = some e.2) (hlt : e.1 < bound)
    (hrest : ∀ key task, t.timers.get? key = some task → e.1 < key)
    (hlog : t.log = startedBy e :: s.log)
    (hown : ∀ tid, e.2 = .repeatable tid → .returned tid .repeating ∈ s.log) :
    Pass bound s (e :: es) s' where
  ordered := List.pairwise_cons.mpr ⟨hp.above e.1 hrest, hp.ordered⟩
  above b hb a ha := by
    have hbe := hb e.1 e.2 hkey
    rcases List.mem_cons.mp ha with rfl | ha
    · exact hbe
    · exact lt_trans hbe (hp.above e.1 hrest a ha)
  below a ha := by
    rcases List.mem_cons.mp ha with rfl | ha
    · exact hlt
    · exact hp.below a ha
  starts := by rw [hp.starts, hlog, List.map_cons, List.reverse_cons, List.append_assoc]; rfl
  owned key tid ha := by
    rcases List.mem_cons.mp ha with rfl | ha
    · exact hown tid rfl
    · have hret := hp.owned key tid ha
      rw [hlog] at hret
      obtain ⟨k, _ | a⟩ := e
      · simpa [startedBy] using hret
      · simpa [startedBy] using hret
  rest := hp.rest

theorem lt_of_erase {m : OrdMap TimerId TimerTask} {k a : TimerId} {v w : TimerTask}
    (hfirst : m.first? = some (k, v)) (ha : (m.erase k).get? a = some w) : k < a := by
  obtain ⟨hne, hold⟩ := OrdMap.get?_of_erase ha
  exact lt_of_le_of_ne (OrdMap.first_le hfirst hold) (Ne.symm hne)

theorem fired_of_empty {s : Timers} (hstack : s.stack = []) (clocks : List Int) :
    fired s clocks = [] := by
  induction clocks with
  | nil => rfl
  | cons clock clocks ih =>
      have hdue : s.due? = none := by rw [due?, hstack]
      rw [fired, hdue, turn_of_empty hstack, ih]
      rfl

theorem Steady.pass {nows : List Int} {s : Timers} (h : s.Steady nows) {now : Int}
    (hnow : now ∈ nows) (hstack : s.stack = [.sweep ⟨now, 2 ^ 62⟩]) (clocks : List Int) :
    Pass ⟨now, 2 ^ 62⟩ s (fired s clocks) (Driven.run Timers.turn s clocks) := by
  induction clocks generalizing s with
  | nil =>
      apply Pass.nothing rfl
      intro hempty
      rw [hstack] at hempty
      cases hempty
  | cons clock clocks ih =>
      have hsteady := h.turn hnow hstack clock
      have hturned := h.turned hnow hstack clock
      rw [fired, Driven.run_cons]
      generalize s.turn clock = t at hsteady hturned ⊢
      cases hturned with
      | ended next hdue hrest =>
          rw [hdue, fired_of_empty rfl, turns_of_empty rfl]
          exact Pass.nothing rfl fun _ => hrest
      | oneShot hdue hlt hfirst =>
          rw [hdue]
          apply (ih hsteady hstack).cons (OrdMap.get?_first hfirst) hlt
          · exact fun key task hkey => lt_of_erase hfirst hkey
          · rfl
          · exact fun tid htask => by cases htask
      | @repeating tid r next hdue hlt hfirst hr =>
          rw [hdue]
          apply (ih hsteady hstack).cons (OrdMap.get?_first hfirst) hlt
          · intro key task hkey
            rw [OrdMap.get?_insert] at hkey
            split at hkey
            · next heq =>
                rw [heq]
                have hsound := h.sound tid r hr
                have hpos := hsound.positive
                apply TimerId.lt_iff.mpr
                apply Or.inl
                show r.timerid.first < r.expiry + r.interval
                rw [hsound.key]
                omega
            · exact lt_of_erase hfirst hkey
          · rfl
          · intro a ha
            cases ha
            exact (h.inv.on_repeating hr).returned

theorem Steady.turns {nows : List Int} {s : Timers} (h : s.Steady nows) {now : Int}
    (hnow : now ∈ nows) (hstack : s.stack = [.sweep ⟨now, 2 ^ 62⟩]) (clocks : List Int) :
    (Driven.run Timers.turn s clocks).Steady nows :=
  Steady.turns_keep hnow (fun _ clock ht hstack _ => ht.turn hnow hstack clock) h hstack h clocks

/-! ## The times of a repeating timer -/

/-- The node of `tid`, first due at `milli`, has been moved on by `d` each time its task
was started, the last time from an expiry not after any of `nows`. -/
def InStep (nows : List Int) (tid : TimerId) (milli d : Int) (s : Timers) : Prop :=
  ∃ r, s.timerReps.get? tid = some r ∧ r.interval = d ∧
    r.expiry = milli + s.log.count (.started tid) * d ∧
    ∀ now ∈ nows, s.log.count (.started tid) = 0 ∨ r.expiry - d ≤ now

theorem InStep.mono {nows nows' : List Int} {tid : TimerId} {milli d : Int} {s : Timers}
    (h : InStep nows tid milli d s) (hsub : ∀ now ∈ nows', now ∈ nows) :
    InStep nows' tid milli d s := by
  obtain ⟨r, hr, hd, hexpiry, hpast⟩ := h
  exact ⟨r, hr, hd, hexpiry, fun now hnow => hpast now (hsub now hnow)⟩

theorem InStep.other {nows : List Int} {tid : TimerId} {milli d : Int} {s t : Timers}
    (h : InStep nows tid milli d s) (hreps : t.timerReps.get? tid = s.timerReps.get? tid)
    (hcount : t.log.count (.started tid) = s.log.count (.started tid)) :
    InStep nows tid milli d t := by
  rw [InStep, hreps, hcount]
  exact h

theorem InStep.turn {nows : List Int} {s : Timers} (hs : s.Steady nows) {now : Int}
    (hnow : now ∈ nows) (hnext : ∀ n ∈ nows, now ≤ n)
    (hstack : s.stack = [.sweep ⟨now, 2 ^ 62⟩]) {tid : TimerId} {milli d : Int}
    (h : InStep nows tid milli d s) (clock : Int) : InStep nows tid milli d (s.turn clock) := by
  have hturned := hs.turned hnow hstack clock
  generalize s.turn clock = t at hturned ⊢
  cases hturned with
  | ended next hdue hrest => exact h.other rfl rfl
  | @oneShot key hdue hlt hfirst =>
      have hne : key ≠ tid := by
        obtain ⟨r, hr, _⟩ := h
        exact hs.inv.ne_repeating hr (OrdMap.get?_first hfirst)
      have hcount : (TimerEvent.started key :: s.log).count (.started tid) =
          s.log.count (.started tid) :=
        List.count_cons_of_ne fun heq => hne (TimerEvent.started.inj heq)
      exact h.other rfl hcount
  | @repeating a q next hdue hlt hfirst hq =>
      by_cases heq : a = tid
      · subst heq
        obtain ⟨r, hr, hd, hexpiry, hpast⟩ := h
        rw [hq] at hr
        cases hr
        refine ⟨again q (s.timerSeq + 1), OrdMap.get?_insert_self _ _ _, hd, ?_, ?_⟩
        · show q.expiry + q.interval = milli + (List.count _ (.started a :: s.log) : Nat) * d
          rw [List.count_cons_self, hexpiry, hd, Int.natCast_succ, Int.add_mul, Int.one_mul]
          omega
        · intro n hn
          have hlast := hnext n hn
          have hkey := (hs.sound a q hq).key
          have hexp := lt_bound hlt
          apply Or.inr
          show q.expiry + q.interval - d ≤ n
          omega
      · apply h.other
        · exact OrdMap.get?_insert_of_ne _ _ (Ne.symm heq)
        · exact List.count_cons_of_ne (fun hc => heq (TimerEvent.started.inj hc))

theorem InStep.turns {nows : List Int} {s : Timers} (hs : s.Steady nows) {now : Int}
    (hnow : now ∈ nows) (hnext : ∀ n ∈ nows, now ≤ n)
    (hstack : s.stack = [.sweep ⟨now, 2 ^ 62⟩]) {tid : TimerId} {milli d : Int}
    (h : InStep nows tid milli d s) (clocks : List Int) :
    InStep nows tid milli d (Driven.run Timers.turn s clocks) :=
  Steady.turns_keep hnow
    (fun _ clock ht hstack hstep => InStep.turn ht hnow hnext hstack hstep clock) hs hstack h clocks

/-- A timer that is in step and not due has been started as often as it should. -/
theorem count_of_expiry {milli d now : Int} {n : Nat} (hd : 0 < d) (hnext : now < milli + n * d)
    (hlast : n = 0 ∨ milli + n * d - d ≤ now) :
    (n : Int) = (if now < milli then 0 else (now - milli) / d + 1) ∧
      ∀ k : Nat, now < milli + k * d ↔ n ≤ k := by
  have hstep : ∀ a b : Int, a ≤ b → a * d ≤ b * d := fun a b hab =>
    Int.mul_le_mul_of_nonneg_right hab (Int.le_of_lt hd)
  constructor
  · split
    · next hbefore =>
        rcases hlast with hzero | hlast
        · omega
        · rcases Nat.eq_zero_or_pos n with hzero | hpos
          · omega
          · have hmul := hstep 1 n (by omega)
            omega
    · next hafter =>
        have hpos : n ≠ 0 := by
          rintro rfl
          omega
        have hlast := hlast.resolve_left hpos
        have hsub : ((n : Int) - 1) * d = n * d - d := by rw [Int.sub_mul, Int.one_mul]
        have hle : (n : Int) - 1 ≤ (now - milli) / d := by
          apply Int.le_ediv_of_mul_le hd
          omega
        have hlt : (now - milli) / d < n := by
          apply Int.ediv_lt_of_lt_mul hd
          omega
        omega
  · intro k
    constructor
    · intro hk
      apply Nat.le_of_not_lt
      intro hless
      have hmul := hstep (k + 1) n (by omega)
      rw [Int.add_mul, Int.one_mul] at hmul
      rcases hlast with hzero | hlast
      · omega
      · omega
    · intro hk
      have hmul := hstep n k (by omega)
      omega

theorem count_returned (log : List TimerEvent) (tid a : TimerId) (kind : TimerKind) :
    (.returned a kind :: log).count (.started tid) = log.count (.started tid) :=
  List.count_cons_of_ne fun heq => by cases heq

/-! ## Histories -/

/-- The readings of the calls of `handleTimeouts`. -/
def nows (calls : List Call) : List Int := calls.filterMap Call.now?

structure AtRest (later : List Call) (s : Timers) : Prop extends Steady (nows later) s where
  empty : s.stack = []
  running : s.exit = false

theorem mem_nows {calls : List Call} {now : Int} :
    now ∈ nows calls ↔ ∃ clocks, .handleTimeouts now clocks ∈ calls := by
  rw [nows, List.mem_filterMap]
  constructor
  · rintro ⟨c, hc, hnow⟩
    cases c with
    | runAt milli interval clock => cases hnow
    | handleTimeouts n clocks =>
        cases hnow
        exact ⟨clocks, hc⟩
  · rintro ⟨clocks, hc⟩
    exact ⟨_, hc, rfl⟩

theorem Sound.mono {nows nows' : List Int} {r : TimerRepeatable} (h : Sound nows r)
    (hsub : ∀ now ∈ nows', now ∈ nows) : Sound nows' r :=
  ⟨h.key, h.positive, h.low, fun now hnow => h.room now (hsub now hnow)⟩

theorem Steady.mono {nows nows' : List Int} {s : Timers} (h : s.Steady nows)
    (hsub : ∀ now ∈ nows', now ∈ nows) : s.Steady nows' :=
  ⟨h.inv, h.alive, fun tid r hr => (h.sound tid r hr).mono hsub⟩

theorem AtRest.new (calls : List Call) : AtRest calls new :=
  ⟨⟨Inv.new, rfl, fun _ _ hr => by cases hr⟩, rfl, rfl⟩

theorem AtRest.enter {later : List Call} {s : Timers} (h : AtRest later s) (now : Int) :
    s.enter now = { s with stack := [.sweep ⟨now, 2 ^ 62⟩] } := by
  rw [Timers.enter, step, if_neg (by simp [h.alive])]
  simp only [UserRuns, h.empty]
  rfl

theorem Turned.exit {s t : Timers} {bound : TimerId} (h : Turned s bound t) : t.exit = s.exit := by
  cases h with
  | ended => rfl
  | oneShot => rfl
  | repeating => rfl

theorem Steady.turns_exit {nows : List Int} {s : Timers} (h : s.Steady nows) {now : Int}
    (hnow : now ∈ nows) (hstack : s.stack = [.sweep ⟨now, 2 ^ 62⟩]) (clocks : List Int) :
    (Driven.run Timers.turn s clocks).exit = s.exit :=
  Steady.turns_keep (I := fun t => t.exit = s.exit) hnow
    (fun _ clock ht hstack hexit => (ht.turned hnow hstack clock).exit.trans hexit) h hstack rfl
    clocks

theorem runAt_running {s : Timers} (hexit : s.exit = false) (milli interval clock : Int) :
    (interval ≠ 0 ∧ ∃ next, s.runAt milli interval clock = (⟨wrap64 (-milli), s.timerSeq + 1⟩,
      { s with
        timerSeq := s.timerSeq + 2
        timerReps := s.timerReps.insert ⟨wrap64 (-milli), s.timerSeq + 1⟩
          ⟨milli, interval, ⟨milli, s.timerSeq + 2⟩⟩
        timers := s.timers.insert ⟨milli, s.timerSeq + 2⟩
          (.repeatable ⟨wrap64 (-milli), s.timerSeq + 1⟩)
        log := .returned ⟨wrap64 (-milli), s.timerSeq + 1⟩ .repeating :: s.log
        nextTimeout := next })) ∨
    (interval = 0 ∧ ∃ next, s.runAt milli interval clock = (⟨milli, s.timerSeq + 1⟩,
      { s with
        timerSeq := s.timerSeq + 1
        timers := s.timers.insert ⟨milli, s.timerSeq + 1⟩ .user
        log := .returned ⟨milli, s.timerSeq + 1⟩ .oneShot :: s.log
        nextTimeout := next })) := by
  have hopen : ¬ s.exit = true := by simp [hexit]
  rw [Timers.runAt, if_neg hopen]
  split
  · next hne =>
      obtain ⟨next, hnext⟩ := refreshNearest_frame
        { s with
          timerSeq := s.timerSeq + 2
          timerReps := s.timerReps.insert ⟨wrap64 (-milli), s.timerSeq + 1⟩
            ⟨milli, interval, ⟨milli, s.timerSeq + 2⟩⟩
          timers := s.timers.insert ⟨milli, s.timerSeq + 2⟩
            (.repeatable ⟨wrap64 (-milli), s.timerSeq + 1⟩)
          log := .returned ⟨wrap64 (-milli), s.timerSeq + 1⟩ .repeating :: s.log } clock
      exact Or.inl ⟨hne, next, congrArg _ hnext⟩
  · next hzero =>
      obtain ⟨next, hnext⟩ := refreshNearest_frame
        { s with
          timerSeq := s.timerSeq + 1
          timers := s.timers.insert ⟨milli, s.timerSeq + 1⟩ .user
          log := .returned ⟨milli, s.timerSeq + 1⟩ .oneShot :: s.log } clock
      exact Or.inr ⟨Decidable.not_not.mp hzero, next, congrArg _ hnext⟩

theorem call_runAt {later : List Call} {s : Timers} (h : AtRest later s)
    (milli interval clock : Int) :
    s.call (.runAt milli interval clock) = (s.runAt milli interval clock).2 := by
  rw [call, step, if_neg (by simp [h.alive])]
  simp only [UserRuns, h.empty, if_true]

theorem call_handleTimeouts {later : List Call} {s : Timers} (h : AtRest later s) (now : Int)
    (clocks : List Int) : s.call (.handleTimeouts now clocks) =
      Driven.run turn { s with stack := [.sweep ⟨now, 2 ^ 62⟩] } clocks := by
  rw [call, h.enter]

theorem AtRest.entered {now : Int} {clocks : List Int} {later : List Call} {s : Timers}
    (h : AtRest (.handleTimeouts now clocks :: later) s) :
    Steady (now :: nows later) { s with stack := [.sweep ⟨now, 2 ^ 62⟩] } :=
  ⟨h.inv.frame s.nextTimeout s.exit _ s.fault id, h.alive, h.sound⟩

theorem Call.Proper.sound {milli interval clock : Int} (h : (Call.runAt milli interval clock).Proper)
    (hne : interval ≠ 0) {later : List Call}
    (hbefore : ∀ c ∈ later, (Call.runAt milli interval clock).Before c) (seq : Int) :
    Sound (nows later) ⟨milli, interval, ⟨milli, seq⟩⟩ where
  key := rfl
  positive := by
    have hnonneg := h.2
    show 0 < interval
    omega
  low := h.1.1
  room now hnow hdue := by
    obtain ⟨clocks, hc⟩ := mem_nows.mp hnow
    exact hbefore _ hc hdue

theorem AtRest.call {c : Call} {later : List Call} {s : Timers} (h : AtRest (c :: later) s)
    (hproper : c.Proper) (hbefore : ∀ c' ∈ later, c.Before c') (hreturns : Returns s c) :
    AtRest later (s.call c) := by
  cases c with
  | runAt milli interval clock =>
      have hinv := h.inv.runAt milli interval clock
      rw [call_runAt h]
      rcases runAt_running h.running milli interval clock with ⟨hne, next, hrun⟩ | ⟨_, next, hrun⟩
      · rw [hrun] at hinv ⊢
        refine ⟨⟨hinv, h.alive, fun tid r hr => ?_⟩, h.empty, h.running⟩
        rw [OrdMap.get?_insert] at hr
        split at hr
        · cases hr
          exact hproper.sound hne hbefore _
        · exact h.sound tid r hr
      · rw [hrun] at hinv ⊢
        exact ⟨⟨hinv, h.alive, h.sound⟩, h.empty, h.running⟩
  | handleTimeouts now clocks =>
      rw [Returns, call_handleTimeouts h] at hreturns
      rw [call_handleTimeouts h]
      have hentered := h.entered
      have hsteady := hentered.turns List.mem_cons_self rfl clocks
      refine ⟨hsteady.mono fun n hn => List.mem_cons_of_mem _ hn, hreturns, ?_⟩
      rw [hentered.turns_exit List.mem_cons_self rfl clocks]
      exact h.running

theorem InStep.call {c : Call} {later : List Call} {s : Timers} (hs : AtRest (c :: later) s)
    (hbefore : ∀ c' ∈ later, c.Before c') {tid : TimerId} {milli d : Int}
    (h : InStep (nows (c :: later)) tid milli d s) :
    InStep (nows later) tid milli d (s.call c) := by
  cases c with
  | runAt m interval clock =>
      rw [call_runAt hs]
      rcases runAt_running hs.running m interval clock with ⟨_, next, hrun⟩ | ⟨_, next, hrun⟩
      · rw [hrun]
        apply (h.mono fun n hn => hn).other
        · apply OrdMap.get?_insert_of_ne
          rintro rfl
          obtain ⟨r, hr, _⟩ := h
          exact hs.inv.fresh_on (Int.lt_succ _) _ (hs.inv.on_repeating hr)
        · exact count_returned _ _ _ _
      · rw [hrun]
        exact (h.mono fun n hn => hn).other rfl (count_returned _ _ _ _)
  | handleTimeouts now clocks =>
      rw [call_handleTimeouts hs]
      have hlater : ∀ n ∈ now :: nows later, now ≤ n := by
        intro n hn
        rcases List.mem_cons.mp hn with rfl | hn
        · exact Int.le_refl _
        · obtain ⟨clocks', hc⟩ := mem_nows.mp hn
          exact hbefore _ hc
      have hturns := InStep.turns hs.entered List.mem_cons_self hlater rfl h clocks
      exact hturns.mono fun n hn => List.mem_cons_of_mem _ hn

theorem AtRest.run {calls later : List Call} {s : Timers} (h : AtRest (calls ++ later) s)
    (hproper : ∀ c ∈ calls, c.Proper) (hreturns : Driven.Along Timers.call Returns s calls)
    (hbefore : (calls ++ later).Pairwise Call.Before) :
    AtRest later (Driven.run Timers.call s calls) := by
  induction calls generalizing s with
  | nil => exact h
  | cons c calls ih =>
      obtain ⟨hc, hrest⟩ := List.pairwise_cons.mp hbefore
      have hnext := h.call (hproper c List.mem_cons_self) hc hreturns.1
      exact ih hnext (fun a ha => hproper a (List.mem_cons_of_mem _ ha)) hreturns.2 hrest

theorem InStep.run {calls later : List Call} {s : Timers} (hs : AtRest (calls ++ later) s)
    (hproper : ∀ c ∈ calls, c.Proper) (hreturns : Driven.Along Timers.call Returns s calls)
    (hbefore : (calls ++ later).Pairwise Call.Before) {tid : TimerId} {milli d : Int}
    (h : InStep (nows (calls ++ later)) tid milli d s) :
    InStep (nows later) tid milli d (Driven.run Timers.call s calls) := by
  induction calls generalizing s with
  | nil => exact h
  | cons c calls ih =>
      obtain ⟨hc, hrest⟩ := List.pairwise_cons.mp hbefore
      have hnext := hs.call (hproper c List.mem_cons_self) hc hreturns.1
      exact ih hnext (fun a ha => hproper a (List.mem_cons_of_mem _ ha)) hreturns.2 hrest
        (InStep.call hs hc h)

theorem AtRest.inStep_runAt {milli interval clock : Int} {later : List Call} {s : Timers}
    (h : AtRest (.runAt milli interval clock :: later) s) (hpos : 0 < interval)
    (nows : List Int) :
    InStep nows (s.runAt milli interval clock).1 milli interval
      (s.call (.runAt milli interval clock)) := by
  rw [call_runAt h]
  rcases runAt_running h.running milli interval clock with ⟨_, next, hrun⟩ | ⟨hzero, _⟩
  · rw [hrun]
    have hcount : (TimerEvent.returned ⟨wrap64 (-milli), s.timerSeq + 1⟩ .repeating :: s.log).count
        (.started ⟨wrap64 (-milli), s.timerSeq + 1⟩) = 0 := by
      rw [count_returned]
      exact List.count_eq_zero.mpr (h.inv.fresh_log (Int.lt_succ _)).1
    refine ⟨_, OrdMap.get?_insert_self _ _ _, rfl, ?_, fun _ _ => Or.inl hcount⟩
    rw [hcount]
    show milli = milli + ((0 : Nat) : Int) * interval
    omega
  · omega

theorem History.atRest {calls : List Call} {now : Int} (h : History calls now)
    (clocks : List Int) :
    AtRest [.handleTimeouts now clocks] (Driven.run call new calls) := by
  have hrest := (AtRest.new _).run h.proper h.returns h.before
  exact ⟨hrest.toSteady, hrest.empty, hrest.running⟩

theorem History.inStep {calls : List Call} {now : Int} (h : History calls now)
    {earlier later : List Call} {milli interval clock : Int}
    (hcalls : calls = earlier ++ .runAt milli interval clock :: later) (hpos : 0 < interval) :
    InStep [now] (Timers.runAt (Driven.run call new earlier) milli interval clock).1 milli interval
      (Driven.run call new calls) := by
  subst hcalls
  obtain ⟨hearlier, hreturns, hlater⟩ := Driven.along_append.mp h.returns
  have hbefore := h.before
  rw [List.append_assoc] at hbefore
  have hproper : ∀ c ∈ earlier, c.Proper := fun c hc => h.proper c (List.mem_append_left _ hc)
  have hrest := (AtRest.new _).run hproper hearlier hbefore
  obtain ⟨hc, hpair⟩ := List.pairwise_cons.mp (List.pairwise_append.mp hbefore).2.1
  have hnext := hrest.call (h.proper _ (List.mem_append_right _ List.mem_cons_self)) hc hreturns
  rw [Driven.run_append, Driven.run_cons]
  exact InStep.run hnext
    (fun c hc' => h.proper c (List.mem_append_right _ (List.mem_cons_of_mem _ hc'))) hlater hpair
    (hrest.inStep_runAt hpos _)

/-! ## What is fired -/

theorem startedBy_eq (e : TimerId × TimerTask) : ∃ id, startedBy e = .started id := by
  obtain ⟨key, _ | tid⟩ := e
  · exact ⟨key, rfl⟩
  · exact ⟨tid, rfl⟩

/-- The entries of a pass start tasks and do nothing else. -/
theorem on_fired {log : List TimerEvent} {es : List (TimerId × TimerTask)} {id : TimerId} :
    On ((es.map startedBy).reverse ++ log) id .oneShot ↔
      On log id .oneShot ∧ .started id ∉ es.map startedBy := by
  have hnot : ∀ event, (∀ a, event ≠ .started a) → event ∉ es.map startedBy := by
    intro event hevent hmem
    obtain ⟨e, _, heq⟩ := List.mem_map.mp hmem
    obtain ⟨a, ha⟩ := startedBy_eq e
    exact hevent a (heq.symm.trans ha)
  have hreturned := hnot (.returned id .oneShot) (by simp)
  have hcancelled := hnot (.cancelled id) (by simp)
  have hcleared := hnot .cleared (by simp)
  simp only [On, List.mem_append, List.mem_reverse, hreturned, hcancelled, hcleared, false_or,
    not_or]
  constructor
  · rintro ⟨hret, ⟨hes, hstart⟩, hcancel, hclear⟩
    exact ⟨⟨hret, hstart, hcancel, hclear⟩, hes⟩
  · rintro ⟨⟨hret, hstart, hcancel, hclear⟩, hes⟩
    exact ⟨hret, ⟨hes, hstart⟩, hcancel, hclear⟩

/-- A task that only one key can start is started once at most. -/
theorem count_startedBy_le {es : List (TimerId × TimerTask)} {id : TimerId}
    (hes : es.Pairwise fun a b => a.1 < b.1)
    (hkey : ∀ e ∈ es, startedBy e = .started id → e.1 = id) :
    (es.map startedBy).count (.started id) ≤ 1 := by
  induction es with
  | nil => exact Nat.zero_le 1
  | cons e es ih =>
      obtain ⟨habove, hrest⟩ := List.pairwise_cons.mp hes
      have htail : ∀ a ∈ es, startedBy a = .started id → a.1 = id :=
        fun a ha => hkey a (List.mem_cons_of_mem _ ha)
      rw [List.map_cons]
      by_cases he : startedBy e = .started id
      · have hnone : (es.map startedBy).count (.started id) = 0 := by
          apply List.count_eq_zero.mpr
          intro hmem
          obtain ⟨a, ha, heq⟩ := List.mem_map.mp hmem
          have hlt := habove a ha
          rw [hkey e List.mem_cons_self he, htail a ha heq] at hlt
          exact lt_irrefl _ hlt
        rw [he, List.count_cons_self, hnone]
      · rw [List.count_cons_of_ne he]
        exact ih hrest htail

theorem Pass.key_eq {bound : TimerId} {s s' : Timers} {es : List (TimerId × TimerTask)}
    (hp : Pass bound s es s') (hinv : s.Inv) {id : TimerId}
    (hid : s.timers.get? id = some .user) :
    ∀ e ∈ es, startedBy e = .started id → e.1 = id := by
  intro e he heq
  obtain ⟨key, _ | tid⟩ := e
  · exact TimerEvent.started.inj heq
  · cases TimerEvent.started.inj heq
    have hone := ((hinv.pending id).mp hid).returned
    exact absurd (hinv.kinds _ _ _ hone (hp.owned key id he)) (by decide)

theorem Pass.not_pending {bound : TimerId} {s s' : Timers} {es : List (TimerId × TimerTask)}
    (hp : Pass bound s es s') (hinv : s'.Inv) {id : TimerId}
    (hret : .returned id .oneShot ∈ s.log) (hstart : .started id ∈ es.map startedBy) :
    s'.timers.get? id = none := by
  have hret' : .returned id .oneShot ∈ s'.log := by
    rw [hp.starts]
    exact List.mem_append_right _ hret
  cases hget : s'.timers.get? id with
  | none => rfl
  | some task =>
      cases task with
      | user =>
          have hon := (hinv.pending id).mp hget
          rw [hp.starts, on_fired] at hon
          exact absurd hstart hon.2
      | repeatable tid => exact absurd hret' (hinv.hidden id tid _ hget)

theorem first_of_bound {now : Int} {key : TimerId} (h : (⟨now, 2 ^ 62⟩ : TimerId) ≤ key)
    (hseq : key.second < 2 ^ 62) : now < key.first := by
  have hle := TimerId.le_iff.mp h
  dsimp only at hle
  omega

theorem Pass.count {bound : TimerId} {s s' : Timers} {es : List (TimerId × TimerTask)}
    (hp : Pass bound s es s') (hinv : s.Inv) {id : TimerId}
    (hid : s.timers.get? id = some .user) :
    s'.log.count (.started id) = (es.map startedBy).count (.started id) := by
  have hold : s.log.count (.started id) = 0 :=
    List.count_eq_zero.mpr ((hinv.pending id).mp hid).2.1
  rw [hp.starts, List.count_append, List.count_reverse, hold, Nat.add_zero]

theorem Pass.pending_iff {bound : TimerId} {s s' : Timers} {es : List (TimerId × TimerTask)}
    (hp : Pass bound s es s') (hinv : s.Inv) (hinv' : s'.Inv) {id : TimerId}
    (hid : s.timers.get? id = some .user) :
    s'.timers.get? id = some .user ↔ .started id ∉ es.map startedBy := by
  have hon := (hinv.pending id).mp hid
  rw [hinv'.pending id, hp.starts, on_fired]
  exact ⟨fun h => h.2, fun h => ⟨hon, h⟩⟩

/-- A one-shot timer at the bound or above stays. -/
theorem Pass.untouched {bound : TimerId} {s s' : Timers} {es : List (TimerId × TimerTask)}
    (hp : Pass bound s es s') (hinv : s.Inv) (hinv' : s'.Inv) {id : TimerId}
    (hid : s.timers.get? id = some .user) (hbound : ¬ id < bound) :
    s'.log.count (.started id) = 0 ∧ s'.timers.get? id = some .user := by
  have hnot : .started id ∉ es.map startedBy := by
    intro hmem
    obtain ⟨e, he, heq⟩ := List.mem_map.mp hmem
    have hlt := hp.below e he
    rw [hp.key_eq hinv hid e he heq] at hlt
    exact hbound hlt
  exact ⟨(hp.count hinv hid).trans (List.count_eq_zero.mpr hnot),
    (hp.pending_iff hinv hinv' hid).mpr hnot⟩

theorem Pass.oneShot {now : Int} {s s' : Timers} {es : List (TimerId × TimerTask)}
    (hp : Pass ⟨now, 2 ^ 62⟩ s es s') (hinv : s.Inv) (hinv' : s'.Inv) (hend : s'.stack = [])
    (hseq : s'.timerSeq < 2 ^ 62) {id : TimerId} (hid : s.timers.get? id = some .user) :
    if id.first ≤ now then s'.log.count (.started id) = 1 ∧ s'.timers.get? id = none
    else s'.log.count (.started id) = 0 ∧ s'.timers.get? id = some .user := by
  split
  · next hdue =>
      have hmem : .started id ∈ es.map startedBy := by
        by_contra hnot
        have hget := (hp.pending_iff hinv hinv' hid).mpr hnot
        have hle := (hinv'.keys id _ hget).2
        have hlt := first_of_bound (hp.rest hend id _ hget) (by omega)
        omega
      have hcount := hp.count hinv hid
      have hle := count_startedBy_le hp.ordered (hp.key_eq hinv hid)
      have hpos := List.count_pos_iff.mpr hmem
      exact ⟨by omega, hp.not_pending hinv' ((hinv.pending id).mp hid).returned hmem⟩
  · next hlate => exact hp.untouched hinv hinv' hid fun hlt => hlate (lt_bound hlt)

theorem Pass.repeating {now : Int} {s s' : Timers} {es : List (TimerId × TimerTask)}
    (hp : Pass ⟨now, 2 ^ 62⟩ s es s') (hs' : s'.Steady [now]) (hend : s'.stack = [])
    (hseq : s'.timerSeq < 2 ^ 62) {tid : TimerId} {milli d : Int} (hd : 0 < d)
    (h : InStep [now] tid milli d s') :
    let n := s'.log.count (.started tid)
    (n : Int) = (if now < milli then 0 else (now - milli) / d + 1) ∧
      (∃ seq, ∀ key, s'.timers.get? key = some (.repeatable tid) ↔
        key = ⟨milli + n * d, seq⟩) ∧
      ∀ k : Nat, now < milli + k * d ↔ n ≤ k := by
  obtain ⟨r, hr, _, hexpiry, hpast⟩ := h
  have harmed := hs'.inv.linked.armed tid r hr
  have hfirst := (hs'.sound tid r hr).key
  have hlt := first_of_bound (hp.rest hend _ _ harmed) (by
    have hle := (hs'.inv.keys _ _ harmed).2
    omega)
  rw [hfirst, hexpiry] at hlt
  have hlast := hpast now List.mem_cons_self
  rw [hexpiry] at hlast
  obtain ⟨hcount, hall⟩ := count_of_expiry hd hlt hlast
  refine ⟨hcount, ⟨r.timerid.second, fun key => ?_⟩, hall⟩
  rw [← hexpiry, ← hfirst]
  constructor
  · intro hkey
    obtain ⟨q, hq, rfl⟩ := hs'.inv.linked.owned key tid hkey
    rw [hr] at hq
    cases hq
    rfl
  · rintro rfl
    exact harmed

end Timers

open Timers in
/-- After any calls of `runAt` and `handleTimeouts` with a clock that does not go back,
`handleTimeouts` ends, however often its loop has to turn. Its keys increase and are
due; while sequence numbers are below `1L << 62`, each one-shot timer that is due is
fired once and the others stay, and each repeating timer has been fired once for each of
its times up to now and waits for the first one after. -/
theorem handleTimeouts_exact (calls : List Call) (now : Int) (h : History calls now) :
    (∃ n, ∀ clocks : List Int, n ≤ clocks.length →
      ((Driven.run call new calls).call (.handleTimeouts now clocks)).stack = []) ∧
    ∀ clocks : List Int,
      ((Driven.run call new calls).call (.handleTimeouts now clocks)).stack = [] →
      Exact calls now (Driven.run call new calls)
        (fired ((Driven.run call new calls).enter now) clocks)
        ((Driven.run call new calls).call (.handleTimeouts now clocks)) := by
  have hentered : Steady [now] { Driven.run call new calls with
      stack := [.sweep ⟨now, 2 ^ 62⟩] } := (h.atRest []).entered
  have hmem : now ∈ [now] := List.mem_cons_self
  constructor
  · refine ⟨load { Driven.run call new calls with stack := [.sweep ⟨now, 2 ^ 62⟩] }
      ⟨now, 2 ^ 62⟩ + 1, fun clocks hlong => ?_⟩
    rw [call_handleTimeouts (h.atRest clocks)]
    exact hentered.ends hmem rfl clocks hlong
  · intro clocks hend
    rw [(h.atRest clocks).enter]
    rw [call_handleTimeouts (h.atRest clocks)] at hend ⊢
    have hpass := hentered.pass hmem rfl clocks
    have hsteady := hentered.turns hmem rfl clocks
    refine ⟨hpass.ordered, fun e he => lt_bound (hpass.below e he), hpass.starts, ?_, ?_⟩
    · exact fun hseq id hid => hpass.oneShot hentered.inv hsteady.inv hend hseq hid
    · intro hseq earlier milli interval clock later hcalls hpos
      have hstep := h.inStep hcalls hpos
      have hlater : ∀ n ∈ [now], now ≤ n := fun n hn => Int.le_of_eq (List.mem_singleton.mp hn).symm
      exact hpass.repeating hsteady hend hseq hpos
        (InStep.turns hentered hmem hlater rfl hstep clocks)

namespace Timers

instance : (c : Call) → Decidable c.Proper
  | .runAt _ _ _ => inferInstanceAs (Decidable (_ ∧ _))
  | .handleTimeouts _ _ => isTrue trivial

instance : (a b : Call) → Decidable (a.Before b)
  | .runAt _ _ _, .handleTimeouts _ _ => inferInstanceAs (Decidable (_ → _))
  | .handleTimeouts _ _, .handleTimeouts _ _ => inferInstanceAs (Decidable (_ ≤ _))
  | .runAt _ _ _, .runAt _ _ _ => isTrue trivial
  | .handleTimeouts _ _, .runAt _ _ _ => isTrue trivial

instance (s : Timers) (c : Call) : Decidable (Returns s c) :=
  inferInstanceAs (Decidable (_ = []))

end Timers

open Timers in
/-- A repeating timer, late by three intervals, among one-shot timers. -/
theorem handleTimeouts_exact_late :
    let calls : List Call := [.runAt 10 0 0, .runAt 5 7 0, .runAt 40 0 0, .handleTimeouts 6 [6, 6]]
    let s := Driven.run call new calls
    Exact calls 30 s (fired (s.enter 30) [30, 31, 32, 33, 34])
      (s.call (.handleTimeouts 30 [30, 31, 32, 33, 34])) :=
  (handleTimeouts_exact _ 30 ⟨by decide, by decide, by decide⟩).2 _ (by decide)

namespace Timers

theorem AtRest.returns_runAt {later : List Call} {s : Timers} (h : AtRest later s)
    (milli interval clock : Int) : Returns s (.runAt milli interval clock) := by
  rw [Returns, call_runAt h]
  rcases runAt_running h.running milli interval clock with ⟨_, next, hrun⟩ | ⟨_, next, hrun⟩
  · rw [hrun]
    exact h.empty
  · rw [hrun]
    exact h.empty

/-- `n` one-shot timers at 0, each fired before the next one is there. -/
def rounds : Nat → List Call
  | 0 => []
  | n + 1 => rounds n ++ [.runAt 0 0 0, .handleTimeouts 0 [0, 0]]

theorem mem_rounds {n : Nat} {c : Call} (h : c ∈ rounds n) :
    c = .runAt 0 0 0 ∨ c = .handleTimeouts 0 [0, 0] := by
  induction n with
  | zero => cases h
  | succ n ih =>
      rcases List.mem_append.mp h with h | h
      · exact ih h
      · simpa using h

/-- Between calls, with `seq` sequence numbers taken and no timer left. -/
structure Idle (seq : Int) (s : Timers) : Prop where
  inv : s.Inv
  alive : s.fault = none
  empty : s.stack = []
  running : s.exit = false
  seq : s.timerSeq = seq
  timers : s.timers = .empty
  timerReps : s.timerReps = .empty

theorem Idle.atRest {seq : Int} {s : Timers} (h : Idle seq s) (later : List Call) :
    AtRest later s := by
  refine ⟨⟨h.inv, h.alive, fun tid r hr => ?_⟩, h.empty, h.running⟩
  rw [h.timerReps] at hr
  cases hr

theorem Idle.call_runAt {seq : Int} {s : Timers} (h : Idle seq s) :
    ∃ next, s.call (.runAt 0 0 0) =
      { s with
        timerSeq := seq + 1
        timers := .insert .empty ⟨0, seq + 1⟩ .user
        log := .returned ⟨0, seq + 1⟩ .oneShot :: s.log
        nextTimeout := next } := by
  rw [Timers.call_runAt (h.atRest [])]
  rcases runAt_running h.running 0 0 0 with ⟨hne, _⟩ | ⟨_, next, hrun⟩
  · exact absurd rfl hne
  · exact ⟨next, by rw [hrun, h.seq, h.timers]⟩

/-- Two turns of a pass that finds one timer, below the bound: it is fired, and the pass ends. -/
theorem turns_single {s : Timers} (halive : s.fault = none) {bound key : TimerId}
    (hstack : s.stack = [.sweep bound]) (htimers : s.timers = .insert .empty key .user)
    (hlt : key < bound) (clock clock' : Int) :
    ∃ next, (s.turn clock).turn clock' = { s with
      timers := .empty, stack := [], log := .started key :: s.log, nextTimeout := next } := by
  have hfirst : s.timers.first? = some (key, .user) := by
    rw [htimers]
    rfl
  rw [turn_oneShot halive hstack hfirst hlt, htimers, OrdMap.erase_insert_empty]
  exact turn_over (s := { s with timers := .empty, log := .started key :: s.log }) halive hstack
    clock' rfl

/-- A pass fires the one timer, whose key is below the bound. -/
theorem Idle.round {seq : Int} {s : Timers} (h : Idle seq s) (hseq : seq + 1 < 2 ^ 62) :
    let t := (s.call (.runAt 0 0 0)).call (.handleTimeouts 0 [0, 0])
    t.stack = [] ∧ Idle (seq + 1) t := by
  intro t
  have hadded : AtRest [.handleTimeouts 0 [0, 0]] (s.call (.runAt 0 0 0)) := by
    apply (h.atRest _).call (by decide) _ ((h.atRest []).returns_runAt 0 0 0)
    intro c hc
    rw [List.mem_singleton.mp hc]
    decide
  have hbelow : (⟨0, seq + 1⟩ : TimerId) < ⟨0, 2 ^ 62⟩ := TimerId.lt_iff.mpr (Or.inr ⟨rfl, hseq⟩)
  obtain ⟨next, hcall⟩ := h.call_runAt
  have hfired : ∃ next', t = { s with
      timerSeq := seq + 1
      timers := .empty
      stack := []
      log := .started ⟨0, seq + 1⟩ :: .returned ⟨0, seq + 1⟩ .oneShot :: s.log
      nextTimeout := next' } := by
    have hpass := turns_single (s := { s.call (.runAt 0 0 0) with stack := [.sweep ⟨0, 2 ^ 62⟩] })
      hadded.alive rfl (by rw [hcall]) hbelow 0 0
    obtain ⟨next', hpass⟩ := hpass
    refine ⟨next', (call_handleTimeouts hadded 0 [0, 0]).trans (hpass.trans ?_)⟩
    rw [hcall]
  have hreturned : t.stack = [] := by
    obtain ⟨next', hfired⟩ := hfired
    rw [hfired]
  have hrest : AtRest [] t := hadded.call trivial (fun c hc => by cases hc) hreturned
  obtain ⟨next', hfired⟩ := hfired
  refine ⟨hreturned, hrest.inv, hrest.alive, hrest.empty, hrest.running, ?_, ?_, ?_⟩
  · rw [hfired]
  · rw [hfired]
  · rw [hfired]
    exact h.timerReps

/-- The rounds are a history that leaves nothing but the sequence numbers. -/
theorem rounds_idle {n : Nat} (hn : (n : Int) < 2 ^ 62) :
    Driven.Along Timers.call Returns new (rounds n) ∧
      Idle n (Driven.run Timers.call new (rounds n)) := by
  induction n with
  | zero => exact ⟨trivial, Inv.new, rfl, rfl, rfl, rfl, rfl, rfl⟩
  | succ n ih =>
      obtain ⟨hreturns, hidle⟩ := ih (by omega)
      obtain ⟨hreturned, hnext⟩ := hidle.round (by omega)
      rw [rounds, Driven.run_append]
      exact ⟨Driven.along_append.mpr
        ⟨hreturns, (hidle.atRest []).returns_runAt 0 0 0, hreturned, trivial⟩, hnext⟩

theorem history_rounds {n : Nat} (hn : (n : Int) < 2 ^ 62) :
    History (rounds n ++ [.runAt 0 0 0]) 0 := by
  have hmem : ∀ c ∈ rounds n ++ [.runAt 0 0 0] ++ [.handleTimeouts 0 []],
      c = .runAt 0 0 0 ∨ ∃ clocks, c = .handleTimeouts 0 clocks := by
    intro c hc
    rcases List.mem_append.mp hc with hc | hc
    · rcases List.mem_append.mp hc with hc | hc
      · exact (mem_rounds hc).imp_right fun h => ⟨_, h⟩
      · exact Or.inl (List.mem_singleton.mp hc)
    · exact Or.inr ⟨_, List.mem_singleton.mp hc⟩
  obtain ⟨hreturns, hidle⟩ := rounds_idle hn
  refine ⟨fun c hc => ?_, ?_, List.pairwise_of_forall_mem_list fun a ha b hb => ?_⟩
  · rcases hmem c (List.mem_append_left _ hc) with rfl | ⟨clocks, rfl⟩
    · decide
    · trivial
  · exact Driven.along_append.mpr ⟨hreturns, (hidle.atRest []).returns_runAt 0 0 0, trivial⟩
  · rcases hmem a ha with rfl | ⟨clocks, rfl⟩
    · rcases hmem b hb with rfl | ⟨clocks', rfl⟩
      · trivial
      · show (0 : Int) ≤ 0 → _
        decide
    · rcases hmem b hb with rfl | ⟨clocks', rfl⟩
      · trivial
      · exact Int.le_refl 0

/-- The key with the bound's own sequence number is not below it. -/
theorem rounds_wait {n : Nat} (hn : (n : Int) + 1 = 2 ^ 62) :
    let s := Driven.run call new (rounds n ++ [.runAt 0 0 0])
    History (rounds n ++ [.runAt 0 0 0]) 0 ∧
      s.timers.get? ⟨0, 2 ^ 62⟩ = some .user ∧
      ∀ clocks, (s.call (.handleTimeouts 0 clocks)).log.count (.started ⟨0, 2 ^ 62⟩) = 0 ∧
        (s.call (.handleTimeouts 0 clocks)).timers.get? ⟨0, 2 ^ 62⟩ = some .user := by
  have hhist := history_rounds (n := n) (by omega)
  have hget : (Driven.run call new (rounds n ++ [.runAt 0 0 0])).timers.get? ⟨0, 2 ^ 62⟩ =
      some .user := by
    obtain ⟨next, hcall⟩ := (rounds_idle (n := n) (by omega)).2.call_runAt
    rw [Driven.run_append, Driven.run_cons, Driven.run_nil, hcall, hn]
    exact OrdMap.get?_insert_self _ _ _
  refine ⟨hhist, hget, fun clocks => ?_⟩
  have hentered := (hhist.atRest clocks).entered
  have hmem : (0 : Int) ∈ [(0 : Int)] := List.mem_cons_self
  rw [call_handleTimeouts (hhist.atRest clocks)]
  exact (hentered.pass hmem rfl clocks).untouched hentered.inv (hentered.turns hmem rfl clocks).inv
    hget (lt_irrefl _)

end Timers

open Timers in
/-- The timer with sequence number `1L << 62`, all before it fired, is due at 0, and no turn of
`handleTimeouts` at 0 starts it. -/
theorem sequence_reaches_bound :
    let calls := rounds (2 ^ 62 - 1) ++ [.runAt 0 0 0]
    let s := Driven.run call new calls
    History calls 0 ∧
      s.timers.get? ⟨0, 2 ^ 62⟩ = some .user ∧
      ∀ clocks, (s.call (.handleTimeouts 0 clocks)).log.count (.started ⟨0, 2 ^ 62⟩) = 0 ∧
        (s.call (.handleTimeouts 0 clocks)).timers.get? ⟨0, 2 ^ 62⟩ = some .user :=
  rounds_wait (n := 2 ^ 62 - 1) (by decide)

end Handy
