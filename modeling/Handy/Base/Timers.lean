import Handy.Lib.OrdMap
import Handy.Lib.Run
import Mathlib.Algebra.Group.Int.Defs
import Mathlib.Data.Prod.Lex
import Mathlib.Order.Lex

/-! # Timers

One-shot tasks are entries of `timers_` under their own id. A repeating task is
an entry of `timerReps_` under an id with the negated time, and of `timers_`
under the key of its next expiry, where a closure points back to it; firing it
erases that key and inserts the next one before the task is called. Tasks run on
the loop thread and may call back into the store, so the calls of
`handleTimeouts` in progress are kept on a stack.
-/

namespace Handy

/-- A sum or a negation of `int64_t`. -/
def wrap64 (n : Int) : Int := (n + 2 ^ 63) % 2 ^ 64 - 2 ^ 63

/-- An `int64_t` converted to `int`. -/
def narrow32 (n : Int) : Int := (n + 2 ^ 31) % 2 ^ 32 - 2 ^ 31

/-- `std::pair<int64_t, int64_t>`, ordered by `first` and then by `second`. -/
structure TimerId where
  first : Int
  second : Int
deriving DecidableEq, Repr

theorem TimerId.toLex_injective :
    Function.Injective fun id : TimerId => toLex (id.first, id.second) := by
  rintro ⟨a, b⟩ ⟨c, d⟩ h
  cases h
  rfl

instance : LinearOrder TimerId := LinearOrder.lift' _ TimerId.toLex_injective

theorem TimerId.lt_iff {a b : TimerId} :
    a < b ↔ a.first < b.first ∨ (a.first = b.first ∧ a.second < b.second) :=
  Prod.Lex.toLex_lt_toLex

theorem TimerId.le_iff {a b : TimerId} :
    a ≤ b ↔ a.first < b.first ∨ (a.first = b.first ∧ a.second ≤ b.second) :=
  Prod.Lex.toLex_le_toLex

/-- A `Task` of `timers_`: the user's, or the closure of `repeatableTimeout` over
a node of `timerReps_`. -/
inductive TimerTask where
  | user
  | repeatable (tid : TimerId)
deriving DecidableEq, Repr

/-- `at`, `interval`, `timerid`; what `cb` is does not matter here. -/
structure TimerRepeatable where
  expiry : Int
  interval : Int
  timerid : TimerId
deriving DecidableEq, Repr

/-- The code a call of `handleTimeouts` has still to run: the head of its loop,
below a task that runs. -/
inductive TimerFrame where
  | sweep (tid : TimerId)
  | task
deriving DecidableEq, Repr

/-- What `runAt` returned: the id of a one-shot or of a repeating task, or
`TimerId()` after `exit`. -/
inductive TimerKind where
  | oneShot
  | repeating
  | refused
deriving DecidableEq, Repr

/-- What happened to timers: `runAt` returned an id, a task was started, `cancel`
returned true, `loop` cleared the maps. -/
inductive TimerEvent where
  | returned (id : TimerId) (kind : TimerKind)
  | started (id : TimerId)
  | cancelled (id : TimerId)
  | cleared
deriving DecidableEq, Repr

/-- An absent map entry was dereferenced. -/
inductive TimerFault where
  | absentEntry
deriving DecidableEq, Repr

/-- The timer part of `EventsImp`; `log`, newest first, is read by no function. -/
structure Timers where
  timers : OrdMap TimerId TimerTask
  timerReps : OrdMap TimerId TimerRepeatable
  timerSeq : Int
  nextTimeout : Int
  exit : Bool
  stack : List TimerFrame
  fault : Option TimerFault
  log : List TimerEvent

namespace Timers

def new : Timers where
  timers := .empty
  timerReps := .empty
  timerSeq := 0
  nextTimeout := 2 ^ 30
  exit := false
  stack := []
  fault := none
  log := []

/-- `refreshNearest()` with the clock at `clock`. -/
def refreshNearest (s : Timers) (clock : Int) : Timers :=
  match s.timers.first? with
  | none => { s with nextTimeout := 2 ^ 30 }
  | some (t, _) =>
      let next := narrow32 (wrap64 (t.first - clock))
      { s with nextTimeout := if next < 0 then 0 else next }

@[simp] theorem refreshNearest_log (s : Timers) (clock : Int) :
    (s.refreshNearest clock).log = s.log := by
  unfold refreshNearest
  split
  · rfl
  · rfl

@[simp] theorem refreshNearest_fault (s : Timers) (clock : Int) :
    (s.refreshNearest clock).fault = s.fault := by
  unfold refreshNearest
  split
  · rfl
  · rfl

/-- `runAt(milli, task, interval)` with the clock at `clock`. Its keys carry new
sequence numbers, so `insert` and `operator[]` do the same. -/
def runAt (s : Timers) (milli interval clock : Int) : TimerId × Timers :=
  if s.exit then (⟨0, 0⟩, { s with log := .returned ⟨0, 0⟩ .refused :: s.log })
  else if interval ≠ 0 then
    let tid : TimerId := ⟨wrap64 (-milli), s.timerSeq + 1⟩
    let rtr : TimerRepeatable := ⟨milli, interval, ⟨milli, s.timerSeq + 2⟩⟩
    (tid, refreshNearest
      { s with
        timerSeq := s.timerSeq + 2
        timerReps := s.timerReps.insert tid rtr
        timers := s.timers.insert rtr.timerid (.repeatable tid)
        log := .returned tid .repeating :: s.log } clock)
  else
    let tid : TimerId := ⟨milli, s.timerSeq + 1⟩
    (tid, refreshNearest
      { s with
        timerSeq := s.timerSeq + 1
        timers := s.timers.insert tid .user
        log := .returned tid .oneShot :: s.log } clock)

/-- `cancel(timerid)`: what it returns, if it returns, and the store behind it. -/
def cancel (s : Timers) (timerid : TimerId) : Except TimerFault (Bool × Timers) :=
  if timerid.first < 0 then
    match s.timerReps.get? timerid with
    | none => .error .absentEntry
    | some p =>
        let timers :=
          match s.timers.get? p.timerid with
          | some _ => s.timers.erase p.timerid
          | none => s.timers
        .ok (true, { s with
          timers := timers
          timerReps := s.timerReps.erase timerid
          log := .cancelled timerid :: s.log })
  else
    match s.timers.get? timerid with
    | some _ => .ok (true, { s with
        timers := s.timers.erase timerid
        log := .cancelled timerid :: s.log })
    | none => .ok (false, s)

/-- `repeatableTimeout(tr)` up to the call of `tr->cb()`. -/
def repeatableTimeout (s : Timers) (tid : TimerId) (clock : Int) : Timers :=
  match s.timerReps.get? tid with
  | none => { s with fault := some .absentEntry }
  | some tr =>
      let next := wrap64 (tr.expiry + tr.interval)
      let tr : TimerRepeatable := ⟨next, tr.interval, ⟨next, s.timerSeq + 1⟩⟩
      refreshNearest
        { s with
          timerSeq := s.timerSeq + 1
          timerReps := s.timerReps.insert tid tr
          timers := s.timers.insert tr.timerid (.repeatable tid)
          stack := .task :: s.stack
          log := .started tid :: s.log } clock

/-- The head of the loop of `handleTimeouts`, and what comes of it: the task of the
earliest timer is entered, or the call ends. -/
def sweep (s : Timers) (tid : TimerId) (rest : List TimerFrame) (clock : Int) : Timers :=
  match s.timers.first? with
  | some (key, task) =>
      if key < tid then
        let s := { s with timers := s.timers.erase key }
        match task with
        | .user => { s with stack := .task :: s.stack, log := .started key :: s.log }
        | .repeatable id => s.repeatableTimeout id clock
      else refreshNearest { s with stack := rest } clock
  | none => refreshNearest { s with stack := rest } clock

/-- What happens next: user code calls `runAt` or `cancel`, `handleTimeouts` is
called at time `now`, its loop goes on, a task returns, `exit` is called, or
`loop` clears the maps behind its `while`. -/
inductive Choice where
  | runAt (milli interval clock : Int)
  | cancel (timerid : TimerId)
  | handleTimeouts (now : Int)
  | go (clock : Int)
  | ret
  | exit
  | clear
deriving DecidableEq, Repr

/-- User code runs, in a task or elsewhere on the loop thread. -/
def UserRuns (s : Timers) : Bool :=
  match s.stack with
  | .sweep _ :: _ => false
  | _ => true

/-- One step of a process that has not faulted; a choice that is not possible
changes nothing. -/
def step (s : Timers) (choice : Choice) : Timers :=
  if s.fault.isSome then s
  else
    match choice with
    | .runAt milli interval clock => if s.UserRuns then (s.runAt milli interval clock).2 else s
    | .cancel timerid =>
        if s.UserRuns then
          match s.cancel timerid with
          | .ok (_, s') => s'
          | .error e => { s with fault := some e }
        else s
    | .handleTimeouts now =>
        if s.UserRuns then { s with stack := .sweep ⟨now, 2 ^ 62⟩ :: s.stack } else s
    | .go clock =>
        match s.stack with
        | .sweep tid :: rest => s.sweep tid rest clock
        | _ => s
    | .ret =>
        match s.stack with
        | .task :: rest => { s with stack := rest }
        | _ => s
    | .exit => { s with exit := true }
    | .clear =>
        if s.stack = [] ∧ s.exit = true then
          { s with timers := .empty, timerReps := .empty, log := .cleared :: s.log }
        else s

inductive Moved (s : Timers) : Choice → Timers → Prop
  | stay {choice : Choice} : Moved s choice s
  | runAt (milli interval clock : Int) :
      Moved s (.runAt milli interval clock) (s.runAt milli interval clock).2
  | cancel {id : TimerId} {answer : Bool} {s' : Timers} (h : s.cancel id = .ok (answer, s')) :
      Moved s (.cancel id) s'
  | fault {id : TimerId} {e : TimerFault} (h : s.cancel id = .error e) :
      Moved s (.cancel id) { s with fault := some e }
  | sweep (tid : TimerId) (rest : List TimerFrame) (clock : Int) :
      Moved s (.go clock) (s.sweep tid rest clock)
  | stack {choice : Choice} (stack : List TimerFrame) : Moved s choice { s with stack := stack }
  | exit : Moved s .exit { s with exit := true }
  | clear (h : s.exit = true) : Moved s .clear
      { s with timers := .empty, timerReps := .empty, log := .cleared :: s.log }

theorem moved_step (s : Timers) (choice : Choice) : Moved s choice (s.step choice) := by
  unfold step
  split
  · exact .stay
  · cases choice with
    | runAt milli interval clock =>
        dsimp only
        split
        · exact .runAt milli interval clock
        · exact .stay
    | cancel id =>
        dsimp only
        split
        · split
          · next answer s' h => exact .cancel h
          · next e h => exact .fault h
        · exact .stay
    | handleTimeouts now =>
        dsimp only
        split
        · exact .stack _
        · exact .stay
    | go clock =>
        dsimp only
        split
        · exact .sweep _ _ clock
        · exact .stay
    | ret =>
        dsimp only
        split
        · exact .stack _
        · exact .stay
    | exit => exact .exit
    | clear =>
        dsimp only
        split
        · next h => exact .clear h.2
        · exact .stay

end Timers

end Handy
