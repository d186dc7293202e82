import Handy.Base.SafeQueue
import Handy.Lib.Run

/-! # Waking the loop

`safeCall` is two steps, a push on `tasks_` and a byte into the wake-up pipe; the
handler of the pipe is a read, any number of pops that each run a task, and a pop
that fails. Any number of threads are between the two steps, the task under way
too, and every interleaving is a run. The invariant `Woken` says who still owes
the loop a wake-up whenever a task is waiting.
-/

namespace Handy

/-- Where the loop thread is: outside the handler, at the head of `while
(tasks_.pop_wait(&task, 0))`, or inside `task()`, which may itself be between the
two steps of a `safeCall`. -/
inductive WakePhase where
  | waiting
  | popping
  | running (midCall : Bool)
deriving DecidableEq, Repr

/-- `called` and `started` record the tasks handed to `safeCall` and the tasks
begun. -/
structure Wake (P T : Type) where
  tasks : SafeQueue T
  pipe : Nat
  midCall : P → Bool
  phase : WakePhase
  called : List T
  started : List T

/-- What happens next: a thread's two steps, a byte from `wakeup` alone, the
handler's read of `n` bytes, its pop, and what the task under way does. -/
inductive WakeChoice (P T : Type) where
  | push (p : P) (task : T)
  | write (p : P)
  | wakeup
  | read (n : Nat)
  | pop
  | taskPush (task : T)
  | taskWrite
  | taskReturn
deriving Repr

namespace Wake

variable {P T : Type}

/-- `EventBase(taskCapacity)` before any thread runs. -/
def new (taskCapacity : Nat) : Wake P T where
  tasks := .new taskCapacity
  pipe := 0
  midCall _ := false
  phase := .waiting
  called := []
  started := []

/-- `tasks_.push(move(task))`, whose answer `safeCall` does not look at. -/
def pushTask (s : Wake P T) (task : T) : Wake P T :=
  { s with tasks := (s.tasks.push task).2, called := s.called ++ [task] }

/-- `write(wakeupFds_[1], "", 1)`. -/
def writeByte (s : Wake P T) : Wake P T := { s with pipe := s.pipe + 1 }

variable [DecidableEq P]

def setMid (s : Wake P T) (p : P) (mid : Bool) : Wake P T :=
  { s with midCall := fun q => if q = p then mid else s.midCall q }

/-- One step; a choice that is not possible changes nothing. -/
def step (s : Wake P T) : WakeChoice P T → Wake P T
  | .push p task => if s.midCall p then s else (s.pushTask task).setMid p true
  | .write p => if s.midCall p then s.writeByte.setMid p false else s
  | .wakeup => s.writeByte
  | .read n =>
      if s.phase = .waiting ∧ 0 < n ∧ n ≤ 1024 ∧ n ≤ s.pipe then
        { s with pipe := s.pipe - n, phase := .popping }
      else s
  | .pop =>
      if s.phase = .popping then
        match s.tasks.popNow with
        | (none, tasks) => { s with tasks := tasks, phase := .waiting }
        | (some task, tasks) =>
            { s with tasks := tasks, phase := .running false, started := s.started ++ [task] }
      else s
  | .taskPush task =>
      if s.phase = .running false then { s.pushTask task with phase := .running true } else s
  | .taskWrite =>
      if s.phase = .running true then { s.writeByte with phase := .running false } else s
  | .taskReturn => if s.phase = .running false then { s with phase := .popping } else s

/-- With a task waiting, the pipe holds a byte, a thread is about to write one, or
the handler has yet to find the queue empty. -/
def Woken (s : Wake P T) : Prop :=
  s.tasks.items ≠ [] → 0 < s.pipe ∨ (∃ p, s.midCall p = true) ∨ s.phase ≠ .waiting

/-- The tasks begun, then the tasks waiting, are the tasks handed over. -/
def InOrder (s : Wake P T) : Prop := s.called = s.started ++ s.tasks.items

structure Inv (s : Wake P T) : Prop where
  unlimited : s.tasks.Open
  order : s.InOrder
  woken : s.Woken

omit [DecidableEq P] in
theorem Inv.new : (new 0 : Wake P T).Inv where
  unlimited := ⟨rfl, rfl⟩
  order := rfl
  woken h := absurd rfl h

omit [DecidableEq P] in
/-- A push keeps the order; the wake-up is then owed by whoever pushed. -/
theorem Inv.pushTask {s : Wake P T} (h : s.Inv) (task : T) :
    (s.pushTask task).tasks.Open ∧ (s.pushTask task).InOrder := by
  have hpush := SafeQueue.push_open h.unlimited task
  constructor
  · show (s.tasks.push task).2.Open
    rw [hpush]
    exact h.unlimited
  · show s.called ++ [task] = s.started ++ (s.tasks.push task).2.items
    rw [hpush, h.order, List.append_assoc]

theorem Inv.push {s : Wake P T} (h : s.Inv) (p : P) (task : T) : (s.step (.push p task)).Inv := by
  rw [Wake.step]
  split
  · exact h
  · obtain ⟨hopen, horder⟩ := h.pushTask task
    have hmid : ((s.pushTask task).setMid p true).midCall p = true := if_pos rfl
    exact ⟨hopen, horder, fun _ => Or.inr (Or.inl ⟨p, hmid⟩)⟩

theorem Inv.read {s : Wake P T} (h : s.Inv) (n : Nat) : (s.step (.read n)).Inv := by
  rw [Wake.step]
  split
  · have hphase : WakePhase.popping ≠ .waiting := by decide
    exact ⟨h.unlimited, h.order, fun _ => Or.inr (Or.inr hphase)⟩
  · exact h

/-- The pop that fails is the one that leaves no task behind. -/
theorem Inv.pop {s : Wake P T} (h : s.Inv) : (s.step .pop).Inv := by
  rw [Wake.step]
  split
  · rcases s.tasks.popNow_cases with ⟨hnil, hpop⟩ | ⟨task, rest, hcons, hpop⟩
    · rw [hpop]
      exact ⟨h.unlimited, h.order, fun hne => absurd hnil hne⟩
    · rw [hpop]
      have hphase : WakePhase.running false ≠ .waiting := by decide
      refine ⟨h.unlimited, ?_, fun _ => Or.inr (Or.inr hphase)⟩
      show s.called = (s.started ++ [task]) ++ rest
      rw [h.order, hcons, List.append_assoc]
      rfl
  · exact h

theorem Inv.task {s : Wake P T} (h : s.Inv) (c : WakeChoice P T)
    (hc : (∃ task, c = .taskPush task) ∨ c = .taskWrite ∨ c = .taskReturn) : (s.step c).Inv := by
  have hrunning : ∀ mid, WakePhase.running mid ≠ .waiting := by
    intro mid
    cases mid <;> decide
  rcases hc with ⟨task, rfl⟩ | rfl | rfl
  · rw [Wake.step]
    split
    · obtain ⟨hopen, horder⟩ := h.pushTask task
      exact ⟨hopen, horder, fun _ => Or.inr (Or.inr (hrunning true))⟩
    · exact h
  · rw [Wake.step]
    split
    · exact ⟨h.unlimited, h.order, fun _ => Or.inr (Or.inr (hrunning false))⟩
    · exact h
  · rw [Wake.step]
    split
    · have hphase : WakePhase.popping ≠ .waiting := by decide
      exact ⟨h.unlimited, h.order, fun _ => Or.inr (Or.inr hphase)⟩
    · exact h

theorem Inv.step {s : Wake P T} (h : s.Inv) (c : WakeChoice P T) : (s.step c).Inv := by
  cases c with
  | push p task => exact h.push p task
  | write p =>
      rw [Wake.step]
      split
      · exact ⟨h.unlimited, h.order, fun _ => Or.inl (Nat.succ_pos s.pipe)⟩
      · exact h
  | wakeup => exact ⟨h.unlimited, h.order, fun _ => Or.inl (Nat.succ_pos s.pipe)⟩
  | read n => exact h.read n
  | pop => exact h.pop
  | taskPush task => exact h.task _ (Or.inl ⟨task, rfl⟩)
  | taskWrite => exact h.task _ (Or.inr (Or.inl rfl))
  | taskReturn => exact h.task _ (Or.inr (Or.inr rfl))

end Wake

open Wake in
/-- Whatever the threads, the loop and the tasks do next: the tasks run are the
tasks handed over, in that order and none skipped, and a task that waits has a
wake-up coming. -/
theorem safeCall_loses_nothing {P T : Type} [DecidableEq P] (choices : List (WakeChoice P T)) :
    let s := Driven.run step (new 0) choices
    s.called = s.started ++ s.tasks.items ∧
      (s.tasks.items ≠ [] →
        0 < s.pipe ∨ (∃ p, s.midCall p = true) ∨ s.phase = .popping ∨
          ∃ midCall, s.phase = .running midCall) := by
  have hinv : (Driven.run step (new 0) choices).Inv :=
    Driven.run_keeps (I := Inv) (fun _ c h => h.step c) Inv.new choices
  refine ⟨hinv.order, fun hne => ?_⟩
  rcases hinv.woken hne with hpipe | hmid | hphase
  · exact Or.inl hpipe
  · exact Or.inr (Or.inl hmid)
  · right
    right
    cases hp : (Driven.run step (new 0) choices).phase with
    | waiting => exact absurd hp hphase
    | popping => exact Or.inl rfl
    | running mid => exact Or.inr ⟨mid, rfl⟩

end Handy
