import Handy.Base.SafeQueue
import Handy.Lib.Crew
import Handy.Lib.Run

/-! # Threads at a queue, and the pool

A `pop_wait` gives the mutex back while it waits, so it is two steps or more: one up to
the wait, one for each time it wakes up, notified, for no reason or at its time. `exit()`
sets its flag before it takes the mutex. Everything else is one step under the mutex, for
any number of threads in any order. The workers of `ThreadPool` are threads at one such
queue, and a task is in one place: queued, with a worker, or executed.
-/

namespace Handy

/-- `bool pop_wait(T *, int)`, which returns false where it takes nothing, or
`T pop_wait(int)`, which returns `T()` there. -/
inductive PopCall where
  | pointer
  | value
deriving DecidableEq, Repr

inductive QueueEvent (T : Type) where
  | push (v : T) (ok : Bool)
  | pop (call : PopCall) (taken : Option T)
  | exit
deriving DecidableEq, Repr

/-- A queue in use; `log` is read by no function of the source. -/
structure QueueUse (T : Type) where
  queue : SafeQueue T
  log : List (QueueEvent T)
deriving DecidableEq, Repr

namespace SafeQueue

variable {T : Type}

/-- `wait_infinite`. -/
def waitInfinite : Int := 2147483647

/-- `exit_ || !items_.empty()`. -/
def ready (q : SafeQueue T) : Bool := q.exit || !q.items.isEmpty

/-- `wait_ready` returns without a wait. -/
def readyAtOnce (q : SafeQueue T) (waitMs : Int) : Bool :=
  q.ready || !(waitMs == waitInfinite || decide (0 < waitMs))

/-- `wait_ready` returns when it has the mutex again. -/
def readyAfter (q : SafeQueue T) (waitMs : Int) (timeout : Bool) : Bool :=
  q.ready || (waitMs != waitInfinite && timeout)

/-- `capacity_ && items_.size() >= capacity_`. -/
def Full (q : SafeQueue T) : Prop := q.capacity ≠ 0 ∧ q.capacity ≤ q.items.length

instance (q : SafeQueue T) : Decidable q.Full := inferInstanceAs (Decidable (_ ∧ _))

theorem push_fst (q : SafeQueue T) (v : T) : (q.push v).1 = false ↔ q.Full ∨ q.exit = true := by
  rw [push]
  split
  · next h => exact iff_of_true rfl h.symm
  · next h => exact iff_of_false nofun fun hor => h hor.symm

end SafeQueue

namespace QueueUse

variable {T : Type}

def new (capacity : Nat) : QueueUse T := ⟨.new capacity, []⟩

def push (u : QueueUse T) (v : T) : QueueUse T where
  queue := (u.queue.push v).2
  log := u.log ++ [.push v (u.queue.push v).1]

/-- `pop_wait` behind `wait_ready`. -/
def pop (u : QueueUse T) (call : PopCall) : QueueUse T where
  queue := u.queue.popNow.2
  log := u.log ++ [.pop call u.queue.popNow.1]

/-- `exit_ = true`. -/
def exit (u : QueueUse T) : QueueUse T where
  queue := { u.queue with exit := true }
  log := u.log ++ [.exit]

/-- The values for which `push` returned true. -/
def accepted (log : List (QueueEvent T)) : List T :=
  log.filterMap fun e => match e with
    | .push v true => some v
    | _ => none

def popped (log : List (QueueEvent T)) : List T :=
  log.filterMap fun e => match e with
    | .pop _ taken => taken
    | _ => none

/-- Values come out in the order they were accepted in, a capacity is kept, and `exit_` is
set when `exit` was called. -/
structure Inv (capacity : Nat) (u : QueueUse T) : Prop where
  order : popped u.log ++ u.queue.items = accepted u.log
  limit : u.queue.capacity = capacity
  bounded : capacity ≠ 0 → u.queue.items.length ≤ capacity
  exited : u.queue.exit = true ↔ .exit ∈ u.log

/-- Of a queue of the given capacity: what came out, followed by what is in it, is what was
accepted; the capacity is kept; and `push` is refused just where the queue is full or
`exit` was called. -/
def Conserves (capacity : Nat) (u : QueueUse T) : Prop :=
  popped u.log ++ u.queue.items = accepted u.log ∧
    (capacity ≠ 0 → u.queue.items.length ≤ capacity) ∧
    ∀ v, (u.queue.push v).1 = false ↔
      capacity ≠ 0 ∧ u.queue.items.length = capacity ∨ .exit ∈ u.log

theorem accepted_append (l l' : List (QueueEvent T)) :
    accepted (l ++ l') = accepted l ++ accepted l' := List.filterMap_append

theorem popped_append (l l' : List (QueueEvent T)) : popped (l ++ l') = popped l ++ popped l' :=
  List.filterMap_append

theorem Inv.new (capacity : Nat) : (new capacity : QueueUse T).Inv capacity where
  order := rfl
  limit := rfl
  bounded _ := Nat.zero_le _
  exited := iff_of_false nofun nofun

theorem Inv.push {capacity : Nat} {u : QueueUse T} (h : u.Inv capacity) (v : T) :
    (u.push v).Inv capacity := by
  have hexit : ∀ ok, QueueEvent.exit ∈ u.log ++ [.push v ok] ↔ .exit ∈ u.log := by simp
  unfold QueueUse.push SafeQueue.push
  split
  · constructor
    · rw [popped_append, accepted_append]
      simpa [popped, accepted] using h.order
    · exact h.limit
    · exact h.bounded
    · exact h.exited.trans (hexit false).symm
  · next hroom =>
      constructor
      · rw [popped_append, accepted_append, ← h.order]
        simp [popped, accepted]
      · exact h.limit
      · intro hzero
        have hless : ¬ capacity ≤ u.queue.items.length := by
          intro hle
          rw [← h.limit] at hzero hle
          exact hroom (Or.inr ⟨hzero, hle⟩)
        rw [List.length_append, List.length_singleton]
        omega
      · exact h.exited.trans (hexit true).symm

theorem Inv.pop {capacity : Nat} {u : QueueUse T} (h : u.Inv capacity) (call : PopCall) :
    (u.pop call).Inv capacity := by
  have hexit : ∀ taken, QueueEvent.exit ∈ u.log ++ [.pop call taken] ↔ .exit ∈ u.log := by simp
  unfold QueueUse.pop
  rcases u.queue.popNow_cases with ⟨_, hpop⟩ | ⟨v, rest, hitems, hpop⟩
  · rw [hpop]
    constructor
    · rw [popped_append, accepted_append]
      simpa [popped, accepted] using h.order
    · exact h.limit
    · exact h.bounded
    · exact h.exited.trans (hexit none).symm
  · rw [hpop]
    have horder := h.order
    have hbounded := h.bounded
    rw [hitems] at horder hbounded
    constructor
    · rw [popped_append, accepted_append, ← horder]
      simp [popped, accepted]
    · exact h.limit
    · intro hzero
      exact Nat.le_of_succ_le (hbounded hzero)
    · exact h.exited.trans (hexit (some v)).symm

theorem Inv.exit {capacity : Nat} {u : QueueUse T} (h : u.Inv capacity) :
    u.exit.Inv capacity where
  order := by
    rw [QueueUse.exit, popped_append, accepted_append]
    simpa [popped, accepted] using h.order
  limit := h.limit
  bounded := h.bounded
  exited := iff_of_true rfl (List.mem_append_right _ List.mem_cons_self)

/-- `push` is refused where the queue is full or `exit` was called. -/
theorem Inv.push_fst {capacity : Nat} {u : QueueUse T} (h : u.Inv capacity) (v : T) :
    (u.queue.push v).1 = false ↔
      capacity ≠ 0 ∧ u.queue.items.length = capacity ∨ .exit ∈ u.log := by
  have hfull : u.queue.Full ↔ capacity ≠ 0 ∧ u.queue.items.length = capacity := by
    rw [SafeQueue.Full, h.limit]
    constructor
    · exact fun hf => ⟨hf.1, Nat.le_antisymm (h.bounded hf.1) hf.2⟩
    · exact fun hf => ⟨hf.1, Nat.le_of_eq hf.2.symm⟩
  rw [SafeQueue.push_fst, hfull, h.exited]

theorem Inv.conserves {capacity : Nat} {u : QueueUse T} (h : u.Inv capacity) :
    u.Conserves capacity :=
  ⟨h.order, h.bounded, h.push_fst⟩

end QueueUse

/-! ## Threads at a queue -/

/-- A thread: outside the member functions, in the wait of a `pop_wait`, or in `exit()`
behind `exit_ = true`. -/
inductive QueueThread where
  | free
  | waiting (call : PopCall) (waitMs : Int)
  | exiting
deriving DecidableEq, Repr

inductive QueueChoice (T : Type) where
  | push (i : Nat) (v : T)
  | popWait (i : Nat) (call : PopCall) (waitMs : Int)
  | wake (i : Nat) (timeout : Bool)
  | exit (i : Nat)
  | notify (i : Nat)

structure QueueThreads (T : Type) extends QueueUse T where
  threads : List QueueThread

namespace QueueThreads

variable {T : Type}

def new (capacity threads : Nat) : QueueThreads T :=
  ⟨.new capacity, List.replicate threads .free⟩

/-- One step; a choice that is not possible changes nothing. -/
def step (s : QueueThreads T) : QueueChoice T → QueueThreads T
  | .push i v =>
      match s.threads[i]? with
      | some .free => { s with toQueueUse := s.toQueueUse.push v }
      | _ => s
  | .popWait i call waitMs =>
      match s.threads[i]? with
      | some .free =>
          if s.queue.readyAtOnce waitMs then { s with toQueueUse := s.toQueueUse.pop call }
          else { s with threads := s.threads.set i (.waiting call waitMs) }
      | _ => s
  | .wake i timeout =>
      match s.threads[i]? with
      | some (.waiting call waitMs) =>
          if s.queue.readyAfter waitMs timeout then
            { s with toQueueUse := s.toQueueUse.pop call, threads := s.threads.set i .free }
          else s
      | _ => s
  | .exit i =>
      match s.threads[i]? with
      | some .free =>
          { s with toQueueUse := s.toQueueUse.exit, threads := s.threads.set i .exiting }
      | _ => s
  | .notify i =>
      match s.threads[i]? with
      | some .exiting => { s with threads := s.threads.set i .free }
      | _ => s

theorem inv_step {capacity : Nat} {s : QueueThreads T} (h : s.Inv capacity) (c : QueueChoice T) :
    (s.step c).Inv capacity := by
  cases c with
  | push i v =>
      rw [step]
      split
      · exact h.push v
      · exact h
  | popWait i call waitMs =>
      rw [step]
      split
      · split
        · exact h.pop call
        · exact h
      · exact h
  | wake i timeout =>
      rw [step]
      split
      · split
        · exact h.pop _
        · exact h
      · exact h
  | exit i =>
      rw [step]
      split
      · exact h.exit
      · exact h
  | notify i =>
      rw [step]
      split
      · exact h
      · exact h

end QueueThreads

/-! ## The pool -/

/-- A thread of the pool: at the head of its loop, before `pop_wait`, in its wait, in a
task, or at its end. -/
inductive PoolWorker (T : Type) where
  | head
  | calling
  | waiting
  | running (task : T)
  | done
deriving DecidableEq, Repr

def PoolWorker.task? {T : Type} : PoolWorker T → Option T
  | .running task => some task
  | _ => none

/-- What happens next: a call of a member function, or a worker goes on. -/
inductive PoolChoice (T : Type) where
  | addTask (task : T)
  | start
  | exit
  | check (i : Nat)
  | popWait (i : Nat)
  | wake (i : Nat)
  | finish (i : Nat)

/-- `tasks_` and `threads_`; `executed` is read by no function of the source. -/
structure ThreadPool (T : Type) where
  tasks : QueueUse T
  threads : Nat
  workers : List (PoolWorker T)
  executed : List T

namespace ThreadPool

variable {T : Type}

/-- `ThreadPool(threads, taskCapacity, false)`. -/
def new (threads taskCapacity : Nat) : ThreadPool T := ⟨.new taskCapacity, threads, [], []⟩

/-- `tasks_.pop_wait(&task)` behind its wait. -/
def pop (p : ThreadPool T) (i : Nat) : ThreadPool T :=
  { p with
    tasks := p.tasks.pop .pointer
    workers := p.workers.set i (match p.tasks.queue.popNow.1 with
      | some task => .running task
      | none => .head) }

/-- One step; a choice that is not possible changes nothing. -/
def step (p : ThreadPool T) : PoolChoice T → ThreadPool T
  | .addTask task => { p with tasks := p.tasks.push task }
  | .start =>
      match p.workers with
      | [] => { p with workers := List.replicate p.threads .head }
      | _ => p
  | .exit => { p with tasks := p.tasks.exit }
  | .check i =>
      match p.workers[i]? with
      | some .head =>
          { p with workers := p.workers.set i (if p.tasks.queue.exit then .done else .calling) }
      | _ => p
  | .popWait i =>
      match p.workers[i]? with
      | some .calling =>
          if p.tasks.queue.readyAtOnce SafeQueue.waitInfinite then p.pop i
          else { p with workers := p.workers.set i .waiting }
      | _ => p
  | .wake i =>
      match p.workers[i]? with
      | some .waiting =>
          if p.tasks.queue.readyAfter SafeQueue.waitInfinite false then p.pop i else p
      | _ => p
  | .finish i =>
      match p.workers[i]? with
      | some (.running task) =>
          { p with
            workers := p.workers.set i .head
            executed := p.executed ++ [task] }
      | _ => p

/-- Every accepted task is in one place. -/
structure Inv (capacity : Nat) (p : ThreadPool T) : Prop where
  tasks : p.tasks.Inv capacity
  places : Multiset.ofList (QueueUse.accepted p.tasks.log) =
    .ofList p.tasks.queue.items + Crew.held PoolWorker.task? p.workers + .ofList p.executed

theorem Inv.new (threads capacity : Nat) : (new threads capacity : ThreadPool T).Inv capacity where
  tasks := .new capacity
  places := by
    rw [ThreadPool.new, Crew.held_of_none nofun]
    rfl

/-- A worker without a task goes on without one. -/
theorem Inv.turn {capacity : Nat} {p : ThreadPool T} (h : p.Inv capacity) {i : Nat}
    {w w' : PoolWorker T} (hi : p.workers[i]? = some w) (hw : w.task? = none)
    (hw' : w'.task? = none) : Inv capacity { p with workers := p.workers.set i w' } where
  tasks := h.tasks
  places := by
    rw [Crew.held_set_same hi hw hw']
    exact h.places

/-- A worker takes the task at the front, or comes back without one. -/
theorem Inv.pop {capacity : Nat} {p : ThreadPool T} (h : p.Inv capacity) {i : Nat}
    {w : PoolWorker T} (hi : p.workers[i]? = some w) (hw : w.task? = none) :
    (p.pop i).Inv capacity := by
  constructor
  · exact h.tasks.pop .pointer
  · have hplaces := h.places
    have hlog : QueueUse.accepted (p.pop i).tasks.log = QueueUse.accepted p.tasks.log := by
      rw [ThreadPool.pop, QueueUse.pop, QueueUse.accepted_append]
      exact List.append_nil _
    rw [hlog, ThreadPool.pop, QueueUse.pop]
    rcases p.tasks.queue.popNow_cases with ⟨_, hpop⟩ | ⟨task, rest, hitems, hpop⟩
    · rw [hpop]
      dsimp only
      rw [Crew.held_set_same hi hw rfl]
      exact hplaces
    · rw [hpop]
      dsimp only
      rw [hitems] at hplaces
      rw [Crew.held_set_some hi hw rfl, hplaces, ← Multiset.cons_coe, Multiset.add_cons,
        Multiset.cons_add]

theorem Inv.addTask {capacity : Nat} {p : ThreadPool T} (h : p.Inv capacity) (task : T) :
    (p.step (.addTask task)).Inv capacity := by
  rw [step]
  constructor
  · exact h.tasks.push task
  · have hplaces := h.places
    dsimp only
    rw [QueueUse.push, SafeQueue.push]
    dsimp only
    rw [QueueUse.accepted_append]
    split
    · exact (congrArg Multiset.ofList (List.append_nil _)).trans hplaces
    · show Multiset.ofList (QueueUse.accepted p.tasks.log ++ [task]) = _
      dsimp only
      rw [Crew.ofList_concat, Crew.ofList_concat, hplaces, Multiset.cons_add, Multiset.cons_add]

/-- The task returns. -/
theorem Inv.finish {capacity : Nat} {p : ThreadPool T} (h : p.Inv capacity) {i : Nat} {task : T}
    (hi : p.workers[i]? = some (.running task)) :
    Inv capacity { p with
      workers := p.workers.set i .head
      executed := p.executed ++ [task] } := by
  constructor
  · exact h.tasks
  · have hplaces := h.places
    have hheld : Crew.held PoolWorker.task? p.workers =
        task ::ₘ Crew.held PoolWorker.task? (p.workers.set i .head) :=
      Crew.held_set_none hi rfl rfl
    rw [hheld] at hplaces
    dsimp only
    rw [Crew.ofList_concat, hplaces, Multiset.add_cons, Multiset.cons_add, Multiset.add_cons]

theorem Inv.start {capacity : Nat} {p : ThreadPool T} (h : p.Inv capacity) :
    (p.step .start).Inv capacity := by
  rw [step]
  split
  · next hworkers =>
      have hnone : Crew.held PoolWorker.task? p.workers = 0 := by
        rw [hworkers]
        exact Crew.held_of_none nofun
      have hplaces := h.places
      rw [hnone] at hplaces
      constructor
      · exact h.tasks
      · dsimp only
        rw [Crew.held_of_none]
        · exact hplaces
        · intro w hw
          rw [List.eq_of_mem_replicate hw]
          rfl
  · exact h

theorem Inv.step {capacity : Nat} {p : ThreadPool T} (h : p.Inv capacity) (c : PoolChoice T) :
    (p.step c).Inv capacity := by
  cases c with
  | addTask task => exact h.addTask task
  | start => exact h.start
  | exit =>
      constructor
      · exact h.tasks.exit
      · have hplaces := h.places
        rw [ThreadPool.step, QueueUse.exit, QueueUse.accepted_append]
        exact (congrArg Multiset.ofList (List.append_nil _)).trans hplaces
  | check i =>
      rw [ThreadPool.step]
      split
      · next hi =>
          split
          · exact h.turn hi rfl rfl
          · exact h.turn hi rfl rfl
      · exact h
  | popWait i =>
      rw [ThreadPool.step]
      split
      · next hi =>
          split
          · exact h.pop hi rfl
          · exact h.turn hi rfl rfl
      · exact h
  | wake i =>
      rw [ThreadPool.step]
      split
      · next hi =>
          split
          · exact h.pop hi rfl
          · exact h
      · exact h
  | finish i =>
      rw [ThreadPool.step]
      split
      · next task hi => exact h.finish hi
      · exact h

end ThreadPool

/-- For every capacity, every number of threads and every order of their steps a queue
conserves what it accepts, that of a pool too; and each task a pool has accepted is queued,
with one worker, or executed once. -/
theorem tasks_conserved {T : Type} (capacity threads : Nat) (choices : List (QueueChoice T))
    (calls : List (PoolChoice T)) :
    let s := Driven.run QueueThreads.step (.new capacity threads) choices
    let p := Driven.run ThreadPool.step (.new threads capacity) calls
    s.Conserves capacity ∧ p.tasks.Conserves capacity ∧
      Multiset.ofList (QueueUse.accepted p.tasks.log) =
        .ofList p.tasks.queue.items + Crew.held PoolWorker.task? p.workers +
          .ofList p.executed := by
  intro s p
  have hqueue : s.Inv capacity :=
    Driven.run_keeps (I := fun s : QueueThreads T => s.Inv capacity)
      (fun _ c h => QueueThreads.inv_step h c) (QueueUse.Inv.new capacity) choices
  have hpool : p.Inv capacity :=
    Driven.run_keeps (I := ThreadPool.Inv capacity) (fun _ c h => h.step c)
      (ThreadPool.Inv.new threads capacity) calls
  exact ⟨hqueue.conserves, hpool.tasks.conserves, hpool.places⟩

/-- One worker executes a task, one is in another, and a third task is turned away. -/
example :
    let calls : List (PoolChoice Nat) :=
      [.start, .check 0, .popWait 0, .addTask 7, .addTask 8, .wake 0, .addTask 9, .check 1,
        .popWait 1, .finish 0, .exit, .check 0]
    let p := Driven.run ThreadPool.step (.new 2 1) calls
    p.executed = [7] ∧ p.workers = [.done, .running 9] ∧ p.tasks.queue.items = [] := by decide

end Handy
