import Handy.Base.SafeQueue
import Handy.Lib.Crew
import Handy.Lib.Run

/-! # The half-synchronous server

A message decoded on the loop thread becomes a task of the pool; the worker that pops
it runs the handler and hands the output back through `tasks_` of the loop, whose
thread sends it. Threads interleave at each queue operation and at the start and the
end of the handler; the loop may run a task whenever one is queued. At every point a
request is in one place: queued, with a worker, or answered; and so is an answer: with
a worker, queued, or sent.
-/

namespace Handy

/-- What the task of the pool has captured: `con` and `input`. -/
structure HshaRequest (C : Type) where
  con : C
  input : List UInt8
deriving DecidableEq, Repr

/-- What the task of the loop has captured: `con` and `output`. -/
structure HshaReply (C : Type) where
  con : C
  output : List UInt8
deriving DecidableEq, Repr

/-- A task in `tasks_` of the loop: a reply, or one that someone else handed to
`safeCall`. -/
inductive LoopTask (C : Type) where
  | reply (r : HshaReply C)
  | other
deriving DecidableEq, Repr

/-- A thread of the pool: in `pop_wait`, in the handler, or behind it with the output
and before `safeCall`. -/
inductive HshaWorker (C : Type) where
  | waiting
  | running (r : HshaRequest C)
  | answering (r : HshaReply C)
deriving DecidableEq, Repr

def HshaWorker.request? {C : Type} : HshaWorker C → Option (HshaRequest C)
  | .running r => some r
  | _ => none

def HshaWorker.reply? {C : Type} : HshaWorker C → Option (HshaReply C)
  | .answering r => some r
  | _ => none

def LoopTask.reply? {C : Type} : LoopTask C → Option (HshaReply C)
  | .reply r => some r
  | .other => none

/-- There is something to send. -/
def HshaReply.Speaks {C : Type} (r : HshaReply C) : Prop := r.output ≠ []

instance {C : Type} : DecidablePred (HshaReply.Speaks (C := C)) :=
  fun r => inferInstanceAs (Decidable (r.output ≠ []))

/-- An `HSHA` server. `decoded` and `answered` record the messages decoded and the
outputs of the handler, `sent` the calls of `sendMsg`. -/
structure Hsha (C : Type) where
  pool : SafeQueue (HshaRequest C)
  threads : List (HshaWorker C)
  tasks : SafeQueue (LoopTask C)
  decoded : List (HshaRequest C)
  answered : List (HshaRequest C × List UInt8)
  sent : List (HshaReply C)

/-- What happens next: the loop thread decodes a message, a worker pops, its handler
returns, it hands its output to `safeCall`, someone hands over another task, or the
loop thread pops a task and runs it. -/
inductive HshaChoice (C : Type) where
  | onMsg (con : C) (msg : List UInt8)
  | pop (i : Nat)
  | handled (i : Nat) (output : List UInt8)
  | safeCall (i : Nat)
  | other
  | runTask
deriving Repr

namespace Hsha

variable {C : Type}

/-- `HSHA(threads)` on a base without a limit, before any message. -/
def new (threads : Nat) : Hsha C where
  pool := .new 0
  threads := List.replicate threads .waiting
  tasks := .new 0
  decoded := []
  answered := []
  sent := []

/-- The closure that `safeCall` is given: `if (output.size()) con->sendMsg(output)`. -/
def runReply (s : Hsha C) (r : HshaReply C) : Hsha C :=
  if r.output.length ≠ 0 then { s with sent := s.sent ++ [r] } else s

/-- One step; a choice that is not possible changes nothing. -/
def step (s : Hsha C) : HshaChoice C → Hsha C
  | .onMsg con msg =>
      { s with
        pool := (s.pool.push ⟨con, msg⟩).2
        decoded := s.decoded ++ [⟨con, msg⟩] }
  | .pop i =>
      match s.threads[i]? with
      | some .waiting =>
          match s.pool.popNow with
          | (none, _) => s
          | (some r, pool) => { s with pool := pool, threads := s.threads.set i (.running r) }
      | _ => s
  | .handled i output =>
      match s.threads[i]? with
      | some (.running r) =>
          { s with
            threads := s.threads.set i (.answering ⟨r.con, output⟩)
            answered := s.answered ++ [(r, output)] }
      | _ => s
  | .safeCall i =>
      match s.threads[i]? with
      | some (.answering r) =>
          { s with
            threads := s.threads.set i .waiting
            tasks := (s.tasks.push (.reply r)).2 }
      | _ => s
  | .other => { s with tasks := (s.tasks.push .other).2 }
  | .runTask =>
      match s.tasks.popNow with
      | (none, _) => s
      | (some .other, tasks) => { s with tasks := tasks }
      | (some (.reply r), tasks) => runReply { s with tasks := tasks } r

/-! ## Where requests and answers are -/

/-- The answer to a request, as the loop's task will see it. -/
def replyTo (answer : HshaRequest C × List UInt8) : HshaReply C := ⟨answer.1.con, answer.2⟩

def unanswered (s : Hsha C) : Multiset (HshaRequest C) :=
  .ofList s.pool.items + Multiset.filterMap HshaWorker.request? (.ofList s.threads)

/-- The answers not yet with the loop's thread. -/
def underway (s : Hsha C) : Multiset (HshaReply C) :=
  Multiset.filterMap HshaWorker.reply? (.ofList s.threads) +
    Multiset.filterMap LoopTask.reply? (.ofList s.tasks.items)

/-- Nothing is lost and nothing doubled on the way. -/
structure Inv (s : Hsha C) : Prop where
  pool : s.pool.Open
  tasks : s.tasks.Open
  requests : .ofList s.decoded = s.unanswered + .ofList (s.answered.map Prod.fst)
  answers : Multiset.filter HshaReply.Speaks (.ofList (s.answered.map replyTo)) =
    Multiset.filter HshaReply.Speaks s.underway + .ofList s.sent

def Idle (s : Hsha C) : Prop := ∀ w ∈ s.threads, w = .waiting

theorem Idle.filterMap {α : Type} {s : Hsha C} (h : s.Idle) {f : HshaWorker C → Option α}
    (hf : f .waiting = none) : Multiset.filterMap f (.ofList s.threads) = 0 := by
  rw [Multiset.filterMap_coe, Multiset.coe_eq_zero, List.filterMap_eq_nil_iff]
  intro w hw
  rw [h w hw, hf]

theorem idle_new (threads : Nat) : (new threads : Hsha C).Idle :=
  fun _ hw => List.eq_of_mem_replicate hw

theorem Inv.new (threads : Nat) : (new threads : Hsha C).Inv where
  pool := ⟨rfl, rfl⟩
  tasks := ⟨rfl, rfl⟩
  requests := by
    rw [unanswered, (idle_new threads).filterMap rfl]
    rfl
  answers := by
    rw [underway, (idle_new threads).filterMap rfl]
    rfl

/-! ## One step -/

theorem Inv.onMsg {s : Hsha C} (h : s.Inv) (con : C) (msg : List UInt8) :
    (s.step (.onMsg con msg)).Inv := by
  have hpush := SafeQueue.push_open h.pool ⟨con, msg⟩
  rw [step, hpush]
  refine ⟨h.pool, h.tasks, ?_, h.answers⟩
  have hrequests := h.requests
  rw [unanswered] at hrequests ⊢
  dsimp only
  rw [Crew.ofList_concat, Crew.ofList_concat, hrequests, Multiset.cons_add, Multiset.cons_add]

theorem filter_cons_eq (r : HshaReply C) (m : Multiset (HshaReply C)) :
    Multiset.filter HshaReply.Speaks (r ::ₘ m) =
      Multiset.filter HshaReply.Speaks {r} + Multiset.filter HshaReply.Speaks m := by
  rw [← Multiset.singleton_add, Multiset.filter_add]

theorem Inv.pop {s : Hsha C} (h : s.Inv) (i : Nat) : (s.step (.pop i)).Inv := by
  rw [step]
  split
  · next hw =>
      obtain ⟨rest, hold, hnew⟩ := Crew.set_split hw
      rcases s.pool.popNow_cases with ⟨_, hpop⟩ | ⟨r, items, hitems, hpop⟩
      · rw [hpop]
        exact h
      · rw [hpop]
        have hrequests := h.requests
        have hanswers := h.answers
        refine ⟨h.pool, h.tasks, ?_, ?_⟩
        · rw [unanswered, hold, hitems, Multiset.filterMap_cons_none _ _ rfl] at hrequests
          rw [unanswered]
          dsimp only
          rw [hnew, Multiset.filterMap_cons_some HshaWorker.request? (.running r) rest rfl,
            Multiset.add_cons, hrequests, ← Multiset.cons_coe, Multiset.cons_add]
        · rw [underway, hold, Multiset.filterMap_cons_none _ _ rfl] at hanswers
          rw [underway]
          dsimp only
          rw [hnew, Multiset.filterMap_cons_none _ _ rfl, hanswers]
  · exact h

theorem Inv.handled {s : Hsha C} (h : s.Inv) (i : Nat) (output : List UInt8) :
    (s.step (.handled i output)).Inv := by
  rw [step]
  split
  · next r hw =>
      obtain ⟨rest, hold, hnew⟩ := Crew.set_split hw
      have hrequests := h.requests
      have hanswers := h.answers
      refine ⟨h.pool, h.tasks, ?_, ?_⟩
      · rw [unanswered, hold,
          Multiset.filterMap_cons_some HshaWorker.request? (.running r) rest rfl] at hrequests
        rw [unanswered]
        dsimp only
        rw [hnew, Multiset.filterMap_cons_none _ _ rfl, List.map_append, List.map_singleton,
          Crew.ofList_concat, hrequests, Multiset.add_cons, Multiset.cons_add, Multiset.add_cons]
      · rw [underway, hold, Multiset.filterMap_cons_none _ _ rfl] at hanswers
        rw [underway]
        dsimp only
        rw [hnew, Multiset.filterMap_cons_some HshaWorker.reply? (.answering ⟨r.con, output⟩) rest rfl,
          List.map_append, List.map_singleton, Crew.ofList_concat, Multiset.cons_add, filter_cons_eq,
          filter_cons_eq, hanswers, Multiset.add_assoc]
        rfl
  · exact h

theorem Inv.safeCall {s : Hsha C} (h : s.Inv) (i : Nat) : (s.step (.safeCall i)).Inv := by
  rw [step]
  split
  · next r hw =>
      obtain ⟨rest, hold, hnew⟩ := Crew.set_split hw
      rw [SafeQueue.push_open h.tasks (.reply r)]
      have hrequests := h.requests
      have hanswers := h.answers
      refine ⟨h.pool, h.tasks, ?_, ?_⟩
      · rw [unanswered, hold, Multiset.filterMap_cons_none _ _ rfl] at hrequests
        rw [unanswered]
        dsimp only
        rw [hnew, Multiset.filterMap_cons_none _ _ rfl, hrequests]
      · rw [underway, hold,
          Multiset.filterMap_cons_some HshaWorker.reply? (.answering r) rest rfl] at hanswers
        rw [underway]
        dsimp only
        rw [hnew, Multiset.filterMap_cons_none _ _ rfl, Crew.ofList_concat,
          Multiset.filterMap_cons_some LoopTask.reply? (.reply r) _ rfl, Multiset.add_cons, hanswers,
          Multiset.cons_add]
  · exact h

theorem Inv.other {s : Hsha C} (h : s.Inv) : (s.step .other).Inv := by
  rw [step, SafeQueue.push_open h.tasks .other]
  refine ⟨h.pool, h.tasks, h.requests, ?_⟩
  have hanswers := h.answers
  rw [underway] at hanswers ⊢
  dsimp only
  rw [Crew.ofList_concat, Multiset.filterMap_cons_none _ _ rfl, hanswers]

/-- The loop's thread runs the task at the front, and an output that is not empty is sent. -/
theorem Inv.runTask {s : Hsha C} (h : s.Inv) : (s.step .runTask).Inv := by
  have hanswers := h.answers
  rw [step]
  rcases s.tasks.popNow_cases with ⟨_, hpop⟩ | ⟨task, items, hitems, hpop⟩
  · rw [hpop]
    exact h
  · rw [hpop]
    rw [underway, hitems, ← Multiset.cons_coe] at hanswers
    cases task with
    | other =>
        rw [Multiset.filterMap_cons_none _ _ rfl] at hanswers
        exact ⟨h.pool, h.tasks, h.requests, hanswers⟩
    | reply r =>
        rw [Multiset.filterMap_cons_some LoopTask.reply? (.reply r) _ rfl, Multiset.add_cons,
          filter_cons_eq] at hanswers
        dsimp only
        rw [runReply]
        split
        · next hsize =>
            refine ⟨h.pool, h.tasks, h.requests, ?_⟩
            have hspeaks : r.Speaks := fun hnil => hsize (by rw [hnil]; rfl)
            rw [Multiset.filter_singleton, if_pos hspeaks, Multiset.add_assoc,
              Multiset.singleton_add] at hanswers
            dsimp only
            rw [Crew.ofList_concat, hanswers, Multiset.add_cons]
            rfl
        · next hsize =>
            refine ⟨h.pool, h.tasks, h.requests, ?_⟩
            have hsilent : ¬ r.Speaks := fun hne => hsize fun hzero =>
              hne (List.length_eq_zero_iff.mp hzero)
            rw [Multiset.filter_singleton, if_neg hsilent] at hanswers
            exact hanswers.trans (congrArg (· + _) (Multiset.zero_add _))

theorem Inv.step {s : Hsha C} (h : s.Inv) (choice : HshaChoice C) : (s.step choice).Inv := by
  cases choice with
  | onMsg con msg => exact h.onMsg con msg
  | pop i => exact h.pop i
  | handled i output => exact h.handled i output
  | safeCall i => exact h.safeCall i
  | other => exact h.other
  | runTask => exact h.runTask

/-! ## What a connection is sent -/

section Connection

variable [DecidableEq C]

/-- The messages passed to `sendMsg` of a connection. -/
def sentOn (s : Hsha C) (con : C) : Multiset (List UInt8) :=
  (Multiset.filter (fun r => r.con = con) (.ofList s.sent)).map HshaReply.output

/-- The outputs of the handler for messages of a connection that are not empty. -/
def outputsOn (s : Hsha C) (con : C) : Multiset (List UInt8) :=
  Multiset.filter (fun output => output ≠ [])
    ((Multiset.filter (fun answer => answer.1.con = con) (.ofList s.answered)).map Prod.snd)

theorem outputsOn_eq (s : Hsha C) (con : C) :
    s.outputsOn con = (Multiset.filter (fun r => r.con = con)
      (Multiset.filter HshaReply.Speaks (.ofList (s.answered.map replyTo)))).map
        HshaReply.output := by
  rw [outputsOn, ← Multiset.map_coe, Multiset.filter_map, Multiset.filter_map, Multiset.filter_map,
    Multiset.map_map, Multiset.filter_filter, Multiset.filter_filter]
  apply congrArg
  apply Multiset.filter_congr
  exact fun answer _ => and_comm

/-- What is sent and what is still to be sent on a connection are the outputs for it. -/
theorem Inv.outputsOn {s : Hsha C} (h : s.Inv) (con : C) :
    s.outputsOn con = (Multiset.filter (fun r => r.con = con)
      (Multiset.filter HshaReply.Speaks s.underway)).map HshaReply.output + s.sentOn con := by
  rw [outputsOn_eq, h.answers, Multiset.filter_add, Multiset.map_add, sentOn]

theorem Inv.sentOn_le {s : Hsha C} (h : s.Inv) (con : C) : s.sentOn con ≤ s.outputsOn con := by
  rw [h.outputsOn]
  exact Multiset.le_add_left _ _

end Connection

/-- Each message was decoded before the handler was called on it, once. -/
theorem Inv.answered_le {s : Hsha C} (h : s.Inv) :
    Multiset.ofList (s.answered.map Prod.fst) ≤ .ofList s.decoded := by
  rw [h.requests]
  exact Multiset.le_add_left _ _

end Hsha

open Hsha in
/-- Whatever the number of threads and however they interleave: each decoded message is
handled at most once, and on each connection the messages sent are outputs of the handler
for its own messages, each output at most once; with both queues empty and all workers
waiting, every decoded message has been handled, and every output that is not empty has
been sent. -/
theorem hsha_replies_once {C : Type} [DecidableEq C] (threads : Nat)
    (choices : List (HshaChoice C)) :
    let s := Driven.run step (new threads) choices
    Multiset.ofList (s.answered.map Prod.fst) ≤ .ofList s.decoded ∧
      (∀ con, s.sentOn con ≤ s.outputsOn con) ∧
      (s.pool.items = [] → s.tasks.items = [] → s.Idle →
        Multiset.ofList (s.answered.map Prod.fst) = .ofList s.decoded ∧
          ∀ con, s.sentOn con = s.outputsOn con) := by
  have hinv : (Driven.run step (new threads) choices).Inv :=
    Driven.run_keeps (I := Inv) (fun _ c h => h.step c) (Inv.new threads) choices
  refine ⟨hinv.answered_le, hinv.sentOn_le, fun hpool htasks hidle => ?_⟩
  constructor
  · rw [hinv.requests, unanswered, hpool, hidle.filterMap rfl]
    exact (Multiset.zero_add _).symm
  · intro con
    rw [hinv.outputsOn, underway, htasks, hidle.filterMap rfl]
    exact (Multiset.zero_add _).symm

/-- Two workers, the second faster; the empty output is not sent. -/
example : (Driven.run Hsha.step (Hsha.new 2)
    [.onMsg 7 [1], .onMsg 8 [2], .pop 0, .onMsg 7 [3], .pop 1, .handled 1 [20], .safeCall 1, .pop 1,
      .handled 0 [10], .handled 1 [], .safeCall 1, .runTask, .safeCall 0, .runTask, .runTask]).sent =
    [⟨8, [20]⟩, ⟨7, [10]⟩] := by decide

end Handy
