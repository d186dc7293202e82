import Mathlib.Data.Fintype.Basic
import Mathlib.Logic.Function.Basic
import Handy.Base.Idle
import Handy.Conn.Turn

/-! # Idle registrations of an event base and its connections

The nodes of the idle lists belong to the event base, the handles on them to the
connections, and both sides drop theirs at their own time. The system puts the
machines of any number of connections beside the lists of their event base and
lets them take turns in any order, one step at a time, so that a callback of one
connection can call another. Leaving the loop clears the lists at once. A
registration goes stray when its handle is used afterwards, which takes one of
three things: a connection that keeps handles is still up, or waits to reconnect,
when the loop is left; a connection is connected once more with handles it has
given back; or `cleanup` enters itself and gives them back twice.
-/

namespace Handy

variable {α : Type}

/-- What a step of a connection does with one of its handles. -/
inductive IdleOp where
  | update (n : Nat)
  | unregister (n : Nat)
deriving DecidableEq, Repr

namespace Conn

/-- The calls of `handyUpdateIdle` and `handyUnregisterIdle` in the log. -/
def idleOps (log : List (Ev α)) : List IdleOp :=
  log.filterMap fun e => match e with
    | .update n => some (.update n)
    | .unregister n => some (.unregister n)
    | _ => none

/-! ## What a step does to the handles -/

theorem idleOps_append (l l' : List (Ev α)) : idleOps (l ++ l') = idleOps l ++ idleOps l' :=
  List.filterMap_append

@[simp] theorem idleOps_nil : idleOps ([] : List (Ev α)) = [] := rfl

@[simp] theorem idleOps_cons (e : Ev α) (l : List (Ev α)) :
    idleOps (e :: l) = (match e with
      | .update n => [.update n]
      | .unregister n => [.unregister n]
      | _ => []) ++ idleOps l := by
  cases e <;> rfl

theorem idleOps_updates (ids : List Nat) :
    idleOps (ids.map (@Ev.update α)) = ids.map .update := by
  induction ids with
  | nil => rfl
  | cons n ids ih => simpa using ih

theorem idleOps_unregisters (ids : List Nat) :
    idleOps (ids.map (@Ev.unregister α)) = ids.map .unregister := by
  induction ids with
  | nil => rfl
  | cons n ids ih => simpa using ih

theorem idleOps_leftovers {bs : List α} {t : List (Ev α)} (h : ∀ e ∈ t, e = .leftover bs) :
    idleOps t = [] := by
  rw [idleOps, List.filterMap_eq_nil_iff]
  intro e he
  rw [h e he]

/-- No handle is used, taken or given back. -/
structure HandsOff (s s' : Conn α) : Prop where
  ops : idleOps s'.log = idleOps s.log
  ids : s'.idleIds = s.idleIds
  next : s'.nextIdle = s.nextIdle

inductive Touch (f : Option (Frame α)) (s s' : Conn α) : Prop
  | off (h : HandsOff s s')
  /-- `handleRead` has read all there was -/
  | updates (channel : s.channel ≠ none)
      (ops : idleOps s'.log = idleOps s.log ++ s.idleIds.map .update)
      (ids : s'.idleIds = s.idleIds) (next : s'.nextIdle = s.nextIdle)
  /-- `addIdleCB` -/
  | adds (frame : f ≠ some .cleanupEnd) (channel : s.channel ≠ none)
      (ops : idleOps s'.log = idleOps s.log)
      (ids : s'.idleIds = s.idleIds ++ [s.nextIdle]) (next : s'.nextIdle = s.nextIdle + 1)
  /-- the end of a `cleanup` that does not reconnect -/
  | releases (frame : f = some .cleanupEnd) (wanted : ¬ s.Reconnects)
      (ops : idleOps s'.log = idleOps s.log ++ s.idleIds.map .unregister)
      (ids : s'.idleIds = s.idleIds) (next : s'.nextIdle = s.nextIdle)

theorem HandsOff.refl (s : Conn α) : HandsOff s s := ⟨rfl, rfl, rfl⟩

theorem HandsOff.trans {s t u : Conn α} (h : HandsOff s t) (h' : HandsOff t u) : HandsOff s u :=
  ⟨h'.ops.trans h.ops, h'.ids.trans h.ids, h'.next.trans h.next⟩

theorem HandsOff.callsRead {ch : Choice α} {s s' : Conn α} (h : CallsRead ch s s') :
    HandsOff s s' := by
  cases h with
  | skip => exact .refl s
  | user => exact ⟨by simp [idleOps_append], rfl, rfl⟩
  | onMsg => exact ⟨rfl, rfl, rfl⟩

theorem HandsOff.callsState {ch : Choice α} {s s' : Conn α} (h : CallsState ch s s') :
    HandsOff s s' := by
  cases h with
  | skip => exact .refl s
  | user => exact ⟨by simp [idleOps_append], rfl, rfl⟩

theorem HandsOff.sends {codec : Codec α} {s s' : Conn α} {act : Action α}
    (h : Sends codec s act s') : HandsOff s s' := by
  cases h with
  | closed _ _ _ _ left log =>
      exact ⟨by simp [log, idleOps_append, idleOps_leftovers left], rfl, rfl⟩
  | queued _ _ _ _ _ _ left log =>
      exact ⟨by simp [log, idleOps_append, idleOps_leftovers left], rfl, rfl⟩
  | wrote _ _ _ _ _ _ _ _ _ _ _ _ left log =>
      exact ⟨by simp [log, idleOps_append, idleOps_leftovers left], rfl, rfl⟩
  | reset _ _ _ _ _ _ left log =>
      exact ⟨by simp [log, idleOps_append, idleOps_leftovers left], rfl, rfl⟩

theorem touch_of_performs {codec : Codec α} {f : Option (Frame α)} {s s' : Conn α}
    {act : Action α} (hf : f ≠ some .cleanupEnd) (h : Performs codec s act s') : Touch f s s' := by
  cases h with
  | sends h => exact .off (.sends h)
  | shuts => exact .off ⟨rfl, rfl, rfl⟩
  | shutAlready => exact .off (.refl s)
  | close => exact .off ⟨rfl, rfl, rfl⟩
  | consume => exact .off ⟨rfl, rfl, rfl⟩
  | overrun => exact .off ⟨rfl, rfl, rfl⟩
  | addIdle channel => exact .adds hf (by simpa [Option.isSome_iff_ne_none] using channel) rfl rfl rfl
  | addNoIdle => exact .off (.refl s)
  | exit => exact .off ⟨rfl, rfl, rfl⟩

theorem Touch.move {codec : Codec α} {ch : Choice α} {f : Option (Frame α)} {s s' : Conn α}
    (h : Move codec ch f s s') (hf : s'.fault = none) : Touch f s s' := by
  cases h with
  | faults fault => exact absurd hf fault
  | chore timer b idle => exact .off ⟨rfl, rfl, idle⟩
  | call _ h => exact touch_of_performs nofun h
  | shut timer b _ idle => exact .off ⟨rfl, rfl, idle⟩
  | shutdown timer b _ idle => exact .off ⟨rfl, rfl, idle⟩
  | attach timer reuse b port idle => exact .off ⟨by simp [idleOps_append], rfl, idle⟩
  | sets => exact .off ⟨rfl, rfl, rfl⟩
  | readable => exact .off ⟨rfl, rfl, rfl⟩
  | flushReset => exact .off ⟨by simp [idleOps_append], rfl, rfl⟩
  | flush => exact .off ⟨by simp [idleOps_append], rfl, rfl⟩
  | handshake _ _ _ _ _ statecb =>
      have hoff := HandsOff.callsState statecb
      exact .off ⟨hoff.ops, hoff.ids, hoff.next⟩
  | refused => exact .off ⟨rfl, rfl, rfl⟩
  | finish => exact .off (.refl s)
  | @perform _ _ act todo h =>
      have htouch : Touch (some (.user (act :: todo))) _ s' :=
        touch_of_performs (by simp) h
      cases htouch with
      | off h => exact .off ⟨h.ops, h.ids, h.next⟩
      | updates channel ops ids next => exact .updates channel ops ids next
      | adds frame channel ops ids next => exact .adds frame channel ops ids next
      | releases frame => cases frame
  | handleRead => exact .off ⟨rfl, rfl, rfl⟩
  | readEnd => exact .off ⟨rfl, rfl, rfl⟩
  | readRetry => exact .off ⟨rfl, rfl, rfl⟩
  | readAll _ channel _ _ readcb =>
      have hoff := HandsOff.callsRead readcb
      refine .updates (by simp [channel]) (hoff.ops.trans ?_) hoff.ids hoff.next
      simp only [idleOps_append, idleOps_updates]
  | readData => exact .off ⟨by simp [idleOps_append], rfl, rfl⟩
  | writeOff => exact .off ⟨rfl, rfl, rfl⟩
  | cleanup readcb =>
      have hlog : HandsOff s { s with
          stack := .cleanupState :: s.stack
          log := s.log ++ [.cleanup s.attempt] } := ⟨by simp [idleOps_append], rfl, rfl⟩
      exact .off (hlog.trans (.callsRead readcb))
  | cleanupState statecb =>
      have hoff := HandsOff.callsState statecb
      exact .off ⟨hoff.ops, hoff.ids, hoff.next⟩
  | reconnect => exact .off ⟨rfl, rfl, rfl⟩
  | release closing wanted =>
      refine .releases rfl wanted ?_ rfl rfl
      simp only [idleOps_append, idleOps_unregisters]
  | reconnectEnd => exact .off ⟨rfl, rfl, rfl⟩
  | decodeNull => simp at hf
  | decodeShut => exact .off ⟨by simp [idleOps_append], rfl, rfl⟩
  | decodeWait => exact .off ⟨by simp [idleOps_append], rfl, rfl⟩
  | decodeFrame => exact .off ⟨by simp [idleOps_append], rfl, rfl⟩
  | consume => exact .off ⟨by simp [idleOps_append], rfl, rfl⟩
  | overrun => simp at hf

theorem ops_of_performs {codec : Codec α} {s s' : Conn α} {act : Action α}
    (h : Performs codec s act s') : idleOps s'.log = idleOps s.log := by
  cases h with
  | sends h => exact (HandsOff.sends h).ops
  | _ => rfl

theorem ops_of_fault {codec : Codec α} {ch : Choice α} {f : Option (Frame α)} {s s' : Conn α}
    (h : Move codec ch f s s') (hf : s.fault = none) (hf' : s'.fault ≠ none) :
    idleOps s'.log = idleOps s.log := by
  cases h with
  | faults _ _ log => rw [log]
  | call _ h => exact ops_of_performs h
  | perform h => exact (ops_of_performs h).trans rfl
  | decodeNull => simp [idleOps_append]
  | overrun => simp [idleOps_append]
  | handshake _ _ _ _ _ statecb => cases statecb <;> exact absurd hf hf'
  | readAll _ _ _ _ readcb => cases readcb <;> exact absurd hf hf'
  | cleanup readcb => cases readcb <;> exact absurd hf hf'
  | cleanupState statecb => cases statecb <;> exact absurd hf hf'
  | _ => exact absurd hf hf'

end Conn

namespace Conn

/-- A `cleanup` inside another of the same connection is about to give the handles
back. -/
def releasesInside (s : Conn α) : Bool :=
  match s.stack with
  | .cleanupEnd :: rest => !decide s.Reconnects && !s.idleIds.isEmpty && rest.any fun f =>
      match f with
      | .cleanupState | .cleanupEnd => true
      | _ => false
  | _ => false

end Conn

/-! ## The system -/

/-- What happens next: a step of a connection, with the idle time and the clock an
idle call in it meets, `EventBase::exit` from anywhere else, or the part of
`EventsImp::loop` behind its `while` up to the calls of `cleanup`. -/
inductive Turning (ι α : Type) where
  | conn (i : ι) (ch : Choice α) (idle now : Int)
  | exit
  | leaveLoop

/-- An event base and its connections. `idleIds i n` is the handle connection `i`
was given for its registration number `n`; `toClean` are the connections whose
call of `cleanup` behind the loop is still to come. `stray` says that a handle
was used or given back whose node is gone. -/
structure System (ι α : Type) where
  conns : ι → Conn α
  store : IdleStore (ι × Nat) ι
  idleIds : ι → Nat → IdleId (ι × Nat)
  exited : Bool
  toClean : ι → Bool
  stray : Bool

namespace System

open Conn

variable {ι : Type} [DecidableEq ι]

def fresh (readcb : ι → ReadCb) (writablecb statecb : ι → Bool) (interval : ι → Int) :
    System ι α where
  conns i := Conn.fresh (readcb i) (writablecb i) (statecb i) (interval i)
  store := .new
  idleIds i n := ⟨0, (i, n)⟩
  exited := false
  toClean _ := false
  stray := false

/-- The calls a step of connection `i` makes into the idle lists. -/
def runOps (s : System ι α) (i : ι) (now : Int) (store : IdleStore (ι × Nat) ι)
    (ops : List IdleOp) : Option (IdleStore (ι × Nat) ι) :=
  ops.foldlM (fun store op => match op with
    | .update n => store.updateIdle now (s.idleIds i n)
    | .unregister n => store.unregisterIdle (s.idleIds i n)) store

def advance (s : System ι α) (i : ι) (c : Conn α) (idle now : Int) : System ι α :=
  let before := s.conns i
  match s.runOps i now s.store ((idleOps c.log).drop (idleOps before.log).length) with
  | none => { s with stray := true }
  | some store =>
      let s := { s with conns := Function.update s.conns i c, store := store }
      if c.nextIdle = before.nextIdle then s
      else
        let (store, id) := store.registerIdle idle now (i, before.nextIdle) i
        { s with
          store := store
          idleIds := fun j n => if j = i ∧ n = before.nextIdle then id else s.idleIds j n }

/-- Connection `i` can make this step: the loop calls `cleanup` once for each
connection that waits to reconnect. -/
def admits (s : System ι α) (i : ι) (ch : Choice α) : Bool :=
  !(s.conns i).stack.isEmpty ||
    match ch.event with
    | .shutdown => s.toClean i && (s.conns i).inReconnectConns
    | _ => true

/-- The step is the call of `cleanup` from the loop. -/
def shuts (s : System ι α) (i : ι) (ch : Choice α) : Bool :=
  (s.conns i).stack.isEmpty && match ch.event with
    | .shutdown => true
    | _ => false

/-- `EventBase::exit`: the base is one for all connections. -/
def exit (s : System ι α) : System ι α :=
  { s with
    exited := true
    conns := fun i => { s.conns i with exited := true } }

/-- An exit called in a step of connection `i` reaches the others. -/
def sync (s : System ι α) (i : ι) : System ι α := if (s.conns i).exited then s.exit else s

def step [Inhabited α] (codec : ι → Codec α) (s : System ι α) (t : Turning ι α) : System ι α :=
  if s.stray then s
  else
    match t with
    | .conn i ch idle now =>
        if s.admits i ch then
          let next := (s.advance i (Conn.step (codec i) (s.conns i) ch) idle now).sync i
          if s.shuts i ch then { next with toClean := Function.update next.toClean i false }
          else next
        else s
    | .exit => s.exit
    | .leaveLoop =>
        if s.exited then
          { s with
            store := s.store.clear
            conns := fun i => { s.conns i with timeoutPending := false, reconnectTimers := 0 }
            toClean := fun _ => true }
        else s

/-- Every handle the connection keeps is good. -/
def Good (s : System ι α) (i : ι) : Prop :=
  ∀ n ∈ (s.conns i).idleIds, s.store.has (s.idleIds i n) = true

/-- Connection `i` is connected, or cleaned up from the loop. -/
def takesUp (s : System ι α) (i : ι) (ch : Choice α) : Bool :=
  (s.conns i).stack.isEmpty && ch.event.attaches || s.shuts i ch

/-- When the loop is left no connection that is up or waits to reconnect keeps
handles; a connection that is connected, or cleaned up from the loop, keeps no
stale ones; and a `cleanup` that gives handles back is not inside another. -/
def KeepsIdles (s : System ι α) : Turning ι α → Prop
  | .conn i ch _ _ => (s.takesUp i ch = true → s.Good i) ∧ (s.conns i).releasesInside = false
  | .exit => True
  | .leaveLoop => s.exited = true → ∀ i, (s.conns i).idleIds ≠ [] →
      (s.conns i).channel = none ∧ (s.conns i).inReconnectConns = false

instance (s : System ι α) (i : ι) : Decidable (s.Good i) :=
  inferInstanceAs (Decidable (∀ n ∈ (s.conns i).idleIds, s.store.has (s.idleIds i n) = true))

instance [Fintype ι] (s : System ι α) : (t : Turning ι α) → Decidable (KeepsIdles s t)
  | .conn i ch _ _ =>
      inferInstanceAs (Decidable ((s.takesUp i ch = true → s.Good i) ∧
        (s.conns i).releasesInside = false))
  | .exit => isTrue trivial
  | .leaveLoop =>
      inferInstanceAs (Decidable (s.exited = true → ∀ i, (s.conns i).idleIds ≠ [] →
        (s.conns i).channel = none ∧ (s.conns i).inReconnectConns = false))

end System

/-! ## The invariant -/

namespace Conn

/-- A connection that has no channel and no `cleanup` to come. -/
structure Idle (s : Conn α) : Prop where
  channel : s.channel = none
  cleanup : .cleanup ∉ s.stack
  cleanupState : .cleanupState ∉ s.stack
  cleanupEnd : .cleanupEnd ∉ s.stack

/-- What the connection itself keeps; `ready` is about handles that are good. -/
structure Tracks (s : Conn α) : Prop where
  stacked : Stacked s.stack
  nodup : s.idleIds.Nodup
  below : ∀ n ∈ s.idleIds, n < s.nextIdle
  waits : .reconnectEnd ∈ s.stack → s.inReconnectConns = true
  shown : s.idleIds = [] ∨ s.channel ≠ none ∨ s.inReconnectConns = true ∨ s.Idle

theorem Idle.turn {ch : Choice α} {f : Option (Frame α)} {s s' : Conn α} (hs : Idle (s.under f))
    (h : Turn ch f s s') : Idle s' ∨ f = none ∧ ch.event.attaches = true ∧ s'.channel ≠ none ∨
      f = none ∧ ch.event = .shutdown ∧ s'.inReconnectConns = true := by
  have hsub := sublist_under s f
  obtain ⟨hchan, hclean, hstate, hend⟩ := hs
  rw [under_toTcpConn] at hchan
  cases h with
  | goes new still swaps =>
      by_cases hcall : .cleanup ∈ new
      · rcases swaps.calls hcall with h | ⟨rfl, hevent, -, hlisted⟩
        · exact absurd hchan h
        · exact Or.inr (Or.inr ⟨rfl, hevent, still.listed.trans hlisted⟩)
      · refine Or.inl ⟨still.channel.mpr hchan, fun hmem => ?_,
          fun hmem => hstate (hsub.subset (swaps.part rfl hmem)),
          fun hmem => hend (hsub.subset (swaps.part rfl hmem))⟩
        rw [swaps.stack, List.mem_append] at hmem
        exact hclean (hsub.subset (hmem.resolve_left hcall))
  | attach _ _ _ _ event => exact Or.inr (Or.inl ⟨rfl, event, Option.some_ne_none _⟩)
  | sets => exact Or.inl ⟨hchan, hclean, hstate, hend⟩
  | handshake _ _ channel => exact absurd hchan channel
  | cleanup => exact absurd List.mem_cons_self hclean
  | cleanupState => exact absurd List.mem_cons_self hstate
  | reconnect => exact absurd List.mem_cons_self hend
  | release => exact absurd List.mem_cons_self hend
  | reconnectEnd =>
      exact Or.inl ⟨rfl, fun h => hclean (hsub.subset h), fun h => hstate (hsub.subset h),
        fun h => hend (hsub.subset h)⟩

/-- After `release` nothing of a `cleanup` is left. -/
theorem idle_release {s : Conn α} {closing : List (Frame α)}
    (hstacked : Stacked (s.push .cleanupEnd).stack)
    (hnested : .cleanupState ∉ s.stack ∧ .cleanupEnd ∉ s.stack)
    (hclosing : closing = [.handleRead] ∨ closing = []) {s' : Conn α} (hchan : s'.channel = none)
    (hstack : s'.stack = closing ++ s.stack) : Idle s' := by
  have hmem : ∀ g : Frame α, g ≠ .handleRead → g ∈ s'.stack → g ∈ s.stack := by
    intro g hg h
    rw [hstack, List.mem_append] at h
    refine h.resolve_left fun hc => ?_
    rcases hclosing with rfl | rfl
    · exact hg (List.mem_singleton.mp hc)
    · cases hc
  exact ⟨hchan, fun h => hstacked.cleanup_top (hmem _ nofun h), fun h => hnested.1 (hmem _ nofun h),
    fun h => hnested.2 (hmem _ nofun h)⟩

theorem part_of_callsState {ch : Choice α} {s s' : Conn α} (h : CallsState ch s s') {g : Frame α}
    (hg : g.ofCleanup = true) (hmem : g ∈ s'.stack) : g ∈ s.stack := by
  cases h with
  | skip => exact hmem
  | user =>
      rcases List.mem_cons.mp hmem with rfl | hmem
      · cases hg
      · exact hmem

theorem part_of_callsRead {ch : Choice α} {s s' : Conn α} (h : CallsRead ch s s') {g : Frame α}
    (hg : g.ofCleanup = true) (hmem : g ∈ s'.stack) : g ∈ s.stack := by
  obtain ⟨new, hstack, hnew⟩ := stack_of_callsRead h
  rw [hstack, List.mem_append] at hmem
  refine hmem.resolve_left fun h => ?_
  rcases hnew with rfl | rfl | rfl
  · cases h
  · rw [List.mem_singleton.mp h] at hg
    cases hg
  · rw [List.mem_singleton.mp h] at hg
    cases hg

theorem not_inside {s : Conn α} (h : (s.push .cleanupEnd).releasesInside = false)
    (hr : ¬ s.Reconnects) (hids : s.idleIds ≠ []) :
    .cleanupState ∉ s.stack ∧ .cleanupEnd ∉ s.stack := by
  have hr' : ¬ (s.push .cleanupEnd).Reconnects := hr
  simp only [releasesInside, push_stack, push_toTcpConn, hr', decide_false, Bool.not_false,
    Bool.true_and, List.isEmpty_eq_false_iff.mpr hids, List.any_eq_false] at h
  exact ⟨fun hmem => h _ hmem rfl, fun hmem => h _ hmem rfl⟩

theorem listed_of_callsState {ch : Choice α} {s s' : Conn α} (h : CallsState ch s s') :
    s'.inReconnectConns = s.inReconnectConns ∧ s'.channel = s.channel := by
  cases h <;> exact ⟨rfl, rfl⟩

theorem waits_turn {ch : Choice α} {f : Option (Frame α)} {s s' : Conn α}
    (hs : .reconnectEnd ∈ (s.under f).stack → s.inReconnectConns = true)
    (hnone : f = none → s.stack = []) (h : Turn ch f s s') :
    .reconnectEnd ∈ s'.stack → s'.inReconnectConns = true := by
  have hbelow : .reconnectEnd ∈ s.stack → s.inReconnectConns = true :=
    fun h => hs ((sublist_under s f).subset h)
  intro hmem
  cases h with
  | goes new still swaps => exact still.listed.trans (hbelow (swaps.part rfl hmem))
  | attach =>
      have hmem' : Frame.reconnectEnd ∈ s.stack := hmem
      simp [hnone rfl] at hmem'
  | sets => exact hbelow hmem
  | handshake from' _ _ statecb =>
      refine (listed_of_callsState statecb).1.trans (hbelow ?_)
      have h := part_of_callsState statecb rfl hmem
      rcases from' with ⟨-, rfl⟩ | ⟨-, rfl⟩
      · simpa using h
      · exact h
  | cleanup readcb =>
      refine (Still.callsRead readcb).listed.trans (hbelow ?_)
      simpa using part_of_callsRead readcb rfl hmem
  | cleanupState statecb =>
      refine (listed_of_callsState statecb).1.trans (hbelow ?_)
      simpa using part_of_callsState statecb rfl hmem
  | reconnect => rfl
  | release closing _ close =>
      refine hbelow ?_
      rcases close with rfl | rfl
      · simpa using hmem
      · exact hmem
  | reconnectEnd => exact hbelow hmem

/-- A connection with handles is up, waits to reconnect, or is over. -/
theorem shown_turn {ch : Choice α} {f : Option (Frame α)} {s s' : Conn α} (hs : Tracks (s.under f))
    (hnested : f = some .cleanupEnd → ¬ s.Reconnects →
      .cleanupState ∉ s.stack ∧ .cleanupEnd ∉ s.stack)
    (hsome : s.channel ≠ none ∨ s.inReconnectConns = true ∨ Idle (s.under f))
    (h : Turn ch f s s') :
    s'.channel ≠ none ∨ s'.inReconnectConns = true ∨ Idle s' := by
  rcases hsome with hchan | hlisted | hidle
  · cases h with
    | goes new still => exact Or.inl fun h => hchan (still.channel.mp h)
    | attach => exact Or.inl (Option.some_ne_none _)
    | sets => exact Or.inl hchan
    | handshake _ _ _ statecb =>
        rw [(listed_of_callsState statecb).2]
        exact Or.inl (Option.some_ne_none _)
    | cleanup readcb => exact Or.inl fun h => hchan ((Still.callsRead readcb).channel.mp h)
    | cleanupState statecb =>
        rw [(listed_of_callsState statecb).2]
        exact Or.inl hchan
    | reconnect => exact Or.inl (Option.some_ne_none _)
    | release closing wanted close =>
        exact Or.inr (Or.inr (idle_release hs.stacked (hnested rfl wanted) close rfl rfl))
    | reconnectEnd => exact Or.inr (Or.inl (hs.waits List.mem_cons_self))
  · cases h with
    | goes new still => exact Or.inr (Or.inl (still.listed.trans hlisted))
    | attach => exact Or.inl (Option.some_ne_none _)
    | sets => exact Or.inr (Or.inl hlisted)
    | handshake _ _ _ statecb =>
        rw [(listed_of_callsState statecb).2]
        exact Or.inl (Option.some_ne_none _)
    | cleanup readcb => exact Or.inr (Or.inl ((Still.callsRead readcb).listed.trans hlisted))
    | cleanupState statecb =>
        exact Or.inr (Or.inl ((listed_of_callsState statecb).1.trans hlisted))
    | reconnect => exact Or.inl (Option.some_ne_none _)
    | release => exact Or.inr (Or.inl hlisted)
    | reconnectEnd => exact Or.inr (Or.inl hlisted)
  · rcases hidle.turn h with h | ⟨-, -, h⟩ | ⟨-, -, h⟩
    · exact Or.inr (Or.inr h)
    · exact Or.inl h
    · exact Or.inr (Or.inl h)

theorem Tracks.turn {codec : Codec α} {ch : Choice α} {f : Option (Frame α)} {s s' : Conn α}
    (hs : Tracks (s.under f)) (hnone : f = none → s.stack = []) (h : Move codec ch f s s')
    (hf : s'.fault = none) (hnested : f = some .cleanupEnd → ¬ s.Reconnects →
      s.idleIds ≠ [] → .cleanupState ∉ s.stack ∧ .cleanupEnd ∉ s.stack) : Tracks s' := by
  have hturn := h.turn hf
  have hstacked := hs.stacked.move hnone h hf
  have hwaits : .reconnectEnd ∈ s'.stack → s'.inReconnectConns = true := by
    refine waits_turn (fun hmem => ?_) hnone hturn
    simpa using hs.waits hmem
  have hnodup := hs.nodup
  have hbelow := hs.below
  have hshown := hs.shown
  rw [under_toTcpConn, under_toBase] at hbelow hshown
  rw [under_toTcpConn] at hnodup
  -- a connection without handles has none to show
  have hkept : s'.idleIds = s.idleIds → s'.idleIds = [] ∨ s'.channel ≠ none ∨
      s'.inReconnectConns = true ∨ Idle s' := by
    intro hids
    by_cases hnil : s.idleIds = []
    · exact Or.inl (hids.trans hnil)
    · exact Or.inr (shown_turn hs (fun hf hr => hnested hf hr hnil) (hshown.resolve_left hnil)
        hturn)
  cases Touch.move h hf with
  | off h =>
      exact ⟨hstacked, h.ids ▸ hnodup, fun n hn => h.next ▸ hbelow n (h.ids ▸ hn), hwaits,
        hkept h.ids⟩
  | updates _ _ ids next =>
      exact ⟨hstacked, ids ▸ hnodup, fun n hn => next ▸ hbelow n (ids ▸ hn), hwaits, hkept ids⟩
  | releases _ _ _ ids next =>
      exact ⟨hstacked, ids ▸ hnodup, fun n hn => next ▸ hbelow n (ids ▸ hn), hwaits, hkept ids⟩
  | adds frame channel _ ids next =>
      refine ⟨hstacked, ?_, fun n hn => ?_, hwaits, Or.inr ?_⟩
      · rw [ids, List.nodup_append]
        refine ⟨hnodup, by simp, fun n hn m hm => ?_⟩
        obtain rfl : m = s.nextIdle := by simpa using hm
        exact Nat.ne_of_lt (hbelow n hn)
      · rw [next]
        rw [ids, List.mem_append] at hn
        rcases hn with hn | hn
        · exact Nat.lt_succ_of_lt (hbelow n hn)
        · rw [List.mem_singleton.mp hn]
          exact Nat.lt_succ_self _
      · exact shown_turn hs (fun hf => absurd hf frame) (Or.inl channel) hturn

end Conn

namespace System

open Conn

variable {ι : Type} [DecidableEq ι]

/-- Each connection's handles are good, or it is over; a handle points to a node
of its own. -/
structure Inv (s : System ι α) : Prop where
  handle : ∀ i n, (s.idleIds i n).iter = (i, n)
  tracks : ∀ i, (s.conns i).fault = none → Tracks (s.conns i)
  ready : ∀ i, (s.conns i).fault = none → s.Good i ∨ Idle (s.conns i)

theorem runOps_updates (s : System ι α) (i : ι) (now : Int) (ids : List Nat)
    (store : IdleStore (ι × Nat) ι) (h : ∀ n ∈ ids, store.has (s.idleIds i n) = true) :
    ∃ store', s.runOps i now store (ids.map .update) = some store' ∧
      ∀ id, store.has id = true → store'.has id = true := by
  induction ids generalizing store with
  | nil => exact ⟨store, rfl, fun _ => id⟩
  | cons n ids ih =>
      obtain ⟨next, hnext, hkeep⟩ := IdleStore.update_of_has now (h n List.mem_cons_self)
      obtain ⟨last, hlast, hkeep'⟩ :=
        ih next fun m hm => hkeep _ (h m (List.mem_cons_of_mem n hm))
      refine ⟨last, ?_, fun id hid => hkeep' id (hkeep id hid)⟩
      simp only [runOps, List.map_cons, List.foldlM_cons, hnext]
      exact hlast

theorem runOps_unregisters {s : System ι α} (hs : ∀ i n, (s.idleIds i n).iter = (i, n)) (i : ι)
    (now : Int) (ids : List Nat) (store : IdleStore (ι × Nat) ι) (hnodup : ids.Nodup)
    (h : ∀ n ∈ ids, store.has (s.idleIds i n) = true) :
    ∃ store', s.runOps i now store (ids.map .unregister) = some store' ∧
      ∀ id, id.iter.1 ≠ i → store.has id = true → store'.has id = true := by
  induction ids generalizing store with
  | nil => exact ⟨store, rfl, fun _ _ => id⟩
  | cons n ids ih =>
      obtain ⟨hn, hnodup⟩ := List.nodup_cons.mp hnodup
      obtain ⟨next, hnext, hkeep⟩ := IdleStore.unregister_of_has (h n List.mem_cons_self)
      have hother : ∀ m ∈ ids, next.has (s.idleIds i m) = true := by
        intro m hm
        refine hkeep _ ?_ (h m (List.mem_cons_of_mem n hm))
        rw [hs, hs]
        rintro ⟨⟩
        exact hn hm
      obtain ⟨last, hlast, hkeep'⟩ := ih next hnodup hother
      refine ⟨last, ?_, fun id hid hold => hkeep' id hid (hkeep id ?_ hold)⟩
      · simp only [runOps, List.map_cons, List.foldlM_cons, hnext]
        exact hlast
      · rw [hs]
        rintro heq
        exact hid (by rw [heq])

/-- The connections and the lists after a step of connection `i` to `c`, with
`store` for what its calls left of the lists. -/
structure Advanced (s s' : System ι α) (i : ι) (c : Conn α) (store : IdleStore (ι × Nat) ι) :
    Prop where
  stray : s'.stray = s.stray
  conns : s'.conns = Function.update s.conns i c
  handle : (∀ i n, (s.idleIds i n).iter = (i, n)) → ∀ i n, (s'.idleIds i n).iter = (i, n)
  old : ∀ j n, (j ≠ i ∨ n ≠ (s.conns i).nextIdle) → s'.idleIds j n = s.idleIds j n
  keeps : ∀ id, store.has id = true → s'.store.has id = true
  same : c.nextIdle = (s.conns i).nextIdle → s'.idleIds = s.idleIds
  added : c.nextIdle ≠ (s.conns i).nextIdle →
    s'.store.has (s'.idleIds i (s.conns i).nextIdle) = true

theorem advanced_of_ops {s : System ι α} {i : ι} {c : Conn α} {idle now : Int} (ops : List IdleOp)
    (hops : idleOps c.log = idleOps (s.conns i).log ++ ops) {store : IdleStore (ι × Nat) ι}
    (hrun : s.runOps i now s.store ops = some store) :
    Advanced s (s.advance i c idle now) i c store := by
  have hdrop : (idleOps c.log).drop (idleOps (s.conns i).log).length = ops := by
    rw [hops, List.drop_left]
  unfold advance
  simp only [hdrop, hrun]
  by_cases hnext : c.nextIdle = (s.conns i).nextIdle
  · rw [if_pos hnext]
    exact ⟨rfl, rfl, id, fun _ _ _ => rfl, fun _ => id, fun _ => rfl,
      fun h => absurd hnext h⟩
  · rw [if_neg hnext]
    refine ⟨rfl, rfl, fun h j n => ?_, fun j n hjn => ?_, fun id hid => ?_,
      fun h => absurd h hnext, fun _ => ?_⟩
    · simp only
      split
      · next heq =>
          obtain ⟨rfl, rfl⟩ := heq
          rfl
      · exact h j n
    · simp only
      rw [if_neg fun h => hjn.elim (absurd h.1) (absurd h.2)]
    · exact (IdleStore.has_register _ _ _ _ _ _).mpr (Or.inl hid)
    · simp only [and_self, if_true]
      exact (IdleStore.has_register _ _ _ _ _ _).mpr (Or.inr rfl)

theorem Advanced.other {s s' : System ι α} {i j : ι} {c : Conn α} {store : IdleStore (ι × Nat) ι}
    (h : Advanced s s' i c store) (hs : Inv s) (hij : j ≠ i)
    (hkeep : ∀ id, id.iter.1 ≠ i → s.store.has id = true → store.has id = true)
    (hf : (s'.conns j).fault = none) :
    Tracks (s'.conns j) ∧ (s'.Good j ∨ Idle (s'.conns j)) := by
  have hconn : s'.conns j = s.conns j := by rw [h.conns, Function.update_of_ne hij]
  rw [hconn] at hf ⊢
  refine ⟨hs.tracks j hf, (hs.ready j hf).imp_left fun hgood n hn => ?_⟩
  rw [hconn] at hn
  rw [h.old j n (Or.inl hij)]
  refine h.keeps _ (hkeep _ ?_ (hgood n hn))
  rw [hs.handle]
  exact hij

/-- What connection `i` keeps when the calls of its step go well. -/
theorem Advanced.good {s s' : System ι α} {i : ι} {c : Conn α} {store : IdleStore (ι × Nat) ι}
    (h : Advanced s s' i c store) (hgood : s.Good i)
    (hkeep : ∀ id, s.store.has id = true → store.has id = true)
    (hids : c.idleIds = (s.conns i).idleIds) (hnext : c.nextIdle = (s.conns i).nextIdle) :
    s'.Good i := by
  intro n hn
  rw [h.conns, Function.update_self, hids] at hn
  rw [h.same hnext]
  exact h.keeps _ (hkeep _ (hgood n hn))

theorem Advanced.good_added {s s' : System ι α} {i : ι} {c : Conn α}
    (h : Advanced s s' i c s.store) (hgood : s.Good i)
    (hbelow : ∀ n ∈ (s.conns i).idleIds, n < (s.conns i).nextIdle)
    (hids : c.idleIds = (s.conns i).idleIds ++ [(s.conns i).nextIdle])
    (hnext : c.nextIdle = (s.conns i).nextIdle + 1) : s'.Good i := by
  intro n hn
  rw [h.conns, Function.update_self, hids, List.mem_append] at hn
  rcases hn with hn | hn
  · rw [h.old i n (Or.inr (Nat.ne_of_lt (hbelow n hn)))]
    exact h.keeps _ (hgood n hn)
  · rw [List.mem_singleton.mp hn]
    exact h.added (by omega)

/-- A connection that is over stays over, or is taken up again with good handles. -/
theorem ready_of_idle [Inhabited α] {codec : Codec α} {s : System ι α} {i : ι} {ch : Choice α}
    {idle now : Int} (hc : KeepsIdles s (.conn i ch idle now)) {f : Option (Frame α)} {t : Conn α}
    (hconn : s.conns i = t.under f) (hnone : f = none → t.stack = [])
    (hidle : Idle (t.under f)) (hturn : Turn ch f t (Conn.step codec (s.conns i) ch)) :
    s.Good i ∨ Idle (Conn.step codec (s.conns i) ch) := by
  have hstack : f = none → (s.conns i).stack = [] := by
    rintro rfl
    rw [hconn]
    exact hnone rfl
  rcases hidle.turn hturn with h | ⟨hf, hevent, -⟩ | ⟨hf, hevent, -⟩
  · exact Or.inr h
  · exact Or.inl (hc.1 (by simp [takesUp, hstack hf, hevent]))
  · exact Or.inl (hc.1 (by simp [takesUp, shuts, hstack hf, hevent]))

/-- What is left to show once the calls of a step have gone well. -/
theorem Advanced.inv {s s' : System ι α} {i : ι} {c : Conn α} {store : IdleStore (ι × Nat) ι}
    (h : Advanced s s' i c store) (hs : Inv s)
    (hkeep : ∀ id, id.iter.1 ≠ i → s.store.has id = true → store.has id = true)
    (hown : c.fault = none → Tracks c ∧ (s'.Good i ∨ Idle c)) : Inv s' := by
  have hconn : s'.conns i = c := by rw [h.conns, Function.update_self]
  refine ⟨h.handle hs.handle, fun j hf => ?_, fun j hf => ?_⟩
  · by_cases hij : j = i
    · subst hij
      rw [hconn] at hf ⊢
      exact (hown hf).1
    · exact (h.other hs hij hkeep hf).1
  · by_cases hij : j = i
    · subst hij
      rw [hconn] at hf ⊢
      exact (hown hf).2
    · exact (h.other hs hij hkeep hf).2

/-! ## One step of a connection -/

section

variable {s : System ι α} {i : ι} {c : Conn α} (idle now : Int)

theorem Inv.apart (hs : Inv s) (hops : idleOps c.log = idleOps (s.conns i).log)
    (htracks : c.fault = none → Tracks c)
    (hready : c.fault = none → Idle c ∨ s.Good i ∧ c.idleIds = (s.conns i).idleIds ∧
      c.nextIdle = (s.conns i).nextIdle) :
    ∃ store, Advanced s (s.advance i c idle now) i c store ∧ Inv (s.advance i c idle now) := by
  have hadv : Advanced s (s.advance i c idle now) i c s.store :=
    advanced_of_ops [] (by rw [hops, List.append_nil]) rfl
  refine ⟨_, hadv, hadv.inv hs (fun _ _ => id) fun hf => ⟨htracks hf, ?_⟩⟩
  rcases hready hf with hidle | ⟨hgood, hids, hnext⟩
  · exact Or.inr hidle
  · exact Or.inl (hadv.good hgood (fun _ => id) hids hnext)

theorem Inv.updated (hs : Inv s) (hgood : s.Good i)
    (hops : idleOps c.log = idleOps (s.conns i).log ++ (s.conns i).idleIds.map .update)
    (hids : c.idleIds = (s.conns i).idleIds) (hnext : c.nextIdle = (s.conns i).nextIdle)
    (htracks : Tracks c) :
    ∃ store, Advanced s (s.advance i c idle now) i c store ∧ Inv (s.advance i c idle now) := by
  obtain ⟨store, hrun, hkeep⟩ := s.runOps_updates i now (s.conns i).idleIds s.store hgood
  have hadv : Advanced s (s.advance i c idle now) i c store := advanced_of_ops _ hops hrun
  exact ⟨_, hadv, hadv.inv hs (fun id _ => hkeep id) fun _ =>
    ⟨htracks, Or.inl (hadv.good hgood hkeep hids hnext)⟩⟩

theorem Inv.added (hs : Inv s) (hgood : s.Good i)
    (hbelow : ∀ n ∈ (s.conns i).idleIds, n < (s.conns i).nextIdle)
    (hops : idleOps c.log = idleOps (s.conns i).log)
    (hids : c.idleIds = (s.conns i).idleIds ++ [(s.conns i).nextIdle])
    (hnext : c.nextIdle = (s.conns i).nextIdle + 1) (htracks : Tracks c) :
    ∃ store, Advanced s (s.advance i c idle now) i c store ∧ Inv (s.advance i c idle now) := by
  have hadv : Advanced s (s.advance i c idle now) i c s.store :=
    advanced_of_ops [] (by rw [hops, List.append_nil]) rfl
  exact ⟨_, hadv, hadv.inv hs (fun _ _ => id) fun _ =>
    ⟨htracks, Or.inl (hadv.good_added hgood hbelow hids hnext)⟩⟩

/-- A step that gives all handles back; with any the connection is over. -/
theorem Inv.released (hs : Inv s) (hgood : s.Good i) (hnodup : (s.conns i).idleIds.Nodup)
    (hops : idleOps c.log = idleOps (s.conns i).log ++ (s.conns i).idleIds.map .unregister)
    (hids : c.idleIds = (s.conns i).idleIds) (htracks : Tracks c)
    (hover : (s.conns i).idleIds ≠ [] → Idle c) :
    ∃ store, Advanced s (s.advance i c idle now) i c store ∧ Inv (s.advance i c idle now) := by
  obtain ⟨store, hrun, hkeep⟩ :=
    runOps_unregisters hs.handle i now (s.conns i).idleIds s.store hnodup hgood
  have hadv : Advanced s (s.advance i c idle now) i c store := advanced_of_ops _ hops hrun
  refine ⟨_, hadv, hadv.inv hs hkeep fun _ => ⟨htracks, ?_⟩⟩
  by_cases hnil : (s.conns i).idleIds = []
  · refine Or.inl fun n hn => ?_
    rw [hadv.conns, Function.update_self, hids, hnil] at hn
    cases hn
  · exact Or.inr (hover hnil)

end

/-- The end of a `cleanup` that is not inside another leaves the connection over. -/
theorem idle_of_release {codec : Codec α} {ch : Choice α} {t c : Conn α}
    (hstacked : Stacked (t.push .cleanupEnd).stack)
    (hnested : .cleanupState ∉ t.stack ∧ .cleanupEnd ∉ t.stack) (hwanted : ¬ t.Reconnects)
    (h : Move codec ch (some .cleanupEnd) t c) (hf : c.fault = none) : Idle c := by
  cases h.turn hf with
  | goes new still swaps =>
      have hplain := (swaps.running _ rfl).2
      cases hplain
  | handshake from' => simp at from'
  | reconnect _ hreconnects => exact absurd hreconnects hwanted
  | release closing _ close => exact idle_release hstacked hnested close rfl rfl

theorem Inv.advance [Inhabited α] {s : System ι α} (hs : Inv s) (codec : Codec α) {i : ι}
    {ch : Choice α} {idle now : Int} (hc : KeepsIdles s (.conn i ch idle now)) :
    ∃ store, Advanced s (s.advance i (Conn.step codec (s.conns i) ch) idle now) i
        (Conn.step codec (s.conns i) ch) store ∧
      Inv (s.advance i (Conn.step codec (s.conns i) ch) idle now) := by
  obtain ⟨c, hstep⟩ : ∃ c, Conn.step codec (s.conns i) ch = c := ⟨_, rfl⟩
  by_cases hf₀ : (s.conns i).fault = none
  · obtain ⟨f, t, hconn, hnone, hmove⟩ := move_under codec hf₀ ch
    have hids : (s.conns i).idleIds = t.idleIds := by rw [hconn, under_toTcpConn]
    have hnext : (s.conns i).nextIdle = t.nextIdle := by rw [hconn, under_toBase]
    have hlog : (s.conns i).log = t.log := by rw [hconn, under_log]
    rw [hstep] at hmove ⊢
    by_cases hf : c.fault = none
    · have htracks : Tracks (t.under f) := hconn ▸ hs.tracks i hf₀
      have hready : s.Good i ∨ Idle (t.under f) := hconn ▸ hs.ready i hf₀
      have hlive : t.channel ≠ none → s.Good i := by
        intro hchan
        refine hready.resolve_right fun h => hchan ?_
        simpa using h.channel
      have hinside := hc.2
      rw [hconn] at hinside
      have htracks' : Tracks c := by
        refine htracks.turn hnone hmove hf fun hfr hr hne => ?_
        subst hfr
        exact not_inside hinside hr hne
      cases Touch.move hmove hf with
      | off h =>
          apply Inv.apart idle now hs (by rw [hlog, h.ops]) fun _ => htracks'
          intro _
          rcases hready with hgood | hidle
          · exact Or.inr ⟨hgood, h.ids.trans hids.symm, h.next.trans hnext.symm⟩
          · have hagain := ready_of_idle hc hconn hnone hidle (hstep ▸ hmove.turn hf)
            rw [hstep] at hagain
            rcases hagain with hgood | hidle
            · exact Or.inr ⟨hgood, h.ids.trans hids.symm, h.next.trans hnext.symm⟩
            · exact Or.inl hidle
      | updates channel ops ids next =>
          exact Inv.updated idle now hs (hlive channel) (by rw [hlog, hids, ops])
            (ids.trans hids.symm) (next.trans hnext.symm) htracks'
      | adds _ channel ops ids next =>
          exact Inv.added idle now hs (hlive channel) (hs.tracks i hf₀).below (by rw [hlog, ops])
            (by rw [hids, hnext, ids]) (by rw [hnext, next]) htracks'
      | releases frame wanted ops ids _ =>
          subst frame
          have hgood : s.Good i := hready.resolve_right fun h => h.cleanupEnd List.mem_cons_self
          apply Inv.released idle now hs hgood (hs.tracks i hf₀).nodup (by rw [hlog, hids, ops])
            (ids.trans hids.symm) htracks'
          intro hne
          exact idle_of_release htracks.stacked (not_inside hinside wanted (hids ▸ hne)) wanted
            hmove hf
    · have hft : t.fault = none := by
        rw [hconn] at hf₀
        simpa using hf₀
      exact Inv.apart idle now hs (by rw [hlog, ops_of_fault hmove hft hf])
        (fun h => absurd h hf) fun h => absurd h hf
  · rw [step_of_fault codec hf₀]
    exact Inv.apart idle now hs rfl (fun h => absurd h hf₀) fun h => absurd h hf₀

theorem tracks_base {c : Conn α} {timer : Bool} {b : Base} (hc : Tracks c)
    (hnext : b.nextIdle = c.nextIdle) (hlisted : b.inReconnectConns = c.inReconnectConns) :
    Tracks { c with timeoutPending := timer, toBase := b } := by
  refine ⟨hc.stacked, hc.nodup, fun n hn => hnext ▸ hc.below n hn,
    fun hmem => hlisted.trans (hc.waits hmem), ?_⟩
  rcases hc.shown with h | h | h | h
  · exact Or.inl h
  · exact Or.inr (Or.inl h)
  · exact Or.inr (Or.inr (Or.inl (hlisted.trans h)))
  · exact Or.inr (Or.inr (Or.inr ⟨h.channel, h.cleanup, h.cleanupState, h.cleanupEnd⟩))

theorem Inv.exit {s : System ι α} (hs : Inv s) : Inv s.exit := by
  refine ⟨hs.handle, fun i hf => ?_, fun i hf => ?_⟩
  · exact tracks_base (b := { (s.conns i).toBase with exited := true }) (hs.tracks i hf) rfl rfl
  · exact (hs.ready i hf).imp id fun h => ⟨h.channel, h.cleanup, h.cleanupState, h.cleanupEnd⟩

theorem Inv.sync {s : System ι α} (hs : Inv s) (i : ι) :
    Inv (s.sync i) ∧ (s.sync i).stray = s.stray := by
  unfold System.sync
  split
  · exact ⟨hs.exit, rfl⟩
  · exact ⟨hs, rfl⟩

/-- The lists are cleared when nobody has use for them. -/
theorem Inv.leaveLoop {s : System ι α} (hs : Inv s)
    (hc : ∀ i, (s.conns i).idleIds ≠ [] →
      (s.conns i).channel = none ∧ (s.conns i).inReconnectConns = false) :
    Inv { s with
      store := s.store.clear
      conns := fun i => { s.conns i with timeoutPending := false, reconnectTimers := 0 }
      toClean := fun _ => true } := by
  refine ⟨hs.handle, fun i hf => ?_, fun i hf => ?_⟩
  · exact tracks_base (b := { (s.conns i).toBase with reconnectTimers := 0 }) (hs.tracks i hf)
      rfl rfl
  · by_cases hnil : (s.conns i).idleIds = []
    · refine Or.inl fun n hn => ?_
      have hn' : n ∈ (s.conns i).idleIds := hn
      rw [hnil] at hn'
      cases hn'
    · obtain ⟨hchan, hlisted⟩ := hc i hnil
      have hidle : Idle (s.conns i) := by
        rcases (hs.tracks i hf).shown with h | h | h | h
        · exact absurd h hnil
        · exact absurd hchan h
        · rw [hlisted] at h
          cases h
        · exact h
      exact Or.inr ⟨hidle.channel, hidle.cleanup, hidle.cleanupState, hidle.cleanupEnd⟩

theorem Inv.step [Inhabited α] {codec : ι → Codec α} {s : System ι α} (hs : Inv s)
    (hstray : s.stray = false) {t : Turning ι α} (hc : KeepsIdles s t) :
    Inv (step codec s t) ∧ (step codec s t).stray = false := by
  unfold System.step
  rw [if_neg (by simp [hstray])]
  cases t with
  | exit => exact ⟨hs.exit, hstray⟩
  | leaveLoop =>
      simp only
      split
      · next hexit => exact ⟨hs.leaveLoop (hc hexit), hstray⟩
      · exact ⟨hs, hstray⟩
  | conn i ch idle now =>
      obtain ⟨store, hadv, hinv⟩ := hs.advance (codec i) hc
      have hclean : (s.advance i (Conn.step (codec i) (s.conns i) ch) idle now).stray = false :=
        hadv.stray.trans hstray
      simp only
      split
      · obtain ⟨hkept, hstray'⟩ := hinv.sync i
        split
        · exact ⟨⟨hkept.handle, hkept.tracks, hkept.ready⟩, hstray'.trans hclean⟩
        · exact ⟨hkept, hstray'.trans hclean⟩
      · exact ⟨hs, hstray⟩

theorem inv_fresh (readcb : ι → ReadCb) (writablecb statecb : ι → Bool) (interval : ι → Int) :
    Inv (fresh readcb writablecb statecb interval : System ι α) := by
  refine ⟨fun _ _ => rfl, fun i _ => ?_, fun i _ => Or.inl nofun⟩
  exact ⟨stacked_nil, List.nodup_nil, nofun, nofun, Or.inl rfl⟩

/-- In every run whose steps meet the condition, of any number of connections in
any order, a handle is used and given back only while its node is in its list. -/
theorem idle_ids_never_stray [Inhabited α] (codec : ι → Codec α) (readcb : ι → ReadCb)
    (writablecb statecb : ι → Bool) (interval : ι → Int) (ts : List (Turning ι α))
    (hts : Driven.Along (step codec) KeepsIdles (fresh readcb writablecb statecb interval) ts) :
    (Driven.run (step codec) (fresh readcb writablecb statecb interval) ts).stray = false := by
  have hend := Driven.run_invariant (I := fun s => Inv s ∧ s.stray = false)
    (fun s t hi hp => hi.1.step hi.2 hp)
    ⟨inv_fresh readcb writablecb statecb interval, rfl⟩ hts
  exact hend.2

/-- Two connections: one is closed by its peer with a registration, the other is
up without one when the loop is left. -/
def orderlyExit : List (Turning Bool UInt8) :=
  [.conn true { event := .connect 80 false } 30 0,
    .conn false { event := .attach } 30 0,
    .conn true { event := .writable [] } 30 0,
    .conn true { event := .call .addIdleCB } 30 1,
    .conn false { event := .writable [] } 30 1,
    .conn true { event := .readable } 30 2,
    .conn true .go 30 2,
    .conn false { event := .readable } 30 2,
    .conn true .go 30 2,
    .conn true { event := .readable } 30 3,
    .conn true .go 30 3,
    .conn true { read := .eof } 30 3] ++ .replicate 5 (.conn true .go 30 3) ++
  [.exit,
    .leaveLoop,
    .conn false .go 30 4,
    .conn false .go 30 4,
    .conn false { event := .destroyPoller } 30 4] ++ .replicate 6 (.conn false .go 30 4)

theorem idle_ids_never_stray_exit :
    (Driven.run (step fun _ => LineCodec.codec)
      (fresh (fun _ => .none) (fun _ => false) (fun _ => false) (fun _ => -1)) orderlyExit).stray =
        false :=
  idle_ids_never_stray (fun _ => LineCodec.codec) (fun _ => .none) (fun _ => false)
    (fun _ => false) (fun _ => -1) orderlyExit (by decide +kernel)

/-- The loop is left with a registered connection up, which the poller closes. -/
def leftRegistered : List (Turning Unit UInt8) :=
  [.conn () { event := .connect 80 false } 30 0,
    .conn () { event := .writable [] } 30 0,
    .conn () .go 30 0,
    .conn () { event := .call .addIdleCB } 30 0,
    .exit,
    .leaveLoop,
    .conn () { event := .destroyPoller } 30 1] ++ .replicate 8 (.conn () .go 30 1)

/-- A connection is connected once more after it has given its handles back. -/
def connectedAgain : List (Turning Unit UInt8) :=
  [.conn () { event := .connect 80 false } 30 0,
    .conn () { event := .writable [] } 30 0,
    .conn () .go 30 0,
    .conn () { event := .call .addIdleCB } 30 0,
    .conn () { event := .call .closeNow } 30 1] ++ .replicate 8 (.conn () .go 30 1) ++
  [.conn () { event := .connect 80 false } 30 2,
    .conn () { event := .writable [] } 30 2,
    .conn () .go 30 2,
    .conn () { event := .readable } 30 3] ++ .replicate 3 (.conn () .go 30 3)

/-- `statecb_`, told that a registered connection is closed, sends to a peer that
is gone. -/
def releasedTwice : List (Turning Unit UInt8) :=
  [.conn () { event := .connect 80 false } 30 0,
    .conn () { event := .writable [] } 30 0,
    .conn () .go 30 0,
    .conn () { event := .call .addIdleCB } 30 0,
    .conn () { event := .readable } 30 1,
    .conn () .go 30 1,
    .conn () { read := .eof } 30 1,
    .conn () .go 30 1,
    .conn () { body := [.sendStr [0x61] [.reset]] } 30 1] ++ .replicate 9 (.conn () .go 30 1)

/-- Each of the three runs uses a handle whose node is gone. -/
theorem idle_ids_stray :
    (Driven.run (step fun _ => LineCodec.codec)
        (fresh (fun _ => .none) (fun _ => false) (fun _ => true) (fun _ => -1))
        leftRegistered).stray = true ∧
      (Driven.run (step fun _ => LineCodec.codec)
        (fresh (fun _ => .none) (fun _ => false) (fun _ => true) (fun _ => -1))
        connectedAgain).stray = true ∧
      (Driven.run (step fun _ => LineCodec.codec)
        (fresh (fun _ => .none) (fun _ => false) (fun _ => true) (fun _ => -1))
        releasedTwice).stray = true := by
  decide +kernel

end System

end Handy
