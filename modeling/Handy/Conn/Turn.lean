import Handy.Conn.Stack

/-! # What a step is to the life of a connection

Most steps leave the attempt where it is: the state, the channel and what
`statecb_` was told stay, and some frames take the place of the running one. The
others are the handshake, `attach`, the three parts of `cleanup` and the two of
`reconnect`. Results about the life cycle only look at these.
-/

namespace Handy

variable {α : Type}

/-- The frames of a `cleanup` that has not returned. -/
def Frame.ofCleanup : Frame α → Bool
  | .cleanupState | .cleanupEnd | .reconnectEnd => true
  | _ => false

namespace Conn

/-- `reconnectInterval_ >= 0 && !getBase()->exited()`. -/
def Reconnects (s : Conn α) : Prop := 0 ≤ s.reconnectInterval ∧ s.exited = false

instance (s : Conn α) : Decidable (Reconnects s) :=
  inferInstanceAs (Decidable (0 ≤ s.reconnectInterval ∧ s.exited = false))

/-- What `statecb_` was told, with the number of the attempt. -/
def reports (log : List (Ev α)) : List (Nat × State) :=
  log.filterMap fun e => match e with
    | .report k st => some (k, st)
    | _ => none

theorem reports_append (l l' : List (Ev α)) : reports (l ++ l') = reports l ++ reports l' :=
  List.filterMap_append

theorem reports_updates (ids : List Nat) : reports (ids.map (@Ev.update α)) = [] := by
  rw [reports, List.filterMap_eq_nil_iff]
  simp

theorem reports_unregisters (ids : List Nat) :
    reports (ids.map (@Ev.unregister α)) = [] := by
  rw [reports, List.filterMap_eq_nil_iff]
  simp

theorem reports_leftovers {bs : List α} {t : List (Ev α)} (h : ∀ e ∈ t, e = .leftover bs) :
    reports t = [] := by
  rw [reports, List.filterMap_eq_nil_iff]
  intro e he
  rw [h e he]

@[simp] theorem reports_nil : reports ([] : List (Ev α)) = [] := rfl

@[simp] theorem reports_cons (e : Ev α) (l : List (Ev α)) :
    reports (e :: l) = (match e with
      | .report k st => [(k, st)]
      | _ => []) ++ reports l := by
  cases e <;> rfl

theorem not_both {s : Conn α} (hl : s.state = .handshaking ∨ s.state = .connected)
    (ho : s.state = .closed ∨ s.state = .failed) : False := by
  rcases ho with ho | ho <;> simp [ho] at hl

/-- The state with the running frame back on the stack. -/
def under (s : Conn α) : Option (Frame α) → Conn α
  | none => s
  | some f => s.push f

@[simp] theorem under_none (s : Conn α) : s.under none = s := rfl

@[simp] theorem under_some (s : Conn α) (f : Frame α) : s.under (some f) = s.push f := rfl

@[simp] theorem under_toTcpConn (s : Conn α) (f : Option (Frame α)) :
    (s.under f).toTcpConn = s.toTcpConn := by
  cases f <;> rfl

@[simp] theorem under_toBase (s : Conn α) (f : Option (Frame α)) :
    (s.under f).toBase = s.toBase := by
  cases f <;> rfl

@[simp] theorem under_log (s : Conn α) (f : Option (Frame α)) : (s.under f).log = s.log := by
  cases f <;> rfl

@[simp] theorem under_fault (s : Conn α) (f : Option (Frame α)) :
    (s.under f).fault = s.fault := by
  cases f <;> rfl

theorem sublist_under (s : Conn α) (f : Option (Frame α)) :
    s.stack.Sublist (s.under f).stack := by
  cases f with
  | none => exact .refl _
  | some f => exact List.sublist_cons_self f s.stack

structure Still (s s' : Conn α) : Prop where
  state : s'.state = s.state
  channel : s'.channel = none ↔ s.channel = none
  pending : s'.timeoutPending = true → s.timeoutPending = true
  wanted : s'.Reconnects → s.Reconnects
  listed : s'.inReconnectConns = s.inReconnectConns
  statecb : s'.statecb = s.statecb
  attempt : s'.attempt = s.attempt
  reports : reports s'.log = reports s.log

/-- `new` takes the place of the running frame, which is no part of `cleanup`. -/
structure Swaps (ch : Choice α) (f : Option (Frame α)) (new : List (Frame α)) (s s' : Conn α) :
    Prop where
  stack : s'.stack = new ++ s.stack := by rfl
  plain : ∀ g ∈ new, g.ofCleanup = false := by simp [Frame.ofCleanup]
  calls : .cleanup ∈ new → s.channel ≠ none ∨
    f = none ∧ ch.event = .shutdown ∧ s.exited = true ∧ s.inReconnectConns = true := by simp
  running : ∀ g, f = some g → g ≠ .cleanup ∧ g.ofCleanup = false := by simp [Frame.ofCleanup]
  user : ∀ todo, f = some (.user todo) → new = [] → todo = [] ∧ s' = s := by simp
  flush : .writeEnd ∈ new → s'.channel ≠ none := by simp

/-- A step between two states of a live process. -/
inductive Turn (ch : Choice α) : Option (Frame α) → Conn α → Conn α → Prop
  | goes {f : Option (Frame α)} {s s' : Conn α} (new : List (Frame α)) (still : Still s s')
      (swaps : Swaps ch f new s s') : Turn ch f s s'
  | attach {s : Conn α} (timer reuse : Bool) (b : Base) (port : Int)
      (event : ch.event.attaches = true) (channel : s.channel = none)
      (state : s.state ≠ .connected) :
      Turn ch none s
        { s with
          timeoutPending := timer
          connectTimeout := reuse
          toBase := b
          destPort := port
          state := .handshaking
          channel := some ⟨true, true, true⟩
          attempt := s.attempt + 1
          log := s.log ++ [.attached (s.attempt + 1) s.statecb] }
  | sets {s : Conn α} (r : ReadCb) (w st : Bool) (channel : s.channel = none)
      (state : s.state = .closed ∨ s.state = .failed) (statecb : s.statecb = true → st = true) :
      Turn ch none s { s with readcb := r, writablecb := w, statecb := st }
  | handshake {f : Option (Frame α)} {s s' : Conn α} {c : Channel} {next : List (Frame α)}
      (from' : f = some .handleRead ∧ next = [.readLoop] ∨ f = none ∧ next = [])
      (state : s.state = .handshaking) (channel : s.channel ≠ none) (statecb : CallsState ch { s with
        channel := some c
        state := .connected
        stack := next ++ s.stack } s') :
      Turn ch f s s'
  | cleanup {s s' : Conn α}
      (readcb : CallsRead ch { s with
        stack := .cleanupState :: s.stack
        log := s.log ++ [.cleanup s.attempt] } s') :
      Turn ch (some .cleanup) s s'
  | cleanupState {s s' : Conn α}
      (statecb : CallsState ch { s with
        state := if s.state = .handshaking then .failed else .closed
        timeoutPending := false
        stack := .cleanupEnd :: s.stack } s') :
      Turn ch (some .cleanupState) s s'
  | reconnect {s : Conn α} {c : Channel} (closing : List (Frame α)) (wanted : s.Reconnects)
      (close : closing = [.handleRead] ∨ closing = []) :
      Turn ch (some .cleanupEnd) s
        { s with
          inReconnectConns := true
          reconnectTimers := s.reconnectTimers + 1
          channel := some c
          stack := closing ++ .reconnectEnd :: s.stack }
  | release {s : Conn α} (closing : List (Frame α)) (wanted : ¬ s.Reconnects)
      (close : closing = [.handleRead] ∨ closing = []) :
      Turn ch (some .cleanupEnd) s
        { s with
          readcb := .none
          writablecb := false
          statecb := false
          channel := none
          ended := s.attempt
          stack := closing ++ s.stack
          log := s.log ++ s.idleIds.map .unregister }
  | reconnectEnd {s : Conn α} :
      Turn ch (some .reconnectEnd) s { s with channel := none, ended := s.attempt }

/-- A part of `cleanup` on the stack was there before. -/
theorem Swaps.part {ch : Choice α} {f : Option (Frame α)} {new : List (Frame α)} {s s' : Conn α}
    (h : Swaps ch f new s s') {g : Frame α} (hg : g.ofCleanup = true) (hmem : g ∈ s'.stack) :
    g ∈ s.stack := by
  rw [h.stack, List.mem_append] at hmem
  refine hmem.resolve_left fun hnew => ?_
  rw [h.plain g hnew] at hg
  cases hg

theorem Swaps.count {ch : Choice α} {f : Option (Frame α)} {new : List (Frame α)} {s s' : Conn α}
    (h : Swaps ch f new s s') :
    s'.stack.countP Frame.ofCleanup = s.stack.countP Frame.ofCleanup := by
  have hnew : new.countP Frame.ofCleanup = 0 :=
    List.countP_eq_zero.mpr fun g hg => by simp [h.plain g hg]
  rw [h.stack, List.countP_append, hnew, Nat.zero_add]

theorem Still.refl (s : Conn α) : Still s s := ⟨rfl, Iff.rfl, id, id, rfl, rfl, rfl, rfl⟩

theorem Still.trans {s t u : Conn α} (h : Still s t) (h' : Still t u) : Still s u where
  state := h'.state.trans h.state
  channel := h'.channel.trans h.channel
  pending := h.pending ∘ h'.pending
  wanted := h.wanted ∘ h'.wanted
  listed := h'.listed.trans h.listed
  statecb := h'.statecb.trans h.statecb
  attempt := h'.attempt.trans h.attempt
  reports := h'.reports.trans h.reports

theorem Still.performs {codec : Codec α} {s s' : Conn α} {act : Action α}
    (h : Performs codec s act s') : Still s s' := by
  cases h with
  | sends h =>
      cases h with
      | closed _ _ _ _ left log =>
          exact { Still.refl s with
            reports := by simp [log, reports_append, reports_leftovers left] }
      | queued _ _ hch _ _ _ left log =>
          exact { Still.refl s with
            channel := by simp [hch]
            reports := by simp [log, reports_append, reports_leftovers left] }
      | wrote _ _ _ hch _ _ _ _ _ _ _ _ left log =>
          exact { Still.refl s with
            channel := by simp [hch]
            reports := by simp [log, reports_append, reports_leftovers left] }
      | reset _ _ hch _ _ _ left log =>
          exact { Still.refl s with
            channel := by simp [hch]
            reports := by simp [log, reports_append, reports_leftovers left] }
  | shuts hch => exact { Still.refl s with channel := by simp [hch] }
  | shutAlready => exact .refl s
  | close => exact { Still.refl s with }
  | consume => exact { Still.refl s with }
  | overrun => exact { Still.refl s with }
  | addIdle => exact { Still.refl s with }
  | addNoIdle => exact .refl s
  | exit => exact { Still.refl s with wanted := fun h => by cases h.2 }

theorem Still.callsRead {ch : Choice α} {s s' : Conn α} (h : CallsRead ch s s') : Still s s' := by
  cases h with
  | skip => exact .refl s
  | user => exact { Still.refl s with reports := by simp [reports_append] }
  | onMsg => exact { Still.refl s with }

/-- What `readcb_` leaves on the stack. -/
theorem stack_of_callsRead {ch : Choice α} {s s' : Conn α} (h : CallsRead ch s s') :
    ∃ new, s'.stack = new ++ s.stack ∧ (new = [] ∨ new = [.user ch.body] ∨ new = [.decodeLoop]) := by
  cases h with
  | skip => exact ⟨[], rfl, Or.inl rfl⟩
  | user => exact ⟨_, rfl, Or.inr (Or.inl rfl)⟩
  | onMsg => exact ⟨_, rfl, Or.inr (Or.inr rfl)⟩

theorem Swaps.callsRead {ch : Choice α} {s s' : Conn α} (h : CallsRead ch s s') :
    ∃ new, Swaps ch none new s s' ∧ .cleanup ∉ new := by
  obtain ⟨new, hstack, hnew⟩ := stack_of_callsRead h
  rcases hnew with rfl | rfl | rfl
  · exact ⟨_, { stack := hstack }, by simp⟩
  · exact ⟨_, { stack := hstack }, by simp⟩
  · exact ⟨_, { stack := hstack }, by simp⟩

theorem turn_of_event {codec : Codec α} {ch : Choice α} {s s' : Conn α}
    (h : Move codec ch none s s') (hf : s'.fault = none) : Turn ch none s s' := by
  cases h with
  | faults fault => exact absurd hf fault
  | chore timer b _ exited pending listed =>
      exact .goes [] { Still.refl s with
        pending := pending, listed := listed,
        wanted := fun h => ⟨h.1, exited.symm.trans h.2⟩ } {}
  | call _ h =>
      rcases stack_of_performs h with hs | ⟨hs, -⟩ | ⟨hs, hch, -⟩
      · exact .goes [] (.performs h) { stack := hs }
      · exact .goes [.handleRead] (.performs h) { stack := hs }
      · exact .goes [.cleanup] (.performs h) { stack := hs, calls := fun _ => Or.inl hch }
  | shut timer b _ _ exited hch _ pending listed =>
      exact .goes [.handleRead] { Still.refl s with
        channel := by simp [hch], pending := pending, listed := listed,
        wanted := fun h => ⟨h.1, exited.symm.trans h.2⟩ } {}
  | shutdown timer b event _ exited done pending listed waits =>
      exact .goes [.cleanup] { Still.refl s with
        pending := pending, listed := listed,
        wanted := fun h => ⟨h.1, exited.symm.trans h.2⟩ }
        { calls := fun _ => Or.inr ⟨rfl, event, done, waits⟩ }
  | attach timer reuse b port _ _ hch event hstate =>
      exact .attach timer reuse b port event hch hstate
  | sets r w st _ channel state _ statecb => exact .sets r w st channel state statecb
  | readable => exact .goes [.handleRead] { Still.refl s with } {}
  | flushReset _ _ hch =>
      exact .goes [.cleanup] { Still.refl s with
        channel := by simp [hch], reports := by simp [reports_append] }
        { calls := fun _ => Or.inl (by simp [hch]) }
  | flush callback _ _ hch _ _ _ writablecb =>
      rcases writablecb with rfl | ⟨rfl, -⟩
      · exact .goes [.writeEnd] { Still.refl s with
          channel := by simp [hch], reports := by simp [reports_append] } {}
      · exact .goes [.user ch.body, .writeEnd] { Still.refl s with
          channel := by simp [hch], reports := by simp [reports_append] } {}
  | handshake from' hstate hch _ _ statecb =>
      obtain ⟨rfl, -⟩ : _ = [] ∧ ∃ ws, ch.event = .writable ws := by simpa using from'
      exact .handshake (Or.inr ⟨rfl, rfl⟩) hstate (by simp [hch]) statecb
  | refused _ _ hch =>
      exact .goes [.cleanup] { Still.refl s with } { calls := fun _ => Or.inl (by simp [hch]) }

theorem turn_of_frame {codec : Codec α} {ch : Choice α} {s s' : Conn α} {f : Frame α}
    (h : Move codec ch (some f) s s') (hf : s'.fault = none) : Turn ch (some f) s s' := by
  cases h with
  | faults fault => exact absurd hf fault
  | handshake from' hstate hch _ _ statecb =>
      obtain ⟨rfl, rfl⟩ : f = .handleRead ∧ _ = [Frame.readLoop] := by simpa using from'
      exact .handshake (Or.inl ⟨rfl, rfl⟩) hstate (by simp [hch]) statecb
  | refused from' _ hch =>
      obtain rfl : f = .handleRead := by simpa using from'
      exact .goes [.cleanup] { Still.refl s with } { calls := fun _ => Or.inl (by simp [hch]) }
  | finish ends =>
      have hplain : f ≠ .cleanup ∧ f.ofCleanup = false := by
        rcases ends with rfl | ⟨rfl, -, -⟩ | ⟨rfl, -⟩ | rfl <;> simp [Frame.ofCleanup]
      have hempty : ∀ todo, f = .user todo → todo = [] := by
        rcases ends with rfl | ⟨rfl, -, -⟩ | ⟨rfl, -⟩ | rfl <;> simp
      exact .goes [] (.refl s)
        { running := fun g hg => Option.some.inj hg ▸ hplain
          user := fun todo hf _ => ⟨hempty todo (Option.some.inj hf), rfl⟩ }
  | @perform _ _ act todo h =>
      have hstill : Still s s' := { Still.performs h with }
      rcases stack_of_performs h with hs | ⟨hs, -⟩ | ⟨hs, hch, -⟩
      · exact .goes [.user todo] hstill { stack := hs }
      · exact .goes [.handleRead, .user todo] hstill { stack := hs }
      · exact .goes [.cleanup, .user todo] hstill { stack := hs, calls := fun _ => Or.inl hch }
  | handleRead => exact .goes [.readLoop] { Still.refl s with } {}
  | readEnd _ hch =>
      exact .goes [.cleanup] { Still.refl s with } { calls := fun _ => Or.inl (by simp [hch]) }
  | readRetry => exact .goes [.readLoop] { Still.refl s with } {}
  | readAll _ _ _ _ readcb =>
      have hstill : Still s s' := by
        refine Still.trans ?_ (.callsRead readcb)
        exact { Still.refl s with reports := by simp [reports_append, reports_updates] }
      obtain ⟨new, hstack, hnew⟩ := stack_of_callsRead readcb
      rcases hnew with rfl | rfl | rfl
      · exact .goes [] hstill { stack := hstack }
      · exact .goes [.user ch.body] hstill { stack := hstack }
      · exact .goes [.decodeLoop] hstill { stack := hstack }
  | readData =>
      exact .goes [.readLoop] { Still.refl s with reports := by simp [reports_append] } {}
  | writeOff hch => exact .goes [] { Still.refl s with channel := by simp [hch] } {}
  | cleanup readcb => exact .cleanup readcb
  | cleanupState statecb => exact .cleanupState statecb
  | reconnect closing wanted _ close => exact .reconnect closing wanted (close.imp_right And.left)
  | release closing wanted close => exact .release closing wanted close
  | reconnectEnd => exact .reconnectEnd
  | decodeNull => simp at hf
  | decodeShut hch =>
      exact .goes [.handleRead] { Still.refl s with
        channel := by simp [hch], reports := by simp [reports_append] } {}
  | decodeWait => exact .goes [] { Still.refl s with reports := by simp [reports_append] } {}
  | decodeFrame r =>
      exact .goes [.user ch.body, .decodeConsume r.toNat]
        { Still.refl s with reports := by simp [reports_append] } {}
  | consume => exact .goes [.decodeLoop] { Still.refl s with reports := by simp [reports_append] } {}
  | overrun => simp at hf

/-- The step of a live process that stays live. -/
theorem Move.turn {codec : Codec α} {ch : Choice α} {f : Option (Frame α)} {s s' : Conn α}
    (h : Move codec ch f s s') (hf : s'.fault = none) : Turn ch f s s' := by
  cases f with
  | none => exact turn_of_event h hf
  | some f => exact turn_of_frame h hf

/-- Every step of a live process is a move. -/
theorem move_under [Inhabited α] (codec : Codec α) {s : Conn α} (hf : s.fault = none)
    (ch : Choice α) :
    ∃ f t, s = t.under f ∧ (f = none → t.stack = []) ∧ Move codec ch f t (step codec s ch) := by
  rcases move_of_step codec hf ch with ⟨hstack, hm⟩ | ⟨f, t, hs, hm⟩
  · exact ⟨none, s, rfl, fun _ => hstack, hm⟩
  · exact ⟨some f, t, hs, nofun, hm⟩

theorem Stacked.move {codec : Codec α} {ch : Choice α} {f : Option (Frame α)} {s s' : Conn α}
    (hs : Stacked (s.under f).stack) (hnone : f = none → s.stack = [])
    (h : Move codec ch f s s') (hf : s'.fault = none) : Stacked s'.stack := by
  cases f with
  | none => exact stacked_event (hnone rfl) h hf
  | some f => exact hs.frame h hf

end Conn

end Handy
