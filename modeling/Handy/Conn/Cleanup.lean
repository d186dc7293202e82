import Handy.Conn.Calculus

/-! # `cleanup` once per attempt

`cleanup` calls `readcb_` and `statecb_` before it gives the channel up, and a
send from either of them that meets a peer that is gone calls `cleanup` again.
An echo callback does so forever, and where the channel was closed on this side it
ends the process. `release` leaves a way to unregister an idle id twice: the ids
stay listed, so a connection that is connected once more gives them back again.
With none of these, an attempt is cleaned up once, reports its end once, and
`cleanup` returns whatever happens.
-/

namespace Handy

variable {α : Type}

def Action.sends : Action α → Bool
  | .sendStr _ _ | .sendBuffer _ _ | .sendInput _ | .sendMsg _ _ => true
  | _ => false

def Event.setsCodec : Event α → Bool
  | .set .onMsg => true
  | _ => false

/-- A frame that is no part of a `cleanup`, with a body that only sends and no
codec behind it. -/
def Frame.calm : Frame α → Bool
  | .user todo => todo.all Action.sends
  | .handleRead | .readLoop | .writeEnd => true
  | _ => false

namespace Conn

/-! ## What the log counts -/

/-- How often `cleanup` was entered in attempt `k`. -/
def entries (k : Nat) (log : List (Ev α)) : Nat :=
  log.countP fun e => match e with
    | .cleanup j => j == k
    | _ => false

/-- How often `statecb_` was told that attempt `k` is `Closed` or `Failed`. -/
def endings (k : Nat) (log : List (Ev α)) : Nat :=
  log.countP fun e => match e with
    | .report j st => j == k && (st == .closed || st == .failed)
    | _ => false

def unregistered (log : List (Ev α)) : List Nat :=
  log.flatMap fun e => match e with
    | .unregister id => [id]
    | _ => []

theorem entries_attached (k j : Nat) (b : Bool) (log : List (Ev α)) :
    entries k (log ++ [.attached j b]) = entries k log := by
  simp [entries]

theorem endings_attached (k j : Nat) (b : Bool) (log : List (Ev α)) :
    endings k (log ++ [.attached j b]) = endings k log := by
  simp [endings]

theorem unregistered_attached (j : Nat) (b : Bool) (log : List (Ev α)) :
    unregistered (log ++ [.attached j b]) = unregistered log := by
  simp [unregistered]

/-! ## Runs and the condition -/

/-- `cleanup` is inside one of its two callbacks or between them. -/
def inCleanup (s : Conn α) : Bool :=
  s.stack.any fun f => match f with
    | .cleanupState | .cleanupEnd => true
    | _ => false

/-- Before an exit, with callbacks that only send and no codec installed. -/
structure BeforeExit (s : Conn α) (ch : Choice α) : Prop where
  exit : (acting s ch).any Action.isExit = false
  body : ch.body.all Action.sends = true
  codec : ch.event.setsCodec = false

/-- The call is a `send(Buffer &)` or `sendMsg` that the closed descriptor refuses,
and then asks for write interest on it, which is fatal. -/
def strands (codec : Codec α) (s : Conn α) (act : Action α) : Bool :=
  stopOf codec s act == some .other && match s.channel, act with
    | none, _ => false
    | some _, .sendStr _ _ => false
    | some c, _ => !c.fdOpen && !c.writeEnabled

/-- No send from inside `cleanup` meets a peer that is gone, or asks for write
interest on a descriptor closed on this side; and a connection that does not
reconnect is not connected again with idle ids listed. -/
structure EndsOnce (codec : Codec α) (s : Conn α) (ch : Choice α) : Prop where
  gone : s.inCleanup = true →
    (acting s ch).any (fun act => stopOf codec s act == some .reset) = false
  shut : s.inCleanup = true → (acting s ch).any (strands codec s) = false
  idles : s.stack.isEmpty = true → ch.event.attaches = true → s.reconnectInterval < 0 →
    s.idleIds = []

/-- A step before an exit in which no callback of `cleanup` calls `cleanup` or ends
the process, and no idle ids are carried into another attempt. -/
def Orderly (codec : Codec α) (s : Conn α) (ch : Choice α) : Prop :=
  BeforeExit s ch ∧ EndsOnce codec s ch

instance (s : Conn α) (ch : Choice α) : Decidable (BeforeExit s ch) :=
  decidable_of_iff
    ((acting s ch).any Action.isExit = false ∧ ch.body.all Action.sends = true ∧
      ch.event.setsCodec = false)
    ⟨fun h => ⟨h.1, h.2.1, h.2.2⟩, fun h => ⟨h.exit, h.body, h.codec⟩⟩

instance (codec : Codec α) (s : Conn α) (ch : Choice α) : Decidable (EndsOnce codec s ch) :=
  decidable_of_iff
    ((s.inCleanup = true →
        (acting s ch).any (fun act => stopOf codec s act == some .reset) = false) ∧
      (s.inCleanup = true → (acting s ch).any (strands codec s) = false) ∧
      (s.stack.isEmpty = true → ch.event.attaches = true → s.reconnectInterval < 0 →
        s.idleIds = []))
    ⟨fun h => ⟨h.1, h.2.1, h.2.2⟩, fun h => ⟨h.gone, h.shut, h.idles⟩⟩

instance (codec : Codec α) (s : Conn α) (ch : Choice α) : Decidable (Orderly codec s ch) :=
  inferInstanceAs (Decidable (BeforeExit s ch ∧ EndsOnce codec s ch))

/-! ## What most steps keep -/

def marks : Ev α → Bool
  | .cleanup _ | .unregister _ => true
  | .attached _ statecb => statecb
  | .report _ st => st == .closed || st == .failed
  | _ => false

structure SameMarks (l l' : List (Ev α)) : Prop where
  entries : ∀ k, entries k l' = entries k l
  endings : ∀ k, endings k l' = endings k l
  unregistered : unregistered l' = unregistered l
  begun : ∀ k, .attached k true ∈ l' ↔ .attached k true ∈ l

theorem SameMarks.refl (l : List (Ev α)) : SameMarks l l :=
  ⟨fun _ => rfl, fun _ => rfl, rfl, fun _ => Iff.rfl⟩

theorem entries_append (k : Nat) (l l' : List (Ev α)) :
    entries k (l ++ l') = entries k l + entries k l' :=
  List.countP_append

theorem endings_append (k : Nat) (l l' : List (Ev α)) :
    endings k (l ++ l') = endings k l + endings k l' :=
  List.countP_append

theorem unregistered_append (l l' : List (Ev α)) :
    unregistered (l ++ l') = unregistered l ++ unregistered l' :=
  List.flatMap_append

theorem SameMarks.append (l : List (Ev α)) {es : List (Ev α)} (h : ∀ e ∈ es, marks e = false) :
    SameMarks l (l ++ es) := by
  refine ⟨fun k => ?_, fun k => ?_, ?_, fun k => ?_⟩
  · have hzero : Conn.entries k es = 0 := by
      rw [Conn.entries, List.countP_eq_zero]
      intro e he
      have hm := h e he
      cases e <;> simp_all [Conn.marks]
    rw [entries_append, hzero, Nat.add_zero]
  · have hzero : Conn.endings k es = 0 := by
      rw [Conn.endings, List.countP_eq_zero]
      intro e he
      have hm := h e he
      cases e <;> simp_all [Conn.marks]
    rw [endings_append, hzero, Nat.add_zero]
  · have hnil : Conn.unregistered es = [] := by
      rw [Conn.unregistered, List.flatMap_eq_nil_iff]
      intro e he
      have hm := h e he
      cases e <;> simp_all [Conn.marks]
    rw [unregistered_append, hnil, List.append_nil]
  · rw [List.mem_append]
    exact or_iff_left fun hmem => Bool.noConfusion (h _ hmem)

def Calm (stack : List (Frame α)) : Prop := ∀ f ∈ stack, f.calm = true

@[simp] theorem calm_cons (f : Frame α) (stack : List (Frame α)) :
    Calm (f :: stack) ↔ f.calm = true ∧ Calm stack :=
  List.forall_mem_cons

@[simp] theorem calm_nil : Calm ([] : List (Frame α)) := nofun

@[simp] theorem calm_append (new stack : List (Frame α)) :
    Calm (new ++ stack) ↔ Calm new ∧ Calm stack :=
  List.forall_mem_append

/-- A step that moves no attempt on: at most it calls `cleanup`. -/
structure Keeps (s s' : Conn α) : Prop where
  marks : SameMarks s.log s'.log
  attempt : s'.attempt = s.attempt
  ended : s'.ended = s.ended
  interval : s'.reconnectInterval = s.reconnectInterval
  exited : s'.exited = s.exited
  readcb : s'.readcb = s.readcb
  statecb : s'.statecb = s.statecb
  state : s.state = .closed ∨ s.state = .failed → s'.state = s.state
  channel : s'.channel = none ↔ s.channel = none
  ids : s'.idleIds = s.idleIds ∧ s'.nextIdle = s.nextIdle ∨
    s'.idleIds = s.idleIds ++ [s.nextIdle] ∧ s'.nextIdle = s.nextIdle + 1

/-- As much of it as holds of the steps inside `cleanup`. -/
structure Stays (s s' : Conn α) : Prop where
  unregistered : unregistered s'.log = unregistered s.log
  begun : ∀ k, .attached k true ∈ s'.log ↔ .attached k true ∈ s.log
  attempt : s'.attempt = s.attempt
  ended : s'.ended = s.ended
  interval : s'.reconnectInterval = s.reconnectInterval
  exited : s'.exited = s.exited
  readcb : s'.readcb = s.readcb
  statecb : s'.statecb = s.statecb
  channel : s'.channel = none ↔ s.channel = none
  ids : s'.idleIds = s.idleIds ∧ s'.nextIdle = s.nextIdle ∨
    s'.idleIds = s.idleIds ++ [s.nextIdle] ∧ s'.nextIdle = s.nextIdle + 1

theorem Stays.refl (s : Conn α) : Stays s s :=
  ⟨rfl, fun _ => Iff.rfl, rfl, rfl, rfl, rfl, rfl, rfl, Iff.rfl, Or.inl ⟨rfl, rfl⟩⟩

theorem Keeps.stays {s s' : Conn α} (h : Keeps s s') : Stays s s' :=
  ⟨h.marks.unregistered, h.marks.begun, h.attempt, h.ended, h.interval, h.exited, h.readcb,
    h.statecb, h.channel, h.ids⟩

theorem Keeps.refl (s : Conn α) : Keeps s s :=
  ⟨.refl _, rfl, rfl, rfl, rfl, rfl, rfl, fun _ => rfl, Iff.rfl, Or.inl ⟨rfl, rfl⟩⟩

theorem marks_leftovers {bs : List α} {tail : List (Ev α)} (h : ∀ e ∈ tail, e = .leftover bs) :
    ∀ e ∈ tail, marks e = false := by
  intro e he
  rw [h e he]
  rfl

theorem Keeps.sends {codec : Codec α} {s s' : Conn α} {act : Action α}
    (h : Sends codec s act s') : Keeps s s' := by
  cases h with
  | closed _ _ _ _ left log =>
      refine { Keeps.refl s with marks := log ▸ .append _ ?_ }
      exact List.forall_mem_cons.mpr ⟨rfl, marks_leftovers left⟩
  | queued _ _ hch _ _ _ left log =>
      refine { Keeps.refl s with marks := log ▸ .append _ ?_, channel := by simp [hch] }
      exact List.forall_mem_cons.mpr ⟨rfl, marks_leftovers left⟩
  | wrote _ _ _ hch _ _ _ _ _ _ _ _ left log =>
      refine { Keeps.refl s with marks := log ▸ .append _ ?_, channel := by simp [hch] }
      exact List.forall_mem_cons.mpr ⟨rfl, List.forall_mem_cons.mpr ⟨rfl, marks_leftovers left⟩⟩
  | reset _ _ hch _ _ _ left log =>
      refine { Keeps.refl s with marks := log ▸ .append _ ?_, channel := by simp [hch] }
      exact List.forall_mem_cons.mpr ⟨rfl, List.forall_mem_cons.mpr ⟨rfl, marks_leftovers left⟩⟩

theorem Keeps.performs {codec : Codec α} {s s' : Conn α} {act : Action α}
    (hact : act.isExit = false) (h : Performs codec s act s') : Keeps s s' := by
  cases h with
  | sends h => exact .sends h
  | shuts hch => exact { Keeps.refl s with channel := by simp [hch] }
  | shutAlready => exact .refl s
  | close => exact { Keeps.refl s with }
  | consume => exact { Keeps.refl s with }
  | overrun => exact { Keeps.refl s with }
  | addIdle => exact { Keeps.refl s with ids := Or.inr ⟨rfl, rfl⟩ }
  | addNoIdle => exact .refl s
  | exit => simp [Action.isExit] at hact

theorem isExit_of_sends {act : Action α} (h : act.sends = true) : act.isExit = false := by
  cases act <;> first | rfl | cases h

/-- A send that does not end in a request for write interest on a closed
descriptor does not end the process. -/
theorem fault_of_sends {codec : Codec α} {s s' : Conn α} {act : Action α}
    (hact : act.sends = true) (hshut : strands codec s act = false)
    (h : Performs codec s act s') : s'.fault = s.fault := by
  cases h with
  | sends h =>
      cases h with
      | closed => rfl
      | queued => rfl
      | wrote _ hstop _ hch _ _ _ _ _ _ hfault =>
          rcases hfault with hf | ⟨-, rfl, hopen, hoff, hstr⟩
          · exact hf
          · exfalso
            unfold strands at hshut
            rw [hstop, hch] at hshut
            cases act with
            | sendStr bytes ws => exact hstr bytes ws rfl
            | _ => simp [hopen, hoff] at hshut
      | reset => rfl
  | shuts => simp [Action.sends] at hact
  | shutAlready => rfl
  | close => rfl
  | consume => rfl
  | overrun => simp [Action.sends] at hact
  | addIdle => rfl
  | addNoIdle => rfl
  | exit => rfl

theorem Keeps.trans {s t u : Conn α} (h : Keeps s t) (h' : Keeps t u)
    (hids : u.idleIds = t.idleIds ∧ u.nextIdle = t.nextIdle) : Keeps s u where
  marks := ⟨fun k => (h'.marks.entries k).trans (h.marks.entries k),
    fun k => (h'.marks.endings k).trans (h.marks.endings k),
    h'.marks.unregistered.trans h.marks.unregistered,
    fun k => (h'.marks.begun k).trans (h.marks.begun k)⟩
  attempt := h'.attempt.trans h.attempt
  ended := h'.ended.trans h.ended
  interval := h'.interval.trans h.interval
  exited := h'.exited.trans h.exited
  readcb := h'.readcb.trans h.readcb
  statecb := h'.statecb.trans h.statecb
  state := fun hs => by
    have ht := h.state hs
    exact (h'.state (ht ▸ hs)).trans ht
  channel := h'.channel.trans h.channel
  ids := by
    rw [hids.1, hids.2]
    exact h.ids

/-- What a step of the connection outside `cleanup` comes to: the process ends,
the attempt goes on, `cleanup` is called, the next attempt begins, or a callback
is set for it. -/
inductive Outcome (ch : Choice α) (f : Option (Frame α)) (s s' : Conn α) : Prop
  | fault (fault : s'.fault ≠ none) (log : s'.log = s.log) (attempt : s'.attempt = s.attempt)
      (ended : s'.ended = s.ended)
  | goes (new : List (Frame α)) (keeps : Keeps s s') (stack : s'.stack = new ++ s.stack)
      (calm : Calm new)
  | cleanup (new : List (Frame α)) (keeps : Keeps s s')
      (stack : s'.stack = .cleanup :: (new ++ s.stack)) (calm : Calm new)
      (channel : s.channel ≠ none)
  | attach (timer reuse : Bool) (b : Base) (port : Int) (idle : b.nextIdle = s.nextIdle)
      (exited : b.exited = s.exited) (channel : s.channel = none)
      (event : f = none ∧ ch.event.attaches = true)
      (eq : s' = { s with
        timeoutPending := timer
        connectTimeout := reuse
        toBase := b
        destPort := port
        state := .handshaking
        channel := some ⟨true, true, true⟩
        attempt := s.attempt + 1
        log := s.log ++ [.attached (s.attempt + 1) s.statecb] })
  | sets (r : ReadCb) (w st : Bool) (channel : s.channel = none) (readcb : r ≠ .onMsg)
      (statecb : s.statecb = true → st = true)
      (eq : s' = { s with readcb := r, writablecb := w, statecb := st })

theorem Outcome.callsState {ch : Choice α} {f : Option (Frame α)} {s t u : Conn α}
    (new : List (Frame α)) (ht : Keeps s t) (hids : u.idleIds = t.idleIds ∧ u.nextIdle = t.nextIdle)
    (hstack : t.stack = new ++ s.stack) (hnew : Calm new) (hbody : ch.body.all Action.sends = true)
    (hstate : t.state = .connected) (h : CallsState ch t u) : Outcome ch f s u := by
  cases h with
  | skip => exact .goes new ht hstack hnew
  | user =>
      refine .goes (.user ch.body :: new) (ht.trans ?_ hids) (by simp [hstack]) ?_
      · exact { Keeps.refl t with marks := .append _ (by simp [Conn.marks, hstate]) }
      · exact (calm_cons _ _).mpr ⟨hbody, hnew⟩

theorem Outcome.callsRead {ch : Choice α} {f : Option (Frame α)} {s t u : Conn α}
    (ht : Keeps s t)
    (hids : u.idleIds = t.idleIds ∧ u.nextIdle = t.nextIdle) (hstack : t.stack = s.stack)
    (hbody : ch.body.all Action.sends = true) (hread : t.readcb ≠ .onMsg)
    (h : CallsRead ch t u) : Outcome ch f s u := by
  cases h with
  | skip => exact .goes [] ht hstack calm_nil
  | user =>
      refine .goes [.user ch.body] (ht.trans ?_ hids) (by simp [hstack]) ?_
      · exact { Keeps.refl t with marks := .append _ (by simp [Conn.marks]) }
      · exact (calm_cons _ _).mpr ⟨hbody, calm_nil⟩
  | onMsg h => exact absurd h hread

theorem ids_of_callsState {ch : Choice α} {s s' : Conn α} (h : CallsState ch s s') :
    s'.idleIds = s.idleIds ∧ s'.nextIdle = s.nextIdle := by
  cases h <;> exact ⟨rfl, rfl⟩

theorem ids_of_callsRead {ch : Choice α} {s s' : Conn α} (h : CallsRead ch s s') :
    s'.idleIds = s.idleIds ∧ s'.nextIdle = s.nextIdle := by
  cases h <;> exact ⟨rfl, rfl⟩

theorem Move.outcome {codec : Codec α} {ch : Choice α} {f : Option (Frame α)} {s s' : Conn α}
    (h : Move codec ch f s s') (hf : ∀ g, f = some g → g.calm = true)
    (hexit : f = none → ∀ act, ch.event = .call act → act.isExit = false)
    (hexited : s.exited = false) (hbody : ch.body.all Action.sends = true)
    (hcodec : f = none → ch.event.setsCodec = false) (hread : s.readcb ≠ .onMsg) :
    Outcome ch f s s' := by
  cases h with
  | faults fault _ log attempt ended => exact .fault fault log attempt ended
  | chore _ b idle exited =>
      exact .goes [] { Keeps.refl s with exited := exited, ids := Or.inl ⟨rfl, idle⟩ } rfl calm_nil
  | call event h =>
      have hkeeps : Keeps s s' := .performs (hexit rfl _ event) h
      rcases stack_of_performs h with hs | ⟨hs, -⟩ | ⟨hs, hch, -⟩
      · exact .goes [] hkeeps hs calm_nil
      · exact .goes [.handleRead] hkeeps hs (by simp [Frame.calm])
      · exact .cleanup [] hkeeps hs calm_nil hch
  | shut _ _ _ idle exited hch =>
      refine .goes [.handleRead] { Keeps.refl s with
        exited := exited, ids := Or.inl ⟨rfl, idle⟩, channel := by simp [hch] } rfl ?_
      simp [Frame.calm]
  | shutdown _ _ _ _ _ done => simp [hexited] at done
  | attach timer reuse b port idle exited channel event state =>
      exact .attach timer reuse b port idle exited channel ⟨rfl, event⟩ rfl
  | sets r w st event channel _ readcb statecb =>
      refine .sets r w st channel ?_ statecb rfl
      rcases readcb with rfl | ⟨-, ⟨-, rfl⟩ | ⟨rfl, -⟩⟩
      · exact hread
      · nofun
      · have hcodec := hcodec rfl
        simp [event, Event.setsCodec] at hcodec
  | readable =>
      exact .goes [.handleRead] { Keeps.refl s with } rfl (by simp [Frame.calm])
  | flushReset _ _ hch =>
      exact .cleanup [] { Keeps.refl s with
        marks := .append _ (by simp [Conn.marks]), channel := by simp [hch] } rfl calm_nil
        (by simp [hch])
  | @flush _ _ _ _ _ callback _ _ hch _ _ _ writablecb =>
      refine .goes (callback ++ [.writeEnd]) { Keeps.refl s with
        marks := .append _ (by simp [Conn.marks]), channel := by simp [hch] } (by simp) ?_
      rcases writablecb with rfl | ⟨rfl, -⟩
      · simp [Frame.calm]
      · simpa [Frame.calm] using hbody
  | @handshake _ _ _ c next from' hstate hch _ _ statecb =>
      refine .callsState next ?_ (ids_of_callsState statecb) rfl ?_ hbody rfl statecb
      · exact { Keeps.refl s with
          channel := by simp [hch]
          state := fun h => by rcases h with h | h <;> simp [hstate] at h }
      · rcases from' with ⟨-, rfl⟩ | ⟨rfl, -⟩ <;> simp [Frame.calm]
  | refused _ _ hch =>
      exact .cleanup [] { Keeps.refl s with } rfl calm_nil (by simp [hch])
  | finish => exact .goes [] (.refl s) rfl calm_nil
  | @perform _ _ act todo h =>
      have htodo := hf _ rfl
      simp only [Frame.calm, List.all_cons, Bool.and_eq_true] at htodo
      have hkeeps : Keeps s s' := { Keeps.performs (isExit_of_sends htodo.1) h with }
      have hnew : Calm [Frame.user todo] := by simpa [Frame.calm] using htodo.2
      rcases stack_of_performs h with hs | ⟨hs, rfl⟩ | ⟨hs, hch, -⟩
      · exact .goes [.user todo] hkeeps hs hnew
      · simp [Action.sends] at htodo
      · exact .cleanup [.user todo] hkeeps hs hnew hch
  | handleRead => exact .goes [.readLoop] { Keeps.refl s with } rfl (by simp [Frame.calm])
  | readEnd _ hch =>
      exact .cleanup [] { Keeps.refl s with } rfl calm_nil (by simp [hch])
  | readRetry => exact .goes [.readLoop] { Keeps.refl s with } rfl (by simp [Frame.calm])
  | readAll _ _ _ _ readcb =>
      refine .callsRead ?_ (ids_of_callsRead readcb) rfl hbody hread readcb
      exact { Keeps.refl s with marks := .append _ (by simp [Conn.marks]) }
  | readData =>
      exact .goes [.readLoop] { Keeps.refl s with
        marks := .append _ (by simp [Conn.marks]) } rfl (by simp [Frame.calm])
  | writeOff hch =>
      exact .goes [] { Keeps.refl s with channel := by simp [hch] } rfl calm_nil
  | cleanup => simp [Frame.calm] at hf
  | cleanupState => simp [Frame.calm] at hf
  | reconnect => simp [Frame.calm] at hf
  | release => simp [Frame.calm] at hf
  | reconnectEnd => simp [Frame.calm] at hf
  | decodeNull => simp [Frame.calm] at hf
  | decodeShut => simp [Frame.calm] at hf
  | decodeWait => simp [Frame.calm] at hf
  | decodeFrame => simp [Frame.calm] at hf
  | consume => simp [Frame.calm] at hf
  | overrun => simp [Frame.calm] at hf

/-! ## The invariant -/

/-- The callback `cleanup` is in, if it is in one. -/
def Body (above : List (Frame α)) : Prop :=
  above = [] ∨ ∃ todo, above = [.user todo] ∧ todo.all Action.sends = true

/-- An attempt is on, entered by `cleanup` so often and reported ended so often. -/
structure During (s : Conn α) (entered told : Nat) : Prop where
  channel : s.channel ≠ none
  attempt : s.attempt = s.ended + 1
  entered : entries s.attempt s.log = entered
  told : endings s.attempt s.log = told

/-- Where the connection is between one attempt and the next. -/
inductive Phase (s : Conn α) : Prop
  | ended (calm : Calm s.stack) (channel : s.channel = none) (attempt : s.attempt = s.ended)
  | live (calm : Calm s.stack) (during : During s 0 0)
  | entering {below : List (Frame α)} (stack : s.stack = .cleanup :: below) (calm : Calm below)
      (during : During s 0 0)
  | reading (above : List (Frame α)) {below : List (Frame α)}
      (stack : s.stack = above ++ .cleanupState :: below)
      (body : Body above) (calm : Calm below) (during : During s 1 0)
  | reporting (above : List (Frame α)) {below : List (Frame α)}
      (stack : s.stack = above ++ .cleanupEnd :: below)
      (body : Body above) (calm : Calm below) (state : s.state = .closed ∨ s.state = .failed)
      (during : During s 1 (if s.statecb then 1 else 0))
  | leaving (above : List (Frame α)) {below : List (Frame α)}
      (stack : s.stack = above ++ .reconnectEnd :: below)
      (above : above = [] ∨ above = [.handleRead]) (calm : Calm below)
      (state : s.state = .closed ∨ s.state = .failed) (reconnects : 0 ≤ s.reconnectInterval)
      (during : During s 1 (if s.statecb then 1 else 0))

/-- Attempt `k` has a `statecb_` to tell: it began with one, or the connection
started with it and has not released it. -/
def Hears (cb : Bool) (iv : Int) (k : Nat) (log : List (Ev α)) : Prop :=
  .attached k true ∈ log ∨ cb = true ∧ (k = 1 ∨ 0 ≤ iv)

/-- What the log has counted so far; it outlives a fault. `cb` is whether the
connection started with a `statecb_`, `iv` its `reconnectInterval_`. -/
structure Tally (cb : Bool) (iv : Int) (s : Conn α) : Prop where
  once : ∀ k, entries k s.log ≤ 1 ∧ endings k s.log ≤ 1
  later : ∀ k, s.attempt < k →
    (entries k s.log = 0 ∧ endings k s.log = 0) ∧ .attached k true ∉ s.log
  told : ∀ k, 1 ≤ k → k ≤ s.ended → Hears cb iv k s.log → endings k s.log = 1
  nodup : (unregistered s.log).Nodup

structure Settled (cb : Bool) (iv : Int) (s : Conn α) : Prop where
  interval : s.reconnectInterval = iv
  exited : s.exited = false
  readcb : s.readcb ≠ .onMsg
  statecb : cb = true → s.ended = 0 ∨ 0 ≤ iv → s.statecb = true
  begun : s.channel ≠ none → .attached s.attempt true ∈ s.log → s.statecb = true
  ids : s.idleIds.Nodup ∧ (∀ i ∈ s.idleIds, i < s.nextIdle) ∧
    ∀ i ∈ unregistered s.log, i < s.nextIdle
  apart : s.channel ≠ none → ∀ i ∈ s.idleIds, i ∉ unregistered s.log
  kept : 0 ≤ iv → unregistered s.log = []

structure Regular (cb : Bool) (iv : Int) (s : Conn α) : Prop where
  tally : Tally cb iv s
  settled : s.fault = none → Settled cb iv s ∧ Phase s

variable {cb : Bool} {iv : Int}

theorem Tally.same {s s' : Conn α} (hs : Tally cb iv s) (hm : SameMarks s.log s'.log)
    (hattempt : s'.attempt = s.attempt) (hended : s'.ended = s.ended) : Tally cb iv s' := by
  constructor
  · intro k
    rw [hm.entries, hm.endings]
    exact hs.once k
  · intro k hk
    rw [hm.entries, hm.endings, hm.begun]
    exact hs.later k (hattempt ▸ hk)
  · intro k h1 hk hears
    rw [hm.endings]
    exact hs.told k h1 (hended ▸ hk) (hears.imp_left (hm.begun k).mp)
  · rw [hm.unregistered]
    exact hs.nodup

/-- Only the attempt that begins is new in the log, and nothing is counted for it yet. -/
theorem Tally.attached {s s' : Conn α} (hs : Tally cb iv s)
    (hlog : s'.log = s.log ++ [.attached (s.attempt + 1) s.statecb])
    (hattempt : s'.attempt = s.attempt + 1) (hended : s'.ended = s.ended)
    (hover : s.attempt = s.ended) : Tally cb iv s' := by
  have hbegun : ∀ k, k ≠ s.attempt + 1 → (.attached k true ∈ s'.log ↔ .attached k true ∈ s.log) :=
    fun k hk => by simp [hlog, hk]
  constructor
  · intro k
    rw [hlog, entries_attached, endings_attached]
    exact hs.once k
  · intro k hk
    rw [hattempt] at hk
    rw [hbegun k (Nat.ne_of_gt hk), hlog, entries_attached, endings_attached]
    exact hs.later k (Nat.lt_of_succ_lt hk)
  · intro k h1 hk hears
    rw [hended] at hk
    rw [hlog, endings_attached]
    exact hs.told k h1 hk (hears.imp_left (hbegun k (by omega)).mp)
  · rw [hlog, unregistered_attached]
    exact hs.nodup

theorem During.keeps {s s' : Conn α} {m n : Nat} (hs : During s m n) (h : Keeps s s') :
    During s' m n :=
  ⟨fun hn => hs.channel (h.channel.mp hn), by rw [h.attempt, h.ended, hs.attempt],
    by rw [h.attempt, h.marks.entries, hs.entered], by rw [h.attempt, h.marks.endings, hs.told]⟩

theorem Settled.stays {s s' : Conn α} (hs : Settled cb iv s) (h : Stays s s') :
    Settled cb iv s' := by
  obtain ⟨hnodup, hlt, hold⟩ := hs.ids
  refine ⟨h.interval.trans hs.interval, h.exited.trans hs.exited, h.readcb ▸ hs.readcb, ?_, ?_, ?_,
    ?_, ?_⟩
  · rw [h.statecb, h.ended]
    exact hs.statecb
  · rw [h.statecb, h.attempt, h.begun]
    exact fun hch => hs.begun fun hn => hch (h.channel.mpr hn)
  · rw [h.unregistered]
    rcases h.ids with ⟨hids, hnext⟩ | ⟨hids, hnext⟩
    · rw [hids, hnext]
      exact ⟨hnodup, hlt, hold⟩
    · rw [hids, hnext]
      refine ⟨List.nodup_append.mpr ⟨hnodup, by simp, ?_⟩, ?_, fun i hi => ?_⟩
      · intro i hi j hj
        rw [List.mem_singleton.mp hj]
        exact Nat.ne_of_lt (hlt i hi)
      · intro i hi
        rcases List.mem_append.mp hi with hi | hi
        · exact Nat.lt_succ_of_lt (hlt i hi)
        · rw [List.mem_singleton.mp hi]
          exact Nat.lt_succ_self _
      · exact Nat.lt_succ_of_lt (hold i hi)
  · intro hch i hi
    have hch' : s.channel ≠ none := fun hn => hch (h.channel.mpr hn)
    rw [h.unregistered]
    rcases h.ids with ⟨hids, -⟩ | ⟨hids, -⟩
    · exact hs.apart hch' i (hids ▸ hi)
    · rcases List.mem_append.mp (hids ▸ hi) with hi | hi
      · exact hs.apart hch' i hi
      · rw [List.mem_singleton.mp hi]
        exact fun hin => Nat.lt_irrefl _ (hold _ hin)
  · rw [h.unregistered]
    exact hs.kept

/-! ## Outside `cleanup` -/

/-- No `cleanup` is under way, and none has been entered in an attempt that is
on. -/
structure Between (s : Conn α) : Prop where
  calm : Calm s.stack
  attempt : s.channel = none ∧ s.attempt = s.ended ∨ During s 0 0

theorem Regular.outcome {ch : Choice α} {f : Option (Frame α)} {s s' : Conn α} (ht : Tally cb iv s)
    (hs : Settled cb iv s) (hbetween : Between s)
    (hidles : f = none → ch.event.attaches = true → s.reconnectInterval < 0 → s.idleIds = [])
    (h : Outcome ch f s s') : Regular cb iv s' := by
  cases h with
  | fault fault log attempt ended =>
      exact ⟨ht.same (log ▸ .refl _) attempt ended, fun hf => absurd hf fault⟩
  | goes new keeps stack calm =>
      refine ⟨ht.same keeps.marks keeps.attempt keeps.ended, fun _ => ⟨hs.stays keeps.stays, ?_⟩⟩
      have hcalm : Calm s'.stack := by
        rw [stack]
        exact (calm_append _ _).mpr ⟨calm, hbetween.calm⟩
      rcases hbetween.attempt with ⟨hch, hatt⟩ | hd
      · exact .ended hcalm (keeps.channel.mpr hch) (by rw [keeps.attempt, keeps.ended, hatt])
      · exact .live hcalm (hd.keeps keeps)
  | cleanup new keeps stack calm channel =>
      refine ⟨ht.same keeps.marks keeps.attempt keeps.ended, fun _ => ⟨hs.stays keeps.stays, ?_⟩⟩
      have hd := hbetween.attempt.resolve_left fun h => channel h.1
      exact .entering stack ((calm_append _ _).mpr ⟨calm, hbetween.calm⟩) (hd.keeps keeps)
  | attach timer reuse b port idle exited channel event eq =>
      subst eq
      have hover : s.attempt = s.ended := by
        rcases hbetween.attempt with h | h
        · exact h.2
        · exact absurd channel h.channel
      obtain ⟨⟨hentered, htold⟩, hunbegun⟩ := ht.later (s.attempt + 1) (Nat.lt_succ_self _)
      refine ⟨ht.attached rfl rfl rfl hover, fun _ => ⟨⟨hs.interval, exited.trans hs.exited,
        hs.readcb, hs.statecb, ?_, ?_, ?_, ?_⟩,
        .live hbetween.calm ⟨nofun, congrArg (· + 1) hover, ?_, ?_⟩⟩⟩
      · intro _ hmem
        rcases List.mem_append.mp hmem with hmem | hmem
        · exact absurd hmem hunbegun
        · have heq := List.mem_singleton.mp hmem
          injection heq with _ hcb
          exact hcb.symm
      · rw [unregistered_attached, idle]
        exact hs.ids
      · intro _ i hi
        rw [unregistered_attached]
        by_cases hneg : s.reconnectInterval < 0
        · rw [hidles event.1 event.2 hneg] at hi
          cases hi
        · rw [hs.kept (by rw [← hs.interval]; omega)]
          exact List.not_mem_nil
      · rw [unregistered_attached]
        exact hs.kept
      · exact (entries_attached _ _ _ _).trans hentered
      · exact (endings_attached _ _ _ _).trans htold
  | sets r w st channel readcb statecb eq =>
      subst eq
      refine ⟨ht.same (.refl _) rfl rfl, fun _ => ⟨⟨hs.interval, hs.exited, readcb,
        fun hcb hkept => statecb (hs.statecb hcb hkept), absurd channel, hs.ids, hs.apart, hs.kept⟩,
        ?_⟩⟩
      rcases hbetween.attempt with ⟨hch, hatt⟩ | hd
      · exact .ended hbetween.calm hch hatt
      · exact absurd channel hd.channel

/-- Outside `cleanup` the invariant is kept, by an event or by the frame on top. -/
theorem Regular.calm {codec : Codec α} {ch : Choice α} {f : Option (Frame α)} {s s' : Conn α}
    (ht : Tally cb iv s) (hs : Settled cb iv s) (hbetween : Between s)
    (hf : ∀ g, f = some g → g.calm = true)
    (hexit : f = none → ∀ act, ch.event = .call act → act.isExit = false)
    (hbody : ch.body.all Action.sends = true) (hcodec : f = none → ch.event.setsCodec = false)
    (hidles : f = none → ch.event.attaches = true → s.reconnectInterval < 0 → s.idleIds = [])
    (h : Move codec ch f s s') : Regular cb iv s' :=
  Regular.outcome ht hs hbetween hidles (h.outcome hf hexit hs.exited hbody hcodec hs.readcb)

theorem Regular.event {codec : Codec α} {ch : Choice α} {s s' : Conn α} (hf : s.fault = none)
    (hstack : s.stack = []) (h : Regular cb iv s) (hp : Orderly codec s ch)
    (hm : Move codec ch none s s') : Regular cb iv s' := by
  obtain ⟨hs, hphase⟩ := h.settled hf
  have hbetween : Between s := by
    refine ⟨by simp [hstack], ?_⟩
    cases hphase with
    | ended _ channel attempt => exact Or.inl ⟨channel, attempt⟩
    | live _ during => exact Or.inr during
    | entering stack => simp [hstack] at stack
    | reading _ stack => simp [hstack] at stack
    | reporting _ stack => simp [hstack] at stack
    | leaving _ stack => simp [hstack] at stack
  have hexit : ∀ act, ch.event = .call act → act.isExit = false := by
    intro act hevent
    simpa [acting, hstack, hevent] using hp.1.exit
  exact .calm (f := none) h.tally hs hbetween nofun (fun _ => hexit) hp.1.body
    (fun _ => hp.1.codec) (fun _ => hp.2.idles (by simp [hstack])) hm

/-! ## Inside `cleanup` -/

theorem Settled.pop {s : Conn α} {f : Frame α} (hs : Settled cb iv (s.push f)) :
    Settled cb iv s :=
  ⟨hs.interval, hs.exited, hs.readcb, hs.statecb, hs.begun, hs.ids, hs.apart, hs.kept⟩

theorem entries_cleanup (k j : Nat) (l : List (Ev α)) :
    entries k (l ++ [.cleanup j]) = entries k l + if j = k then 1 else 0 := by
  rw [entries_append]
  simp [entries, List.countP_cons]

theorem endings_report (k j : Nat) {st : State} (hst : st = .closed ∨ st = .failed)
    (l : List (Ev α)) :
    endings k (l ++ [.report j st]) = endings k l + if j = k then 1 else 0 := by
  rw [endings_append]
  rcases hst with rfl | rfl <;> simp [endings, List.countP_cons]

/-- `cleanup` begins: the attempt has its one entry. -/
theorem Tally.cleanup {s t : Conn α} (ht : Tally cb iv s) (hd : During s 0 0)
    (hlog : t.log = s.log ++ [.cleanup s.attempt]) (hattempt : t.attempt = s.attempt)
    (hended : t.ended = s.ended) : Tally cb iv t ∧ entries t.attempt t.log = 1 ∧
      endings t.attempt t.log = 0 := by
  have hends : ∀ k, endings k t.log = endings k s.log := fun k => by
    rw [hlog, endings_append]
    rfl
  have henters : ∀ k, entries k t.log = entries k s.log + if s.attempt = k then 1 else 0 :=
    fun k => by rw [hlog, entries_cleanup]
  have hbegun : ∀ k, .attached k true ∈ t.log ↔ .attached k true ∈ s.log := fun k => by
    simp [hlog]
  refine ⟨⟨fun k => ⟨?_, ?_⟩, fun k hk => ?_, fun k h1 hk hears => ?_, ?_⟩, ?_, ?_⟩
  · rw [henters]
    split
    · next h => rw [← h, hd.entered]
    · exact (ht.once k).1
  · rw [hends]
    exact (ht.once k).2
  · rw [hattempt] at hk
    rw [hends, henters, if_neg (Nat.ne_of_lt hk), hbegun]
    exact ht.later k hk
  · rw [hends]
    exact ht.told k h1 (hended ▸ hk) (hears.imp_left (hbegun k).mp)
  · rw [hlog, unregistered_append]
    simpa [unregistered] using ht.nodup
  · rw [henters, hattempt, if_pos rfl, hd.entered]
  · rw [hends, hattempt, hd.told]

/-- `statecb_` is told: the attempt has its one report. -/
theorem Tally.report {s t : Conn α} {st : State} (ht : Tally cb iv s) (hd : During s 1 0)
    (hst : st = .closed ∨ st = .failed)
    (hlog : t.log = s.log ++ [.report s.attempt st]) (hattempt : t.attempt = s.attempt)
    (hended : t.ended = s.ended) : Tally cb iv t ∧ entries t.attempt t.log = 1 ∧
      endings t.attempt t.log = 1 := by
  have henters : ∀ k, entries k t.log = entries k s.log := fun k => by
    rw [hlog, entries_append]
    rfl
  have hends : ∀ k, endings k t.log = endings k s.log + if s.attempt = k then 1 else 0 :=
    fun k => by rw [hlog, endings_report k _ hst]
  have hbegun : ∀ k, .attached k true ∈ t.log ↔ .attached k true ∈ s.log := fun k => by
    simp [hlog]
  refine ⟨⟨fun k => ⟨?_, ?_⟩, fun k hk => ?_, fun k h1 hk hears => ?_, ?_⟩, ?_, ?_⟩
  · rw [henters]
    exact (ht.once k).1
  · rw [hends]
    split
    · next h => rw [← h, hd.told]
    · exact (ht.once k).2
  · rw [hattempt] at hk
    rw [henters, hends, if_neg (Nat.ne_of_lt hk), hbegun]
    exact ht.later k hk
  · rw [hended] at hk
    have hne : s.attempt ≠ k := by
      rw [hd.attempt]
      omega
    rw [hends, if_neg hne]
    exact ht.told k h1 hk (hears.imp_left (hbegun k).mp)
  · rw [hlog, unregistered_append]
    simpa [unregistered] using ht.nodup
  · rw [henters, hattempt, hd.entered]
  · rw [hends, hattempt, if_pos rfl, hd.told]

/-- The end of an attempt: everything counted about it stays. -/
theorem Tally.ends {s s' : Conn α} (ht : Tally cb iv s) (hs : Settled cb iv s)
    (hd : During s 1 (if s.statecb then 1 else 0))
    (hentries : ∀ k, entries k s'.log = entries k s.log)
    (hendings : ∀ k, endings k s'.log = endings k s.log)
    (hbegun : ∀ k, .attached k true ∈ s'.log ↔ .attached k true ∈ s.log)
    (hattempt : s'.attempt = s.attempt) (hended : s'.ended = s.attempt)
    (hnodup : (unregistered s'.log).Nodup) : Tally cb iv s' := by
  refine ⟨fun k => ?_, fun k hk => ?_, fun k h1 hk hears => ?_, hnodup⟩
  · rw [hentries, hendings]
    exact ht.once k
  · rw [hentries, hendings, hbegun]
    exact ht.later k (hattempt ▸ hk)
  · rw [hendings]
    have hears' : Hears cb iv k s.log := hears.imp_left (hbegun k).mp
    by_cases hle : k ≤ s.ended
    · exact ht.told k h1 hle hears'
    · have hatt := hd.attempt
      obtain rfl : k = s.attempt := by omega
      have hstatecb : s.statecb = true := by
        rcases hears' with hmem | ⟨hcb, hiv⟩
        · exact hs.begun hd.channel hmem
        · exact hs.statecb hcb (hiv.imp_left fun hone => by omega)
      rw [hd.told, if_pos hstatecb]

theorem user_step {codec : Codec α} {ch : Choice α} {s s' : Conn α} {todo : List (Action α)}
    (htodo : todo.all Action.sends = true) (hin : s.inCleanup = true)
    (hp : Orderly codec (s.push (.user todo)) ch)
    (h : Move codec ch (some (.user todo)) s s') :
    todo = [] ∧ s' = s ∨ ∃ act rest, todo = act :: rest ∧ Keeps s s' ∧ s'.fault = s.fault ∧
      s'.stack = .user rest :: s.stack := by
  cases h with
  | faults _ why => exact why.elim
  | handshake from' => simp at from'
  | refused from' => simp at from'
  | finish ends => simpa using ends
  | @perform _ _ act rest h =>
      have hacts : acting (s.push (.user (act :: rest))) ch = some act := rfl
      have hin' : (s.push (.user (act :: rest))).inCleanup = true := by
        simpa [inCleanup] using hin
      have hshut : strands codec (s.push (.user rest)) act = false := by
        have h := hp.2.shut hin'
        rwa [hacts, Option.any_some] at h
      have hgone : stopOf codec (s.push (.user rest)) act ≠ some .reset := by
        have h := hp.2.gone hin'
        rwa [hacts, Option.any_some, beq_eq_false_iff_ne] at h
      rw [List.all_cons, Bool.and_eq_true] at htodo
      have hfault := fault_of_sends htodo.1 hshut h
      refine Or.inr ⟨act, rest, rfl, { Keeps.performs (isExit_of_sends htodo.1) h with }, hfault, ?_⟩
      rcases stack_of_performs h with hs | ⟨-, rfl⟩ | ⟨-, -, hs⟩
      · exact hs
      · simp [Action.sends] at htodo
      · exact absurd hs hgone

theorem During.pop {s : Conn α} {f : Frame α} {m n : Nat} (h : During (s.push f) m n) :
    During s m n :=
  ⟨h.channel, h.attempt, h.entered, h.told⟩

theorem cleanup_calls {codec : Codec α} {ch : Choice α} {s s' : Conn α}
    (h : Move codec ch (some .cleanup) s s') :
    CallsRead ch { s with
      stack := .cleanupState :: s.stack
      log := s.log ++ [.cleanup s.attempt] } s' := by
  cases h with
  | faults _ why => exact why.elim
  | handshake from' => simp at from'
  | refused from' => simp at from'
  | finish ends => simp at ends
  | cleanup readcb => exact readcb

theorem cleanupState_calls {codec : Codec α} {ch : Choice α} {s s' : Conn α}
    (h : Move codec ch (some .cleanupState) s s') :
    CallsState ch { s with
      state := if s.state = .handshaking then .failed else .closed
      timeoutPending := false
      stack := .cleanupEnd :: s.stack } s' := by
  cases h with
  | faults _ why => exact why.elim
  | handshake from' => simp at from'
  | refused from' => simp at from'
  | finish ends => simp at ends
  | cleanupState statecb => exact statecb

theorem Regular.entering {codec : Codec α} {ch : Choice α} {s s' : Conn α} (ht : Tally cb iv s)
    (hs : Settled cb iv s) (hcalm : Calm s.stack) (hd : During s 0 0)
    (hbody : ch.body.all Action.sends = true) (h : Move codec ch (some .cleanup) s s') :
    Regular cb iv s' := by
  have hmarks : SameMarks (s.log ++ [.cleanup s.attempt])
      (s.log ++ [.cleanup s.attempt] ++ [.sees s.attempt s.input.contents]) :=
    .append _ (by simp [Conn.marks])
  have hunreg : unregistered (s.log ++ [.cleanup s.attempt]) = unregistered s.log := by
    simp [unregistered]
  obtain ⟨htally, hentered, htold⟩ := ht.cleanup
    (t := { s with log := s.log ++ [.cleanup s.attempt] }) hd rfl rfl rfl
  cases cleanup_calls h with
  | skip =>
      refine ⟨htally.same (.refl _) rfl rfl, fun _ => ⟨?_, ?_⟩⟩
      · exact hs.stays { Stays.refl s with unregistered := hunreg, begun := by simp }
      · exact (.reading [] rfl (Or.inl rfl) hcalm
          ⟨hd.channel, hd.attempt, hentered, htold⟩)
  | user =>
      refine ⟨htally.same hmarks rfl rfl, fun _ => ⟨?_, ?_⟩⟩
      · exact hs.stays { Stays.refl s with
          unregistered := hmarks.unregistered.trans hunreg
          begun := by simp }
      · exact (.reading [.user ch.body] rfl (Or.inr ⟨_, rfl, hbody⟩) hcalm
          ⟨hd.channel, hd.attempt, (hmarks.entries _).trans hentered,
            (hmarks.endings _).trans htold⟩)
  | onMsg readcb => exact absurd readcb hs.readcb

theorem Regular.reading {codec : Codec α} {ch : Choice α} {s s' : Conn α} (ht : Tally cb iv s)
    (hs : Settled cb iv s) (hcalm : Calm s.stack) (hd : During s 1 0)
    (hbody : ch.body.all Action.sends = true) (h : Move codec ch (some .cleanupState) s s') :
    Regular cb iv s' := by
  have hstate : (if s.state = .handshaking then State.failed else .closed) = .closed ∨
      (if s.state = .handshaking then State.failed else .closed) = .failed := by
    split
    · exact Or.inr rfl
    · exact Or.inl rfl
  cases cleanupState_calls h with
  | skip statecb =>
      have hnone : s.statecb = false := statecb
      refine ⟨ht.same (.refl _) rfl rfl, fun _ => ⟨hs.stays { Stays.refl s with }, ?_⟩⟩
      refine .reporting [] rfl (Or.inl rfl) hcalm hstate ?_
      exact ⟨hd.channel, hd.attempt, hd.entered, hd.told.trans (by simp [hnone])⟩
  | user statecb =>
      obtain ⟨htally, hentered, htold⟩ := ht.report (t := { s with
        state := if s.state = .handshaking then .failed else .closed
        timeoutPending := false
        stack := .user ch.body :: .cleanupEnd :: s.stack
        log := s.log ++ [.report s.attempt
          (if s.state = .handshaking then .failed else .closed)] }) hd hstate rfl rfl rfl
      refine ⟨htally, fun _ => ⟨?_, ?_⟩⟩
      · exact hs.stays { Stays.refl s with unregistered := by simp [unregistered], begun := by simp }
      refine .reporting [.user ch.body] rfl (Or.inr ⟨_, rfl, hbody⟩) hcalm hstate ?_
      exact ⟨hd.channel, hd.attempt, hentered, htold.trans (by simpa using statecb)⟩

theorem Regular.reporting {codec : Codec α} {ch : Choice α} {s s' : Conn α} (ht : Tally cb iv s)
    (hs : Settled cb iv s) (hcalm : Calm s.stack) (hstate : s.state = .closed ∨ s.state = .failed)
    (hd : During s 1 (if s.statecb then 1 else 0)) (h : Move codec ch (some .cleanupEnd) s s') :
    Regular cb iv s' := by
  cases h with
  | faults _ why => exact absurd why hd.channel
  | handshake from' => simp at from'
  | refused from' => simp at from'
  | finish ends => simp at ends
  | @reconnect _ c closing wanted channel close =>
      have hclosing : closing = [] ∨ closing = [.handleRead] :=
        close.symm.imp_left And.left
      refine ⟨ht.same (.refl _) rfl rfl, fun _ => ⟨?_, ?_⟩⟩
      · exact hs.stays { Stays.refl s with channel := by simp [channel] }
      · exact .leaving closing rfl hclosing hcalm hstate wanted.1
          ⟨nofun, hd.attempt, hd.entered, hd.told⟩
  | @release _ closing wanted close =>
      have hneg : iv < 0 := by
        rw [← hs.interval]
        by_contra hge
        exact wanted ⟨Int.not_lt.mp hge, hs.exited⟩
      have hids : unregistered (s.log ++ s.idleIds.map Ev.unregister) =
          unregistered s.log ++ s.idleIds := by
        rw [unregistered_append]
        simp [unregistered, List.flatMap_map]
      have hentries : ∀ k, entries k (s.log ++ s.idleIds.map Ev.unregister) = entries k s.log :=
        fun k => by
          rw [entries_append]
          simp [entries, List.countP_map, Function.comp_def]
      have hendings : ∀ k, endings k (s.log ++ s.idleIds.map Ev.unregister) = endings k s.log :=
        fun k => by
          rw [endings_append]
          simp [endings, List.countP_map, Function.comp_def]
      refine ⟨ht.ends hs hd hentries hendings (by simp) rfl rfl ?_, fun _ => ⟨?_, ?_⟩⟩
      · rw [hids]
        refine List.nodup_append.mpr ⟨ht.nodup, hs.ids.1, fun i hi j hj heq => ?_⟩
        exact hs.apart hd.channel j hj (heq ▸ hi)
      · refine ⟨hs.interval, hs.exited, nofun, fun _ hkept => ?_, absurd rfl,
          ⟨hs.ids.1, hs.ids.2.1, ?_⟩, absurd rfl, ?_⟩
        · have hatt := hd.attempt
          have hkept' : s.attempt = 0 ∨ 0 ≤ iv := hkept
          omega
        · rw [hids]
          exact List.forall_mem_append.mpr ⟨hs.ids.2.2, hs.ids.2.1⟩
        · intro hge
          omega
      · refine .ended ((calm_append _ _).mpr ⟨?_, hcalm⟩) rfl rfl
        rcases close with rfl | rfl <;> simp [Frame.calm]

/-- `handleRead` finds nothing to do once the state says `Closed` or `Failed`. -/
theorem handleRead_over {codec : Codec α} {ch : Choice α} {s s' : Conn α}
    (hstate : s.state = .closed ∨ s.state = .failed)
    (h : Move codec ch (some .handleRead) s s') : s' = s := by
  cases h with
  | faults _ why => rcases hstate with hs | hs <;> simp [MayFault, hs] at why
  | handshake _ state => rcases hstate with hs | hs <;> simp [hs] at state
  | refused _ state => rcases hstate with hs | hs <;> simp [hs] at state
  | finish => rfl
  | handleRead state => rcases hstate with hs | hs <;> simp [hs] at state

theorem reconnectEnd_eq {codec : Codec α} {ch : Choice α} {s s' : Conn α}
    (h : Move codec ch (some .reconnectEnd) s s') :
    s' = { s with channel := none, ended := s.attempt } := by
  cases h with
  | faults _ why => exact why.elim
  | handshake from' => simp at from'
  | refused from' => simp at from'
  | finish ends => simp at ends
  | reconnectEnd => rfl

theorem Regular.reconnectEnd {codec : Codec α} {ch : Choice α} {s s' : Conn α}
    (ht : Tally cb iv s) (hs : Settled cb iv s) (hcalm : Calm s.stack)
    (hge : 0 ≤ s.reconnectInterval) (hd : During s 1 (if s.statecb then 1 else 0))
    (h : Move codec ch (some .reconnectEnd) s s') : Regular cb iv s' := by
  obtain rfl := reconnectEnd_eq h
  have hiv : 0 ≤ iv := hs.interval ▸ hge
  refine ⟨ht.ends hs hd (fun _ => rfl) (fun _ => rfl) (fun _ => Iff.rfl) rfl rfl ht.nodup,
    fun _ => ⟨?_, ?_⟩⟩
  · exact ⟨hs.interval, hs.exited, hs.readcb, fun hcb _ => hs.statecb hcb (Or.inr hiv), absurd rfl,
      hs.ids, absurd rfl, hs.kept⟩
  · exact .ended hcalm rfl rfl

theorem Regular.body {codec : Codec α} {ch : Choice α} {s s' : Conn α} {todo : List (Action α)}
    (ht : Tally cb iv s) (hs : Settled cb iv s) (htodo : todo.all Action.sends = true)
    (hin : s.inCleanup = true) (hp : Orderly codec (s.push (.user todo)) ch)
    (hphase : ∀ (t : Conn α) above, t.stack = above ++ s.stack → Body above → Keeps s t → Phase t)
    (h : Move codec ch (some (.user todo)) s s') : Regular cb iv s' := by
  rcases user_step htodo hin hp h with ⟨-, rfl⟩ | ⟨act, rest, rfl, hkeeps, -, hstack⟩
  · exact ⟨ht, fun _ => ⟨hs, hphase s' [] rfl (Or.inl rfl) (.refl _)⟩⟩
  · rw [List.all_cons, Bool.and_eq_true] at htodo
    refine ⟨ht.same hkeeps.marks hkeeps.attempt hkeeps.ended, fun _ => ⟨hs.stays hkeeps.stays, ?_⟩⟩
    exact hphase s' [.user rest] hstack (Or.inr ⟨rest, rfl, htodo.2⟩) hkeeps

theorem Regular.frame {codec : Codec α} {ch : Choice α} {f : Frame α} {s s' : Conn α}
    (hf : s.fault = none) (h : Regular cb iv (s.push f)) (hp : Orderly codec (s.push f) ch)
    (hm : Move codec ch (some f) s s') : Regular cb iv s' := by
  have ht : Tally cb iv s := h.tally.same (.refl _) rfl rfl
  obtain ⟨hs', hphase⟩ := h.settled hf
  have hs := hs'.pop
  cases hphase with
  | ended calm channel attempt =>
      obtain ⟨hcalm, hrest⟩ := (calm_cons f s.stack).mp calm
      exact .calm (f := some f) ht hs ⟨hrest, Or.inl ⟨channel, attempt⟩⟩ (by simpa using hcalm)
        nofun hp.1.body nofun nofun hm
  | live calm during =>
      obtain ⟨hcalm, hrest⟩ := (calm_cons f s.stack).mp calm
      exact .calm (f := some f) ht hs ⟨hrest, Or.inr during.pop⟩ (by simpa using hcalm)
        nofun hp.1.body nofun nofun hm
  | entering stack calm during =>
      obtain ⟨rfl, rfl⟩ := List.cons.inj stack
      exact Regular.entering ht hs calm during.pop hp.1.body hm
  | @reading above below stack body calm during =>
      rcases body with rfl | ⟨todo, rfl, htodo⟩
      · obtain ⟨rfl, rfl⟩ := List.cons.inj stack
        exact Regular.reading ht hs calm during.pop hp.1.body hm
      · obtain ⟨rfl, hrest⟩ := List.cons.inj stack
        refine Regular.body ht hs htodo (by simp [inCleanup, hrest]) hp ?_ hm
        intro t above hstack hbody hkeeps
        exact .reading above (by rw [hstack, hrest]; rfl) hbody calm (during.pop.keeps hkeeps)
  | @reporting above below stack body calm state during =>
      rcases body with rfl | ⟨todo, rfl, htodo⟩
      · obtain ⟨rfl, rfl⟩ := List.cons.inj stack
        exact Regular.reporting ht hs calm state during.pop hm
      · obtain ⟨rfl, hrest⟩ := List.cons.inj stack
        refine Regular.body ht hs htodo (by simp [inCleanup, hrest]) hp ?_ hm
        intro t above hstack hbody hkeeps
        have hstate : s.state = .closed ∨ s.state = .failed := state
        refine .reporting above (by rw [hstack, hrest]; rfl) hbody calm ?_ ?_
        · rwa [hkeeps.state hstate]
        · rw [hkeeps.statecb]
          exact during.pop.keeps hkeeps
  | @leaving above below stack above calm state reconnects during =>
      rcases above with rfl | rfl
      · obtain ⟨rfl, rfl⟩ := List.cons.inj stack
        exact Regular.reconnectEnd ht hs calm reconnects during.pop hm
      · obtain ⟨rfl, hrest⟩ := List.cons.inj stack
        have hclosed : s.state = .closed ∨ s.state = .failed := state
        obtain rfl := handleRead_over hclosed hm
        exact ⟨ht, fun _ => ⟨hs, .leaving [] hrest (Or.inl rfl) calm state reconnects
          during.pop⟩⟩

theorem Regular.step [Inhabited α] {codec : Codec α} {s : Conn α} {ch : Choice α}
    (h : Regular cb iv s) (hp : Orderly codec s ch) : Regular cb iv (step codec s ch) := by
  by_cases hf : s.fault = none
  · rcases move_of_step codec hf ch with ⟨hstack, hm⟩ | ⟨f, t, rfl, hm⟩
    · exact h.event hf hstack hp hm
    · exact Regular.frame (s := t) hf h hp hm
  · rwa [step_of_fault codec hf]

/-- The call above these frames has returned, and the process runs. -/
def Back (stack : List (Frame α)) (s : Conn α) : Prop :=
  s.fault = none ∧ s.stack = stack

section Returns

variable [Inhabited α] {codec : Codec α}

/-- A step of a live process with this frame on top. -/
theorem Back.step {s : Conn α} {f : Frame α} {below : List (Frame α)} (h : Back (f :: below) s)
    (codec : Codec α) (ch : Choice α) : ∃ t : Conn α, s = t.push f ∧ Back below t ∧
      Move codec ch (some f) t (Conn.step codec s ch) := by
  obtain ⟨hf, hstack⟩ := h
  rcases move_of_step codec hf ch with ⟨hnil, -⟩ | ⟨g, t, rfl, hm⟩
  · simp [hstack] at hnil
  · obtain ⟨rfl, hbelow⟩ := List.cons.inj hstack
    exact ⟨t, rfl, ⟨hf, hbelow⟩, hm⟩

end Returns

/-- A `statecb_` set again is told of the attempt it is set for. -/
example :
    let attempt : List (Choice UInt8) :=
      [{ event := .connect 80 false }, { event := .writable [], pollout := false }] ++
        List.replicate 6 .go
    let t := Driven.run (step LineCodec.codec) (fresh .none false true (-1))
      (attempt ++ attempt ++ [{ event := .set .onState }] ++ attempt)
    endings 1 t.log = 1 ∧ endings 2 t.log = 0 ∧ endings 3 t.log = 1 ∧ t.ended = 3 := by
  decide +kernel

/-! ## An echo to a peer that is gone -/

/-- `con->send(con->getInput())`, met by a reset. -/
def echo : Choice α where
  body := [.sendInput [.reset]]

/-- The echo callback has something to send and the socket is not waited for. -/
structure Echoing (s : Conn α) : Prop where
  fault : s.fault = none
  readcb : s.readcb = .user
  channel : s.channel = some ⟨true, true, false⟩
  input : s.input.size ≠ 0

/-- Each `cleanup` calls the next one, two frames further up. -/
theorem Echoing.round [Inhabited α] (codec : Codec α) {s : Conn α} (h : Echoing s)
    {rest : List (Frame α)} (hstack : s.stack = .cleanup :: rest) :
    let t := step codec (step codec s echo) echo
    Echoing t ∧ t.stack = .cleanup :: .user [] :: .cleanupState :: rest ∧
      t.attempt = s.attempt ∧ entries s.attempt t.log = entries s.attempt s.log + 1 := by
  have hfirst : step codec s echo = { s with
      stack := .user [.sendInput [.reset]] :: .cleanupState :: rest
      log := s.log ++ [.cleanup s.attempt] ++ [.sees s.attempt s.input.contents] } := by
    simp [step, h.fault, hstack, resume, cleanup, h.input, callReadcb, h.readcb, emit, push, echo]
  have hstop : (trySend ⟨true, true, false⟩ s.input.size [.reset]).stop = .reset := by
    simp [trySend, isendLoop, h.input]
  have hsend : ∀ u : Conn α, u.channel = s.channel → u.input = s.input →
      u.sendBuffer u.input [.reset] = ({ u with
        stack := .cleanup :: u.stack
        log := u.log ++ [.wrote u.attempt (u.input.contents.take
          (trySend ⟨true, true, false⟩ u.input.size [.reset]).sended)] }, u.input) := by
    intro u hch hin
    have hch' : u.channel = some ⟨true, true, false⟩ := hch.trans h.channel
    unfold sendBuffer
    simp only [hch', Bool.false_eq_true, if_false]
    rw [sendRest_reset hch' (hin.symm ▸ h.input) (hin.symm ▸ hstop), ← hch']
  intro t
  simp only [t, hfirst]
  simp [step, h.fault, resume, perform, push, emit, hsend]
  refine ⟨⟨rfl, h.readcb, h.channel, h.input⟩, ?_⟩
  simp [entries]

/-- An echo to a peer that is gone never returns: there is always one more
`cleanup` of the same attempt on the stack. -/
theorem echo_recurses [Inhabited α] (codec : Codec α) {s : Conn α} (h : Echoing s)
    {rest : List (Frame α)} (hstack : s.stack = .cleanup :: rest) (n : ℕ) :
    let t := Driven.run (step codec) s (List.replicate (2 * n) echo)
    t.stack.length = s.stack.length + 2 * n ∧
      entries s.attempt t.log = entries s.attempt s.log + n := by
  induction n generalizing s rest with
  | zero => exact ⟨rfl, rfl⟩
  | succ n ih =>
      obtain ⟨hnext, hstack', hattempt, hentries⟩ := h.round codec hstack
      obtain ⟨hlen, hcount⟩ := ih hnext hstack'
      have htwo : 2 * (n + 1) = 2 * n + 1 + 1 := by omega
      rw [hattempt, hentries] at hcount
      simp only [htwo, List.replicate_succ, Driven.run_cons]
      refine ⟨hlen.trans ?_, hcount.trans (by omega)⟩
      simp [hstack, hstack']
      omega

end Conn

end Handy
