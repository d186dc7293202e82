import Handy.Conn.LifeCycle

/-! # Received bytes

`handleRead` reads until the socket has no more and then calls `readcb_`, or calls
`cleanup`, which calls `readcb_` first. Whatever a connection whose `readcb_` only
consumes has read is consumed or still in `input_`, in order, and `readcb_` has seen
the end of it before `handleRead` returns or `statecb_` is told of the end.
-/

namespace Handy

variable {α : Type}

/-- `getInput().consume(len)`. -/
def Action.takes : Action α → Bool
  | .consume _ => true
  | _ => false

def Action.spares : Action α → Bool
  | .sendInput _ => false
  | .consume _ => false
  | _ => true

def Event.isReadable : Event α → Bool
  | .readable => true
  | _ => false

namespace Conn

/-- The event is a readable socket, `readcb_` only consumes, and `statecb_` leaves `input_`
alone. -/
def onlyReads (s : Conn α) (ch : Choice α) : Bool :=
  match s.stack with
  | [] => ch.event.isReadable
  | .readLoop :: _ => ch.body.all Action.takes
  | .cleanup :: _ => ch.body.all Action.takes
  | .cleanupState :: _ => ch.body.all Action.spares
  | _ => true

def received (log : List (Ev α)) : List α :=
  log.flatMap fun e => match e with
    | .read _ bytes => bytes
    | _ => []

def eats (s : Conn α) (ch : Choice α) : List α :=
  if s.fault.isSome then []
  else
    match acting s ch with
    | some (.consume len) => if len ≤ s.input.size then s.input.contents.take len else []
    | _ => []

def eaten [Inhabited α] (codec : Codec α) : Conn α → List (Choice α) → List α :=
  Driven.collect (step codec) eats

/-- `readcb_` was called after the last read. -/
def Informed (log : List (Ev α)) : Prop :=
  ∀ l l' k bytes, log = l ++ .read k bytes :: l' → ∃ k' input, .sees k' input ∈ l'

/-- `cleanup` was called, and `readcb_` on all that is left, or nothing was there. -/
def Heard (log : List (Ev α)) (left : List α) : Prop :=
  ∃ l k, log = l ++ [.cleanup k] ∧ left = [] ∨
    ∃ seen, log = l ++ [.cleanup k, .sees k seen] ∧ left <:+ seen

/-! ## The log -/

@[simp] theorem received_append (l l' : List (Ev α)) :
    received (l ++ l') = received l ++ received l' :=
  List.flatMap_append

theorem received_silent {t : List (Ev α)} (h : ∀ e ∈ t, ∀ k bytes, e ≠ .read k bytes) :
    received t = [] := by
  apply List.flatMap_eq_nil_iff.mpr
  intro e he
  cases e with
  | read k bytes => exact absurd rfl (h _ he k bytes)
  | _ => rfl

@[simp] theorem received_passed (k : Nat) (bs : List α) (l : List (Ev α)) :
    received (.passed k bs :: l) = received l := rfl

@[simp] theorem received_wrote (k : Nat) (bs : List α) (l : List (Ev α)) :
    received (.wrote k bs :: l) = received l := rfl

theorem received_leftovers {bs : List α} {t : List (Ev α)} (h : ∀ e ∈ t, e = .leftover bs) :
    received t = [] := by
  apply received_silent
  intro e he k bytes heq
  rw [h e he] at heq
  cases heq

theorem informed_nil : Informed ([] : List (Ev α)) := by
  intro l l' k bytes h
  cases l <;> cases h

theorem split_before {log t l l' : List (Ev α)} {e : Ev α} (h : log ++ t = l ++ e :: l')
    (he : e ∉ t) : ∃ m, log = l ++ e :: m ∧ l' = m ++ t := by
  rcases List.append_eq_append_iff.mp h with ⟨m, hl, ht⟩ | ⟨m, hlog, ht⟩
  · exact absurd (by rw [ht]; simp) he
  · cases m with
    | nil =>
        rw [List.nil_append] at ht
        exact absurd (by rw [← ht]; exact List.mem_cons_self) he
    | cons a m =>
        obtain ⟨rfl, hl'⟩ := List.cons.inj ht
        exact ⟨m, hlog, hl'⟩

theorem Informed.append {log t : List (Ev α)} (h : Informed log)
    (ht : ∀ e ∈ t, ∀ k bytes, e ≠ .read k bytes) : Informed (log ++ t) := by
  intro l l' k bytes heq
  obtain ⟨m, hlog, rfl⟩ := split_before heq fun hmem => ht _ hmem k bytes rfl
  obtain ⟨k', input, hmem⟩ := h l m k bytes hlog
  exact ⟨k', input, List.mem_append_left t hmem⟩

theorem informed_sees (log : List (Ev α)) (k : Nat) (input : List α) :
    Informed (log ++ [.sees k input]) := by
  intro l l' k' bytes heq
  obtain ⟨m, _, rfl⟩ := split_before heq (by simp)
  exact ⟨k, input, by simp⟩

theorem Heard.left {log : List (Ev α)} {left left' : List α} (h : Heard log left)
    (hleft : left' <:+ left) : Heard log left' := by
  obtain ⟨l, k, ⟨hlog, rfl⟩ | ⟨seen, hlog, hseen⟩⟩ := h
  · exact ⟨l, k, Or.inl ⟨hlog, List.suffix_nil.mp hleft⟩⟩
  · exact ⟨l, k, Or.inr ⟨seen, hlog, hleft.trans hseen⟩⟩

/-! ## Where the connection is -/

/-- A frame of what follows the report of the end. -/
def Aftermath : Frame α → Prop
  | .user todo => todo.all Action.spares = true
  | .cleanupEnd => True
  | .reconnectEnd => True
  | .handleRead => True
  | _ => False

inductive Station (s : Conn α) : Prop
  /-- no handler, or `handleRead` from its start -/
  | quiet (state : s.state = .connected) (channel : s.channel ≠ none)
      (stack : s.stack = [] ∨ s.stack = [.handleRead]) (told : Informed s.log)
  | reads (state : s.state = .connected) (channel : s.channel ≠ none)
      (stack : s.stack = [.readLoop]) (told : Informed s.log ∨ s.input.contents ≠ [])
  /-- in `readcb_`, called by `handleRead` -/
  | hands {todo : List (Action α)} (state : s.state = .connected) (channel : s.channel ≠ none)
      (stack : s.stack = [.user todo]) (takes : todo.all Action.takes = true) (told : Informed s.log)
  | ends {rest : List (Frame α)} (stack : s.stack = .cleanup :: rest)
      (calm : ∀ f ∈ rest, Aftermath f)
  /-- in `readcb_`, called by `cleanup` -/
  | hears {todo : List (Action α)} {rest : List (Frame α)}
      (stack : s.stack = .user todo :: .cleanupState :: rest)
      (takes : todo.all Action.takes = true) (calm : ∀ f ∈ rest, Aftermath f)
      (heard : Heard s.log s.input.contents)
  | heard {rest : List (Frame α)} (stack : s.stack = .cleanupState :: rest)
      (calm : ∀ f ∈ rest, Aftermath f) (heard : s.statecb = true → Heard s.log s.input.contents)
  | ended (state : s.state = .closed) (calm : ∀ f ∈ s.stack, Aftermath f)

structure Arrival (s : Conn α) : Prop where
  exp : 1 ≤ s.input.exp
  state : s.state = .connected ∨ s.state = .closed
  readcb : s.readcb = .user ∨ s.readcb = .none ∧ s.statecb = false ∧ s.state = .closed
  station : Station s

/-- Bytes come into `input_` behind what is there and leave it in front. -/
def Flows (s : Conn α) (ch : Choice α) (s' : Conn α) : Prop :=
  ∃ bytes, received s'.log = received s.log ++ bytes ∧
    eats s ch ++ s'.input.contents = s.input.contents ++ bytes

/-- What a step keeps and brings. -/
def Arrives (s : Conn α) (ch : Choice α) (s' : Conn α) : Prop := Arrival s' ∧ Flows s ch s'

/-! ## Steps -/

theorem eats_of_frame {s : Conn α} {f : Frame α} {rest : List (Frame α)} (ch : Choice α)
    (hstack : s.stack = f :: rest) (hf : ∀ act todo, f ≠ .user (act :: todo)) :
    eats s ch = [] := by
  have hacting : acting s ch = none := by
    unfold acting
    rw [hstack]
    cases f with
    | user todo =>
        cases todo with
        | nil => rfl
        | cons act todo => exact absurd rfl (hf act todo)
    | _ => rfl
  unfold eats
  rw [hacting]
  split <;> rfl

theorem event_of_isReadable {ev : Event α} (h : ev.isReadable = true) : ev = .readable := by
  cases ev with
  | readable => rfl
  | _ => cases h

theorem eats_of_readable {s : Conn α} {ch : Choice α} (hstack : s.stack = [])
    (hevent : ch.event = .readable) : eats s ch = [] := by
  have hacting : acting s ch = none := by
    unfold acting
    rw [hstack, hevent]
  unfold eats
  rw [hacting]
  split <;> rfl

theorem eats_of_spares {s : Conn α} {act : Action α} {todo : List (Action α)}
    {rest : List (Frame α)} (ch : Choice α) (hstack : s.stack = .user (act :: todo) :: rest)
    (hact : act.spares = true) : eats s ch = [] := by
  have hacting : acting s ch = some act := by
    unfold acting
    rw [hstack]
  unfold eats
  rw [hacting]
  split
  · rfl
  · cases act with
    | consume len => cases hact
    | _ => rfl

theorem Flows.still {s s' : Conn α} {ch : Choice α} (heats : eats s ch = [])
    (hlog : received s'.log = received s.log) (hinput : s'.input.contents = s.input.contents) :
    Flows s ch s' := by
  refine ⟨[], ?_, ?_⟩
  · rw [hlog, List.append_nil]
  · rw [heats, hinput, List.nil_append, List.append_nil]

theorem callReadcb_user {s : Conn α} (h : s.readcb = .user) (ch : Choice α) :
    s.callReadcb ch = (s.emit (.sees s.attempt s.input.contents)).push (.user ch.body) := by
  unfold callReadcb
  rw [h]

theorem callReadcb_none {s : Conn α} (h : s.readcb = .none) (ch : Choice α) :
    s.callReadcb ch = s := by
  unfold callReadcb
  rw [h]

section Steps

variable [Inhabited α] {s : Conn α} {ch : Choice α}

theorem Arrival.readLoop (h : Arrival s) (hstate : s.state = .connected)
    (hchannel : s.channel ≠ none) (hstack : s.stack = [.readLoop])
    (htold : Informed s.log ∨ s.input.contents ≠ []) (hbody : ch.body.all Action.takes = true) :
    Arrives s ch (Conn.readLoop { s with stack := [] } ch) := by
  have heats : eats s ch = [] := eats_of_frame ch hstack nofun
  have hexp : 1 ≤ s.input.makeRoomExp.exp := by rw [Buffer.exp_makeRoomExp]; exact h.exp
  have hcontents := s.input.contents_makeRoomExp
  have hcb : s.readcb = .user := by
    rcases h.readcb with hcb | ⟨_, _, hclosed⟩
    · exact hcb
    · rw [hstate] at hclosed
      cases hclosed
  have hends : Arrives s ch { s with input := s.input.makeRoomExp, stack := [.cleanup] } :=
    ⟨⟨hexp, h.state, h.readcb, .ends rfl nofun⟩, .still heats rfl hcontents⟩
  unfold Conn.readLoop
  rw [if_neg (by simp [hstate])]
  cases hch : s.channel with
  | none => exact absurd hch hchannel
  | some c =>
      simp only
      rw [← hch]
      split
      · exact hends
      · cases ch.read with
        | eintr =>
            refine ⟨⟨hexp, h.state, h.readcb, .reads hstate hchannel rfl ?_⟩, .still heats rfl hcontents⟩
            exact htold.imp_right fun hne => by rw [push_toTcpConn, hcontents]; exact hne
        | eagain =>
            have hupdates : ∀ e ∈ s.idleIds.map (@Ev.update α), ∀ k bytes, e ≠ .read k bytes := by
              intro e he k bytes heq
              obtain ⟨id, _, rfl⟩ := List.mem_map.mp he
              cases heq
            simp only
            split
            · next hempty =>
                refine ⟨⟨hexp, h.state, h.readcb, .quiet hstate hchannel (Or.inl rfl) ?_⟩, ?_⟩
                · apply Informed.append _ hupdates
                  apply htold.resolve_right
                  rw [not_not, ← hcontents]
                  exact (Buffer.size_eq_zero_iff _).mp hempty
                · refine .still heats ?_ hcontents
                  rw [received_append, received_silent hupdates, List.append_nil]
            · rw [callReadcb_user (by exact hcb)]
              refine ⟨⟨hexp, h.state, h.readcb, .hands hstate hchannel rfl hbody ?_⟩, ?_⟩
              · exact informed_sees _ _ _
              · refine .still heats ?_ hcontents
                simp [emit, push, received]
        | eof => exact hends
        | error => exact hends
        | data bytes =>
            simp only
            split
            · exact hends
            · next hgot =>
                refine ⟨⟨hexp, h.state, h.readcb, .reads hstate hchannel rfl (Or.inr ?_)⟩, ?_⟩
                · intro hnil
                  simp only [emit, push, Buffer.contents_fill] at hnil
                  exact hgot (List.append_eq_nil_iff.mp hnil).2
                · refine ⟨bytes.take s.input.makeRoomExp.space, ?_, ?_⟩
                  · simp [emit, push, received]
                  · rw [heats, List.nil_append, ← hcontents]
                    simp only [emit, push, Buffer.contents_fill]

theorem Arrival.event (h : Arrival s) (codec : Codec α) (hstack : s.stack = [])
    (hevent : ch.event = .readable) : Arrives s ch (s.dispatch codec ch) := by
  have heats : eats s ch = [] := eats_of_readable hstack hevent
  have hstay : Arrives s ch s := ⟨h, .still heats rfl rfl⟩
  have hpush : Arrives s ch (s.push .handleRead) := by
    refine ⟨⟨h.exp, h.state, h.readcb, ?_⟩, .still heats rfl rfl⟩
    have hnext : (s.push .handleRead).stack = [.handleRead] := by rw [push_stack, hstack]
    cases h.station with
    | quiet state channel _ told => exact .quiet state channel (Or.inr hnext) told
    | ended state _ =>
        refine .ended state fun f hf => ?_
        rw [hnext] at hf
        rw [List.mem_singleton.mp hf]
        trivial
    | reads _ _ stack => simp [hstack] at stack
    | hands _ _ stack => simp [hstack] at stack
    | ends stack => simp [hstack] at stack
    | hears stack => simp [hstack] at stack
    | heard stack => simp [hstack] at stack
  unfold dispatch
  rw [hevent]
  simp only
  split
  · split
    · exact hpush
    · exact hstay
  · exact hstay

theorem Arrival.takes (h : Arrival s) (codec : Codec α) {act : Action α} {todo : List (Action α)}
    {rest : List (Frame α)} (hstack : s.stack = .user (act :: todo) :: rest)
    (hfault : s.fault = none) (hact : act.takes = true)
    (hafter : ∀ t : Conn α, t.stack = .user todo :: rest → t.state = s.state →
      t.channel = s.channel → t.log = s.log → t.statecb = s.statecb →
      t.input.contents <:+ s.input.contents → t.Station) :
    Arrives s ch (perform codec { s with stack := .user todo :: rest } act) := by
  cases act with
  | consume len =>
      have heats : eats s ch = if len ≤ s.input.size then s.input.contents.take len else [] := by
        unfold eats acting
        rw [hstack, hfault]
        rfl
      unfold perform
      simp only
      split
      · next hle =>
          have hcontents := s.input.contents_consume len hle
          have hsuffix : (s.input.consume len hle).contents <:+ s.input.contents := by
            rw [hcontents]
            exact List.drop_suffix len _
          have hexp : 1 ≤ (s.input.consume len hle).exp := by
            rw [Buffer.exp_consume]
            exact h.exp
          refine ⟨⟨hexp, h.state, h.readcb, hafter _ rfl rfl rfl rfl rfl hsuffix⟩, [], ?_, ?_⟩
          · rw [List.append_nil]
          · rw [heats, if_pos hle, hcontents, List.take_append_drop, List.append_nil]
      · next hlt =>
          refine ⟨⟨h.exp, h.state, h.readcb, ?_⟩, .still ?_ rfl rfl⟩
          · exact hafter _ rfl rfl rfl rfl rfl (List.suffix_refl _)
          · rw [heats, if_neg hlt]
  | _ => cases hact

omit [Inhabited α] in
/-- What calls that leave `input_` alone do to the rest. -/
theorem performs_spares {codec : Codec α} {s s' : Conn α} {act : Action α}
    (hact : act.spares = true) (h : Performs codec s act s') :
    s'.input = s.input ∧ s'.state = s.state ∧ s'.readcb = s.readcb ∧ s'.statecb = s.statecb ∧
      received s'.log = received s.log := by
  have hkept : ∀ {i : Buffer α} {p : Nat},
      i = s.input ∧ p = s.pos ∨ (∃ ws, act = .sendInput ws) ∧ i.contents = [] ∧
        p = s.pos + s.input.size → i = s.input := by
    intro i p hi
    rcases hi with ⟨hi, _⟩ | ⟨⟨ws, rfl⟩, _⟩
    · exact hi
    · cases hact
  cases h with
  | sends h =>
      cases h with
      | closed _ _ _ _ left log =>
          exact ⟨rfl, rfl, rfl, rfl, by simp [log, received_leftovers left]⟩
      | queued _ _ _ _ _ input left log =>
          exact ⟨hkept input, rfl, rfl, rfl, by simp [log, received_leftovers left]⟩
      | wrote _ _ _ _ _ _ _ _ _ _ _ input left log =>
          exact ⟨hkept input, rfl, rfl, rfl, by simp [log, received_leftovers left]⟩
      | reset _ _ _ _ _ _ left log =>
          exact ⟨rfl, rfl, rfl, rfl, by simp [log, received_leftovers left]⟩
  | shuts => exact ⟨rfl, rfl, rfl, rfl, rfl⟩
  | shutAlready => exact ⟨rfl, rfl, rfl, rfl, rfl⟩
  | close => exact ⟨rfl, rfl, rfl, rfl, rfl⟩
  | consume => cases hact
  | overrun => cases hact
  | addIdle => exact ⟨rfl, rfl, rfl, rfl, rfl⟩
  | addNoIdle => exact ⟨rfl, rfl, rfl, rfl, rfl⟩
  | exit => exact ⟨rfl, rfl, rfl, rfl, rfl⟩

/-- `statecb_` goes on. -/
theorem Arrival.spares (h : Arrival s) (codec : Codec α) {act : Action α} {todo : List (Action α)}
    {rest : List (Frame α)} (hstate : s.state = .closed)
    (hstack : s.stack = .user (act :: todo) :: rest) (hcalm : ∀ f ∈ s.stack, Aftermath f) :
    Arrives s ch (perform codec { s with stack := .user todo :: rest } act) := by
  have hbody : Aftermath (.user (act :: todo)) := hcalm _ (by rw [hstack]; exact List.mem_cons_self)
  rw [Aftermath, List.all_cons, Bool.and_eq_true] at hbody
  obtain ⟨hact, htodo⟩ := hbody
  have hperforms := performs_perform codec { s with stack := .user todo :: rest } act
  obtain ⟨hinput, hst, hcb, hstatecb, hlog⟩ := performs_spares hact hperforms
  have hbelow : ∀ f ∈ .user todo :: rest, Aftermath f := by
    intro f hf
    rcases List.mem_cons.mp hf with rfl | hf
    · exact htodo
    · exact hcalm f (by rw [hstack]; exact List.mem_cons_of_mem _ hf)
  constructor
  · constructor
    · rw [hinput]
      exact h.exp
    · rw [hst]
      exact h.state
    · rw [hcb, hstatecb, hst]
      exact h.readcb
    · have hclosed := hst.trans hstate
      rcases stack_of_performs hperforms with hs | ⟨hs, _⟩ | ⟨hs, _⟩
      · exact .ended hclosed (by rw [hs]; exact hbelow)
      · refine .ended hclosed fun f hf => ?_
        rw [hs] at hf
        rcases List.mem_cons.mp hf with rfl | hf
        · trivial
        · exact hbelow f hf
      · exact .ends hs hbelow
  · exact .still (eats_of_spares ch hstack hact) hlog (by rw [hinput])

omit [Inhabited α] in
theorem Arrival.cleanup (h : Arrival s) {rest : List (Frame α)}
    (hstack : s.stack = .cleanup :: rest) (hcalm : ∀ f ∈ rest, Aftermath f)
    (hbody : ch.body.all Action.takes = true) :
    Arrives s ch (Conn.cleanup { s with stack := rest } ch) := by
  have heats : eats s ch = [] := eats_of_frame ch hstack nofun
  unfold Conn.cleanup
  simp only
  split
  · next hempty =>
      refine ⟨⟨h.exp, h.state, h.readcb, .heard rfl hcalm fun _ => ?_⟩, ?_⟩
      · exact ⟨s.log, s.attempt, Or.inl ⟨rfl, (Buffer.size_eq_zero_iff _).mp hempty⟩⟩
      · refine .still heats ?_ rfl
        simp [emit, push, received]
  · rcases h.readcb with hcb | ⟨hcb, hstatecb, _⟩
    · rw [callReadcb_user (by exact hcb)]
      refine ⟨⟨h.exp, h.state, h.readcb, .hears rfl hbody hcalm ?_⟩, ?_⟩
      · refine ⟨s.log, s.attempt, Or.inr ⟨s.input.contents, ?_, List.suffix_refl _⟩⟩
        simp [emit, push]
      · refine .still heats ?_ rfl
        simp [emit, push, received]
    · rw [callReadcb_none (by exact hcb)]
      refine ⟨⟨h.exp, h.state, h.readcb, .heard rfl hcalm fun hset => ?_⟩, ?_⟩
      · exact absurd (hset.symm.trans hstatecb) (by decide)
      · refine .still heats ?_ rfl
        simp [emit, push, received]

omit [Inhabited α] in
theorem Arrival.cleanupState (h : Arrival s) {rest : List (Frame α)}
    (hstack : s.stack = .cleanupState :: rest) (hcalm : ∀ f ∈ rest, Aftermath f)
    (hbody : ch.body.all Action.spares = true) :
    Arrives s ch (Conn.cleanupState { s with stack := rest } ch) := by
  have heats : eats s ch = [] := eats_of_frame ch hstack nofun
  have hstate : (if s.state = .handshaking then State.failed else .closed) = .closed := by
    rcases h.state with hs | hs
    · rw [hs]
      rfl
    · rw [hs]
      rfl
  have hreadcb : s.readcb = .user ∨
      s.readcb = .none ∧ s.statecb = false ∧ State.closed = .closed := by
    exact h.readcb.imp_right fun hcb => ⟨hcb.1, hcb.2.1, rfl⟩
  have hend : ∀ f ∈ .cleanupEnd :: rest, Aftermath f := by
    intro f hf
    rcases List.mem_cons.mp hf with rfl | hf
    · trivial
    · exact hcalm f hf
  unfold Conn.cleanupState callStatecb
  simp only [hstate]
  split
  · refine ⟨⟨h.exp, Or.inr rfl, hreadcb, .ended rfl ?_⟩, ?_⟩
    · intro f hf
      rcases List.mem_cons.mp hf with rfl | hf
      · exact hbody
      · exact hend f hf
    · refine .still heats ?_ rfl
      simp [emit, push, received]
  · exact ⟨⟨h.exp, Or.inr rfl, hreadcb, .ended rfl hend⟩, .still heats rfl rfl⟩

omit [Inhabited α] in
theorem Arrival.cleanupEnd (h : Arrival s) {rest : List (Frame α)} (hstate : s.state = .closed)
    (hstack : s.stack = .cleanupEnd :: rest) (hcalm : ∀ f ∈ rest, Aftermath f) :
    Arrives s ch (Conn.cleanupEnd { s with stack := rest }) := by
  have heats : eats s ch = [] := eats_of_frame ch hstack nofun
  have hmore : ∀ new : List (Frame α), (∀ f ∈ new, f = .handleRead ∨ f = .reconnectEnd) →
      ∀ f ∈ new ++ rest, Aftermath f := by
    intro new hnew f hf
    rcases List.mem_append.mp hf with hf | hf
    · rcases hnew f hf with rfl | rfl
      · trivial
      · trivial
    · exact hcalm f hf
  unfold Conn.cleanupEnd
  split
  · unfold reconnect
    simp only
    split
    · exact ⟨⟨h.exp, h.state, h.readcb, .ended hstate hcalm⟩, .still heats rfl rfl⟩
    · unfold closeChannel
      split
      · exact ⟨⟨h.exp, h.state, h.readcb, .ended hstate (hmore [.handleRead, .reconnectEnd] (by simp))⟩,
          .still heats rfl rfl⟩
      · exact ⟨⟨h.exp, h.state, h.readcb, .ended hstate (hmore [.reconnectEnd] (by simp))⟩,
          .still heats rfl rfl⟩
  · have hsilent : received (s.idleIds.map (@Ev.unregister α)) = [] := by
      apply received_silent
      intro e he k bytes heq
      obtain ⟨id, _, rfl⟩ := List.mem_map.mp he
      cases heq
    have hlog : received (s.log ++ s.idleIds.map .unregister) = received s.log := by
      rw [received_append, hsilent, List.append_nil]
    unfold release
    simp only
    split
    · exact ⟨⟨h.exp, h.state, Or.inr ⟨rfl, rfl, hstate⟩, .ended hstate hcalm⟩, .still heats hlog rfl⟩
    · split
      · exact ⟨⟨h.exp, h.state, Or.inr ⟨rfl, rfl, hstate⟩,
          .ended hstate (hmore [.handleRead] (by simp))⟩, .still heats hlog rfl⟩
      · exact ⟨⟨h.exp, h.state, Or.inr ⟨rfl, rfl, hstate⟩, .ended hstate hcalm⟩,
          .still heats hlog rfl⟩

/-- One step of the event loop. -/
theorem Arrival.step (h : Arrival s) (codec : Codec α) (hreads : onlyReads s ch = true) :
    Arrives s ch (Conn.step codec s ch) := by
  by_cases hfault : s.fault = none
  · unfold Conn.step
    rw [if_neg (by simp [hfault])]
    unfold onlyReads at hreads
    cases h.station with
    | quiet state channel stack told =>
        rcases stack with hstack | hstack
        · rw [hstack] at hreads ⊢
          exact h.event codec hstack (event_of_isReadable hreads)
        · rw [hstack]
          have heats : eats s ch = [] := eats_of_frame ch hstack nofun
          dsimp only [resume]
          rw [state]
          exact ⟨⟨h.exp, h.state, h.readcb, .reads state channel rfl (Or.inl told)⟩,
            .still heats rfl rfl⟩
    | reads state channel stack told =>
        rw [stack] at hreads ⊢
        exact h.readLoop state channel stack told hreads
    | @hands todo state channel stack takes told =>
        rw [stack]
        cases todo with
        | nil =>
            have heats : eats s ch = [] := eats_of_frame ch stack nofun
            exact ⟨⟨h.exp, h.state, h.readcb, .quiet state channel (Or.inl rfl) told⟩,
              .still heats rfl rfl⟩
        | cons act todo =>
            obtain ⟨hact, htodo⟩ := Bool.and_eq_true_iff.mp takes
            apply h.takes codec stack hfault hact
            intro t hstack hstate hchannel hlog _ _
            exact .hands (hstate.trans state) (hchannel ▸ channel) hstack htodo (hlog ▸ told)
    | ends stack calm =>
        rw [stack] at hreads ⊢
        exact h.cleanup stack calm hreads
    | @hears todo rest stack takes calm heard =>
        rw [stack]
        cases todo with
        | nil =>
            have heats : eats s ch = [] := eats_of_frame ch stack nofun
            exact ⟨⟨h.exp, h.state, h.readcb, .heard rfl calm fun _ => heard⟩,
              .still heats rfl rfl⟩
        | cons act todo =>
            obtain ⟨hact, htodo⟩ := Bool.and_eq_true_iff.mp takes
            apply h.takes codec stack hfault hact
            intro t hstack _ _ hlog _ hleft
            exact .hears hstack htodo calm (hlog ▸ heard.left hleft)
    | heard stack calm heard =>
        rw [stack] at hreads ⊢
        exact h.cleanupState stack calm hreads
    | ended state calm =>
        cases hstack : s.stack with
        | nil =>
            rw [hstack] at hreads
            exact h.event codec hstack (event_of_isReadable hreads)
        | cons f rest =>
            have hrest : ∀ g ∈ rest, Aftermath g := by
              intro g hg
              exact calm g (by rw [hstack]; exact List.mem_cons_of_mem _ hg)
            have hleave : (∀ act todo, f ≠ .user (act :: todo)) →
                Arrives s ch { s with stack := rest } := by
              intro hf
              exact ⟨⟨h.exp, h.state, h.readcb, .ended state hrest⟩,
                .still (eats_of_frame ch hstack hf) rfl rfl⟩
            have hf : Aftermath f := calm f (by rw [hstack]; exact List.mem_cons_self)
            cases f with
            | user todo =>
                cases todo with
                | nil => exact hleave nofun
                | cons act todo => exact h.spares codec state hstack calm
            | handleRead =>
                dsimp only [resume]
                rw [state]
                exact hleave nofun
            | cleanupEnd => exact h.cleanupEnd state hstack hrest
            | reconnectEnd =>
                exact ⟨⟨h.exp, h.state, h.readcb, .ended state hrest⟩,
                  .still (eats_of_frame ch hstack nofun) rfl rfl⟩
            | _ => exact hf.elim
  · have heats : eats s ch = [] := if_pos (Option.isSome_iff_ne_none.mpr hfault)
    rw [step_of_fault codec hfault]
    exact ⟨h, .still heats rfl rfl⟩

omit [Inhabited α] in
/-- Only `cleanup` behind `readcb_` reports that a connection is closed. -/
theorem Turn.closed {f : Option (Frame α)} {s' : Conn α} (h : Turn ch f s s') {k : Nat}
    (hreport : reports s'.log = reports s.log ++ [(k, .closed)]) :
    f = some .cleanupState ∧ s.statecb = true := by
  have hnew : ¬ reports s'.log = reports s.log := by
    rw [hreport]
    simp
  cases h with
  | goes _ still => exact absurd still.reports hnew
  | attach => exact absurd (by simp [reports_append]) hnew
  | sets => exact absurd rfl hnew
  | handshake _ _ _ statecb =>
      cases statecb with
      | skip => exact absurd rfl hnew
      | user =>
          rw [reports_append] at hreport
          have hlast := List.append_cancel_left hreport
          simp at hlast
  | cleanup readcb =>
      have hstill := (Still.callsRead readcb).reports
      exact absurd (hstill.trans (by simp [reports_append])) hnew
  | cleanupState statecb =>
      cases statecb with
      | skip => exact absurd rfl hnew
      | user hcb => exact ⟨rfl, hcb⟩
  | reconnect => exact absurd rfl hnew
  | release => exact absurd (by rw [reports_append, reports_unregisters, List.append_nil]) hnew
  | reconnectEnd => exact absurd rfl hnew

theorem stack_of_closed (codec : Codec α) {k : Nat}
    (h : reports (Conn.step codec s ch).log = reports s.log ++ [(k, .closed)]) :
    s.statecb = true ∧ ∃ rest, s.stack = .cleanupState :: rest := by
  by_cases hf : s.fault = none
  · obtain ⟨f, t, hs, _, hm⟩ := move_under codec hf ch
    have hlog : s.log = t.log := by rw [hs, under_log]
    rw [hlog] at h
    by_cases hf' : (Conn.step codec s ch).fault = none
    · obtain ⟨rfl, hcb⟩ := (hm.turn hf').closed h
      rw [hs]
      exact ⟨hcb, t.stack, rfl⟩
    · rw [hs, under_fault] at hf
      rw [reports_of_fault hm hf hf'] at h
      simp at h
  · rw [step_of_fault codec hf] at h
    simp at h

omit [Inhabited α] in
theorem Arrival.heard (h : Arrival s) {rest : List (Frame α)} (hstack : s.stack = .cleanupState :: rest)
    (hcb : s.statecb = true) : Heard s.log s.input.contents := by
  cases h.station with
  | heard _ _ heard => exact heard hcb
  | quiet _ _ stack => simp [hstack] at stack
  | reads _ _ stack => simp [hstack] at stack
  | hands _ _ stack => simp [hstack] at stack
  | ends stack => simp [hstack] at stack
  | hears stack => simp [hstack] at stack
  | ended _ calm => exact (calm .cleanupState (by rw [hstack]; exact List.mem_cons_self)).elim

omit [Inhabited α] in
theorem Arrival.informed (h : Arrival s) (hstack : s.stack = []) (hstate : s.state = .connected) :
    Informed s.log := by
  cases h.station with
  | quiet _ _ _ told => exact told
  | reads _ _ stack => simp [hstack] at stack
  | hands _ _ stack => simp [hstack] at stack
  | ends stack => simp [hstack] at stack
  | hears stack => simp [hstack] at stack
  | heard stack => simp [hstack] at stack
  | ended state =>
      rw [hstate] at state
      cases state

end Steps

/-- A connected connection whose `readcb_` only consumes loses no byte and gets none
twice: what was consumed and what `input_` holds is what was there and what was read. The
loop offers `readImp` some space; when `handleRead` has returned and the connection is
connected, `readcb_` was called after the last read; and before a report of its end all
that is left was shown to `readcb_`. -/
theorem received_bytes_kept [Inhabited α] (codec : Codec α) (s : Conn α)
    (hstate : s.state = .connected) (hchannel : s.channel ≠ none) (hreadcb : s.readcb = .user)
    (hexp : 1 ≤ s.input.exp) (hstack : s.stack = []) (hlog : s.log = []) (cs : List (Choice α))
    (hcs : Driven.Along (step codec) (fun s ch => onlyReads s ch = true) s cs) :
    let t := Driven.run (step codec) s cs
    eaten codec s cs ++ t.input.contents = s.input.contents ++ received t.log ∧
      (t.stack.head? = some .readLoop → 1 ≤ t.input.makeRoomExp.space) ∧
      (t.stack = [] → t.state = .connected → Informed t.log) ∧
      ∀ ch k, reports (step codec t ch).log = reports t.log ++ [(k, .closed)] →
        Heard t.log t.input.contents := by
  intro t
  have hstart : Arrival s := by
    refine ⟨hexp, Or.inl hstate, Or.inl hreadcb, .quiet hstate hchannel (Or.inl hstack) ?_⟩
    rw [hlog]
    exact informed_nil
  have hkeep : ∀ s ch, Arrival s → onlyReads s ch = true → Arrives s ch (step codec s ch) :=
    fun s ch h hreads => h.step codec hreads
  have hend : Arrival t := Driven.run_invariant (fun s ch h hp => (hkeep s ch h hp).1) hstart hcs
  obtain ⟨bytes, hgot, hleft⟩ := Driven.run_conserves (g := fun s => received s.log)
    (k := fun s => s.input.contents) hkeep hstart hcs
  refine ⟨?_, ?_, ?_, ?_⟩
  · rw [hlog] at hgot
    have hall : received t.log = bytes := hgot
    rw [hall]
    exact hleft
  · exact fun _ => t.input.makeRoomExp_space hend.exp
  · exact hend.informed
  · intro ch k hreport
    obtain ⟨hcb, rest, hrest⟩ := stack_of_closed codec hreport
    exact hend.heard hrest hcb

/-- Bytes arrive around an interrupted call; `readcb_` leaves one of them, and the peer sends
another and closes. -/
def tailRun : List (Choice UInt8) :=
  [.go, .go, { read := .data [0x61, 0x62] }, { read := .eintr }, { read := .data [0x63] },
    { read := .eagain, body := [.consume 2] }, .go, .go, .go, .go, { read := .data [0x64] },
    { read := .eof }, { body := [.consume 1] }, .go, .go, { body := [.closeNow] }, .go, .go, .go,
    .go, .go]

theorem received_bytes_kept_tail :
    let s : Conn UInt8 := opened .user false true (-1)
    let t := Driven.run (step LineCodec.codec) s tailRun
    eaten LineCodec.codec s tailRun = [0x61, 0x62, 0x63] ∧ t.input.contents = [0x64] ∧
      eaten LineCodec.codec s tailRun ++ t.input.contents = s.input.contents ++ received t.log ∧
      t.stack.isEmpty = true ∧ reports t.log = [(1, .closed)] := by
  refine ⟨by decide +kernel, by decide +kernel, ?_, by decide +kernel, by decide +kernel⟩
  exact (received_bytes_kept LineCodec.codec (opened .user false true (-1)) rfl nofun rfl
    (by decide +kernel) rfl rfl tailRun (by decide +kernel)).1

end Conn

end Handy
