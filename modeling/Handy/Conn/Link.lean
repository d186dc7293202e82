import Handy.Codec.LengthStream
import Handy.Conn.Arrivals
import Handy.Conn.Fifo

/-! # Two connections joined by their sockets

Two `TcpConn` speak one codec over a pair of byte streams: what the socket of the one
took is what the other can read, in order and cut anyhow. Both sides send whenever they
like, from their message callbacks and `writablecb_` too. A codec lawful for the framing
library makes this a channel of messages: each side is handed a prefix of what the other
passed to `sendMsg`, and all of it once nothing is under way.
-/

namespace Handy

variable {α : Type}

/-- A side of the link. The messages it passed to `sendMsg` and those it was handed are
bookkeeping. -/
structure Peer (α : Type) where
  conn : Conn α
  said : List (List α)
  heard : List (List α)

/-- Two sides, and the bytes on their way between them, which are read off their logs. -/
structure Link (α : Type) where
  left : Peer α
  right : Peer α

inductive LinkChoice (α : Type) where
  | left (ch : Choice α)
  | right (ch : Choice α)

namespace Peer

open Conn

/-- The message given to `sendMsg` in this step. -/
def saying (s : Conn α) (ch : Choice α) : List (List α) :=
  match acting s ch with
  | some (.sendMsg msg _) => [msg]
  | _ => []

/-- The message the `onMsg` lambda is about to pass to `cb`. -/
def hearing (codec : Codec α) (s : Conn α) : List (List α) :=
  match s.stack with
  | .decodeLoop :: _ =>
      let (r, msg) := codec.tryDecode s.input.contents
      if 0 < r then [msg.read s.input.contents] else []
  | _ => []

def step [Inhabited α] (codec : Codec α) (p : Peer α) (ch : Choice α) : Peer α :=
  if p.conn.fault.isSome then p
  else ⟨p.conn.step codec ch, p.said ++ saying p.conn ch, p.heard ++ hearing codec p.conn⟩

/-- A connected side that has done nothing yet. -/
structure Fresh (p : Peer α) : Prop where
  quiet : Quiet p.conn
  readcb : p.conn.readcb = .onMsg
  input : p.conn.input.contents = []
  exp : 1 ≤ p.conn.input.exp
  said : p.said = []
  heard : p.heard = []

/-- What the socket of `q` took and `p` has not read. -/
def inFlight (q p : Peer α) : List α := (taken q.conn.log).drop (received p.conn.log).length

end Peer

/-- A call of `sendMsg` of a message the codec can frame, on a socket that goes on. -/
def Action.Says (Ok : List α → Prop) : Action α → Prop
  | .sendMsg msg ws => Ok msg ∧ Conn.Accepting ws
  | _ => False

/-- A send of a message, or a socket that is readable or writable. -/
def Event.Chats (Ok : List α → Prop) : Event α → Prop
  | .call act => act.Says Ok
  | .writable ws => Conn.Accepting ws
  | .readable => True
  | _ => False

/-- The result of a read is what a live stream can give: some of what is in flight. -/
def ReadOutcome.Carried (flight : List α) : ReadOutcome α → Prop
  | .data bytes => bytes ≠ [] ∧ bytes <+: flight
  | .eintr | .eagain => True
  | .eof | .error => False

/-- The side `p` only talks: its calls are `sendMsg`, its sockets are live, and its input
stays in the range of the decoder. `q` is the other side. -/
structure Peer.Chats (Ok Fits : List α → Prop) (p q : Peer α) (ch : Choice α) : Prop where
  event : p.conn.stack = [] → ch.event.Chats Ok
  body : ∀ act ∈ ch.body, act.Says Ok
  read : ch.read.Carried (inFlight q p)
  fits : Fits p.conn.input.contents

instance (ws : List WriteOutcome) : Decidable (Conn.Accepting ws) :=
  inferInstanceAs (Decidable (∀ w ∈ ws, w ≠ .reset ∧ w ≠ .other))

instance {Ok : List α → Prop} [DecidablePred Ok] : (act : Action α) → Decidable (act.Says Ok)
  | .sendMsg _ _ => inferInstanceAs (Decidable (_ ∧ _))
  | .sendStr _ _ | .sendBuffer _ _ | .sendInput _ | .closeNow | .close | .consume _ | .addIdleCB
  | .exit => isFalse id

instance {Ok : List α → Prop} [DecidablePred Ok] : (ev : Event α) → Decidable (ev.Chats Ok)
  | .call act => inferInstanceAs (Decidable (act.Says Ok))
  | .writable ws => inferInstanceAs (Decidable (Conn.Accepting ws))
  | .readable => isTrue trivial
  | .connect _ _ | .attach | .closeTask | .connectTimer | .reconnectTimer | .set _ | .shutdown
  | .destroyPoller => isFalse id

instance [DecidableEq α] (flight : List α) : (r : ReadOutcome α) → Decidable (r.Carried flight)
  | .data _ => inferInstanceAs (Decidable (_ ∧ _))
  | .eintr | .eagain => isTrue trivial
  | .eof | .error => isFalse id

instance [DecidableEq α] {Ok Fits : List α → Prop} [DecidablePred Ok] [DecidablePred Fits]
    (p q : Peer α) (ch : Choice α) : Decidable (p.Chats Ok Fits q ch) :=
  decidable_of_iff ((p.conn.stack.isEmpty = true → ch.event.Chats Ok) ∧
      (∀ act ∈ ch.body, act.Says Ok) ∧ ch.read.Carried (Peer.inFlight q p) ∧
      Fits p.conn.input.contents) <| by
    rw [List.isEmpty_iff]
    exact ⟨fun h => ⟨h.1, h.2.1, h.2.2.1, h.2.2.2⟩, fun h => ⟨h.event, h.body, h.read, h.fits⟩⟩

theorem Action.Says.sendMsg {Ok : List α → Prop} {act : Action α} (h : act.Says Ok) :
    ∃ msg ws, act = .sendMsg msg ws ∧ Ok msg ∧ Conn.Accepting ws := by
  cases act with
  | sendMsg msg ws => exact ⟨msg, ws, rfl, h⟩
  | _ => exact h.elim

theorem Event.Chats.cases {Ok : List α → Prop} {ev : Event α} (h : ev.Chats Ok) :
    (∃ act, ev = .call act ∧ act.Says Ok) ∨ (∃ ws, ev = .writable ws ∧ Conn.Accepting ws) ∨
      ev = .readable := by
  cases ev with
  | call act => exact Or.inl ⟨act, rfl, h⟩
  | writable ws => exact Or.inr (Or.inl ⟨ws, rfl, h⟩)
  | readable => exact Or.inr (Or.inr rfl)
  | _ => exact h.elim

namespace Link

def step [Inhabited α] (codec : Codec α) (l : Link α) : LinkChoice α → Link α
  | .left ch => { l with left := l.left.step codec ch }
  | .right ch => { l with right := l.right.step codec ch }

/-- Each side that makes a step only talks. -/
def Chats (Ok Fits : List α → Prop) (l : Link α) : LinkChoice α → Prop
  | .left ch => l.left.Chats Ok Fits l.right ch
  | .right ch => l.right.Chats Ok Fits l.left ch

instance [DecidableEq α] {Ok Fits : List α → Prop} [DecidablePred Ok] [DecidablePred Fits]
    (l : Link α) : (e : LinkChoice α) → Decidable (l.Chats Ok Fits e)
  | .left ch => inferInstanceAs (Decidable (l.left.Chats Ok Fits l.right ch))
  | .right ch => inferInstanceAs (Decidable (l.right.Chats Ok Fits l.left ch))

/-- Nothing runs at `p` and nothing is on its way from `q` to `p`. -/
structure Drained (q p : Peer α) : Prop where
  output : q.conn.output.contents = []
  inFlight : Peer.inFlight q p = []
  stack : p.conn.stack = []

end Link

namespace Peer

open Conn

/-! ## What a side keeps -/

/-- The sending half: bytes in `output_` mean that write interest is on, and what the
socket took followed by `output_` is the frames of what was said. -/
structure Talks (codec : Codec α) (Ok : List α → Prop) (p : Peer α) : Prop where
  fault : p.conn.fault = none
  state : p.conn.state = .connected
  readcb : p.conn.readcb = .onMsg
  exp : 1 ≤ p.conn.input.exp
  channel : ∃ c, p.conn.channel = some c ∧ c.fdOpen = true ∧
    (p.conn.output.contents ≠ [] → c.writeEnabled = true)
  stream : taken p.conn.log ++ p.conn.output.contents = p.said.flatMap codec.frame
  ok : ∀ m ∈ p.said, Ok m

/-- Between two messages: what was read is the frames of what was heard and `input_`. -/
def Between (codec : Codec α) (p : Peer α) : Prop :=
  received p.conn.log = p.heard.flatMap codec.frame ++ p.conn.input.contents

/-- In a message of `r` bytes: its frame is still the first of `input_`. -/
def Inside (codec : Codec α) (p : Peer α) (r : Nat) : Prop :=
  ∃ init m, p.heard = init ++ [m] ∧ r = (codec.frame m).length ∧
    codec.frame m <+: p.conn.input.contents ∧
    received p.conn.log = init.flatMap codec.frame ++ p.conn.input.contents

/-- The decoder would wait: `input_` is part of the frame that comes next. -/
def Waits (codec : Codec α) (theirs : List (List α)) (p : Peer α) : Prop :=
  ∃ later, theirs = p.heard ++ later ∧ Framing.Partial codec.frame later p.conn.input.contents

/-- The receiving half, by what is under way; `theirs` is what the other side said. -/
inductive Station (codec : Codec α) (Ok : List α → Prop) (theirs : List (List α))
    (p : Peer α) : Prop
  | idle (stack : p.conn.stack = [] ∨ p.conn.stack = [.handleRead] ∨ p.conn.stack = [.writeEnd])
      (between : Between codec p) (waits : Waits codec theirs p)
  /-- in `writablecb_` -/
  | flushed {todo : List (Action α)} (stack : p.conn.stack = [.user todo, .writeEnd])
      (calls : ∀ act ∈ todo, act.Says Ok) (between : Between codec p) (waits : Waits codec theirs p)
  | reads (stack : p.conn.stack = [.readLoop] ∨ p.conn.stack = [.decodeLoop])
      (between : Between codec p) (heard : p.heard <+: theirs)
  /-- in `cb`, or behind it -/
  | hands {r : Nat} (stack : p.conn.stack = [.decodeConsume r] ∨
        ∃ todo, p.conn.stack = [.user todo, .decodeConsume r] ∧ ∀ act ∈ todo, act.Says Ok)
      (inside : Inside codec p r) (heard : p.heard <+: theirs)

/-! ## Sending -/

/-- What a `sendMsg` on a live socket does: its frame is last in the stream, and the
receiving half is as it was. -/
structure Spoke (s s' : Conn α) (frame : List α) : Prop where
  fault : s'.fault = s.fault
  state : s'.state = s.state
  readcb : s'.readcb = s.readcb
  input : s'.input = s.input
  stack : s'.stack = s.stack
  channel : ∃ c, s'.channel = some c ∧ c.fdOpen = true ∧
    (s'.output.contents ≠ [] → c.writeEnabled = true)
  stream : taken s'.log ++ s'.output.contents = taken s.log ++ s.output.contents ++ frame
  took : taken s.log <+: taken s'.log
  got : received s'.log = received s.log

theorem spoke_of_performs {codec : Codec α} {s s' : Conn α} {act : Action α} {Ok : List α → Prop}
    (hact : act.Says Ok) {c : Channel} (hch : s.channel = some c) (hopen : c.fdOpen = true)
    (hon : s.output.contents ≠ [] → c.writeEnabled = true) (h : Performs codec s act s') :
    ∃ msg, Ok msg ∧ (∀ (t : Conn α) ch, acting t ch = some act → saying t ch = [msg]) ∧
      Spoke s s' (codec.frame msg) := by
  obtain ⟨msg, ws, rfl, hok, hws⟩ := hact.sendMsg
  refine ⟨msg, hok, fun t ch hacting => by rw [saying, hacting], ?_⟩
  cases h with
  | sends h =>
      cases h with
      | closed _ _ hnone => exact absurd hnone (by simp [hch])
      | @queued bs o i p l tail c₁ hpassed _ hch₁ hout hqueue hinput hleft hlog =>
          obtain rfl : c = c₁ := Option.some.inj (hch.symm.trans hch₁)
          obtain rfl : codec.frame msg = bs := Option.some.inj hpassed
          obtain ⟨rfl, rfl⟩ : i = s.input ∧ p = s.pos := by
            rcases hinput with h | ⟨⟨v, hv⟩, -⟩
            · exact h
            · cases hv
          have htail := taken_tail hleft
          have htaken : taken l = taken s.log := by simp [hlog, htail]
          refine ⟨rfl, rfl, rfl, rfl, rfl, ⟨c, rfl, hopen, fun h => ?_⟩, ?_, ?_, ?_⟩
          · rcases hqueue with hq | hq | hq
            · exact absurd hq h
            · exact hon hq
            · exact hq
          · rw [htaken, hout, List.append_assoc]
          · rw [htaken]
          · simp [hlog, received_leftovers hleft]
      | @wrote bs base w rest o i p l tail c₁ c' st f hpassed hstop hkept hch₁ hsplit hoff hout hfd
          hstays hrest hfault hinput hleft hlog =>
          obtain rfl : c = c₁ := Option.some.inj (hch.symm.trans hch₁)
          obtain rfl : codec.frame msg = bs := Option.some.inj hpassed
          obtain ⟨rfl, rfl⟩ : i = s.input ∧ p = s.pos := by
            rcases hinput with h | ⟨⟨v, hv⟩, -⟩
            · exact h
            · cases hv
          have htail := taken_tail hleft
          have hsends : SendsOn (.sendMsg msg ws : Action α) := hws
          have hst := stopOf_accepting hsends hch hopen hstop
          have hother : st ≠ .other := by
            rcases hst with h | h <;> simp [h]
          -- queued bytes mean write interest is on, and then nothing is written past them
          have hbase : base = [] := by
            by_contra hne
            obtain ⟨hsame, hoffc⟩ := hoff hne
            have hwon := hon (hsame ▸ hne)
            simp [hoffc] at hwon
          subst hbase
          have htaken : taken l = taken s.log ++ w := by simp [hlog, htail]
          refine ⟨hfault.resolve_right fun h => hother h.2.1, rfl, rfl, rfl, rfl,
            ⟨c', rfl, hfd.trans hopen, fun h => ?_⟩, ?_, ?_, ?_⟩
          · exact (hrest (by simpa [hout] using h)).resolve_right fun h => hother h.1
          · rw [htaken, hout, List.nil_append, List.append_assoc, List.append_assoc, ← hsplit,
              List.nil_append]
          · rw [htaken]
            exact List.prefix_append _ _
          · simp [hlog, received_leftovers hleft]
      | reset _ hstop =>
          have hsends : SendsOn (.sendMsg msg ws : Action α) := hws
          rcases stopOf_accepting hsends hch hopen hstop with h | h <;> cases h

/-! ## The steps of a side -/

theorem saying_frame {s : Conn α} {f : Frame α} {rest : List (Frame α)} (ch : Choice α)
    (hstack : s.stack = f :: rest) (hf : ∀ act todo, f ≠ .user (act :: todo)) :
    saying s ch = [] := by
  have hacting : acting s ch = none := by
    unfold acting
    rw [hstack]
    cases f with
    | user todo =>
        cases todo with
        | nil => rfl
        | cons act todo => exact absurd rfl (hf act todo)
    | _ => rfl
  rw [saying, hacting]

theorem hearing_nil (codec : Codec α) {s : Conn α} (h : s.stack.head? ≠ some .decodeLoop) :
    hearing codec s = [] := by
  unfold hearing
  split
  · next hstack => exact absurd (by rw [hstack]; rfl) h
  · rfl

/-- What a step keeps and brings; `q` is the other side, `theirs` what it said. -/
structure Advances (codec : Codec α) (Ok : List α → Prop) (theirs : List (List α))
    (q p p' : Peer α) : Prop where
  talks : Talks codec Ok p'
  station : Station codec Ok theirs p'
  said : p.said <+: p'.said
  took : taken p.conn.log <+: taken p'.conn.log
  got : received p'.conn.log <+: taken q.conn.log

section Steps

variable [Inhabited α] {codec : Codec α} {Ok Fits : List α → Prop} {theirs : List (List α)}
  {q p : Peer α} {ch : Choice α}

theorem step_eq (hf : p.conn.fault = none) :
    p.step codec ch =
      ⟨p.conn.step codec ch, p.said ++ saying p.conn ch, p.heard ++ hearing codec p.conn⟩ :=
  if_neg (by simp [hf])

theorem step_silent (hf : p.conn.fault = none) (hsaying : saying p.conn ch = [])
    (hhearing : hearing codec p.conn = []) :
    p.step codec ch = { p with conn := p.conn.step codec ch } := by
  rw [step_eq hf, hsaying, hhearing, List.append_nil, List.append_nil]

theorem conn_step_nil {s : Conn α} (hf : s.fault = none) (hstack : s.stack = []) :
    s.step codec ch = s.dispatch codec ch := by
  unfold Conn.step
  rw [if_neg (by simp [hf]), hstack]

theorem conn_step_cons {s : Conn α} {f : Frame α} {rest : List (Frame α)} (hf : s.fault = none)
    (hstack : s.stack = f :: rest) :
    s.step codec ch = Conn.resume codec { s with stack := rest } ch f := by
  unfold Conn.step
  rw [if_neg (by simp [hf]), hstack]

omit [Inhabited α] in
theorem Talks.of_same (h : Talks codec Ok p) {s : Conn α} {heard : List (List α)} (hfault : s.fault = p.conn.fault)
    (hstate : s.state = p.conn.state) (hreadcb : s.readcb = p.conn.readcb)
    (hexp : s.input.exp = p.conn.input.exp) (hchannel : s.channel = p.conn.channel)
    (houtput : s.output = p.conn.output) (htaken : taken s.log = taken p.conn.log) :
    Talks codec Ok ⟨s, p.said, heard⟩ where
  fault := hfault.trans h.fault
  state := hstate.trans h.state
  readcb := hreadcb.trans h.readcb
  exp := by rw [hexp]; exact h.exp
  channel := by rw [hchannel, houtput]; exact h.channel
  stream := by rw [htaken, houtput]; exact h.stream
  ok := h.ok

omit [Inhabited α] in
/-- A call of `sendMsg`, from outside or from a callback whose frame is `stack`. -/
theorem Talks.speaks (h : Talks codec Ok p) {s s' : Conn α} {act : Action α} (hact : act.Says Ok)
    (hsame : { s with stack := p.conn.stack } = p.conn) (hacting : acting p.conn ch = some act)
    (hperform : Performs codec s act s') :
    Talks codec Ok ⟨s', p.said ++ saying p.conn ch, p.heard⟩ ∧
      taken p.conn.log <+: taken s'.log ∧ received s'.log = received p.conn.log ∧
      s'.stack = s.stack ∧ s'.input = p.conn.input := by
  have hch : s.channel = p.conn.channel := by rw [← hsame]
  have hout : s.output = p.conn.output := by rw [← hsame]
  have hlog : s.log = p.conn.log := by rw [← hsame]
  have hin : s.input = p.conn.input := by rw [← hsame]
  have hrest : s.fault = p.conn.fault ∧ s.state = p.conn.state ∧ s.readcb = p.conn.readcb := by
    rw [← hsame]
    exact ⟨rfl, rfl, rfl⟩
  obtain ⟨c, hchannel, hopen, hon⟩ := h.channel
  obtain ⟨msg, hok, hsaying, hspoke⟩ :=
    spoke_of_performs hact (hch.trans hchannel) hopen (hout ▸ hon) hperform
  refine ⟨⟨?_, ?_, ?_, ?_, hspoke.channel, ?_, ?_⟩, ?_, ?_, hspoke.stack, hspoke.input.trans hin⟩
  · exact (hspoke.fault.trans hrest.1).trans h.fault
  · exact (hspoke.state.trans hrest.2.1).trans h.state
  · exact (hspoke.readcb.trans hrest.2.2).trans h.readcb
  · rw [hspoke.input, hin]
    exact h.exp
  · rw [hspoke.stream, hlog, hout, h.stream, hsaying _ ch hacting, List.flatMap_append,
      List.flatMap_singleton]
  · intro m hm
    rw [hsaying _ ch hacting] at hm
    rcases List.mem_append.mp hm with hm | hm
    · exact h.ok m hm
    · rw [List.mem_singleton.mp hm]
      exact hok
  · rw [← hlog]
    exact hspoke.took
  · rw [hspoke.got, hlog]

omit [Inhabited α] in
/-- A writable socket that goes on: some of `output_` goes, and `writablecb_` may run. -/
theorem handleWrite_flushes {s : Conn α} {c : Channel} {ws : List WriteOutcome}
    (hstate : s.state = .connected) (hch : s.channel = some c) (hopen : c.fdOpen = true)
    (hon : s.output.contents ≠ [] → c.writeEnabled = true) (hws : Accepting ws) (ch : Choice α) :
    ∃ c' o w callback,
      s.handleWrite c ch ws = { s with
        channel := some c'
        output := o
        stack := callback ++ .writeEnd :: s.stack
        log := s.log ++ [.wrote s.attempt w] } ∧
      c'.fdOpen = true ∧ (o.contents ≠ [] → c'.writeEnabled = true) ∧
      w ++ o.contents = s.output.contents ∧ (callback = [] ∨ callback = [.user ch.body]) := by
  have hr : (trySend c s.output.size ws).stop ≠ .reset := by
    rcases trySend_accepting hopen hws s.output.size with h | h <;> simp [h]
  have hsplit : s.output.contents.take (trySend c s.output.size ws).sended ++
      (s.output.consume (trySend c s.output.size ws).sended
        (trySend c s.output.size ws).le).contents = s.output.contents := by
    rw [Buffer.contents_consume, List.take_append_drop]
  have hstays : (s.output.consume (trySend c s.output.size ws).sended
      (trySend c s.output.size ws).le).contents ≠ [] →
      (afterIsend c (trySend c s.output.size ws).stop).writeEnabled = true := by
    intro hne
    refine afterIsend_writeEnabled _ (hon fun hnil => hne ?_)
    rw [hnil] at hsplit
    exact (List.append_eq_nil_iff.mp hsplit).2
  have hfd := (afterIsend_fdOpen c (trySend c s.output.size ws).stop).trans hopen
  unfold handleWrite
  rw [hstate]
  simp only [isend_eq hch s.output.contents_length, if_neg hr]
  split
  · exact ⟨_, _, _, [.user ch.body], by simp [push, hstate], hfd, hstays, hsplit, Or.inr rfl⟩
  · exact ⟨_, _, _, [], by simp [push, hstate], hfd, hstays, hsplit, Or.inl rfl⟩

theorem advances_event (h : Talks codec Ok p) (hch : p.Chats Ok Fits q ch)
    (hstack : p.conn.stack = []) (hbetween : Between codec p) (hwaits : Waits codec theirs p)
    (hgot : received p.conn.log <+: taken q.conn.log) :
    Advances codec Ok theirs q p (p.step codec ch) := by
  have hhearing : hearing codec p.conn = [] := hearing_nil codec (by rw [hstack]; nofun)
  rcases (hch.event hstack).cases with ⟨act, hevent, hact⟩ | ⟨ws, hevent, hws⟩ | hevent
  · have hacting : acting p.conn ch = some act := by rw [acting, hstack, hevent]
    obtain ⟨htalks, htook, hrecv, hst, hin⟩ :=
      h.speaks hact rfl hacting (performs_perform codec p.conn act)
    have hstep : p.step codec ch =
        ⟨p.conn.perform codec act, p.said ++ saying p.conn ch, p.heard⟩ := by
      rw [step_eq h.fault, hhearing, List.append_nil, conn_step_nil h.fault hstack]
      unfold dispatch
      rw [hevent]
    rw [hstep]
    refine ⟨htalks, .idle (Or.inl (hst.trans hstack)) ?_ ?_, List.prefix_append _ _, htook, ?_⟩
    · unfold Between
      rw [hrecv, hin]
      exact hbetween
    · unfold Waits
      rw [hin]
      exact hwaits
    · rw [hrecv]
      exact hgot
  · have hsaying : saying p.conn ch = [] := by
      rw [saying, acting, hstack, hevent]
    obtain ⟨c, hchannel, hopen, hon⟩ := h.channel
    obtain ⟨c', o, w, callback, heq, hfd, hon', hsplit, hcallback⟩ :=
      handleWrite_flushes h.state hchannel hopen hon hws ch
    have hstep : p.step codec ch = { p with conn := p.conn.handleWrite c ch ws } := by
      rw [step_silent h.fault hsaying hhearing, conn_step_nil h.fault hstack]
      unfold dispatch
      rw [hevent]
      simp only [hchannel, hopen, if_true]
    have htaken : taken (p.conn.log ++ [.wrote p.conn.attempt w]) = taken p.conn.log ++ w := by
      rw [taken_append]
      exact congrArg _ (List.append_nil w)
    have hrecv : received (p.conn.log ++ [.wrote p.conn.attempt w]) = received p.conn.log := by
      rw [received_append]
      exact List.append_nil _
    rw [hstep, heq, hstack]
    refine ⟨⟨h.fault, h.state, h.readcb, h.exp, ⟨c', rfl, hfd, hon'⟩, ?_, h.ok⟩, ?_,
      List.prefix_rfl, ?_, ?_⟩
    · rw [htaken, List.append_assoc, hsplit]
      exact h.stream
    · have hbetween' : Between codec { p with conn := { p.conn with
          channel := some c'
          output := o
          stack := callback ++ [.writeEnd]
          log := p.conn.log ++ [.wrote p.conn.attempt w] } } := hrecv.trans hbetween
      rcases hcallback with rfl | rfl
      · exact .idle (Or.inr (Or.inr rfl)) hbetween' hwaits
      · exact .flushed rfl hch.body hbetween' hwaits
    · rw [htaken]
      exact List.prefix_append _ _
    · rw [hrecv]
      exact hgot
  · have hsaying : saying p.conn ch = [] := by
      rw [saying, acting, hstack, hevent]
    obtain ⟨c, hchannel, hopen, -⟩ := h.channel
    have hstep : p.step codec ch = { p with conn := p.conn.push .handleRead } := by
      rw [step_silent h.fault hsaying hhearing, conn_step_nil h.fault hstack]
      unfold dispatch
      rw [hevent]
      simp only [hchannel, hopen, if_true]
    rw [hstep]
    have hnext : (p.conn.push .handleRead).stack = [.handleRead] := by rw [push_stack, hstack]
    exact ⟨h.of_same rfl rfl rfl rfl rfl rfl rfl,
      .idle (Or.inr (Or.inl hnext)) hbetween hwaits, List.prefix_rfl, List.prefix_rfl, hgot⟩

omit [Inhabited α] in
theorem Waits.heard (h : Waits codec theirs p) : p.heard <+: theirs := by
  obtain ⟨later, rfl, _⟩ := h
  exact List.prefix_append _ _

theorem advances_readLoop (h : Talks codec Ok p) (hch : p.Chats Ok Fits q ch)
    (hstack : p.conn.stack = [.readLoop]) (hbetween : Between codec p)
    (hheard : p.heard <+: theirs) (hgot : received p.conn.log <+: taken q.conn.log) :
    Advances codec Ok theirs q p (p.step codec ch) := by
  have hstep : p.step codec ch = { p with conn := Conn.readLoop { p.conn with stack := [] } ch } := by
    rw [step_silent h.fault (saying_frame ch hstack nofun)
      (hearing_nil codec (by rw [hstack]; nofun)), conn_step_cons h.fault hstack]
    rfl
  have hcontents := p.conn.input.contents_makeRoomExp
  have hexp := p.conn.input.exp_makeRoomExp
  obtain ⟨c, hchannel, hopen, -⟩ := h.channel
  rw [hstep]
  unfold Conn.readLoop
  rw [if_neg (by simp [h.state])]
  simp only [hchannel, hopen, Bool.true_eq_false, if_false]
  have hread := hch.read
  cases hres : ch.read with
  | eintr =>
      refine ⟨h.of_same rfl rfl rfl hexp hchannel.symm rfl rfl, .reads (Or.inl rfl) ?_ hheard,
        List.prefix_rfl, List.prefix_rfl, hgot⟩
      exact hbetween.trans (congrArg _ hcontents.symm)
  | eagain =>
      have hupdates : ∀ e ∈ p.conn.idleIds.map (@Ev.update α), ∃ id, e = .update id := by
        intro e he
        obtain ⟨id, _, rfl⟩ := List.mem_map.mp he
        exact ⟨id, rfl⟩
      have htaken : taken (p.conn.log ++ p.conn.idleIds.map .update) = taken p.conn.log := by
        rw [taken_append, List.append_right_eq_self]
        apply List.flatMap_eq_nil_iff.mpr
        intro e he
        obtain ⟨id, rfl⟩ := hupdates e he
        rfl
      have hrecv : received (p.conn.log ++ p.conn.idleIds.map .update) = received p.conn.log := by
        rw [received_append, List.append_right_eq_self]
        apply received_silent
        intro e he k bytes heq
        obtain ⟨id, rfl⟩ := hupdates e he
        cases heq
      have hbetween' : received (p.conn.log ++ p.conn.idleIds.map .update) =
          p.heard.flatMap codec.frame ++ p.conn.input.makeRoomExp.contents := by
        rw [hrecv, hcontents]
        exact hbetween
      have hgot' : received (p.conn.log ++ p.conn.idleIds.map .update) <+: taken q.conn.log := by
        rw [hrecv]
        exact hgot
      have htook : taken p.conn.log <+: taken (p.conn.log ++ p.conn.idleIds.map .update) := by
        rw [htaken]
      simp only
      split
      · next hempty =>
          have hnil : p.conn.input.makeRoomExp.contents = [] := (Buffer.size_eq_zero_iff _).mp hempty
          obtain ⟨later, hlater⟩ := hheard
          exact ⟨h.of_same rfl rfl rfl hexp hchannel.symm rfl htaken,
            .idle (Or.inl rfl) hbetween' ⟨later, hlater.symm, Or.inl hnil⟩,
            List.prefix_rfl, htook, hgot'⟩
      · unfold callReadcb
        rw [show p.conn.readcb = .onMsg from h.readcb]
        exact ⟨h.of_same rfl rfl h.readcb.symm hexp hchannel.symm rfl htaken,
          .reads (Or.inr rfl) hbetween' hheard, List.prefix_rfl, htook, hgot'⟩
  | eof =>
      rw [hres] at hread
      exact hread.elim
  | error =>
      rw [hres] at hread
      exact hread.elim
  | data bytes =>
      rw [hres] at hread
      obtain ⟨hne, hflight⟩ := hread
      have hspace := p.conn.input.makeRoomExp_space h.exp
      have hsome : bytes.take p.conn.input.makeRoomExp.space ≠ [] := by
        intro hnil
        rcases List.take_eq_nil_iff.mp hnil with hzero | hnil
        · omega
        · exact hne hnil
      simp only [if_neg hsome]
      have htaken : taken (p.conn.log ++
          [.read p.conn.attempt (bytes.take p.conn.input.makeRoomExp.space)]) =
          taken p.conn.log := by
        rw [taken_append]
        exact List.append_nil _
      have hrecv : received (p.conn.log ++
          [.read p.conn.attempt (bytes.take p.conn.input.makeRoomExp.space)]) =
          received p.conn.log ++ bytes.take p.conn.input.makeRoomExp.space := by
        rw [received_append]
        exact congrArg _ (List.append_nil _)
      refine ⟨h.of_same rfl rfl rfl hexp hchannel.symm rfl htaken,
        .reads (Or.inl rfl) ?_ hheard, List.prefix_rfl, ?_, ?_⟩
      · refine hrecv.trans ?_
        rw [hbetween, List.append_assoc]
        refine congrArg _ ?_
        have hfits : (bytes.take p.conn.input.makeRoomExp.space).length ≤
            p.conn.input.makeRoomExp.space := by
          rw [List.length_take]
          exact Nat.min_le_left _ _
        rw [← hcontents]
        exact (Buffer.contents_fill _ _ hfits).symm
      · exact htaken ▸ List.prefix_rfl
      · -- the bytes read continue the ones read before
        refine hrecv ▸ ?_
        obtain ⟨rest, hrest⟩ := hgot
        have hdrop : inFlight q p = rest := by
          rw [inFlight, ← hrest, List.drop_left]
        rw [hdrop] at hflight
        rw [← hrest, List.prefix_append_right_inj]
        exact (List.take_prefix _ _).trans hflight

omit [Inhabited α] in
theorem tryDecode_of_more {data : List α} (h : codec.verdict data = .more) :
    (codec.tryDecode data).1 = 0 := by
  rcases Int.lt_trichotomy (codec.tryDecode data).1 0 with hneg | hzero | hpos
  · have hbad : codec.verdict data = .bad := if_pos hneg
    rw [hbad] at h
    cases h
  · exact hzero
  · rw [Codec.verdict_of_pos hpos] at h
    cases h

omit [Inhabited α] in
theorem tryDecode_of_frame {data m : List α} {n : Nat} (h : codec.verdict data = .frame m n) :
    0 < (codec.tryDecode data).1 ∧ (codec.tryDecode data).1.toNat = n ∧
      (codec.tryDecode data).2.read data = m := by
  rcases Int.lt_trichotomy (codec.tryDecode data).1 0 with hneg | hzero | hpos
  · have hbad : codec.verdict data = .bad := if_pos hneg
    rw [hbad] at h
    cases h
  · rw [Codec.verdict_of_zero hzero] at h
    cases h
  · rw [Codec.verdict_of_pos hpos] at h
    cases h
    exact ⟨hpos, rfl, rfl⟩

theorem advances_decodeLoop (law : Framing.Lawful codec.frame codec.verdict Ok Fits)
    (hnil : codec.verdict [] = .more) (htheirs : ∀ m ∈ theirs, Ok m)
    (hsent : taken q.conn.log <+: theirs.flatMap codec.frame) (h : Talks codec Ok p)
    (hch : p.Chats Ok Fits q ch) (hstack : p.conn.stack = [.decodeLoop])
    (hbetween : Between codec p) (hheard : p.heard <+: theirs)
    (hgot : received p.conn.log <+: taken q.conn.log) :
    Advances codec Ok theirs q p (p.step codec ch) := by
  obtain ⟨later, rfl⟩ := hheard
  have hprefix : p.conn.input.contents <+: later.flatMap codec.frame := by
    have hall := hgot.trans hsent
    rw [hbetween, List.flatMap_append, List.prefix_append_right_inj] at hall
    exact hall
  have hsaying := saying_frame ch hstack nofun
  have hstep : p.step codec ch = ⟨Conn.decodeLoop codec { p.conn with stack := [] } ch, p.said,
      p.heard ++ hearing codec p.conn⟩ := by
    rw [step_eq h.fault, hsaying, List.append_nil, conn_step_cons h.fault hstack]
    rfl
  have hsees : ∀ tail : List (Ev α), (∀ e ∈ tail, ∃ pos msg, e = .deliver pos msg) →
      taken (p.conn.log ++ .sees p.conn.attempt p.conn.input.contents :: tail) = taken p.conn.log ∧
      received (p.conn.log ++ .sees p.conn.attempt p.conn.input.contents :: tail) =
        received p.conn.log := by
    intro tail htail
    have hnone : taken tail = [] ∧ received tail = [] := by
      constructor
      · apply List.flatMap_eq_nil_iff.mpr
        intro e he
        obtain ⟨_, _, rfl⟩ := htail e he
        rfl
      · apply List.flatMap_eq_nil_iff.mpr
        intro e he
        obtain ⟨_, _, rfl⟩ := htail e he
        rfl
    constructor
    · rw [taken_append, List.append_right_eq_self]
      exact hnone.1
    · rw [received_append, List.append_right_eq_self]
      exact hnone.2
  have hlaterOk : ∀ m ∈ later, Ok m := fun m hm => htheirs m (List.mem_append_right _ hm)
  obtain ⟨now, rest, part, rfl, hinput, hpart⟩ := Framing.split_prefix later _ hprefix
  rw [hstep]
  unfold Conn.decodeLoop
  cases now with
  | nil =>
      rw [List.flatMap_nil, List.nil_append] at hinput
      have hmore : codec.verdict p.conn.input.contents = .more := by
        rw [hinput]
        exact Framing.partial_waits law.upTo hlaterOk hpart trivial hnil
      have hzero := tryDecode_of_more hmore
      have hhearing : hearing codec p.conn = [] := by
        unfold hearing
        rw [hstack]
        simp [hzero]
      obtain ⟨htaken, hrecv⟩ := hsees [] nofun
      rw [hhearing, List.append_nil]
      simp only [hzero, Int.lt_irrefl, if_false, if_true]
      refine ⟨h.of_same rfl rfl rfl rfl rfl rfl htaken, .idle (Or.inl rfl) ?_ ⟨_, rfl, ?_⟩,
        List.prefix_rfl, htaken ▸ List.prefix_rfl, hrecv ▸ hgot⟩
      · exact hrecv.trans hbetween
      · exact hinput ▸ hpart
  | cons m now =>
      have hm : Ok m := hlaterOk m (by simp)
      have hfront : codec.frame m ++ (now.flatMap codec.frame ++ part) = p.conn.input.contents := by
        rw [hinput, List.flatMap_cons, List.append_assoc]
      have hframe : codec.verdict p.conn.input.contents = .frame m (codec.frame m).length := by
        rw [← hfront]
        exact law.whole m _ hm (hfront ▸ hch.fits)
      obtain ⟨hpos, hlen, hmsg⟩ := tryDecode_of_frame hframe
      have hhearing : hearing codec p.conn = [m] := by
        unfold hearing
        rw [hstack]
        simp only [hpos, if_true, hmsg]
      have hneg : ¬ (codec.tryDecode p.conn.input.contents).1 < 0 := by omega
      have hzero : (codec.tryDecode p.conn.input.contents).1 ≠ 0 := by omega
      have hlog : p.conn.log ++ [.sees p.conn.attempt p.conn.input.contents] ++
          [.deliver p.conn.pos (codec.tryDecode p.conn.input.contents).2] = p.conn.log ++
          .sees p.conn.attempt p.conn.input.contents ::
            [.deliver p.conn.pos (codec.tryDecode p.conn.input.contents).2] := by
        rw [List.append_assoc]
        rfl
      obtain ⟨htaken, hrecv⟩ := hsees
        [.deliver p.conn.pos (codec.tryDecode p.conn.input.contents).2] (by simp)
      rw [← hlog] at htaken hrecv
      rw [hhearing]
      simp only [hneg, hzero, if_false, hlen]
      refine ⟨h.of_same rfl rfl rfl rfl rfl rfl htaken,
        .hands (Or.inr ⟨ch.body, rfl, hch.body⟩) ?_ ?_, List.prefix_rfl, htaken ▸ List.prefix_rfl,
        hrecv ▸ hgot⟩
      · exact ⟨p.heard, m, rfl, rfl, ⟨_, hfront⟩, hrecv.trans hbetween⟩
      · exact ⟨now ++ rest, List.append_assoc p.heard [m] (now ++ rest)⟩

omit [Inhabited α] in
theorem Inside.consumed {r : Nat} (h : Inside codec p r) (hr : r ≤ p.conn.input.size) :
    received p.conn.log = p.heard.flatMap codec.frame ++ (p.conn.input.consume r hr).contents := by
  obtain ⟨init, m, hheard, rfl, ⟨rest, hrest⟩, hrecv⟩ := h
  rw [Buffer.contents_consume, hrecv, hheard, List.flatMap_append, List.flatMap_singleton, ← hrest,
    List.drop_left, List.append_assoc]

omit [Inhabited α] in
theorem Inside.le_size {r : Nat} (h : Inside codec p r) : r ≤ p.conn.input.size := by
  obtain ⟨_, m, _, rfl, hfront, _⟩ := h
  rw [← Buffer.contents_length]
  exact hfront.length_le

omit [Inhabited α] in
theorem decodeConsume_of_le {s : Conn α} {r : Nat} (h : r ≤ s.input.size) :
    s.decodeConsume r = { s with
      input := s.input.consume r h
      pos := s.pos + r
      stack := .decodeLoop :: s.stack
      log := s.log ++ [.consume r s.input.size] } := by
  unfold Conn.decodeConsume
  exact dif_pos h

theorem advances_user (h : Talks codec Ok p) {todo : List (Action α)} {f : Frame α}
    (hstack : p.conn.stack = [.user todo, f]) (hcalls : ∀ act ∈ todo, act.Says Ok)
    (hgot : received p.conn.log <+: taken q.conn.log)
    (hkeeps : ∀ (s : Conn α) said, s.input = p.conn.input → received s.log = received p.conn.log →
      (s.stack = [f] ∨ ∃ todo', s.stack = [.user todo', f] ∧ ∀ act ∈ todo', act.Says Ok) →
      Station codec Ok theirs ⟨s, said, p.heard⟩) :
    Advances codec Ok theirs q p (p.step codec ch) := by
  have hhearing : hearing codec p.conn = [] := hearing_nil codec (by rw [hstack]; nofun)
  cases todo with
  | nil =>
      have hstep : p.step codec ch = { p with conn := { p.conn with stack := [f] } } := by
        rw [step_silent h.fault (saying_frame ch hstack nofun) hhearing,
          conn_step_cons h.fault hstack]
        rfl
      rw [hstep]
      exact ⟨h.of_same rfl rfl rfl rfl rfl rfl rfl, hkeeps _ _ rfl rfl (Or.inl rfl), List.prefix_rfl,
        List.prefix_rfl, hgot⟩
  | cons act todo =>
      have hacting : acting p.conn ch = some act := by rw [acting, hstack]
      obtain ⟨htalks, htook, hrecv, hst, hin⟩ :=
        h.speaks (s := { p.conn with stack := [.user todo, f] }) (hcalls act List.mem_cons_self) rfl
          hacting (performs_perform codec _ act)
      have hstep : p.step codec ch = ⟨Conn.perform codec { p.conn with stack := [.user todo, f] } act,
          p.said ++ saying p.conn ch, p.heard⟩ := by
        rw [step_eq h.fault, hhearing, List.append_nil, conn_step_cons h.fault hstack]
        rfl
      rw [hstep]
      exact ⟨htalks, hkeeps _ _ hin hrecv
          (Or.inr ⟨todo, hst, fun a ha => hcalls a (List.mem_cons_of_mem _ ha)⟩),
        List.prefix_append _ _, htook, hrecv ▸ hgot⟩

/-- One step of a side, whatever is under way. -/
theorem advances_step (law : Framing.Lawful codec.frame codec.verdict Ok Fits)
    (hnil : codec.verdict [] = .more) (htheirs : ∀ m ∈ theirs, Ok m)
    (hsent : taken q.conn.log <+: theirs.flatMap codec.frame) (h : Talks codec Ok p)
    (hstation : Station codec Ok theirs p) (hch : p.Chats Ok Fits q ch)
    (hgot : received p.conn.log <+: taken q.conn.log) :
    Advances codec Ok theirs q p (p.step codec ch) := by
  cases hstation with
  | idle stack between waits =>
      rcases stack with hstack | hstack | hstack
      · exact advances_event h hch hstack between waits hgot
      · have hstep : p.step codec ch = { p with conn := { p.conn with stack := [.readLoop] } } := by
          rw [step_silent h.fault (saying_frame ch hstack (by simp))
            (hearing_nil codec (by simp [hstack])), conn_step_cons h.fault hstack]
          unfold Conn.resume
          simp only [h.state]
          rfl
        rw [hstep]
        exact ⟨h.of_same rfl rfl rfl rfl rfl rfl rfl, .reads (Or.inl rfl) between waits.heard,
          List.prefix_rfl, List.prefix_rfl, hgot⟩
      · obtain ⟨c, hchannel, hopen, hon⟩ := h.channel
        have hstep : p.step codec ch =
            { p with conn := Conn.resume codec { p.conn with stack := [] } ch .writeEnd } := by
          rw [step_silent h.fault (saying_frame ch hstack (by simp))
            (hearing_nil codec (by simp [hstack])), conn_step_cons h.fault hstack]
        have hrest : Advances codec Ok theirs q p { p with conn := { p.conn with stack := [] } } :=
          ⟨h.of_same rfl rfl rfl rfl rfl rfl rfl, .idle (Or.inl rfl) between waits, List.prefix_rfl,
            List.prefix_rfl, hgot⟩
        rw [hstep]
        unfold Conn.resume
        simp only [hchannel]
        split
        · next hempty =>
            split
            · refine ⟨⟨?_, h.state, h.readcb, h.exp, ⟨_, rfl, hopen, fun hne => ?_⟩, h.stream, h.ok⟩,
                .idle (Or.inl rfl) between waits, List.prefix_rfl, List.prefix_rfl, hgot⟩
              · simp only [Conn.enableWrite, hopen, if_true]
                exact h.fault
              · exact absurd ((Buffer.empty_iff _).mp hempty) hne
            · exact hrest
        · exact hrest
  | flushed stack calls between waits =>
      refine advances_user h stack calls hgot ?_
      intro s said hin hrecv hst
      have hbetween : Between codec ⟨s, said, p.heard⟩ := by
        unfold Between
        rw [hrecv, hin]
        exact between
      have hwaits : Waits codec theirs ⟨s, said, p.heard⟩ := by
        unfold Waits
        rw [hin]
        exact waits
      rcases hst with hst | ⟨todo, hst, hcalls⟩
      · exact .idle (Or.inr (Or.inr hst)) hbetween hwaits
      · exact .flushed hst hcalls hbetween hwaits
  | reads stack between heard =>
      rcases stack with hstack | hstack
      · exact advances_readLoop h hch hstack between heard hgot
      · exact advances_decodeLoop law hnil htheirs hsent h hch hstack between heard hgot
  | @hands r stack inside heard =>
      rcases stack with hstack | ⟨todo, hstack, hcalls⟩
      · have hle := inside.le_size
        have hstep : p.step codec ch = { p with conn := { p.conn with
            input := p.conn.input.consume r hle
            pos := p.conn.pos + r
            stack := [.decodeLoop]
            log := p.conn.log ++ [.consume r p.conn.input.size] } } := by
          rw [step_silent h.fault (saying_frame ch hstack (by simp))
            (hearing_nil codec (by simp [hstack])), conn_step_cons h.fault hstack]
          show { p with conn := Conn.decodeConsume _ r } = _
          exact congrArg (fun s => { p with conn := s })
            (decodeConsume_of_le (s := { p.conn with stack := [] }) hle)
        have htaken : taken (p.conn.log ++ [.consume r p.conn.input.size]) = taken p.conn.log := by
          rw [taken_append]
          exact List.append_nil _
        have hrecv : received (p.conn.log ++ [.consume r p.conn.input.size]) =
            received p.conn.log := by
          rw [received_append]
          exact List.append_nil _
        rw [hstep]
        refine ⟨h.of_same rfl rfl rfl ?_ rfl rfl htaken, .reads (Or.inr rfl) ?_ heard,
          List.prefix_rfl, htaken ▸ List.prefix_rfl, hrecv ▸ hgot⟩
        · exact Buffer.exp_consume _ _ hle
        · exact hrecv.trans (inside.consumed hle)
      · refine advances_user h hstack hcalls hgot ?_
        intro s said hin hrecv hst
        refine .hands (hst.imp_right fun h => h) ?_ heard
        unfold Inside
        rw [hrecv, hin]
        exact inside

end Steps

/-- What the other side says later changes nothing for what was heard. -/
theorem Station.said_more {codec : Codec α} {Ok : List α → Prop} {theirs theirs' : List (List α)}
    {p : Peer α} (h : Station codec Ok theirs p) (hmore : theirs <+: theirs') :
    Station codec Ok theirs' p := by
  have hwaits : Waits codec theirs p → Waits codec theirs' p := by
    rintro ⟨later, rfl, hpart⟩
    obtain ⟨more, rfl⟩ := hmore
    refine ⟨later ++ more, List.append_assoc _ _ _, ?_⟩
    rcases hpart with hnil | ⟨m, rest, rfl, hpre, hlen⟩
    · exact Or.inl hnil
    · exact Or.inr ⟨m, rest ++ more, rfl, hpre, hlen⟩
  cases h with
  | idle stack between waits => exact .idle stack between (hwaits waits)
  | flushed stack calls between waits => exact .flushed stack calls between (hwaits waits)
  | reads stack between heard => exact .reads stack between (heard.trans hmore)
  | hands stack inside heard => exact .hands stack inside (heard.trans hmore)

theorem Station.heard {codec : Codec α} {Ok : List α → Prop} {theirs : List (List α)}
    {p : Peer α} (h : Station codec Ok theirs p) : p.heard <+: theirs := by
  cases h with
  | idle _ _ waits => exact waits.heard
  | flushed _ _ _ waits => exact waits.heard
  | reads _ _ heard => exact heard
  | hands _ _ heard => exact heard

/-- With nothing under way `input_` is the frames not heard yet, and it is part of one: so
there are none. -/
theorem Station.all_heard {codec : Codec α} {Ok : List α → Prop} {theirs : List (List α)}
    {p : Peer α} (h : Station codec Ok theirs p) (hstack : p.conn.stack = [])
    (hall : received p.conn.log = theirs.flatMap codec.frame)
    (hframes : ∀ m ∈ theirs, codec.frame m ≠ []) : p.heard = theirs := by
  cases h with
  | idle _ between waits =>
      obtain ⟨later, rfl, hpart⟩ := waits
      have hinput : p.conn.input.contents = later.flatMap codec.frame := by
        rw [between, List.flatMap_append] at hall
        exact List.append_cancel_left hall
      cases later with
      | nil => exact (List.append_nil _).symm
      | cons m later =>
          rw [hinput, List.flatMap_cons] at hpart
          rcases hpart with hnil | ⟨m', rest, heq, hpre, hlen⟩
          · exact absurd (List.append_eq_nil_iff.mp hnil).1 (hframes m (by simp))
          · obtain ⟨rfl, rfl⟩ := List.cons.inj heq
            rw [List.length_append] at hlen
            omega
  | flushed stack => simp [hstack] at stack
  | reads stack => simp [hstack] at stack
  | hands stack => simp [hstack] at stack

theorem Fresh.talks {codec : Codec α} {Ok : List α → Prop} {p : Peer α} (h : Fresh p) :
    Talks codec Ok p := by
  obtain ⟨c, hch, hopen, -⟩ := h.quiet.channel
  refine ⟨h.quiet.fault, h.quiet.state, h.readcb, h.exp, ⟨c, hch, hopen, absurd h.quiet.output⟩,
    ?_, ?_⟩
  · rw [h.quiet.log, h.quiet.output, h.said]
    rfl
  · rw [h.said]
    nofun

theorem Fresh.station {codec : Codec α} {Ok : List α → Prop} {q p : Peer α} (h : Fresh p)
    (hq : Fresh q) : Station codec Ok q.said p := by
  refine .idle (Or.inl h.quiet.stack) ?_ ⟨[], ?_, Or.inl h.input⟩
  · unfold Between
    rw [h.quiet.log, h.heard, h.input]
    rfl
  · rw [hq.said, h.heard]
    rfl

end Peer

namespace Link

open Conn Peer

/-- What `q` says reaches `p`: what `p` read is a prefix of what the socket of `q` took. -/
structure Reaches (codec : Codec α) (Ok : List α → Prop) (q p : Peer α) : Prop where
  station : Station codec Ok q.said p
  carried : received p.conn.log <+: taken q.conn.log

structure Joined (codec : Codec α) (Ok : List α → Prop) (l : Link α) : Prop where
  left : Talks codec Ok l.left
  right : Talks codec Ok l.right
  rightward : Reaches codec Ok l.left l.right
  leftward : Reaches codec Ok l.right l.left

theorem prefix_taken {codec : Codec α} {Ok : List α → Prop} {p : Peer α} (h : Talks codec Ok p) :
    taken p.conn.log <+: p.said.flatMap codec.frame :=
  ⟨p.conn.output.contents, h.stream⟩

/-- One side makes a step. -/
theorem advance [Inhabited α] {codec : Codec α} {Ok Fits : List α → Prop}
    (law : Framing.Lawful codec.frame codec.verdict Ok Fits) (hnil : codec.verdict [] = .more)
    {q p : Peer α} {ch : Choice α} (hq : Talks codec Ok q) (hp : Talks codec Ok p)
    (hin : Reaches codec Ok q p) (hout : Reaches codec Ok p q) (hch : p.Chats Ok Fits q ch) :
    Talks codec Ok (p.step codec ch) ∧ Reaches codec Ok q (p.step codec ch) ∧
      Reaches codec Ok (p.step codec ch) q := by
  have h := advances_step law hnil hq.ok (prefix_taken hq) hp hin.station hch hin.carried
  exact ⟨h.talks, ⟨h.station, h.got⟩, ⟨hout.station.said_more h.said, hout.carried.trans h.took⟩⟩

theorem joined_step [Inhabited α] {codec : Codec α} {Ok Fits : List α → Prop}
    (law : Framing.Lawful codec.frame codec.verdict Ok Fits) (hnil : codec.verdict [] = .more)
    (l : Link α) (e : LinkChoice α) (h : Joined codec Ok l) (he : l.Chats Ok Fits e) :
    Joined codec Ok (l.step codec e) := by
  cases e with
  | left ch =>
      obtain ⟨htalks, hleftward, hrightward⟩ :=
        advance law hnil h.right h.left h.leftward h.rightward he
      exact ⟨htalks, h.right, hrightward, hleftward⟩
  | right ch =>
      obtain ⟨htalks, hrightward, hleftward⟩ :=
        advance law hnil h.left h.right h.rightward h.leftward he
      exact ⟨h.left, htalks, hrightward, hleftward⟩

theorem Joined.all_heard {codec : Codec α} {Ok Fits : List α → Prop}
    (law : Framing.Lawful codec.frame codec.verdict Ok Fits) {q p : Peer α} (hq : Talks codec Ok q)
    (h : Reaches codec Ok q p) (hd : Drained q p) : p.heard = q.said := by
  refine h.station.all_heard hd.stack ?_ fun m hm => law.nonempty m (hq.ok m hm)
  obtain ⟨rest, hrest⟩ := h.carried
  have hnone : rest = [] := by
    have hflight := hd.inFlight
    rw [inFlight, ← hrest, List.drop_left] at hflight
    exact hflight
  have hstream := hq.stream
  rw [hd.output, List.append_nil] at hstream
  rw [← hstream, ← hrest, hnone, List.append_nil]

/-- In every run of two fresh connections joined by their sockets, with any interleaving of
their steps and any cutting of the streams, no side faults or leaves `Connected`; what each
side was handed is a prefix of what the other passed to `sendMsg`, and all of it whenever
nothing is queued, in flight or running. -/
theorem messages_cross_in_order [Inhabited α] (codec : Codec α) (Ok Fits : List α → Prop)
    (law : Framing.Lawful codec.frame codec.verdict Ok Fits) (hnil : codec.verdict [] = .more)
    (l : Link α) (hleft : l.left.Fresh) (hright : l.right.Fresh) (cs : List (LinkChoice α))
    (hcs : Driven.Along (step codec) (Chats Ok Fits) l cs) :
    let t := Driven.run (step codec) l cs
    (t.left.conn.fault = none ∧ t.left.conn.state = .connected) ∧
      (t.right.conn.fault = none ∧ t.right.conn.state = .connected) ∧
      t.right.heard <+: t.left.said ∧ t.left.heard <+: t.right.said ∧
      (Drained t.left t.right → t.right.heard = t.left.said) ∧
      (Drained t.right t.left → t.left.heard = t.right.said) := by
  have hstart : Joined codec Ok l := by
    refine ⟨hleft.talks, hright.talks, ⟨hright.station hleft, ?_⟩, ⟨hleft.station hright, ?_⟩⟩
    · rw [hright.quiet.log]
      exact List.nil_prefix
    · rw [hleft.quiet.log]
      exact List.nil_prefix
  have hend := Driven.run_invariant (fun l e h he => joined_step law hnil l e h he) hstart hcs
  exact ⟨⟨hend.left.fault, hend.left.state⟩, ⟨hend.right.fault, hend.right.state⟩,
    hend.rightward.station.heard, hend.leftward.station.heard,
    Joined.all_heard law hend.left hend.rightward, Joined.all_heard law hend.right hend.leftward⟩

/-- Two sides that are connected and have done nothing. -/
def opened : Link UInt8 :=
  ⟨⟨Conn.opened .onMsg false false (-1), [], []⟩, ⟨Conn.opened .onMsg false false (-1), [], []⟩⟩

/-- The left side says `[7]`; the frame arrives in two reads, and the callback of the right
side answers `[8]` on a full socket. -/
def greeting : List (LinkChoice UInt8) :=
  [.left { event := .call (.sendMsg [7] [.wrote 100]) }, .right { event := .readable }, .right .go,
    .right { read := .data [0x6d, 0x42, 0x64, 0x54, 0] }, .right { read := .data [0, 0, 1, 7] },
    .right .go, .right { body := [.sendMsg [8] [.wrote 2]] }, .right .go, .right .go, .right .go,
    .right .go, .right { event := .writable [.wrote 100] }, .right .go]

theorem messages_cross_in_order_greeting :
    let t := Driven.run (step LengthCodec.codec) opened greeting
    t.left.said = [[7]] ∧ t.right.said = [[8]] ∧ t.right.heard = t.left.said ∧
      Peer.inFlight t.right t.left = [0x6d, 0x42, 0x64, 0x54, 0, 0, 0, 1, 8] := by
  have hfresh : Fresh (α := UInt8) ⟨Conn.opened .onMsg false false (-1), [], []⟩ :=
    ⟨⟨rfl, rfl, rfl, ⟨_, rfl, rfl, rfl⟩, rfl, rfl⟩, rfl, rfl, by decide, rfl, rfl⟩
  have hdrained : Drained (Driven.run (step LengthCodec.codec) opened greeting).left
      (Driven.run (step LengthCodec.codec) opened greeting).right :=
    ⟨by decide +kernel, by decide +kernel, List.isEmpty_iff.mp (by decide +kernel)⟩
  have h := messages_cross_in_order LengthCodec.codec LengthCodec.Ok LengthCodec.Fits
    LengthCodec.lawful rfl opened hfresh hfresh greeting (by decide +kernel)
  exact ⟨by decide +kernel, by decide +kernel, h.2.2.2.2.1 hdrained, by decide +kernel⟩

end Link

end Handy
