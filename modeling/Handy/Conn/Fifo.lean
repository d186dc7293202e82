import Handy.Conn.Calculus

/-! # Outgoing bytes are first in, first out

While the socket only ever takes bytes, is interrupted or is full, what it took
followed by `output_` is what was passed to the sends, in call order. The proof
carries the invariant the send paths rest on and nowhere state: bytes in
`output_` mean that write interest is on, so no fast path overtakes them.
-/

namespace Handy

namespace Conn

variable {α : Type}

def Accepting (ws : List WriteOutcome) : Prop := ∀ w ∈ ws, w ≠ .reset ∧ w ≠ .other

/-- A send whose writes all go so. -/
def SendsOn : Action α → Prop
  | .sendStr _ ws | .sendBuffer _ ws | .sendInput ws | .sendMsg _ ws => Accepting ws
  | _ => False

/-- The event is a send or a writable socket, and `writablecb_` only sends. -/
structure OnlySends (s : Conn α) (ch : Choice α) : Prop where
  event : s.stack = [] →
    (∃ act, ch.event = .call act ∧ SendsOn act) ∨ ∃ ws, ch.event = .writable ws ∧ Accepting ws
  body : ∀ act ∈ ch.body, SendsOn act

/-- Connected, nothing running, `output_` empty and write interest off. -/
structure Quiet (s : Conn α) : Prop where
  fault : s.fault = none
  stack : s.stack = []
  state : s.state = .connected
  channel : ∃ c, s.channel = some c ∧ c.fdOpen = true ∧ c.writeEnabled = false
  output : s.output.contents = []
  log : s.log = []

def taken (log : List (Ev α)) : List α :=
  log.flatMap fun e => match e with
    | .wrote _ bytes => bytes
    | _ => []

/-- What was passed to the sends, in call order. -/
def passed (log : List (Ev α)) : List α :=
  log.flatMap fun e => match e with
    | .passed _ bytes => bytes
    | _ => []

/-- What the arguments of `send(Buffer &)` held afterwards. -/
def leftovers (log : List (Ev α)) : List (List α) :=
  log.flatMap fun e => match e with
    | .leftover bytes => [bytes]
    | _ => []

@[simp] theorem taken_append (l l' : List (Ev α)) : taken (l ++ l') = taken l ++ taken l' :=
  List.flatMap_append

@[simp] theorem passed_append (l l' : List (Ev α)) : passed (l ++ l') = passed l ++ passed l' :=
  List.flatMap_append

@[simp] theorem leftovers_append (l l' : List (Ev α)) :
    leftovers (l ++ l') = leftovers l ++ leftovers l' :=
  List.flatMap_append

@[simp] theorem taken_passed (k : Nat) (bs : List α) (l : List (Ev α)) :
    taken (.passed k bs :: l) = taken l := rfl

@[simp] theorem taken_wrote (k : Nat) (bs : List α) (l : List (Ev α)) :
    taken (.wrote k bs :: l) = bs ++ taken l := rfl

@[simp] theorem passed_passed (k : Nat) (bs : List α) (l : List (Ev α)) :
    passed (.passed k bs :: l) = bs ++ passed l := rfl

@[simp] theorem passed_wrote (k : Nat) (bs : List α) (l : List (Ev α)) :
    passed (.wrote k bs :: l) = passed l := rfl

@[simp] theorem leftovers_passed (k : Nat) (bs : List α) (l : List (Ev α)) :
    leftovers (.passed k bs :: l) = leftovers l := rfl

@[simp] theorem leftovers_wrote (k : Nat) (bs : List α) (l : List (Ev α)) :
    leftovers (.wrote k bs :: l) = leftovers l := rfl

theorem taken_tail {bs : List α} {tail : List (Ev α)} (h : ∀ e ∈ tail, e = .leftover bs) :
    taken tail = [] ∧ passed tail = [] := by
  simp only [taken, passed, List.flatMap_eq_nil_iff]
  exact ⟨fun e he => by rw [h e he], fun e he => by rw [h e he]⟩

theorem leftovers_tail {tail : List (Ev α)} (h : ∀ e ∈ tail, e = .leftover []) :
    ∀ bytes ∈ leftovers tail, bytes = [] := by
  intro bytes hb
  simp only [leftovers, List.mem_flatMap] at hb
  obtain ⟨e, he, hb⟩ := hb
  rw [h e he] at hb
  exact List.mem_singleton.mp hb

/-! ## The invariant -/

structure Fifo (s : Conn α) : Prop where
  fault : s.fault = none
  state : s.state = .connected
  frames : ∀ f ∈ s.stack, f = .writeEnd ∨ ∃ todo, f = .user todo ∧ ∀ act ∈ todo, SendsOn act
  channel : ∃ c, s.channel = some c ∧ c.fdOpen = true ∧
    (s.output.contents ≠ [] → c.writeEnabled = true)
  stream : taken s.log ++ s.output.contents = passed s.log
  empty : ∀ bytes ∈ leftovers s.log, bytes = []

theorem isendLoop_accepting {len : Nat} {ws : List WriteOutcome} (hws : Accepting ws)
    (sended : Nat) (h : sended ≤ len) :
    (isendLoop len ws sended h).stop = .done ∨ (isendLoop len ws sended h).stop = .again := by
  induction ws generalizing sended with
  | nil =>
      unfold isendLoop
      split
      · exact Or.inl rfl
      · exact Or.inr rfl
  | cons w ws ih =>
      have htail : Accepting ws := fun v hv => hws v (List.mem_cons_of_mem _ hv)
      have hhead := hws w List.mem_cons_self
      unfold isendLoop
      split
      · exact Or.inl rfl
      · cases w with
        | wrote n => exact ih htail _ _
        | eintr => exact ih htail _ _
        | eagain => exact Or.inr rfl
        | reset => exact absurd rfl hhead.1
        | other => exact absurd rfl hhead.2

theorem trySend_accepting {c : Channel} (hopen : c.fdOpen = true) {ws : List WriteOutcome}
    (hws : Accepting ws) (len : Nat) :
    (trySend c len ws).stop = .done ∨ (trySend c len ws).stop = .again := by
  unfold trySend
  rw [if_pos hopen]
  exact isendLoop_accepting hws _ _

theorem stopOf_accepting {codec : Codec α} {s : Conn α} {act : Action α} (hact : SendsOn act)
    {c : Channel} (hch : s.channel = some c) (hopen : c.fdOpen = true) {st : Stop}
    (h : stopOf codec s act = some st) : st = .done ∨ st = .again := by
  unfold stopOf at h
  rw [hch] at h
  cases act with
  | sendStr bytes ws =>
      simp only [Option.ite_none_right_eq_some, Option.some.injEq] at h
      exact h.2 ▸ trySend_accepting hopen hact _
  | sendBuffer buf ws =>
      simp only [Option.ite_none_left_eq_some, Option.some.injEq] at h
      exact h.2 ▸ trySend_accepting hopen hact _
  | sendInput ws =>
      simp only [Option.ite_none_left_eq_some, Option.some.injEq] at h
      exact h.2 ▸ trySend_accepting hopen hact _
  | sendMsg msg ws =>
      simp only [Option.ite_none_left_eq_some, Option.some.injEq] at h
      exact h.2 ▸ trySend_accepting hopen hact _
  | closeNow => exact hact.elim
  | close => exact hact.elim
  | consume len => exact hact.elim
  | addIdleCB => exact hact.elim
  | exit => exact hact.elim

/-- One send: the new bytes are last in the stream. -/
theorem Fifo.performs {codec : Codec α} {s s' : Conn α} {act : Action α} (hs : Fifo s)
    (hact : SendsOn act) (h : Performs codec s act s') : Fifo s' := by
  obtain ⟨c, hch, hopen, hon⟩ := hs.channel
  cases h with
  | sends h =>
      cases h with
      | closed _ _ hnone => exact absurd hnone (by simp [hch])
      | @queued bs o i p l tail c₁ _ _ hch₁ hout hqueue _ hleft hlog =>
          obtain rfl : c = c₁ := Option.some.inj (hch.symm.trans hch₁)
          have htail := taken_tail hleft
          refine ⟨hs.fault, hs.state, hs.frames, ⟨c, rfl, hopen, fun h => ?_⟩, ?_, ?_⟩
          · rcases hqueue with hq | hq | hq
            · exact absurd hq h
            · exact hon hq
            · exact hq
          · simp only [hlog, taken_append, passed_append, taken_passed, passed_passed, htail, hout,
              ← hs.stream, List.append_nil, List.append_assoc]
          · intro bytes hb
            simp only [hlog, leftovers_append, leftovers_passed, List.mem_append] at hb
            exact hb.elim (hs.empty bytes) (leftovers_tail hleft bytes)
      | @wrote bs base w rest o i p l tail c₁ c' st f _ hstop hkept hch₁ hsplit hoff hout hfd
          hstays hrest hfault _ hleft hlog =>
          obtain rfl : c = c₁ := Option.some.inj (hch.symm.trans hch₁)
          have htail := taken_tail hleft
          -- bytes already queued mean write interest is on, and then `isend` is not called
          have hbase : base = [] := by
            by_contra hne
            obtain ⟨hsame, hoffc⟩ := hoff hne
            have hwon := hon (hsame ▸ hne)
            simp [hoffc] at hwon
          subst hbase
          have hst := stopOf_accepting hact hch hopen hstop
          have hother : st ≠ .other := by
            rcases hst with h | h <;> simp [h]
          refine ⟨?_, hs.state, hs.frames, ⟨c', rfl, hfd.trans hopen, fun h => ?_⟩, ?_, ?_⟩
          · exact (hfault.resolve_right fun h => hother h.2.1).trans hs.fault
          · exact (hrest (by simpa [hout] using h)).resolve_right fun h => hother h.1
          · simp only [hlog, taken_append, passed_append, taken_passed, passed_passed, taken_wrote,
              passed_wrote, htail, hout, List.nil_append, List.append_nil, List.append_assoc]
            rw [← List.append_assoc (taken s.log), ← hs.stream, List.append_assoc, List.append_assoc,
              ← hsplit, List.nil_append]
          · intro bytes hb
            simp only [hlog, leftovers_append, leftovers_passed, leftovers_wrote,
              List.mem_append] at hb
            exact hb.elim (hs.empty bytes) (leftovers_tail hleft bytes)
      | reset _ hstop =>
          rcases stopOf_accepting hact hch hopen hstop with h | h <;> cases h
  | shuts => exact hact.elim
  | shutAlready => exact hact.elim
  | close => exact hact.elim
  | consume => exact hact.elim
  | overrun => exact hact.elim
  | addIdle => exact hact.elim
  | addNoIdle => exact hact.elim
  | exit => exact hact.elim

theorem Fifo.event {codec : Codec α} {s s' : Conn α} {ch : Choice α} (hs : Fifo s)
    (hstack : s.stack = []) (hch : OnlySends s ch) (h : Move codec ch none s s') : Fifo s' := by
  obtain ⟨c, hchan, hopen, hon⟩ := hs.channel
  have hevent : (∃ act, ch.event = .call act ∧ SendsOn act) ∨
      ∃ ws, ch.event = .writable ws ∧ Accepting ws := hch.event hstack
  have hattach : ch.event.attaches = false := by
    rcases hevent with ⟨_, h, _⟩ | ⟨_, h, _⟩ <;> rw [h] <;> rfl
  have hshut : ch.event.shuts = false := by
    rcases hevent with ⟨_, h, _⟩ | ⟨_, h, _⟩ <;> rw [h] <;> rfl
  cases h with
  | faults _ why =>
      rcases why with h | h
      · simp [hchan] at h
      · simp [hattach] at h
  | chore => exact ⟨hs.fault, hs.state, hs.frames, hs.channel, hs.stream, hs.empty⟩
  | call event h =>
      rcases hevent with ⟨act, heq, hact⟩ | ⟨_, heq, _⟩
      · rw [event] at heq
        cases heq
        exact hs.performs hact h
      · simp [event] at heq
  | shut _ _ event => simp [hshut] at event
  | shutdown _ _ event => rcases hevent with ⟨_, h, _⟩ | ⟨_, h, _⟩ <;> simp [event] at h
  | attach _ _ _ _ _ _ _ event => simp [hattach] at event
  | sets _ _ _ _ channel => simp [hchan] at channel
  | readable event => rcases hevent with ⟨_, h, _⟩ | ⟨_, h, _⟩ <;> simp [event] at h
  | @flushReset _ c' ws _ event _ hchan' hopen' stop =>
      rcases hevent with ⟨_, h, _⟩ | ⟨ws', h, hws⟩
      · simp [event] at h
      · obtain rfl : ws = ws' := by simpa [event] using h
        rcases trySend_accepting hopen' hws s.output.size with h | h <;> simp [h] at stop
  | @flush _ c' ws w o callback event _ hchan' _ stop split writablecb =>
      obtain rfl : c = c' := Option.some.inj (hchan.symm.trans hchan')
      refine ⟨hs.fault, hs.state, ?_, ⟨_, rfl, (afterIsend_fdOpen c _).trans hopen, fun h => ?_⟩,
        ?_, ?_⟩
      · intro f hf
        simp only [hstack, List.mem_append, List.mem_singleton] at hf
        rcases hf with hf | hf
        · rcases writablecb with hcb | ⟨hcb, -⟩
          · simp [hcb] at hf
          · rw [hcb, List.mem_singleton] at hf
            exact Or.inr ⟨ch.body, hf, hch.body⟩
        · exact Or.inl hf
      · have hmore : s.output.contents ≠ [] := by
          intro hnil
          rw [hnil, List.append_eq_nil_iff] at split
          exact h split.2
        exact afterIsend_writeEnabled _ (hon hmore)
      · have hstream := hs.stream
        rw [← split] at hstream
        simpa [taken, passed] using hstream
      · intro bytes hb
        exact hs.empty bytes (by simpa [leftovers] using hb)
  | handshake _ state => simp [hs.state] at state
  | refused _ state => simp [hs.state] at state

theorem Fifo.frame {codec : Codec α} {s s' : Conn α} {ch : Choice α} {f : Frame α}
    (hs : Fifo (s.push f)) (h : Move codec ch (some f) s s') : Fifo s' := by
  have hrest : ∀ g ∈ s.stack, g = .writeEnd ∨ ∃ todo, g = .user todo ∧ ∀ act ∈ todo, SendsOn act :=
    fun g hg => hs.frames g (List.mem_cons_of_mem f hg)
  have hnow : Fifo s := ⟨hs.fault, hs.state, hrest, hs.channel, hs.stream, hs.empty⟩
  obtain ⟨c, hchan, hopen, hon⟩ := hnow.channel
  rcases hs.frames f List.mem_cons_self with rfl | ⟨todo, rfl, htodo⟩
  · cases h with
    | faults _ why =>
        rcases why with h | ⟨c', h, hclosed⟩
        · simp [hchan] at h
        · obtain rfl : c = c' := Option.some.inj (hchan.symm.trans h)
          simp [hopen] at hclosed
    | handshake from' => simp at from'
    | refused from' => simp at from'
    | finish => exact hnow
    | writeOff hchan' hopen' houtput =>
        exact ⟨hs.fault, hs.state, hrest, ⟨_, rfl, hopen', absurd houtput⟩, hs.stream, hs.empty⟩
  · cases h with
    | faults _ why => exact why.elim
    | handshake from' => simp at from'
    | refused from' => simp at from'
    | finish => exact hnow
    | @perform _ _ act todo h =>
        have hbody : Fifo (s.push (.user todo)) := by
          refine ⟨hs.fault, hs.state, ?_, hs.channel, hs.stream, hs.empty⟩
          intro g hg
          rcases List.mem_cons.mp hg with rfl | hg
          · exact Or.inr ⟨todo, rfl, fun a ha => htodo a (List.mem_cons_of_mem _ ha)⟩
          · exact hrest g hg
        exact hbody.performs (htodo act List.mem_cons_self) h

/-- From a quiet connection on, in every state of every run of sends and writable
events, callbacks that send included: what the socket took followed by `output_`
is what was passed, in call order; every buffer passed is empty afterwards; and
bytes in `output_` mean that write interest is on. -/
theorem sends_are_fifo [Inhabited α] (codec : Codec α) (s : Conn α) (hs : Quiet s)
    (cs : List (Choice α)) (hcs : Driven.Along (step codec) OnlySends s cs) :
    let t := Driven.run (step codec) s cs
    t.fault = none ∧ t.state = .connected ∧
      taken t.log ++ t.output.contents = passed t.log ∧
      (∀ bytes ∈ leftovers t.log, bytes = []) ∧
      (t.output.contents ≠ [] → ∃ c, t.channel = some c ∧ c.writeEnabled = true) := by
  obtain ⟨c, hch, hopen, -⟩ := hs.channel
  have hstart : Fifo s := {
    fault := hs.fault
    state := hs.state
    frames := by simp [hs.stack]
    channel := ⟨c, hch, hopen, fun h => absurd hs.output h⟩
    stream := by simp [hs.log, hs.output, taken, passed]
    empty := by simp [hs.log, leftovers] }
  have hend := run_of_moves codec (I := Fifo) (fun s s' ch _ hstack hi hp hm => hi.event hstack hp hm)
    (fun s s' ch f _ hi _ hm => hi.frame hm) hstart hcs
  obtain ⟨c', hch', -, hon⟩ := hend.channel
  exact ⟨hend.fault, hend.state, hend.stream, hend.empty, fun h => ⟨c', hch', hon h⟩⟩

/-- Three bytes of which the socket takes one, then a writable event that takes
one more and the rest, and a callback that sends again. -/
def fifoRun : List (Choice UInt8) :=
  [{ event := .call (.sendStr [0x61, 0x62, 0x63] [.wrote 0, .eagain]) },
    { event := .writable [.wrote 0, .eintr, .wrote 7], body := [.sendMsg [0x64] [.eagain]] },
    .go]

theorem sends_are_fifo_callback :
    let t := Driven.run (step LineCodec.codec) (opened .none true false (-1)) fifoRun
    taken t.log ++ t.output.contents = [0x61, 0x62, 0x63, 0x64, 0x0d, 0x0a] ∧
      t.output.contents ≠ [] ∧ ∃ c, t.channel = some c ∧ c.writeEnabled = true := by
  have hne : (Driven.run (step LineCodec.codec) (opened .none true false (-1))
      fifoRun).output.contents ≠ [] := by decide +kernel
  have h := sends_are_fifo LineCodec.codec (opened .none true false (-1))
    ⟨rfl, rfl, rfl, ⟨_, rfl, rfl, rfl⟩, rfl, rfl⟩ fifoRun ?_
  · have hpassed : passed (Driven.run (step LineCodec.codec) (opened .none true false (-1))
        fifoRun).log = [0x61, 0x62, 0x63, 0x64, 0x0d, 0x0a] := by decide +kernel
    exact ⟨h.2.2.1.trans hpassed, hne, h.2.2.2.2 hne⟩
  · refine ⟨⟨fun _ => Or.inl ⟨_, rfl, ?_⟩, nofun⟩, ⟨fun _ => Or.inr ⟨_, rfl, ?_⟩, ?_⟩,
      ⟨fun h => ?_, nofun⟩, trivial⟩
    · simp [SendsOn, Accepting]
    · simp [Accepting]
    · simp [SendsOn, Accepting]
    · have hrun : (Driven.run (step LineCodec.codec) (opened .none true false (-1))
          (fifoRun.take 2)).stack.isEmpty = false := by decide +kernel
      have hnil : (Driven.run (step LineCodec.codec) (opened .none true false (-1))
          (fifoRun.take 2)).stack = [] := h
      simp [hnil] at hrun

end Conn

end Handy
