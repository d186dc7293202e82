import Handy.Conn.Machine
import Handy.Lib.Run

/-! # What a step of the connection can do

Each result about runs splits a step into its cases. The cases are stated once:
`Sends` says what the four ways to send do, `Performs` what a call of user code
does, and `Move` what a step does, with the running frame as an index. The
relations keep only what the results above need; `move_of_step` is the link to
the functions.
-/

namespace Handy

namespace Conn

variable {α : Type}

/-! ## Writing -/

/-- `channel_` after an `isend` that ended so. -/
def afterIsend (c : Channel) (st : Stop) : Channel :=
  if st = .again then { c with writeEnabled := true } else c

theorem isendLoop_stop (len : Nat) (ws : List WriteOutcome) (sended : Nat) (h : sended ≤ len) :
    ((isendLoop len ws sended h).stop = .done ↔ (isendLoop len ws sended h).sended = len) := by
  induction ws generalizing sended with
  | nil =>
      unfold isendLoop
      by_cases hl : len = sended
      · simp [hl]
      · simp only [hl, if_false]
        exact ⟨nofun, fun h => absurd h.symm hl⟩
  | cons w ws ih =>
      unfold isendLoop
      by_cases hl : len = sended
      · simp [hl]
      · simp only [hl, if_false]
        cases w with
        | wrote n => exact ih _ _
        | eintr => exact ih _ _
        | eagain => exact ⟨nofun, fun h => absurd h.symm hl⟩
        | reset => exact ⟨nofun, fun h => absurd h.symm hl⟩
        | other => exact ⟨nofun, fun h => absurd h.symm hl⟩

/-- `isend` is through exactly when everything was accepted. -/
theorem trySend_done (c : Channel) (len : Nat) (ws : List WriteOutcome) :
    (trySend c len ws).stop = .done ↔ (trySend c len ws).sended = len :=
  isendLoop_stop len _ 0 _

theorem trySend_refused {c : Channel} (hc : c.fdOpen = false) {len : Nat} (hl : len ≠ 0)
    (ws : List WriteOutcome) : (trySend c len ws).stop = .other := by
  unfold trySend isendLoop
  simp only [hc, hl, if_false, Bool.false_eq_true]

theorem fdOpen_of_stop {c : Channel} (len : Nat) (ws : List WriteOutcome)
    (hd : (trySend c len ws).stop ≠ .done) (ho : (trySend c len ws).stop ≠ .other) :
    c.fdOpen = true := by
  by_contra hc
  rw [Bool.not_eq_true] at hc
  by_cases hl : len = 0
  · have hz : (trySend c len ws).sended = len := by
      have hle := (trySend c len ws).le
      omega
    exact hd ((trySend_done c len ws).mpr hz)
  · exact ho (trySend_refused hc hl ws)

@[simp] theorem afterIsend_fdOpen (c : Channel) (st : Stop) :
    (afterIsend c st).fdOpen = c.fdOpen := by
  unfold afterIsend
  split <;> rfl

theorem afterIsend_writeEnabled {c : Channel} (st : Stop) (h : c.writeEnabled = true) :
    (afterIsend c st).writeEnabled = true := by
  unfold afterIsend
  split
  · rfl
  · exact h

theorem channel_self {s : Conn α} {c : Channel} (hch : s.channel = some c) :
    { s with channel := some c } = s := by
  rw [← hch]

theorem writeEnabled_self {c : Channel} (hw : c.writeEnabled = true) :
    { c with writeEnabled := true } = c := by
  rw [← hw]

/-- `isend` changes the write interest and nothing else of the connection. -/
theorem isend_eq {s : Conn α} {c : Channel} (hch : s.channel = some c) {buf : List α} {len : Nat}
    (hlen : buf.length = len) (ws : List WriteOutcome) :
    s.isend c buf ws =
      { s with
        channel := some (afterIsend c (trySend c len ws).stop)
        log := s.log ++ [.wrote s.attempt (buf.take (trySend c len ws).sended)] } := by
  subst hlen
  unfold isend afterIsend
  by_cases ha : (trySend c buf.length ws).stop = .again
  · have hopen : c.fdOpen = true :=
      fdOpen_of_stop buf.length ws (by simp [ha]) (by simp [ha])
    cases hw : c.writeEnabled with
    | false => simp [ha, emit, enableWrite, hopen]
    | true => simp [ha, emit, writeEnabled_self hw, ← hch]
  · simp [ha, emit, ← hch]

/-- `enableWrite(true)` unless it is on, on a live `channel_`. -/
theorem ensureWrite_eq {s : Conn α} {c : Channel} (hch : s.channel = some c) :
    s.ensureWrite =
      { s with
        channel := some { c with writeEnabled := true }
        fault := if c.writeEnabled = true ∨ c.fdOpen = true then s.fault else some .fatal } := by
  unfold ensureWrite
  rw [hch]
  cases hw : c.writeEnabled with
  | false => simp [hw, enableWrite]
  | true => simp [hw, writeEnabled_self hw, ← hch]

/-! ## Sending -/

/-- What a call passes to `send`, or to `sendMsg` as a frame. -/
def passedBy (codec : Codec α) (s : Conn α) : Action α → Option (List α)
  | .sendStr bytes _ => some bytes
  | .sendBuffer buf _ => some buf.contents
  | .sendInput _ => some s.input.contents
  | .sendMsg msg _ => some (codec.frame msg)
  | _ => none

/-- How `isend` ends in the call, if the call gets to it. -/
def stopOf (codec : Codec α) (s : Conn α) (act : Action α) : Option Stop :=
  match s.channel, act with
  | some c, .sendStr bytes ws =>
      if s.output.empty then some (trySend c bytes.length ws).stop else none
  | some c, .sendBuffer buf ws =>
      if c.writeEnabled ∨ buf.size = 0 then none else some (trySend c buf.size ws).stop
  | some c, .sendInput ws =>
      if c.writeEnabled ∨ s.input.size = 0 then none else some (trySend c s.input.size ws).stop
  | some c, .sendMsg msg ws =>
      let len := s.output.size + (codec.frame msg).length
      if len = 0 then none else some (trySend c len ws).stop
  | _, _ => none

/-- What `send` in its four forms does. `i` and `p` are `input_` and its stream
position afterwards, which only `send(getInput())` changes; `t` says what the
argument buffer held in the end. -/
inductive Sends (codec : Codec α) (s : Conn α) (act : Action α) : Conn α → Prop
  /-- `channel_` is null: only `sendMsg` leaves something, in `output_` -/
  | closed {bs : List α} {o : Buffer α} {l t : List (Ev α)}
      (passed : passedBy codec s act = some bs) (stop : stopOf codec s act = none)
      (channel : s.channel = none)
      (output : o.contents = s.output.contents ∨ o.contents = s.output.contents ++ bs)
      (left : ∀ e ∈ t, e = .leftover bs)
      (log : l = s.log ++ .passed (s.ended + 1) bs :: t) :
      Sends codec s act { s with output := o, log := l }
  /-- everything goes behind `output_` -/
  | queued {bs : List α} {o i : Buffer α} {p : Nat} {l t : List (Ev α)} {c : Channel}
      (passed : passedBy codec s act = some bs) (stop : stopOf codec s act = none)
      (channel : s.channel = some c)
      (output : o.contents = s.output.contents ++ bs)
      (on : o.contents = [] ∨ s.output.contents ≠ [] ∨ c.writeEnabled = true)
      (input : i = s.input ∧ p = s.pos ∨
        (∃ ws, act = .sendInput ws) ∧ i.contents = [] ∧ p = s.pos + s.input.size)
      (left : ∀ e ∈ t, e = .leftover [])
      (log : l = s.log ++ .passed (s.ended + 1) bs :: t) :
      Sends codec s act { s with channel := some c, output := o, input := i, pos := p, log := l }
  /-- `isend` of `w ++ rest` took `w`, and `rest` goes behind `b` -/
  | wrote {bs b w rest : List α} {o i : Buffer α} {p : Nat} {l t : List (Ev α)}
      {c c' : Channel} {st : Stop} {f : Option Fault}
      (passed : passedBy codec s act = some bs) (stop : stopOf codec s act = some st)
      (kept : st ≠ .reset) (channel : s.channel = some c)
      (split : b ++ (w ++ rest) = s.output.contents ++ bs)
      (off : b ≠ [] → s.output.contents = b ∧ c.writeEnabled = false)
      (output : o.contents = b ++ rest)
      (fdOpen : c'.fdOpen = c.fdOpen)
      (stays : c.writeEnabled = true → c'.writeEnabled = true)
      (on : rest ≠ [] → c'.writeEnabled = true ∨
        st = .other ∧ ∃ bytes ws, act = .sendStr bytes ws)
      (fault : f = s.fault ∨ f = some .fatal ∧ st = .other ∧ c.fdOpen = false ∧
        c.writeEnabled = false ∧ ∀ bytes ws, act ≠ .sendStr bytes ws)
      (input : i = s.input ∧ p = s.pos ∨
        (∃ ws, act = .sendInput ws) ∧ i.contents = [] ∧ p = s.pos + s.input.size)
      (left : ∀ e ∈ t, e = .leftover [])
      (log : l = s.log ++ .passed (s.ended + 1) bs :: .wrote s.attempt w :: t) :
      Sends codec s act
        { s with channel := some c', output := o, input := i, pos := p, fault := f, log := l }
  /-- the peer is gone: `cleanup` is called -/
  | reset {bs w : List α} {o : Buffer α} {l t : List (Ev α)} {c : Channel}
      (passed : passedBy codec s act = some bs) (stop : stopOf codec s act = some .reset)
      (channel : s.channel = some c) (fdOpen : c.fdOpen = true)
      (output : o.contents = s.output.contents ∨ o.contents = s.output.contents ++ bs)
      (own : ∀ x ∈ w, x ∈ s.output.contents ++ bs)
      (left : ∀ e ∈ t, e = .leftover bs)
      (log : l = s.log ++ .passed (s.ended + 1) bs :: .wrote s.attempt w :: t) :
      Sends codec s act
        { s with channel := some c, output := o, stack := .cleanup :: s.stack, log := l }

@[simp] theorem emit_channel (s : Conn α) (e : Ev α) : (s.emit e).channel = s.channel := rfl

@[simp] theorem push_stack (s : Conn α) (f : Frame α) : (s.push f).stack = f :: s.stack := rfl

@[simp] theorem push_toTcpConn (s : Conn α) (f : Frame α) :
    (s.push f).toTcpConn = s.toTcpConn := rfl

@[simp] theorem push_fault (s : Conn α) (f : Frame α) : (s.push f).fault = s.fault := rfl

@[simp] theorem push_log (s : Conn α) (f : Frame α) : (s.push f).log = s.log := rfl

theorem trySend_split (c : Channel) (buf : List α) (ws : List WriteOutcome) :
    buf.take (trySend c buf.length ws).sended ++ buf.drop (trySend c buf.length ws).sended = buf :=
  List.take_append_drop _ _

/-- Bytes `isend` did not take are there unless it is through. -/
theorem trySend_rest {c : Channel} {buf : List α} {ws : List WriteOutcome}
    (h : buf.drop (trySend c buf.length ws).sended ≠ []) : (trySend c buf.length ws).stop ≠ .done := by
  intro hd
  rw [trySend_done] at hd
  exact h (by rw [hd, List.drop_length])

section Send

variable [Inhabited α]

theorem sendStr_sends (codec : Codec α) (s : Conn α) (bytes : List α) (ws : List WriteOutcome) :
    Sends codec s (.sendStr bytes ws)
      ((s.emit (.passed (s.ended + 1) bytes)).sendStr bytes ws) := by
  unfold sendStr
  simp only [emit_channel]
  cases hch : s.channel with
  | none =>
      exact .closed (o := s.output) (t := []) rfl (by simp [stopOf, hch]) hch (Or.inl rfl)
        nofun rfl
  | some c =>
      have houtput : (s.emit (.passed (s.ended + 1) bytes)).output = s.output := rfl
      simp only [houtput]
      by_cases he : s.output.empty
      · have hout : s.output.contents = [] := (Buffer.empty_iff _).mp he
        have hstop : stopOf codec s (.sendStr bytes ws) = some (trySend c bytes.length ws).stop := by
          simp [stopOf, hch, he]
        rw [if_pos he, isend_eq (s := s.emit _) hch rfl]
        have hsplit := trySend_split c bytes ws
        by_cases hr : (trySend c bytes.length ws).stop = .reset
        · have hopen : c.fdOpen = true :=
            fdOpen_of_stop bytes.length ws (by simp [hr]) (by simp [hr])
          have hc : afterIsend c (trySend c bytes.length ws).stop = c := by simp [afterIsend, hr]
          rw [if_pos hr, hc]
          exact .reset (w := bytes.take (trySend c bytes.length ws).sended) (o := s.output)
            (t := []) rfl (hstop.trans (by rw [hr])) hch hopen (Or.inl rfl)
            (fun x hx => List.mem_append_right _ (List.mem_of_mem_take hx)) nofun (by simp [emit])
        · rw [if_neg hr]
          have hon : bytes.drop (trySend c bytes.length ws).sended ≠ [] →
              (afterIsend c (trySend c bytes.length ws).stop).writeEnabled = true ∨
                (trySend c bytes.length ws).stop = .other ∧
                  ∃ b v, Action.sendStr bytes ws = .sendStr b v := by
            intro hrest
            cases hst : (trySend c bytes.length ws).stop with
            | done => exact absurd hst (trySend_rest hrest)
            | again => exact Or.inl (by simp [afterIsend])
            | reset => exact absurd hst hr
            | other => exact Or.inr ⟨rfl, bytes, ws, rfl⟩
          split
          · next hz =>
              rw [List.length_eq_zero_iff] at hz
              exact .wrote (b := []) (w := bytes.take (trySend c bytes.length ws).sended)
                (o := s.output) (i := s.input) (t := []) rfl hstop hr hch
                (by rw [hsplit, hout]) (absurd rfl) (by rw [hz, hout]; rfl)
                (afterIsend_fdOpen c _) (afterIsend_writeEnabled _) hon (Or.inl rfl)
                (Or.inl ⟨rfl, rfl⟩) nofun (by simp [emit])
          · exact .wrote (b := []) (w := bytes.take (trySend c bytes.length ws).sended)
              (i := s.input) (t := []) rfl hstop hr hch (by rw [hsplit, hout]) (absurd rfl)
              (by simp [emit, hout]) (afterIsend_fdOpen c _) (afterIsend_writeEnabled _) hon
              (Or.inl rfl) (Or.inl ⟨rfl, rfl⟩) nofun (by simp [emit])
      · have hstop : stopOf codec s (.sendStr bytes ws) = none := by simp [stopOf, hch, he]
        have hout : s.output.contents ≠ [] := fun h => he ((Buffer.empty_iff _).mpr h)
        rw [if_neg he]
        split
        · next hz =>
            rw [List.length_eq_zero_iff] at hz
            rw [← channel_self (s := s.emit _) hch]
            exact .queued (o := s.output) (i := s.input) (t := []) rfl hstop hch
              (by simp [hz]) (Or.inr (Or.inl hout)) (Or.inl ⟨rfl, rfl⟩) nofun rfl
        · exact .queued (i := s.input) (t := []) rfl hstop hch (Buffer.contents_append _ _)
            (Or.inr (Or.inl hout)) (Or.inl ⟨rfl, rfl⟩) nofun rfl

theorem sendRest_nil {s : Conn α} {c : Channel} {buf : Buffer α} (hz : buf.size = 0)
    (ws : List WriteOutcome) : s.sendRest c buf ws = (s, buf) := by
  unfold sendRest
  exact if_pos hz

theorem sendRest_reset {s : Conn α} {c : Channel} (hch : s.channel = some c) {buf : Buffer α}
    (hz : buf.size ≠ 0) {ws : List WriteOutcome} (hr : (trySend c buf.size ws).stop = .reset) :
    s.sendRest c buf ws =
      ({ s with
        channel := some c
        stack := .cleanup :: s.stack
        log := s.log ++ [.wrote s.attempt (buf.contents.take (trySend c buf.size ws).sended)] },
        buf) := by
  unfold sendRest
  simp only [hz, if_false, hr, if_true, isend_eq hch buf.contents_length]
  rfl

theorem sendRest_wrote {s : Conn α} {c : Channel} (hch : s.channel = some c) {buf : Buffer α}
    (hz : buf.size ≠ 0) {ws : List WriteOutcome} (hr : (trySend c buf.size ws).stop ≠ .reset) :
    ∃ c' o f left,
      s.sendRest c buf ws =
        ({ s with
          channel := some c'
          output := o
          fault := f
          log := s.log ++ [.wrote s.attempt (buf.contents.take (trySend c buf.size ws).sended)] },
          left) ∧
      left.contents = [] ∧
      o.contents = s.output.contents ++ buf.contents.drop (trySend c buf.size ws).sended ∧
      c'.fdOpen = c.fdOpen ∧ (c.writeEnabled = true → c'.writeEnabled = true) ∧
      (buf.contents.drop (trySend c buf.size ws).sended ≠ [] → c'.writeEnabled = true) ∧
      (f = s.fault ∨ f = some .fatal ∧ (trySend c buf.size ws).stop = .other ∧
        c.fdOpen = false ∧ c.writeEnabled = false) := by
  unfold sendRest
  simp only [hz, if_false, hr, isend_eq hch buf.contents_length]
  have hleft : (buf.consume (trySend c buf.size ws).sended (trySend c buf.size ws).le).contents =
      buf.contents.drop (trySend c buf.size ws).sended := Buffer.contents_consume _ _ _
  by_cases hrest : buf.contents.drop (trySend c buf.size ws).sended = []
  · rw [if_pos ((Buffer.size_eq_zero_iff _).mpr (hleft.trans hrest))]
    exact ⟨_, s.output, _, _, rfl, hleft.trans hrest, by simp [hrest], afterIsend_fdOpen c _,
      afterIsend_writeEnabled _, absurd hrest, Or.inl rfl⟩
  · rw [if_neg (fun h => hrest (hleft.symm.trans ((Buffer.size_eq_zero_iff _).mp h))),
      ensureWrite_eq (c := afterIsend c (trySend c buf.size ws).stop) rfl]
    refine ⟨_, _, _, _, rfl, Buffer.rest_absorb _ _, ?_, afterIsend_fdOpen c _, fun _ => rfl,
      fun _ => rfl, ?_⟩
    · rw [Buffer.contents_absorb, hleft]
    · split
      · exact Or.inl rfl
      · next h =>
          have hopen : c.fdOpen = false := by simpa using (not_or.mp h).2
          have hoff : c.writeEnabled = false :=
            eq_false_of_ne_true fun hw => h (Or.inl (afterIsend_writeEnabled _ hw))
          exact Or.inr ⟨rfl, trySend_refused hopen hz ws, hopen, hoff⟩

omit [Inhabited α] in
theorem isend_frame (s : Conn α) (c : Channel) (buf : List α) (ws : List WriteOutcome) :
    (s.isend c buf ws).input = s.input ∧ (s.isend c buf ws).pos = s.pos := by
  unfold isend
  simp only
  split <;> exact ⟨rfl, rfl⟩

omit [Inhabited α] in
theorem ensureWrite_frame (s : Conn α) :
    s.ensureWrite.input = s.input ∧ s.ensureWrite.pos = s.pos := by
  unfold ensureWrite
  split
  · exact ⟨rfl, rfl⟩
  · split <;> exact ⟨rfl, rfl⟩

theorem sendRest_frame (s : Conn α) (c : Channel) (buf : Buffer α) (ws : List WriteOutcome) :
    (s.sendRest c buf ws).1.input = s.input ∧ (s.sendRest c buf ws).1.pos = s.pos := by
  unfold sendRest
  simp only
  split
  · exact ⟨rfl, rfl⟩
  · split
    · exact isend_frame s c _ ws
    · split
      · exact isend_frame s c _ ws
      · simp only [ensureWrite_frame, isend_frame, and_self]

theorem sendBuffer_frame (s : Conn α) (buf : Buffer α) (ws : List WriteOutcome) :
    (s.sendBuffer buf ws).1.input = s.input ∧ (s.sendBuffer buf ws).1.pos = s.pos := by
  unfold sendBuffer
  split
  · exact ⟨rfl, rfl⟩
  · split <;> exact sendRest_frame _ _ _ ws

/-- Both calls of `send(Buffer &)`: of a buffer of the caller's own, which leaves
`input_` alone, and of `input_` itself. -/
theorem sendBuffer_sends (codec : Codec α) (s : Conn α) {act : Action α} (buf : Buffer α)
    (ws : List WriteOutcome) (hpassed : passedBy codec s act = some buf.contents)
    (hstop : stopOf codec s act = stopOf codec s (.sendBuffer buf ws))
    (hact : ∀ bytes ws, act ≠ .sendStr bytes ws)
    {r : Conn α × Buffer α} (hr : (s.emit (.passed (s.ended + 1) buf.contents)).sendBuffer buf ws = r)
    {i : Buffer α} {p : Nat}
    (hi : i = r.1.input ∧ p = r.1.pos ∨
      (∃ v, act = .sendInput v) ∧ buf = s.input ∧ i = r.2 ∧
        p = r.1.pos + (s.input.size - i.size)) :
    Sends codec s act ({ r.1 with input := i, pos := p }.emit (.leftover r.2.contents)) := by
  have hframe : r.1.input = s.input ∧ r.1.pos = s.pos := hr ▸ sendBuffer_frame (s.emit _) buf ws
  rw [hframe.1, hframe.2] at hi
  have hkept : r.2 = buf → i = s.input ∧ p = s.pos := by
    intro h
    rcases hi with hi | ⟨_, rfl, rfl, rfl⟩
    · exact hi
    · exact ⟨h, by rw [h]; omega⟩
  have htaken : r.2.contents = [] → i = s.input ∧ p = s.pos ∨
      (∃ v, act = .sendInput v) ∧ i.contents = [] ∧ p = s.pos + s.input.size := by
    intro h
    rcases hi with hi | ⟨ha, rfl, rfl, rfl⟩
    · exact Or.inl hi
    · have hz : r.2.size = 0 := (Buffer.size_eq_zero_iff _).mpr h
      exact Or.inr ⟨ha, h, by omega⟩
  clear hframe hi
  have htail : r.2.contents = [] → ∀ e ∈ [Ev.leftover r.2.contents], e = .leftover [] := by
    intro h e he
    rw [List.mem_singleton.mp he, h]
  unfold sendBuffer at hr
  simp only [emit_channel] at hr
  cases hch : s.channel with
  | none =>
      rw [hch] at hr
      subst hr
      obtain ⟨rfl, rfl⟩ := hkept rfl
      exact .closed (o := s.output) (t := [.leftover buf.contents]) hpassed
        (hstop.trans (by simp [stopOf, hch])) hch (Or.inl rfl) (by simp) (by simp [emit])
  | some c =>
      rw [hch] at hr
      by_cases hw : c.writeEnabled = true
      · have hnone : stopOf codec s act = none := hstop.trans (by simp [stopOf, hch, hw])
        simp only [hw, if_true] at hr
        rw [sendRest_nil (by simp [Buffer.size_eq_zero_iff])] at hr
        subst hr
        exact .queued hpassed hnone hch (Buffer.contents_absorb _ _) (Or.inr (Or.inr hw))
          (htaken (Buffer.rest_absorb _ _)) (htail (Buffer.rest_absorb _ _)) (by simp [emit])
      · simp only [hw, if_false, Bool.false_eq_true] at hr
        by_cases hz : buf.size = 0
        · have hnone : stopOf codec s act = none := hstop.trans (by simp [stopOf, hch, hz])
          have hnil : buf.contents = [] := (Buffer.size_eq_zero_iff _).mp hz
          rw [sendRest_nil hz, ← channel_self (s := s.emit _) hch] at hr
          subst hr
          refine .queued (o := s.output) hpassed hnone hch (by simp [hnil]) ?_ (htaken hnil)
            (htail hnil) (by simp [emit])
          by_cases ho : s.output.contents = []
          · exact Or.inl ho
          · exact Or.inr (Or.inl ho)
        · have hsome : stopOf codec s act = some (trySend c buf.size ws).stop :=
            hstop.trans (by simp [stopOf, hch, hw, hz])
          rw [Bool.not_eq_true] at hw
          by_cases hreset : (trySend c buf.size ws).stop = .reset
          · have hopen : c.fdOpen = true :=
              fdOpen_of_stop buf.size ws (by simp [hreset]) (by simp [hreset])
            rw [sendRest_reset (s := s.emit _) hch hz hreset] at hr
            subst hr
            obtain ⟨rfl, rfl⟩ := hkept rfl
            exact .reset (w := buf.contents.take (trySend c buf.size ws).sended) (o := s.output)
              (t := [.leftover buf.contents]) hpassed
              (hsome.trans (by rw [hreset])) hch hopen (Or.inl rfl)
              (fun x hx => List.mem_append_right _ (List.mem_of_mem_take hx)) (by simp)
              (by simp [emit])
          · obtain ⟨c', o, f, left, heq, hleft, ho, hfd, hstays, hon, hf⟩ :=
              sendRest_wrote (s := s.emit (.passed (s.ended + 1) buf.contents)) hch hz hreset
            rw [heq] at hr
            subst hr
            exact .wrote (b := s.output.contents)
              (w := buf.contents.take (trySend c buf.size ws).sended) hpassed hsome hreset hch
              (by rw [List.take_append_drop]) (fun _ => ⟨rfl, hw⟩) ho hfd hstays
              (fun h => Or.inl (hon h))
              (hf.imp_right fun h => ⟨h.1, h.2.1, h.2.2.1, h.2.2.2, hact⟩) (htaken hleft)
              (htail hleft) (by simp [emit])

omit [Inhabited α] in
theorem sendOutput_idle {s : Conn α} (h : s.channel = none ∨ s.output.size = 0)
    (ws : List WriteOutcome) : s.sendOutput ws = s := by
  unfold sendOutput
  cases hch : s.channel with
  | none => rfl
  | some c => exact if_pos (h.resolve_left (by simp [hch]))

omit [Inhabited α] in
theorem sendOutput_reset {s : Conn α} {c : Channel} (hch : s.channel = some c)
    (hz : s.output.size ≠ 0) {ws : List WriteOutcome}
    (hr : (trySend c s.output.size ws).stop = .reset) :
    s.sendOutput ws =
      { s with
        channel := some c
        stack := .cleanup :: s.stack
        log := s.log ++
          [.wrote s.attempt (s.output.contents.take (trySend c s.output.size ws).sended)] } := by
  unfold sendOutput
  rw [hch]
  simp only [hz, if_false, hr, if_true, isend_eq hch s.output.contents_length]
  rfl

omit [Inhabited α] in
theorem sendOutput_wrote {s : Conn α} {c : Channel} (hch : s.channel = some c)
    (hz : s.output.size ≠ 0) {ws : List WriteOutcome}
    (hr : (trySend c s.output.size ws).stop ≠ .reset) :
    ∃ c' o f,
      s.sendOutput ws =
        { s with
          channel := some c'
          output := o
          fault := f
          log := s.log ++
            [.wrote s.attempt (s.output.contents.take (trySend c s.output.size ws).sended)] } ∧
      o.contents = s.output.contents.drop (trySend c s.output.size ws).sended ∧
      c'.fdOpen = c.fdOpen ∧ (c.writeEnabled = true → c'.writeEnabled = true) ∧
      (s.output.contents.drop (trySend c s.output.size ws).sended ≠ [] → c'.writeEnabled = true) ∧
      (f = s.fault ∨ f = some .fatal ∧ (trySend c s.output.size ws).stop = .other ∧
        c.fdOpen = false ∧ c.writeEnabled = false) := by
  unfold sendOutput
  rw [hch]
  simp only [hz, if_false, hr, isend_eq hch s.output.contents_length]
  have hleft : (s.output.consume (trySend c s.output.size ws).sended
      (trySend c s.output.size ws).le).contents =
        s.output.contents.drop (trySend c s.output.size ws).sended := Buffer.contents_consume _ _ _
  by_cases hrest : s.output.contents.drop (trySend c s.output.size ws).sended = []
  · rw [if_pos ((Buffer.size_eq_zero_iff _).mpr (hleft.trans hrest))]
    exact ⟨_, _, _, rfl, hleft, afterIsend_fdOpen c _, afterIsend_writeEnabled _, absurd hrest,
      Or.inl rfl⟩
  · rw [if_neg (fun h => hrest (hleft.symm.trans ((Buffer.size_eq_zero_iff _).mp h))),
      ensureWrite_eq (c := afterIsend c (trySend c s.output.size ws).stop) rfl]
    refine ⟨_, _, _, rfl, hleft, afterIsend_fdOpen c _, fun _ => rfl, fun _ => rfl, ?_⟩
    split
    · exact Or.inl rfl
    · next h =>
        have hopen : c.fdOpen = false := by simpa using (not_or.mp h).2
        have hoff : c.writeEnabled = false :=
          eq_false_of_ne_true fun hw => h (Or.inl (afterIsend_writeEnabled _ hw))
        exact Or.inr ⟨rfl, trySend_refused hopen hz ws, hopen, hoff⟩

omit [Inhabited α] in
/-- `sendMsg` sends all of `output_`, the new frame at its end. -/
theorem sendMsg_sends (codec : Codec α) (s : Conn α) (msg : List α) (ws : List WriteOutcome) :
    Sends codec s (.sendMsg msg ws)
      ((s.emit (.passed (s.ended + 1) (codec.frame msg))).sendMsg codec msg ws) := by
  obtain ⟨out, hout⟩ : ∃ out, codec.encode msg s.output = out := ⟨_, rfl⟩
  have hcontents : out.contents = s.output.contents ++ codec.frame msg :=
    hout ▸ codec.contents_encode msg s.output
  have hsize : out.size = s.output.size + (codec.frame msg).length := by
    rw [← Buffer.contents_length, hcontents, List.length_append, Buffer.contents_length]
  obtain ⟨t, ht⟩ : ∃ t : Conn α, t = { s with
      output := out
      log := s.log ++ [.passed (s.ended + 1) (codec.frame msg)] } := ⟨_, rfl⟩
  have hsend : (s.emit (.passed (s.ended + 1) (codec.frame msg))).sendMsg codec msg ws =
      t.sendOutput ws := by
    rw [ht, ← hout]
    rfl
  have htc : t.channel = s.channel := by rw [ht]
  have hto : t.output = out := by rw [ht]
  rw [hsend]
  cases hch : s.channel with
  | none =>
      rw [sendOutput_idle (Or.inl (htc.trans hch)), ht]
      exact .closed (t := []) rfl (by simp [stopOf, hch]) hch (Or.inr hcontents) nofun rfl
  | some c =>
      by_cases hz : out.size = 0
      · have hlen : s.output.size + (codec.frame msg).length = 0 := hsize.symm.trans hz
        have hnil : out.contents = [] := (Buffer.size_eq_zero_iff _).mp hz
        rw [sendOutput_idle (Or.inr (hto ▸ hz)), ← channel_self (htc.trans hch), ht]
        exact .queued (i := s.input) (t := []) rfl (by simp [stopOf, hch, hlen]) hch hcontents
          (Or.inl hnil) (Or.inl ⟨rfl, rfl⟩) nofun rfl
      · have hlen : s.output.size + (codec.frame msg).length ≠ 0 := fun h => hz (hsize.trans h)
        have hstop : stopOf codec s (.sendMsg msg ws) = some (trySend c out.size ws).stop := by
          rw [hsize]
          simp only [stopOf, hch, hlen, if_false]
        by_cases hr : (trySend c out.size ws).stop = .reset
        · have hopen : c.fdOpen = true :=
            fdOpen_of_stop out.size ws (by simp [hr]) (by simp [hr])
          rw [sendOutput_reset (htc.trans hch) (hto ▸ hz) (hto ▸ hr), hto, ht]
          exact .reset (w := out.contents.take (trySend c out.size ws).sended) (t := []) rfl
            (hstop.trans (by rw [hr])) hch hopen (Or.inr hcontents)
            (fun x hx => hcontents ▸ List.mem_of_mem_take hx) nofun (by simp)
        · obtain ⟨c', o, f, heq, ho, hfd, hstays, hon, hf⟩ :=
            sendOutput_wrote (htc.trans hch) (hto ▸ hz) (hto ▸ hr)
          have hfault : t.fault = s.fault := by rw [ht]
          rw [hto] at heq ho hon hf
          rw [hfault] at hf
          rw [heq, ht]
          exact .wrote (b := []) (w := out.contents.take (trySend c out.size ws).sended)
            (i := s.input) (t := []) rfl hstop hr hch
            (by rw [List.nil_append, List.take_append_drop, hcontents]) (absurd rfl) ho hfd hstays
            (fun h => Or.inl (hon h))
            (hf.imp_right fun h => ⟨h.1, h.2.1, h.2.2.1, h.2.2.2, by simp⟩) (Or.inl ⟨rfl, rfl⟩)
            nofun (by simp)

end Send

/-! ## Calls -/

inductive Performs (codec : Codec α) (s : Conn α) : Action α → Conn α → Prop
  | sends {act : Action α} {s' : Conn α} (h : Sends codec s act s') : Performs codec s act s'
  | shuts {c : Channel} (channel : s.channel = some c) (fdOpen : c.fdOpen = true) :
      Performs codec s .closeNow
        { s with channel := some { c with fdOpen := false }, stack := .handleRead :: s.stack }
  | shutAlready (closed : ∀ c, s.channel = some c → c.fdOpen = false) :
      Performs codec s .closeNow s
  | close (n : Nat) : Performs codec s .close { s with closeTasks := n }
  | consume {len : Nat} (le : len ≤ s.input.size) :
      Performs codec s (.consume len)
        { s with input := s.input.consume len le, pos := s.pos + len }
  | overrun {len : Nat} (lt : s.input.size < len) :
      Performs codec s (.consume len) { s with fault := some .consumePastEnd }
  | addIdle (channel : s.channel.isSome = true) :
      Performs codec s .addIdleCB
        { s with idleIds := s.idleIds ++ [s.nextIdle], nextIdle := s.nextIdle + 1 }
  | addNoIdle (channel : s.channel.isSome = false) : Performs codec s .addIdleCB s
  | exit : Performs codec s .exit { s with exited := true }

theorem closeChannel_open {c : Channel} (hc : c.fdOpen = true) (s : Conn α) :
    s.closeChannel c =
      { s with channel := some { c with fdOpen := false }, stack := .handleRead :: s.stack } :=
  if_pos hc

theorem closeChannel_closed {c : Channel} (hc : c.fdOpen = false) (s : Conn α) :
    s.closeChannel c = s :=
  if_neg (by simp [hc])

theorem performs_perform [Inhabited α] (codec : Codec α) (s : Conn α) (act : Action α) :
    Performs codec s act (s.perform codec act) := by
  cases act with
  | sendStr bytes ws => exact .sends (sendStr_sends codec s bytes ws)
  | sendBuffer buf ws =>
      exact .sends (sendBuffer_sends codec s buf ws rfl rfl (by simp) rfl (Or.inl ⟨rfl, rfl⟩))
  | sendInput ws =>
      have hstop : stopOf codec s (.sendInput ws) = stopOf codec s (.sendBuffer s.input ws) := by
        unfold stopOf
        cases s.channel <;> rfl
      exact .sends (sendBuffer_sends codec s s.input ws rfl hstop (by simp) rfl
        (Or.inr ⟨⟨ws, rfl⟩, rfl, rfl, rfl⟩))
  | sendMsg msg ws => exact .sends (sendMsg_sends codec s msg ws)
  | closeNow =>
      unfold perform
      cases hch : s.channel with
      | none => exact .shutAlready (by simp [hch])
      | some c =>
          cases hc : c.fdOpen with
          | true =>
              simp only [closeChannel_open hc]
              exact .shuts hch hc
          | false =>
              simp only [closeChannel_closed hc]
              exact .shutAlready (by simp [hch, hc])
  | close =>
      unfold perform
      simp only
      split
      · exact .close _
      · exact .close s.closeTasks
  | consume len =>
      unfold perform
      simp only
      split
      · next h => exact .consume h
      · next h => exact .overrun (Nat.lt_of_not_le h)
  | addIdleCB =>
      unfold perform
      simp only
      split
      · next h => exact .addIdle h
      · next h => exact .addNoIdle (by simpa using h)
  | exit => exact .exit

/-- What a call puts on the stack. -/
theorem stack_of_performs {codec : Codec α} {s s' : Conn α} {act : Action α}
    (h : Performs codec s act s') :
    s'.stack = s.stack ∨ s'.stack = .handleRead :: s.stack ∧ act = .closeNow ∨
      s'.stack = .cleanup :: s.stack ∧ s.channel ≠ none ∧ stopOf codec s act = some .reset := by
  cases h with
  | sends h =>
      cases h with
      | closed => exact Or.inl rfl
      | queued => exact Or.inl rfl
      | wrote => exact Or.inl rfl
      | reset _ hstop hch => exact Or.inr (Or.inr ⟨rfl, by simp [hch], hstop⟩)
  | shuts => exact Or.inr (Or.inl ⟨rfl, rfl⟩)
  | shutAlready => exact Or.inl rfl
  | close => exact Or.inl rfl
  | consume => exact Or.inl rfl
  | overrun => exact Or.inl rfl
  | addIdle => exact Or.inl rfl
  | addNoIdle => exact Or.inl rfl
  | exit => exact Or.inl rfl

/-! ## Steps -/

/-- The call of `readcb_` with `input_` not empty, or no call. -/
inductive CallsRead (ch : Choice α) (s : Conn α) : Conn α → Prop
  | skip (h : s.readcb = .none ∨ s.input.contents = []) : CallsRead ch s s
  | user (readcb : s.readcb = .user) :
      CallsRead ch s
        { s with
          stack := .user ch.body :: s.stack
          log := s.log ++ [.sees s.attempt s.input.contents] }
  | onMsg (readcb : s.readcb = .onMsg) :
      CallsRead ch s { s with stack := .decodeLoop :: s.stack }

inductive CallsState (ch : Choice α) (s : Conn α) : Conn α → Prop
  | skip (statecb : s.statecb = false) : CallsState ch s s
  | user (statecb : s.statecb = true) :
      CallsState ch s
        { s with
          stack := .user ch.body :: s.stack
          log := s.log ++ [.report s.attempt s.state] }

theorem callsRead_callReadcb (ch : Choice α) (s : Conn α) :
    CallsRead ch s (if s.input.size = 0 then s else s.callReadcb ch) := by
  split
  · next h => exact .skip (Or.inr ((Buffer.size_eq_zero_iff _).mp h))
  · unfold callReadcb
    cases h : s.readcb with
    | none => exact .skip (Or.inl h)
    | user => exact .user h
    | onMsg => exact .onMsg h

theorem callsState_callStatecb (ch : Choice α) (s : Conn α) :
    CallsState ch s (s.callStatecb ch) := by
  unfold callStatecb
  split
  · next h => exact .user h
  · next h => exact .skip (by simpa using h)

/-- Where a step can end the process: a null or closed `channel_` in the frames
that use it unchecked, a `fatalif` on the way to `attach`. -/
def MayFault (ch : Choice α) (s : Conn α) : Option (Frame α) → Prop
  | none => s.channel = none ∨ ch.event.attaches = true
  | some .handleRead => s.channel = none ∧ s.state = .handshaking
  | some .readLoop => s.channel = none
  | some .cleanupEnd => s.channel = none
  | some .writeEnd => s.channel = none ∨ ∃ c, s.channel = some c ∧ c.fdOpen = false
  | some _ => False

/-- Where a step that ends the process does so at a null `channel_`; the `onMsg`
lambda has a case of its own. -/
def UsesNull (ch : Choice α) (s : Conn α) (f : Option (Frame α)) : Prop :=
  s.channel = none ∧
    match f with
    | none => ch.event = .connectTimer ∧ s.timeoutPending = true
    | some .handleRead => s.state = .handshaking
    | some .readLoop => s.state = .connected
    | some .cleanupEnd => 0 ≤ s.reconnectInterval ∧ s.exited = false
    | some .writeEnd => s.output.contents = []
    | some _ => False

/-- One step. The first index is the running frame, or none for an event; the
state before it has that frame off the stack. -/
inductive Move (codec : Codec α) (ch : Choice α) : Option (Frame α) → Conn α → Conn α → Prop
  /-- the process stops, or a null pointer is used -/
  | faults {f : Option (Frame α)} {s s' : Conn α} (fault : s'.fault ≠ none)
      (why : MayFault ch s f) (log : s'.log = s.log) (attempt : s'.attempt = s.attempt)
      (ended : s'.ended = s.ended)
      (null : s'.fault = some .nullChannel → UsesNull ch s f) :
      Move codec ch f s s'
  /-- nothing, or bookkeeping of the base -/
  | chore {s : Conn α} (timer : Bool) (b : Base) (idle : b.nextIdle = s.nextIdle)
      (exited : b.exited = s.exited)
      (pending : timer = true → s.timeoutPending = true)
      (listed : b.inReconnectConns = s.inReconnectConns) :
      Move codec ch none s { s with timeoutPending := timer, toBase := b }
  | call {s s' : Conn α} {act : Action α} (event : ch.event = .call act)
      (h : Performs codec s act s') : Move codec ch none s s'
  | shut {s : Conn α} {c : Channel} (timer : Bool) (b : Base) (event : ch.event.shuts = true)
      (idle : b.nextIdle = s.nextIdle) (exited : b.exited = s.exited)
      (channel : s.channel = some c) (fdOpen : c.fdOpen = true)
      (pending : timer = true → s.timeoutPending = true)
      (listed : b.inReconnectConns = s.inReconnectConns) :
      Move codec ch none s
        { s with
          timeoutPending := timer
          toBase := b
          channel := some { c with fdOpen := false }
          stack := .handleRead :: s.stack }
  | shutdown {s : Conn α} (timer : Bool) (b : Base) (event : ch.event = .shutdown)
      (idle : b.nextIdle = s.nextIdle)
      (exited : b.exited = s.exited) (done : s.exited = true)
      (pending : timer = true → s.timeoutPending = true)
      (listed : b.inReconnectConns = s.inReconnectConns) (waits : s.inReconnectConns = true) :
      Move codec ch none s
        { s with timeoutPending := timer, toBase := b, stack := .cleanup :: s.stack }
  | attach {s : Conn α} (timer reuse : Bool) (b : Base) (port : Int)
      (idle : b.nextIdle = s.nextIdle) (exited : b.exited = s.exited)
      (channel : s.channel = none)
      (event : ch.event.attaches = true) (state : s.state ≠ .connected)
      (listed : b.inReconnectConns = true → s.inReconnectConns = true) :
      Move codec ch none s
        { s with
          timeoutPending := timer
          connectTimeout := reuse
          toBase := b
          destPort := port
          state := .handshaking
          channel := some ⟨true, true, true⟩
          attempt := s.attempt + 1
          log := s.log ++ [.attached (s.attempt + 1) s.statecb] }
  /-- a callback is set between two attempts -/
  | sets {s : Conn α} {cb : Setter} (r : ReadCb) (w st : Bool) (event : ch.event = .set cb)
      (channel : s.channel = none) (state : s.state = .closed ∨ s.state = .failed)
      (readcb : r = s.readcb ∨ s.readcb = .none ∧
        (cb = .onRead ∧ r = .user ∨ cb = .onMsg ∧ r = .onMsg))
      (statecb : s.statecb = true → st = true) :
      Move codec ch none s { s with readcb := r, writablecb := w, statecb := st }
  | readable {s : Conn α} {c : Channel} (event : ch.event = .readable)
      (channel : s.channel = some c) (fdOpen : c.fdOpen = true) :
      Move codec ch none s { s with stack := .handleRead :: s.stack }
  /-- `handleWrite` -/
  | flushReset {s : Conn α} {c : Channel} {ws : List WriteOutcome} {w : List α}
      (event : ch.event = .writable ws) (state : s.state = .connected)
      (channel : s.channel = some c) (fdOpen : c.fdOpen = true)
      (stop : (trySend c s.output.size ws).stop = .reset) (own : ∀ x ∈ w, x ∈ s.output.contents) :
      Move codec ch none s
        { s with
          channel := some c
          stack := .cleanup :: s.stack
          log := s.log ++ [.wrote s.attempt w] }
  | flush {s : Conn α} {c : Channel} {ws : List WriteOutcome} {w : List α} {o : Buffer α}
      (callback : List (Frame α))
      (event : ch.event = .writable ws) (state : s.state = .connected)
      (channel : s.channel = some c) (fdOpen : c.fdOpen = true)
      (stop : (trySend c s.output.size ws).stop ≠ .reset)
      (split : w ++ o.contents = s.output.contents)
      (writablecb : callback = [] ∨ callback = [.user ch.body] ∧ o.contents = []) :
      Move codec ch none s
        { s with
          channel := some (afterIsend c (trySend c s.output.size ws).stop)
          output := o
          stack := callback ++ .writeEnd :: s.stack
          log := s.log ++ [.wrote s.attempt w] }
  /-- `handleHandshake`, from `handleRead` or from `handleWrite` -/
  | handshake {f : Option (Frame α)} {s s' : Conn α} {c : Channel} {next : List (Frame α)}
      (from' : f = some .handleRead ∧ next = [.readLoop] ∨
        next = [] ∧ f = none ∧ ∃ ws, ch.event = .writable ws)
      (state : s.state = .handshaking) (channel : s.channel = some c) (fdOpen : c.fdOpen = true)
      (pollout : ch.pollout = true) (statecb : CallsState ch { s with
        channel := some { c with readEnabled := true, writeEnabled := false }
        state := .connected
        stack := next ++ s.stack } s') :
      Move codec ch f s s'
  | refused {f : Option (Frame α)} {s : Conn α} {c : Channel}
      (from' : f = some .handleRead ∨ f = none ∧ ∃ ws, ch.event = .writable ws)
      (state : s.state = .handshaking) (channel : s.channel = some c) :
      Move codec ch f s { s with stack := .cleanup :: s.stack }
  /-- a frame that finds nothing to do -/
  | finish {f : Frame α} {s : Conn α}
      (ends : f = .user [] ∨ f = .handleRead ∧ s.state ≠ .handshaking ∧ s.state ≠ .connected ∨
        f = .readLoop ∧ s.state ≠ .connected ∨ f = .writeEnd) :
      Move codec ch (some f) s s
  | perform {s s' : Conn α} {act : Action α} {todo : List (Action α)}
      (h : Performs codec (s.push (.user todo)) act s') :
      Move codec ch (some (.user (act :: todo))) s s'
  | handleRead {s : Conn α} (state : s.state = .connected) :
      Move codec ch (some .handleRead) s { s with stack := .readLoop :: s.stack }
  /-- `readImp` failed, found the end, or was not called on a closed descriptor -/
  | readEnd {s : Conn α} {c : Channel} {i : Buffer α} (state : s.state = .connected)
      (channel : s.channel = some c) (input : i.contents = s.input.contents) :
      Move codec ch (some .readLoop) s { s with input := i, stack := .cleanup :: s.stack }
  | readRetry {s : Conn α} {c : Channel} {i : Buffer α} (state : s.state = .connected)
      (channel : s.channel = some c) (input : i.contents = s.input.contents) :
      Move codec ch (some .readLoop) s { s with input := i, stack := .readLoop :: s.stack }
  | readAll {s s' : Conn α} {c : Channel} {i : Buffer α} (state : s.state = .connected)
      (channel : s.channel = some c) (fdOpen : c.fdOpen = true)
      (input : i.contents = s.input.contents)
      (readcb : CallsRead ch { s with input := i, log := s.log ++ s.idleIds.map .update } s') :
      Move codec ch (some .readLoop) s s'
  | readData {s : Conn α} {c : Channel} {i : Buffer α} {got : List α} (state : s.state = .connected)
      (channel : s.channel = some c) (fdOpen : c.fdOpen = true)
      (input : i.contents = s.input.contents ++ got) :
      Move codec ch (some .readLoop) s
        { s with
          input := i
          stack := .readLoop :: s.stack
          log := s.log ++ [.read s.attempt got] }
  | writeOff {s : Conn α} {c : Channel} (channel : s.channel = some c) (fdOpen : c.fdOpen = true)
      (output : s.output.contents = []) :
      Move codec ch (some .writeEnd) s { s with channel := some { c with writeEnabled := false } }
  | cleanup {s s' : Conn α}
      (readcb : CallsRead ch { s with
        stack := .cleanupState :: s.stack
        log := s.log ++ [.cleanup s.attempt] } s') :
      Move codec ch (some .cleanup) s s'
  | cleanupState {s s' : Conn α}
      (statecb : CallsState ch { s with
        state := if s.state = .handshaking then .failed else .closed
        timeoutPending := false
        stack := .cleanupEnd :: s.stack } s') :
      Move codec ch (some .cleanupState) s s'
  | reconnect {s : Conn α} {c : Channel} (closing : List (Frame α))
      (wanted : 0 ≤ s.reconnectInterval ∧ s.exited = false) (channel : s.channel = some c)
      (close : closing = [.handleRead] ∨ closing = [] ∧ c.fdOpen = false) :
      Move codec ch (some .cleanupEnd) s
        { s with
          inReconnectConns := true
          reconnectTimers := s.reconnectTimers + 1
          channel := some { c with fdOpen := false }
          stack := closing ++ .reconnectEnd :: s.stack }
  | release {s : Conn α} (closing : List (Frame α))
      (wanted : ¬ (0 ≤ s.reconnectInterval ∧ s.exited = false))
      (close : closing = [.handleRead] ∨ closing = []) :
      Move codec ch (some .cleanupEnd) s
        { s with
          readcb := .none
          writablecb := false
          statecb := false
          channel := none
          ended := s.attempt
          stack := closing ++ s.stack
          log := s.log ++ s.idleIds.map .unregister }
  | reconnectEnd {s : Conn α} :
      Move codec ch (some .reconnectEnd) s { s with channel := none, ended := s.attempt }
  /-- the codec looks at `input_`: a refused frame, or no whole one -/
  | decodeNull {s : Conn α} (channel : s.channel = none)
      (refused : (codec.tryDecode s.input.contents).1 < 0) :
      Move codec ch (some .decodeLoop) s
        { s with
          fault := some .nullChannel
          log := s.log ++ [.sees s.attempt s.input.contents] }
  | decodeShut {s : Conn α} {c : Channel} (channel : s.channel = some c) (fdOpen : c.fdOpen = true) :
      Move codec ch (some .decodeLoop) s
        { s with
          channel := some { c with fdOpen := false }
          stack := .handleRead :: s.stack
          log := s.log ++ [.sees s.attempt s.input.contents] }
  | decodeWait {s : Conn α} :
      Move codec ch (some .decodeLoop) s
        { s with log := s.log ++ [.sees s.attempt s.input.contents] }
  | decodeFrame {s : Conn α} (r : Int) (msg : Slice)
      (decode : codec.tryDecode s.input.contents = (r, msg)) (pos : 0 < r) :
      Move codec ch (some .decodeLoop) s
        { s with
          stack := .user ch.body :: .decodeConsume r.toNat :: s.stack
          log := s.log ++ [.sees s.attempt s.input.contents, .deliver s.pos msg] }
  | consume {s : Conn α} {r : Nat} (le : r ≤ s.input.size) :
      Move codec ch (some (.decodeConsume r)) s
        { s with
          input := s.input.consume r le
          pos := s.pos + r
          stack := .decodeLoop :: s.stack
          log := s.log ++ [.consume r s.input.size] }
  | overrun {s : Conn α} {r : Nat} (lt : s.input.size < r) :
      Move codec ch (some (.decodeConsume r)) s
        { s with
          fault := some .consumePastEnd
          log := s.log ++ [.consume r s.input.size] }

theorem move_handshake (codec : Codec α) (ch : Choice α) {f : Option (Frame α)} (s : Conn α)
    {next : List (Frame α)} (hstate : s.state = .handshaking)
    (hfrom : f = some .handleRead ∧ next = [.readLoop] ∨
      next = [] ∧ f = none ∧ (∃ ws, ch.event = .writable ws) ∧ s.channel ≠ none) :
    Move codec ch f s (s.handleHandshake ch next) := by
  unfold handleHandshake
  cases hch : s.channel with
  | none =>
      rcases hfrom with ⟨rfl, -⟩ | ⟨-, -, -, hlive⟩
      · exact .faults (Option.some_ne_none _) ⟨hch, hstate⟩ rfl rfl rfl fun _ => ⟨hch, hstate⟩
      · exact absurd hch hlive
  | some c =>
      simp only
      split
      · next h =>
          exact .handshake (hfrom.imp id fun h => ⟨h.1, h.2.1, h.2.2.1⟩) hstate hch h.1 h.2
            (callsState_callStatecb ch _)
      · exact .refused (hfrom.imp And.left fun h => ⟨h.2.1, h.2.2.1⟩) hstate hch

/-- `attach` after `connect` has set the port and `Handshaking`, or from outside. -/
theorem move_attach (codec : Codec α) (ch : Choice α) (s : Conn α) (b : Base) (port : Int)
    (reuse timer : Bool) (st : State) (hidle : b.nextIdle = s.nextIdle)
    (hexit : b.exited = s.exited) (hlisted : b.inReconnectConns = true → s.inReconnectConns = true)
    (hevent : ch.event.attaches = true)
    (hstate : s.state ≠ .connected ∨ st = s.state ∧ port = s.destPort) :
    let t : Conn α := { s with toBase := b, destPort := port, connectTimeout := reuse, state := st }
    Move codec ch none s { t.attach with timeoutPending := timer } := by
  intro t
  unfold attach
  split
  · exact .faults (Option.some_ne_none _) (Or.inr hevent) rfl rfl rfl nofun
  · next hfatal =>
      split
      · exact .faults (Option.some_ne_none _) (Or.inr hevent) rfl rfl rfl nofun
      · next hnone =>
          refine .attach timer reuse b port hidle hexit hnone hevent ?_ hlisted
          rcases hstate with h | ⟨hst, hport⟩
          · exact h
          · intro hconn
            apply hfatal
            by_cases hp : s.destPort ≤ 0
            · exact Or.inl ⟨by simpa [t, hport] using hp, by simp [t, hst, hconn]⟩
            · exact Or.inr ⟨by simp only [t, hport]; omega, by simp [t, hst, hconn]⟩

theorem move_connect (codec : Codec α) (ch : Choice α) (s : Conn α) (b : Base)
    (hidle : b.nextIdle = s.nextIdle) (hexit : b.exited = s.exited)
    (hlisted : b.inReconnectConns = true → s.inReconnectConns = true) (port : UInt16) (timeout : Bool)
    (hevent : ch.event.attaches = true) :
    Move codec ch none s ({ s with toBase := b }.connect port timeout) := by
  unfold connect
  split
  · exact .faults (Option.some_ne_none _) (Or.inr hevent) rfl rfl rfl nofun
  · next hbad =>
      have hstate : s.state ≠ .connected := by
        intro h
        simp [h] at hbad
      cases timeout with
      | true =>
          exact move_attach codec ch s b port.toNat true true .handshaking hidle hexit hlisted
            hevent (Or.inl hstate)
      | false =>
          exact move_attach codec ch s b port.toNat false (attach { s with
            toBase := b
            destPort := port.toNat
            connectTimeout := false
            state := .handshaking }).timeoutPending .handshaking hidle hexit hlisted
            hevent (Or.inl hstate)

theorem move_handleWrite [Inhabited α] (codec : Codec α) (ch : Choice α) (s : Conn α) {c : Channel}
    {ws : List WriteOutcome} (hevent : ch.event = .writable ws) (hch : s.channel = some c)
    (hopen : c.fdOpen = true) : Move codec ch none s (s.handleWrite c ch ws) := by
  unfold handleWrite
  cases hstate : s.state with
  | handshaking =>
      exact move_handshake codec ch s hstate (Or.inr ⟨rfl, rfl, ⟨ws, hevent⟩, by simp [hch]⟩)
  | connected =>
      simp only [isend_eq hch s.output.contents_length]
      split
      · next hr =>
          have hc : afterIsend c (trySend c s.output.size ws).stop = c := by simp [afterIsend, hr]
          rw [hc]
          exact .flushReset hevent hstate hch hopen hr (fun x hx => List.mem_of_mem_take hx)
      · next hr =>
          have hsplit : s.output.contents.take (trySend c s.output.size ws).sended ++
              (s.output.consume (trySend c s.output.size ws).sended
                (trySend c s.output.size ws).le).contents = s.output.contents := by
            rw [Buffer.contents_consume, List.take_append_drop]
          split
          · next hcb =>
              exact .flush [.user ch.body] hevent hstate hch hopen hr hsplit
                (Or.inr ⟨rfl, (Buffer.empty_iff _).mp hcb.1⟩)
          · exact .flush [] hevent hstate hch hopen hr hsplit (Or.inl rfl)
  | invalid => exact .chore s.timeoutPending s.toBase rfl rfl id rfl
  | closed => exact .chore s.timeoutPending s.toBase rfl rfl id rfl
  | failed => exact .chore s.timeoutPending s.toBase rfl rfl id rfl

theorem move_closeChannel (codec : Codec α) (ch : Choice α) (s : Conn α) {c : Channel}
    (hch : s.channel = some c) (timer : Bool) (b : Base) (hevent : ch.event.shuts = true)
    (hidle : b.nextIdle = s.nextIdle) (hexit : b.exited = s.exited)
    (hpending : timer = true → s.timeoutPending = true)
    (hlisted : b.inReconnectConns = s.inReconnectConns) :
    Move codec ch none s ({ s with timeoutPending := timer, toBase := b }.closeChannel c) := by
  cases hopen : c.fdOpen with
  | true =>
      rw [closeChannel_open hopen]
      exact .shut timer b hevent hidle hexit hch hopen hpending hlisted
  | false =>
      rw [closeChannel_closed hopen]
      exact .chore timer b hidle hexit hpending hlisted

theorem move_set (codec : Codec α) (ch : Choice α) (s : Conn α) {cb : Setter}
    (hevent : ch.event = .set cb) (hch : s.channel = none)
    (hstate : s.state = .closed ∨ s.state = .failed) : Move codec ch none s (s.set cb) := by
  unfold set
  cases cb with
  | onRead =>
      simp only
      split
      · next h =>
          exact .sets .user s.writablecb s.statecb hevent hch hstate
            (Or.inr ⟨h, Or.inl ⟨rfl, rfl⟩⟩) id
      · exact .faults (Option.some_ne_none _) (Or.inl hch) rfl rfl rfl nofun
  | onMsg =>
      simp only
      split
      · next h =>
          exact .sets .onMsg s.writablecb s.statecb hevent hch hstate
            (Or.inr ⟨h, Or.inr ⟨rfl, rfl⟩⟩) id
      · exact .faults (Option.some_ne_none _) (Or.inl hch) rfl rfl rfl nofun
  | onWritable => exact .sets s.readcb true s.statecb hevent hch hstate (Or.inl rfl) id
  | onState => exact .sets s.readcb s.writablecb true hevent hch hstate (Or.inl rfl) fun _ => rfl

theorem move_dispatch [Inhabited α] (codec : Codec α) (s : Conn α) (ch : Choice α) :
    Move codec ch none s (s.dispatch codec ch) := by
  have hrest : Move codec ch none s s := .chore s.timeoutPending s.toBase rfl rfl id rfl
  unfold dispatch
  cases hev : ch.event with
  | connect port timeout =>
      exact move_connect codec ch s s.toBase rfl rfl id port timeout (by rw [hev]; rfl)
  | attach =>
      exact move_attach codec ch s s.toBase s.destPort s.connectTimeout s.attach.timeoutPending
        s.state rfl rfl id (by rw [hev]; rfl) (Or.inr ⟨rfl, rfl⟩)
  | readable =>
      cases hch : s.channel with
      | none => exact hrest
      | some c =>
          simp only
          split
          · next hopen => exact .readable hev hch hopen
          · exact hrest
  | writable ws =>
      cases hch : s.channel with
      | none => exact hrest
      | some c =>
          simp only
          split
          · next hopen => exact move_handleWrite codec ch s hev hch hopen
          · exact hrest
  | call act => exact .call hev (performs_perform codec s act)
  | closeTask =>
      simp only
      split
      · exact hrest
      · split
        · next c hch =>
            exact move_closeChannel codec ch s hch s.timeoutPending
              { s.toBase with closeTasks := s.closeTasks - 1 } (by rw [hev]; rfl) rfl rfl id rfl
        · exact .chore _ { s.toBase with closeTasks := s.closeTasks - 1 } rfl rfl id rfl
  | connectTimer =>
      simp only
      split
      · next hpending =>
          split
          · next hch =>
              exact .faults (Option.some_ne_none _) (Or.inl hch) rfl rfl rfl
                fun _ => ⟨hch, hev, hpending⟩
          · next c hch =>
              split
              · exact move_closeChannel codec ch s hch false s.toBase (by rw [hev]; rfl) rfl rfl
                  nofun rfl
              · exact .chore false s.toBase rfl rfl nofun rfl
      · exact hrest
  | reconnectTimer =>
      simp only
      split
      · exact hrest
      · exact move_connect codec ch s { s.toBase with
          reconnectTimers := s.reconnectTimers - 1
          inReconnectConns := false } rfl rfl nofun (.ofInt s.destPort) s.connectTimeout
          (by rw [hev]; rfl)
  | set cb =>
      simp only
      split
      · next h => exact move_set codec ch s hev h.1 h.2
      · exact hrest
  | shutdown =>
      simp only
      split
      · next hdone =>
          split
          · next hlisted =>
              exact .shutdown false { s.toBase with reconnectTimers := 0 } hev rfl rfl hdone nofun
                rfl hlisted
          · exact .chore false { s.toBase with reconnectTimers := 0 } rfl rfl nofun rfl
      · exact hrest
  | destroyPoller =>
      simp only
      split
      · next c hch =>
          split
          · exact move_closeChannel codec ch s hch s.timeoutPending s.toBase (by rw [hev]; rfl)
              rfl rfl id rfl
          · exact hrest
      · exact hrest

theorem move_readLoop (codec : Codec α) (ch : Choice α) [Inhabited α] (s : Conn α) :
    Move codec ch (some .readLoop) s (s.readLoop ch) := by
  have hroom : s.input.makeRoomExp.contents = s.input.contents := by simp
  unfold readLoop
  split
  · next h => exact .finish (Or.inr (Or.inr (Or.inl ⟨rfl, h⟩)))
  · next h =>
      have hstate : s.state = .connected := not_not.mp h
      simp only
      cases hch : s.channel with
      | none =>
          exact .faults (Option.some_ne_none _) hch rfl rfl rfl fun _ => ⟨hch, hstate⟩
      | some c =>
          simp only
          rw [← hch]
          split
          · exact .readEnd hstate hch hroom
          · next hclosed =>
              have hopen : c.fdOpen = true := by simpa using hclosed
              cases ch.read with
              | eintr => exact .readRetry hstate hch hroom
              | eagain => exact .readAll hstate hch hopen hroom (callsRead_callReadcb ch _)
              | eof => exact .readEnd hstate hch hroom
              | error => exact .readEnd hstate hch hroom
              | data bytes =>
                  simp only
                  split
                  · exact .readEnd hstate hch hroom
                  · exact .readData hstate hch hopen (by rw [Buffer.contents_fill, hroom])

/-- `cleanup` behind `statecb_`; without a channel `reconnect` is a null access. -/
theorem move_cleanupEnd (codec : Codec α) (ch : Choice α) (s : Conn α) :
    Move codec ch (some .cleanupEnd) s s.cleanupEnd := by
  unfold cleanupEnd
  split
  · next hwanted =>
      unfold reconnect
      simp only
      split
      · next hch =>
          exact .faults (Option.some_ne_none _) hch rfl rfl rfl fun _ => ⟨hch, hwanted⟩
      · next c hch =>
          cases hopen : c.fdOpen with
          | true =>
              rw [closeChannel_open hopen]
              exact .reconnect [.handleRead] hwanted hch (Or.inl rfl)
          | false =>
              have hc : { c with fdOpen := false } = c := by rw [← hopen]
              have h : Move codec ch (some .cleanupEnd) s _ :=
                .reconnect [] hwanted hch (Or.inr ⟨rfl, hopen⟩)
              rw [hc, ← hch] at h
              rw [closeChannel_closed hopen]
              exact h
  · next hwanted =>
      unfold release
      simp only
      split
      · exact .release [] hwanted (Or.inr rfl)
      · split
        · exact .release [.handleRead] hwanted (Or.inl rfl)
        · exact .release [] hwanted (Or.inr rfl)

theorem move_writeEnd (codec : Codec α) (ch : Choice α) [Inhabited α] (s : Conn α) :
    Move codec ch (some .writeEnd) s (s.resume codec ch .writeEnd) := by
  have hrest : Move codec ch (some .writeEnd) s s := .finish (Or.inr (Or.inr (Or.inr rfl)))
  unfold resume
  simp only
  split
  · next hempty =>
      split
      · next hch =>
          exact .faults (Option.some_ne_none _) (Or.inl hch) rfl rfl rfl
            fun _ => ⟨hch, (Buffer.empty_iff _).mp hempty⟩
      · next c hch =>
          split
          · unfold enableWrite
            by_cases hopen : c.fdOpen = true
            · rw [if_pos hopen]
              exact .writeOff hch hopen ((Buffer.empty_iff _).mp hempty)
            · rw [if_neg hopen]
              exact .faults (Option.some_ne_none _) (Or.inr ⟨c, hch, by simpa using hopen⟩) rfl rfl rfl
                nofun
          · exact hrest
  · exact hrest

theorem move_decodeLoop (codec : Codec α) (ch : Choice α) (s : Conn α) :
    Move codec ch (some .decodeLoop) s (s.decodeLoop codec ch) := by
  unfold decodeLoop
  simp only
  split
  · next hneg =>
      split
      · next hch => exact .decodeNull hch hneg
      · next c hch =>
          cases hopen : c.fdOpen with
          | true =>
              rw [closeChannel_open hopen]
              exact .decodeShut hch hopen
          | false =>
              rw [closeChannel_closed hopen]
              exact .decodeWait
  · split
    · exact .decodeWait
    · next hneg hzero =>
        have hpos : 0 < (codec.tryDecode s.input.contents).1 :=
          (Int.lt_or_gt_of_ne hzero).resolve_left hneg
        have h : Move codec ch (some .decodeLoop) s _ :=
          .decodeFrame (codec.tryDecode s.input.contents).1
            (codec.tryDecode s.input.contents).2 rfl hpos
        simpa [emit, push] using h

theorem move_decodeConsume (codec : Codec α) (ch : Choice α) (s : Conn α) (r : Nat) :
    Move codec ch (some (.decodeConsume r)) s (s.decodeConsume r) := by
  unfold decodeConsume
  simp only
  split
  · next h => exact .consume (s := s) h
  · next h => exact .overrun (s := s) (Nat.lt_of_not_le h)

theorem move_resume [Inhabited α] (codec : Codec α) (s : Conn α) (ch : Choice α) (f : Frame α) :
    Move codec ch (some f) s (s.resume codec ch f) := by
  unfold resume
  cases f with
  | user todo =>
      cases todo with
      | nil => exact .finish (Or.inl rfl)
      | cons act todo => exact .perform (performs_perform codec _ act)
  | cleanup => exact .cleanup (callsRead_callReadcb ch _)
  | cleanupState => exact .cleanupState (callsState_callStatecb ch _)
  | cleanupEnd => exact move_cleanupEnd codec ch s
  | reconnectEnd => exact .reconnectEnd
  | handleRead =>
      cases hstate : s.state with
      | handshaking => exact move_handshake codec ch s hstate (Or.inl ⟨rfl, rfl⟩)
      | connected => exact .handleRead hstate
      | invalid => exact .finish (Or.inr (Or.inl ⟨rfl, by simp [hstate], by simp [hstate]⟩))
      | closed => exact .finish (Or.inr (Or.inl ⟨rfl, by simp [hstate], by simp [hstate]⟩))
      | failed => exact .finish (Or.inr (Or.inl ⟨rfl, by simp [hstate], by simp [hstate]⟩))
  | readLoop => exact move_readLoop codec ch s
  | writeEnd => exact move_writeEnd codec ch s
  | decodeLoop => exact move_decodeLoop codec ch s
  | decodeConsume r => exact move_decodeConsume codec ch s r

@[simp] theorem step_of_fault [Inhabited α] (codec : Codec α) {s : Conn α} (h : s.fault ≠ none)
    (ch : Choice α) : step codec s ch = s :=
  if_pos (Option.isSome_iff_ne_none.mpr h)

/-- Every step of a live process is a move: of an event with nothing running, of
the topmost frame otherwise. -/
theorem move_of_step [Inhabited α] (codec : Codec α) {s : Conn α} (h : s.fault = none)
    (ch : Choice α) :
    s.stack = [] ∧ Move codec ch none s (step codec s ch) ∨
      ∃ f t, s = t.push f ∧ Move codec ch (some f) t (step codec s ch) := by
  unfold step
  rw [if_neg (by simp [h])]
  cases hstack : s.stack with
  | nil => exact Or.inl ⟨rfl, move_dispatch codec s ch⟩
  | cons f rest =>
      refine Or.inr ⟨f, { s with stack := rest }, ?_, move_resume codec _ ch f⟩
      rw [push, ← hstack]

/-- The call of user code a step makes, if it makes one. -/
def acting (s : Conn α) (ch : Choice α) : Option (Action α) :=
  match s.stack, ch.event with
  | [], .call act => some act
  | .user (act :: _) :: _, _ => some act
  | _, _ => none

/-- The invariant rule of the machine: what every move keeps under `P`, a run
all of whose steps satisfy `P` keeps. -/
theorem run_of_moves [Inhabited α] (codec : Codec α) {I : Conn α → Prop}
    {P : Conn α → Choice α → Prop}
    (event : ∀ s s' ch, s.fault = none → s.stack = [] → I s → P s ch →
      Move codec ch none s s' → I s')
    (frame : ∀ s s' ch f, s.fault = none → I (s.push f) → P (s.push f) ch →
      Move codec ch (some f) s s' → I s')
    {s : Conn α} {cs : List (Choice α)} (hs : I s) (hp : Driven.Along (step codec) P s cs) :
    I (Driven.run (step codec) s cs) := by
  refine Driven.run_invariant (fun s ch hi hp => ?_) hs hp
  by_cases hf : s.fault = none
  · rcases move_of_step codec hf ch with ⟨hstack, hm⟩ | ⟨f, t, rfl, hm⟩
    · exact event s _ ch hf hstack hi hp hm
    · exact frame t _ ch f hf hi hp hm
  · rw [step_of_fault codec hf]
    exact hi

end Conn

end Handy
