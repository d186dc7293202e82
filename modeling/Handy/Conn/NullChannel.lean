import Handy.Conn.Interest
import Handy.Conn.Turn

/-! # Handlers and a channel that is gone

`cleanup` gives `channel_` up, and it can run inside every callback. Three
handlers use `channel_` again behind a callback without asking: `handleWrite`
behind `writablecb_`, the `onMsg` lambda when the codec refuses what is left in
`input_`, and `reconnect` behind a `cleanup` that has entered itself. Nothing else
does: while the connection shakes hands or is connected, the channel is there.
-/

namespace Handy

variable {α : Type}

namespace Conn

/-- `cleanup` is entered from inside a `cleanup`. -/
def nestsCleanup (s : Conn α) : Bool :=
  match s.stack with
  | .cleanup :: rest => rest.any Frame.ofCleanup
  | _ => false

/-- `writablecb_` returns to `handleWrite`. -/
def leavesWritable (s : Conn α) : Bool :=
  match s.stack with
  | .user [] :: .writeEnd :: _ => true
  | _ => false

/-- The codec is about to refuse what is in `input_`. -/
def refuses (codec : Codec α) (s : Conn α) : Bool :=
  match s.stack with
  | .decodeLoop :: _ => decide ((codec.tryDecode s.input.contents).1 < 0)
  | _ => false

/-- A connection that reconnects does not enter `cleanup` from inside `cleanup`,
`writablecb_` leaves bytes behind when it ends the connection, and the codec
refuses nothing once the connection has ended. -/
structure KeepsChannel (codec : Codec α) (s : Conn α) : Prop where
  cleanup : s.Reconnects → s.nestsCleanup = false
  write : s.channel = none → s.leavesWritable = true → s.output.contents ≠ []
  decode : s.channel = none → s.refuses codec = false

instance (codec : Codec α) (s : Conn α) [DecidableEq α] : Decidable (KeepsChannel codec s) :=
  decidable_of_iff
    ((s.Reconnects → s.nestsCleanup = false) ∧
      (s.channel = none → s.leavesWritable = true → s.output.contents ≠ []) ∧
      (s.channel = none → s.refuses codec = false))
    ⟨fun h => ⟨h.1, h.2.1, h.2.2⟩, fun h => ⟨h.cleanup, h.write, h.decode⟩⟩

/-! ## The invariant -/

/-- `once` and `held` are about a connection that reconnects: its `cleanup` runs
once at a time and finds the channel at its end. -/
structure Holding (s : Conn α) : Prop where
  live : s.state = .handshaking ∨ s.state = .connected → s.channel ≠ none
  ended : Ending s.stack → (s.state = .closed ∨ s.state = .failed) ∧ s.timeoutPending = false
  timer : s.timeoutPending = true → s.channel ≠ none
  once : s.Reconnects → s.stack.countP Frame.ofCleanup ≤ 1
  held : s.Reconnects → Cleaning s.stack ∨ .cleanupEnd ∈ s.stack → s.channel ≠ none

/-- `handleWrite` has its channel back, or bytes left over. -/
def Written (s : Conn α) : Prop :=
  ∀ rest, s.stack = .writeEnd :: rest → s.channel ≠ none ∨ s.output.contents ≠ []

theorem Ending.of_sublist {l l' : List (Frame α)} (h : l.Sublist l') (hend : Ending l) :
    Ending l' :=
  hend.imp (h.subset ·) (h.subset ·)

theorem Cleaning.of_sublist {l l' : List (Frame α)} (h : l.Sublist l') (hclean : Cleaning l) :
    Cleaning l' :=
  hclean.imp (h.subset ·) (h.subset ·)

/-- With no part of a `cleanup` left below there is nothing to find. -/
theorem not_cleaning_of_count {f : Frame α} {rest : List (Frame α)} (h : Stacked (f :: rest))
    (hcount : rest.countP Frame.ofCleanup = 0) : ¬ (Cleaning rest ∨ .cleanupEnd ∈ rest) := by
  rw [List.countP_eq_zero] at hcount
  rintro ((hmem | hmem) | hmem)
  · exact h.cleanup_top hmem
  · exact hcount _ hmem rfl
  · exact hcount _ hmem rfl

theorem Holding.below {s : Conn α} {f : Option (Frame α)} (hs : Holding (s.under f)) :
    Holding s := by
  obtain ⟨hlive, hended, htimer, honce, hheld⟩ := hs
  simp only [Reconnects, under_toTcpConn, under_toBase] at hlive hended htimer honce hheld
  have hsub := sublist_under s f
  exact ⟨hlive, fun h => hended (h.of_sublist hsub), htimer,
    fun hr => (hsub.countP_le).trans (honce hr),
    fun hr h => hheld hr (h.imp (·.of_sublist hsub) (hsub.subset ·))⟩

theorem Holding.goes {ch : Choice α} {f : Option (Frame α)} {new : List (Frame α)} {s s' : Conn α}
    (hs : Holding s) (still : Still s s') (swaps : Swaps ch f new s s') : Holding s' := by
  have hlive : s.channel ≠ none → s'.channel ≠ none := fun h h' => h (still.channel.mp h')
  refine ⟨?_, ?_, fun hon => hlive (hs.timer (still.pending hon)), ?_, ?_⟩
  · rw [still.state]
    exact fun hst => hlive (hs.live hst)
  · intro hend
    obtain ⟨hst, htimer⟩ := hs.ended (hend.imp (swaps.part rfl) (swaps.part rfl))
    refine ⟨still.state ▸ hst, ?_⟩
    by_contra hon
    rw [still.pending (by simpa using hon)] at htimer
    cases htimer
  · intro hr
    rw [swaps.count]
    exact hs.once (still.wanted hr)
  · intro hr hin
    have hr' : s.Reconnects := still.wanted hr
    apply hlive
    rcases hin with (hmem | hmem) | hmem
    · rw [swaps.stack, List.mem_append] at hmem
      rcases hmem with hmem | hmem
      · rcases swaps.calls hmem with h | ⟨-, -, hexit, -⟩
        · exact h
        · rw [hr'.2] at hexit
          cases hexit
      · exact hs.held hr' (Or.inl (Or.inl hmem))
    · exact hs.held hr' (Or.inl (Or.inr (swaps.part rfl hmem)))
    · exact hs.held hr' (Or.inr (swaps.part rfl hmem))

theorem Holding.callsState {ch : Choice α} {s s' : Conn α} (h : CallsState ch s s')
    (hs : Holding s) : Holding s' := by
  cases h with
  | skip => exact hs
  | user =>
      refine ⟨hs.live, by simpa using hs.ended, hs.timer, fun hr => ?_,
        fun hr hin => hs.held hr (by simpa using hin)⟩
      have honce := hs.once hr
      simpa [Frame.ofCleanup] using honce

theorem Holding.callsRead {ch : Choice α} {s s' : Conn α} (h : CallsRead ch s s')
    (hs : Holding s) : Holding s' := by
  obtain ⟨new, swaps, -⟩ := Swaps.callsRead h
  exact hs.goes (f := none) (.callsRead h) swaps

theorem Holding.move {codec : Codec α} {ch : Choice α} {f : Option (Frame α)} {s s' : Conn α}
    (hs : Holding (s.under f)) (hstacked : Stacked (s.under f).stack)
    (hnone : f = none → s.stack = []) (hch : KeepsChannel codec (s.under f))
    (h : Turn ch f s s') : Holding s' := by
  have hrest : Holding s := hs.below
  cases h with
  | goes new still swaps => exact hrest.goes still swaps
  | attach =>
      have hnil : s.stack = [] := hnone rfl
      exact ⟨fun _ => Option.some_ne_none _, by simp [hnil], fun _ => Option.some_ne_none _,
        by simp [hnil], fun _ _ => Option.some_ne_none _⟩
  | sets => exact ⟨hrest.live, hrest.ended, hrest.timer, hrest.once, hrest.held⟩
  | @handshake _ _ _ c next from' hstate _ statecb =>
      refine Holding.callsState statecb ?_
      have hno : ¬ Ending s.stack := fun hend => not_both (Or.inl hstate) (hrest.ended hend).1
      have hno' : ¬ Ending (next ++ s.stack) := by
        rcases from' with ⟨-, rfl⟩ | ⟨-, rfl⟩ <;> simpa using hno
      refine ⟨fun _ => Option.some_ne_none c, fun hend => absurd hend hno',
        fun _ => Option.some_ne_none c, fun hr => ?_, fun _ _ => Option.some_ne_none c⟩
      have honce := hrest.once hr
      rcases from' with ⟨-, rfl⟩ | ⟨-, rfl⟩ <;> simpa [Frame.ofCleanup] using honce
  | cleanup readcb =>
      -- the only part of a `cleanup` there is when this one is to reconnect
      have hfirst : s.Reconnects → s.stack.countP Frame.ofCleanup = 0 := by
        intro hr
        have h := hch.cleanup hr
        simp only [nestsCleanup, under_some, push_stack] at h
        rw [List.countP_eq_zero]
        intro g hg hof
        exact absurd (List.any_eq_true.mpr ⟨g, hg, hof⟩) (by simp [h])
      refine Holding.callsRead readcb ?_
      refine ⟨hrest.live, by simpa using hrest.ended, hrest.timer, fun hr => ?_, fun hr _ => ?_⟩
      · show (Frame.cleanupState :: s.stack).countP Frame.ofCleanup ≤ 1
        rw [List.countP_cons_of_pos rfl, hfirst hr]
      · exact hs.held hr (Or.inl (Or.inl List.mem_cons_self))
  | cleanupState statecb =>
      refine Holding.callsState statecb ?_
      refine ⟨fun hst => ?_, fun _ => ⟨?_, rfl⟩, fun hon => absurd hon Bool.false_ne_true,
        fun hr => ?_, fun hr _ => ?_⟩
      · by_cases h : s.state = .handshaking <;> simp [h] at hst
      · by_cases h : s.state = .handshaking <;> simp [h]
      · have honce : (Frame.cleanupState :: s.stack).countP Frame.ofCleanup ≤ 1 := hs.once hr
        rw [List.countP_cons_of_pos rfl] at honce
        show (Frame.cleanupEnd :: s.stack).countP Frame.ofCleanup ≤ 1
        rwa [List.countP_cons_of_pos rfl]
      · exact hs.held hr (Or.inl (Or.inr List.mem_cons_self))
  | reconnect closing wanted close =>
      have hend := hs.ended (Or.inl List.mem_cons_self)
      have honce : (Frame.cleanupEnd :: s.stack).countP Frame.ofCleanup ≤ 1 := hs.once wanted
      rw [List.countP_cons_of_pos rfl] at honce
      have hpart : (Frame.reconnectEnd :: s.stack).countP Frame.ofCleanup ≤ 1 := by
        rwa [List.countP_cons_of_pos rfl]
      refine ⟨fun _ => Option.some_ne_none _, fun _ => hend, fun _ => Option.some_ne_none _,
        fun _ => ?_, fun _ _ => Option.some_ne_none _⟩
      rcases close with rfl | rfl
      · show (Frame.handleRead :: .reconnectEnd :: s.stack).countP Frame.ofCleanup ≤ 1
        rwa [List.countP_cons_of_neg (by simp [Frame.ofCleanup])]
      · exact hpart
  | release closing wanted close =>
      obtain ⟨hst, htimer⟩ := hs.ended (Or.inl List.mem_cons_self)
      refine ⟨fun hl => (not_both (s := s) hl hst).elim, fun _ => ⟨hst, htimer⟩, fun hon => ?_,
        fun hr => absurd hr wanted, fun hr => absurd hr wanted⟩
      exact absurd (htimer.symm.trans hon) Bool.false_ne_true
  | reconnectEnd =>
      obtain ⟨hst, htimer⟩ := hs.ended (Or.inr List.mem_cons_self)
      refine ⟨fun hl => (not_both (s := s) hl hst).elim, fun _ => ⟨hst, htimer⟩, fun hon => ?_,
        fun hr => hrest.once hr, fun hr hin => ?_⟩
      · exact absurd (htimer.symm.trans hon) Bool.false_ne_true
      · have honce : (Frame.reconnectEnd :: s.stack).countP Frame.ofCleanup ≤ 1 := hs.once hr
        rw [List.countP_cons_of_pos rfl] at honce
        have hzero : s.stack.countP Frame.ofCleanup = 0 := by omega
        exact absurd hin (not_cleaning_of_count hstacked hzero)

theorem Written.move {codec : Codec α} {ch : Choice α} {f : Option (Frame α)} {s s' : Conn α}
    (hstacked : Stacked (s.under f).stack) (hnone : f = none → s.stack = [])
    (hch : KeepsChannel codec (s.under f)) (h : Turn ch f s s') : Written s' := by
  -- what the running frame was called by, unless it is a callback
  have htop : (∀ todo, f ≠ some (.user todo)) → ∀ rest, s.stack ≠ .writeEnd :: rest := by
    intro hf rest hrest
    cases f with
    | none => simp [hnone rfl] at hrest
    | some f =>
        rw [under_some, push_stack, hrest] at hstacked
        obtain ⟨todo, rfl⟩ := hstacked.writeEnd_user
        exact hf todo rfl
  intro rest hrest
  cases h with
  | goes new still swaps =>
      rw [swaps.stack] at hrest
      cases new with
      | cons g new =>
          obtain rfl : g = .writeEnd := (List.cons.inj hrest).1
          exact Or.inl (swaps.flush List.mem_cons_self)
      | nil =>
          rw [List.nil_append] at hrest
          by_cases hf : ∃ todo, f = some (.user todo)
          · obtain ⟨todo, rfl⟩ := hf
            obtain ⟨rfl, hsame⟩ := swaps.user todo rfl rfl
            rw [hsame]
            by_cases hch' : s.channel = none
            · exact Or.inr (hch.write hch' (by simp [leavesWritable, hrest]))
            · exact Or.inl hch'
          · exact absurd hrest (htop (by simpa using hf) rest)
  | attach => exact Or.inl (Option.some_ne_none _)
  | sets => exact absurd hrest (htop nofun rest)
  | handshake _ _ _ statecb =>
      cases statecb with
      | skip => exact Or.inl (Option.some_ne_none _)
      | user => cases hrest
  | cleanup readcb =>
      obtain ⟨new, hstack, hnew⟩ := stack_of_callsRead readcb
      rw [hstack] at hrest
      rcases hnew with rfl | rfl | rfl <;> simp at hrest
  | cleanupState statecb => cases statecb <;> cases hrest
  | reconnect => exact Or.inl (Option.some_ne_none _)
  | release closing _ close =>
      rcases close with rfl | rfl
      · cases hrest
      · exact absurd hrest (htop nofun rest)
  | reconnectEnd => exact absurd hrest (htop nofun rest)

/-! ## Null accesses -/

theorem fault_of_performs {codec : Codec α} {s s' : Conn α} {act : Action α}
    (h : Performs codec s act s') (hf : s.fault = none) : s'.fault ≠ some .nullChannel := by
  cases h with
  | sends h =>
      cases h with
      | wrote _ _ _ _ _ _ _ _ _ _ fault =>
          rcases fault with h | ⟨h, -⟩ <;> simp [h, hf]
      | _ => simp [hf]
  | _ => simp [hf]

/-- The places at which a step can meet a null channel. -/
theorem Move.uses_null {codec : Codec α} {ch : Choice α} {f : Option (Frame α)} {s s' : Conn α}
    (h : Move codec ch f s s') (hf : s.fault = none) (hnull : s'.fault = some .nullChannel) :
    UsesNull ch s f ∨
      f = some .decodeLoop ∧ s.channel = none ∧ (codec.tryDecode s.input.contents).1 < 0 := by
  cases h with
  | faults _ _ _ _ _ null => exact Or.inl (null hnull)
  | decodeNull channel refused => exact Or.inr ⟨rfl, channel, refused⟩
  | call _ h => exact absurd hnull (fault_of_performs h hf)
  | perform h => exact absurd hnull (fault_of_performs h hf)
  | handshake _ _ _ _ _ statecb => cases statecb <;> simp [hf] at hnull
  | readAll _ _ _ _ readcb => cases readcb <;> simp [hf] at hnull
  | cleanup readcb => cases readcb <;> simp [hf] at hnull
  | cleanupState statecb => cases statecb <;> simp [hf] at hnull
  | _ => simp [hf] at hnull

theorem no_null {codec : Codec α} {ch : Choice α} {f : Option (Frame α)} {s s' : Conn α}
    (hs : Holding (s.under f)) (hw : Written (s.under f)) (hch : KeepsChannel codec (s.under f))
    (hf : s.fault = none) (h : Move codec ch f s s') : s'.fault ≠ some .nullChannel := by
  intro hnull
  rcases h.uses_null hf hnull with ⟨hnone, huse⟩ | ⟨rfl, hnone, hneg⟩
  · cases f with
    | none => exact hs.timer huse.2 hnone
    | some f =>
        cases f with
        | handleRead => exact hs.live (Or.inl huse) hnone
        | readLoop => exact hs.live (Or.inr huse) hnone
        | cleanupEnd => exact hs.held huse (Or.inr List.mem_cons_self) hnone
        | writeEnd => exact (hw s.stack rfl).elim (absurd hnone) (absurd huse)
        | _ => exact huse
  · have h := hch.decode hnone
    simp [refuses, hneg] at h

structure Guarded (s : Conn α) : Prop where
  holding : Holding s
  written : Written s
  stacked : Stacked s.stack

theorem guarded_fresh (readcb : ReadCb) (writablecb statecb : Bool) (interval : Int) :
    Guarded (fresh readcb writablecb statecb interval : Conn α) := by
  refine ⟨?_, nofun, stacked_nil⟩
  constructor <;> simp [fresh]

theorem Guarded.move {codec : Codec α} {ch : Choice α} {f : Option (Frame α)} {s s' : Conn α}
    (hs : Guarded (s.under f)) (hnone : f = none → s.stack = [])
    (hch : KeepsChannel codec (s.under f)) (h : Move codec ch f s s') (hf : s'.fault = none) :
    Guarded s' where
  holding := hs.holding.move hs.stacked hnone hch (h.turn hf)
  written := .move hs.stacked hnone hch (h.turn hf)
  stacked := hs.stacked.move hnone h hf

/-- In every run from a new connection whose steps meet the condition no handler
uses a null channel. -/
theorem channel_never_null [Inhabited α] (codec : Codec α) (readcb : ReadCb)
    (writablecb statecb : Bool) (interval : Int) (cs : List (Choice α))
    (hcs : Driven.Along (step codec) (fun s _ => KeepsChannel codec s)
      (fresh readcb writablecb statecb interval) cs) :
    (Driven.run (step codec) (fresh readcb writablecb statecb interval) cs).fault ≠
      some .nullChannel := by
  have hend := run_of_moves codec
    (I := fun s => s.fault ≠ some .nullChannel ∧ (s.fault = none → Guarded s))
    (fun s s' ch hf hstack hi hp hm => by
      have hs : Guarded (s.under none) := hi.2 hf
      exact ⟨no_null hs.holding hs.written hp hf hm, hs.move (fun _ => hstack) hp hm⟩)
    (fun s s' ch f hf hi hp hm => by
      have hs : Guarded (s.under (some f)) := hi.2 hf
      exact ⟨no_null hs.holding hs.written hp hf hm, hs.move nofun hp hm⟩)
    ⟨by simp [fresh], fun _ => guarded_fresh readcb writablecb statecb interval⟩ hcs
  exact hend.1

/-- A run for the condition: `writablecb_` closes the connection and leaves a
frame in `output_`. -/
def farewellRun : List (Choice UInt8) :=
  [{ event := .connect 80 true },
    { event := .writable [] },
    .go,
    { event := .call (.sendBuffer (Buffer.new.append [0x61]) [.eagain]) },
    { event := .writable [.wrote 0], body := [.closeNow, .sendMsg [0x62] []] }] ++
    .replicate 11 .go

theorem channel_never_null_farewell :
    (Driven.run (step LineCodec.codec) (fresh .none true true (-1)) farewellRun).fault ≠
      some .nullChannel :=
  channel_never_null LineCodec.codec .none true true (-1) farewellRun (by decide +kernel)

/-- `writablecb_` closes the connection with nothing left to write. -/
def closingWritable : List (Choice UInt8) :=
  [{ event := .connect 80 false },
    { event := .writable [] },
    { event := .call (.sendBuffer (Buffer.new.append [0x61]) [.eagain]) },
    { event := .writable [.wrote 0], body := [.closeNow] }] ++ .replicate 8 .go

/-- A frame with a wrong head comes in; the connection is to reconnect when the
loop is left, and `cleanup` shows the frame to the codec again. -/
def refusedTwice : List (Choice UInt8) :=
  [{ event := .connect 80 false },
    { event := .writable [] },
    { event := .readable },
    .go,
    { read := .data [0x6d, 0x42, 0x64, 0x55, 0xff, 0xff, 0xff, 0xff] }] ++ .replicate 10 .go ++
    [{ event := .call .exit }, { event := .shutdown }, .go, .go]

/-- `statecb_`, told that the connection is closed, sends to a peer that is gone. -/
def lastWords : List (Choice UInt8) :=
  [{ event := .connect 80 false },
    { event := .writable [] },
    .go,
    { event := .readable },
    .go,
    { read := .eof },
    .go,
    { body := [.sendStr [0x61] [.reset]] }] ++ .replicate 9 .go

/-- `handleWrite`, the `onMsg` lambda and `reconnect` each meet a null channel. -/
theorem handlers_use_null :
    (Driven.run (step LineCodec.codec) (fresh .none true false (-1)) closingWritable).fault =
        some .nullChannel ∧
      (Driven.run (step LengthCodec.codec) (fresh .onMsg false false 0) refusedTwice).fault =
        some .nullChannel ∧
      (Driven.run (step LineCodec.codec) (fresh .none false true 0) lastWords).fault =
        some .nullChannel := by
  decide +kernel

end Conn

end Handy
