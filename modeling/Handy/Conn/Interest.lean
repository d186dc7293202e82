import Handy.Conn.Calculus

/-! # Write interest while bytes wait

Bytes in `output_` of a connected socket leave only through `handleWrite`, so
write interest has to be on whenever they are there. Two places break this: the
handshake switches the interest off whatever `output_` holds, and
`send(const char *, size_t)` appends what an errno without a branch of its own
left over and does not switch it on. Nothing else does: a run that avoids both
never strands a byte.
-/

namespace Handy

namespace Conn

variable {α : Type}

/-- `cleanup` is called or runs up to its change of `state_`. -/
def Cleaning (stack : List (Frame α)) : Prop :=
  .cleanup ∈ stack ∨ .cleanupState ∈ stack

def Reading (stack : List (Frame α)) : Prop :=
  .handleRead ∈ stack ∨ .readLoop ∈ stack

/-- `cleanup` is past its change of `state_`. -/
def Ending (stack : List (Frame α)) : Prop :=
  .cleanupEnd ∈ stack ∨ .reconnectEnd ∈ stack

/-- `handleHandshake` is about to succeed. -/
def HandshakeDone (s : Conn α) (ch : Choice α) : Prop :=
  s.state = .handshaking ∧ ch.pollout = true ∧ (∃ c, s.channel = some c ∧ c.fdOpen = true) ∧
    ((∃ rest, s.stack = .handleRead :: rest) ∨ s.stack = [] ∧ ∃ ws, ch.event = .writable ws)

/-- `send(const char *, size_t)` on a live connection is about to stop at an
errno `isend` has no branch for, with write interest off. -/
def StopsShort (codec : Codec α) (s : Conn α) (ch : Choice α) : Prop :=
  s.state = .connected ∧ ¬ Cleaning s.stack ∧
    ∃ bytes ws c, acting s ch = some (.sendStr bytes ws) ∧ s.channel = some c ∧
      c.fdOpen = true ∧ c.writeEnabled = false ∧
      stopOf codec s (.sendStr bytes ws) = some .other

/-- The handshake finds `output_` empty, and no `send(const char *, size_t)`
stops short with write interest off. -/
structure KeepsInterest (codec : Codec α) (s : Conn α) (ch : Choice α) : Prop where
  handshake : HandshakeDone s ch → s.output.contents = []
  send : ¬ StopsShort codec s ch

/-! ## The invariant -/

/-- `closing` and `flow` cover the moments between a call and its effect: a
closed descriptor waits for the `handleRead` that `close` called, and a cleanup
in progress for the change of `state_`. -/
structure Interest (s : Conn α) : Prop where
  live : s.state = .handshaking ∨ s.state = .connected → ∃ c, s.channel = some c
  ended : Ending s.stack → s.state = .closed ∨ s.state = .failed
  closing : s.state = .connected → ∀ c, s.channel = some c → c.fdOpen = false →
    Cleaning s.stack ∨ Reading s.stack
  flow : s.state = .connected → ∀ c, s.channel = some c → c.fdOpen = true →
    s.output.contents ≠ [] → Cleaning s.stack ∨ c.writeEnabled = true

@[simp] theorem cleaning_cons (f : Frame α) (stack : List (Frame α)) :
    Cleaning (f :: stack) ↔ (f = .cleanup ∨ f = .cleanupState) ∨ Cleaning stack := by
  simp only [Cleaning, List.mem_cons, eq_comm (a := f)]
  tauto

@[simp] theorem reading_cons (f : Frame α) (stack : List (Frame α)) :
    Reading (f :: stack) ↔ (f = .handleRead ∨ f = .readLoop) ∨ Reading stack := by
  simp only [Reading, List.mem_cons, eq_comm (a := f)]
  tauto

@[simp] theorem ending_cons (f : Frame α) (stack : List (Frame α)) :
    Ending (f :: stack) ↔ (f = .cleanupEnd ∨ f = .reconnectEnd) ∨ Ending stack := by
  simp only [Ending, List.mem_cons, eq_comm (a := f)]
  tauto

@[simp] theorem cleaning_nil : ¬ Cleaning ([] : List (Frame α)) := by simp [Cleaning]

@[simp] theorem reading_nil : ¬ Reading ([] : List (Frame α)) := by simp [Reading]

@[simp] theorem ending_nil : ¬ Ending ([] : List (Frame α)) := by simp [Ending]

theorem Interest.performs {codec : Codec α} {s s' : Conn α} {act : Action α} (hs : Interest s)
    (hshort : ∀ bytes ws c, act = .sendStr bytes ws → s.state = .connected →
      ¬ Cleaning s.stack → s.channel = some c → c.fdOpen = true → c.writeEnabled = false →
      stopOf codec s act ≠ some .other)
    (h : Performs codec s act s') (hf : s'.fault = none) : Interest s' := by
  cases h with
  | sends h =>
      cases h with
      | closed _ _ hnone =>
          refine ⟨hs.live, hs.ended, ?_, ?_⟩
          · simp [hnone]
          · simp [hnone]
      | @queued bs o i p l tail c _ _ hch hout hqueue =>
          refine ⟨fun _ => ⟨c, rfl⟩, hs.ended, ?_, ?_⟩
          · rintro hstate _ ⟨⟩ hclosed
            exact hs.closing hstate c hch hclosed
          · rintro hstate _ ⟨⟩ hopen hne
            rcases hqueue with hq | hq | hq
            · exact absurd hq hne
            · exact hs.flow hstate c hch hopen hq
            · exact Or.inr hq
      | @wrote bs base w rest o i p l tail c c' st f _ hstop hkept hch hsplit hoff hout hfd
          hstays hrest =>
          refine ⟨fun _ => ⟨c', rfl⟩, hs.ended, ?_, ?_⟩
          · rintro hstate _ ⟨⟩ hclosed
            exact hs.closing hstate c hch (hfd.symm.trans hclosed)
          · rintro hstate _ ⟨⟩ hopen hne
            have hopen' : c.fdOpen = true := hfd.symm.trans hopen
            by_cases hclean : Cleaning s.stack
            · exact Or.inl hclean
            · refine Or.inr ?_
              by_cases hon : c.writeEnabled = true
              · exact hstays hon
              · by_cases hnil : rest = []
                · -- then `base` was in `output_` already, with write interest on
                  rw [hout, hnil, List.append_nil] at hne
                  obtain ⟨hsame, -⟩ := hoff hne
                  rcases hs.flow hstate c hch hopen' (hsame ▸ hne) with h | h
                  · exact absurd h hclean
                  · exact absurd h hon
                · rcases hrest hnil with h | ⟨rfl, bytes, ws, rfl⟩
                  · exact h
                  · exact absurd hstop (hshort bytes ws c rfl hstate hclean hch hopen'
                      (by simpa using hon))
      | @reset bs w o l tail c _ _ hch hopen =>
          refine ⟨fun _ => ⟨c, rfl⟩, ?_, ?_, ?_⟩
          · simpa using hs.ended
          · simp
          · simp
  | @shuts c hch hopen =>
      refine ⟨fun _ => ⟨_, rfl⟩, ?_, ?_, ?_⟩
      · simpa using hs.ended
      · simp
      · rintro _ _ ⟨⟩ h
        cases h
  | shutAlready => exact hs
  | close n => exact ⟨hs.live, hs.ended, hs.closing, hs.flow⟩
  | consume => exact ⟨hs.live, hs.ended, hs.closing, hs.flow⟩
  | overrun => simp at hf
  | addIdle => exact ⟨hs.live, hs.ended, hs.closing, hs.flow⟩
  | addNoIdle => exact hs
  | exit => exact ⟨hs.live, hs.ended, hs.closing, hs.flow⟩

/-- Frames above that belong to neither group change nothing. -/
theorem Interest.callsState {ch : Choice α} {s s' : Conn α} (hs : Interest s)
    (h : CallsState ch s s') : Interest s' := by
  cases h with
  | skip => exact hs
  | user =>
      exact ⟨hs.live, by simpa using hs.ended, by simpa using hs.closing, by simpa using hs.flow⟩

theorem Interest.callsRead {ch : Choice α} {s s' : Conn α} (hs : Interest s)
    (h : CallsRead ch s s') : Interest s' := by
  cases h with
  | skip => exact hs
  | user =>
      exact ⟨hs.live, by simpa using hs.ended, by simpa using hs.closing, by simpa using hs.flow⟩
  | onMsg =>
      exact ⟨hs.live, by simpa using hs.ended, by simpa using hs.closing, by simpa using hs.flow⟩

/-- A handshake that finds `output_` empty. -/
theorem Interest.handshake {ch : Choice α} {s s' : Conn α} (hs : Interest s)
    (hstate : s.state = .handshaking) (hempty : s.output.contents = []) {c : Channel}
    (hopen : c.fdOpen = true) {next : List (Frame α)} (hnext : next = [] ∨ next = [.readLoop])
    (h : CallsState ch { s with
      channel := some { c with readEnabled := true, writeEnabled := false }
      state := .connected
      stack := next ++ s.stack } s') : Interest s' := by
  refine Interest.callsState ?_ h
  refine ⟨fun _ => ⟨_, rfl⟩, fun hend => ?_, ?_, fun _ _ _ _ hne => absurd hempty hne⟩
  · have hold : Ending s.stack := by
      rcases hnext with rfl | rfl <;> simpa using hend
    rcases hs.ended hold with h | h <;> simp [hstate] at h
  · rintro _ _ ⟨⟩ hclosed
    simp [hopen] at hclosed

theorem Interest.event {codec : Codec α} {s s' : Conn α} {ch : Choice α} (hs : Interest s)
    (hstack : s.stack = []) (hch : KeepsInterest codec s ch) (h : Move codec ch none s s')
    (hf : s'.fault = none) : Interest s' := by
  cases h with
  | faults fault => exact absurd hf fault
  | chore => exact ⟨hs.live, hs.ended, hs.closing, hs.flow⟩
  | @call _ _ act event h =>
      refine hs.performs ?_ h hf
      rintro bytes ws c rfl hstate hclean hchan hopen hoff hstop
      exact hch.send ⟨hstate, hclean, bytes, ws, c, by simp [acting, hstack, event], hchan, hopen,
        hoff, hstop⟩
  | shut =>
      refine ⟨fun _ => ⟨_, rfl⟩, by simp [hstack], by simp, ?_⟩
      rintro _ _ ⟨⟩ h
      cases h
  | shutdown => exact ⟨hs.live, by simp [hstack], by simp, by simp⟩
  | attach => exact ⟨fun _ => ⟨_, rfl⟩, by simp [hstack], by simp, by simp⟩
  | sets => exact ⟨hs.live, hs.ended, hs.closing, hs.flow⟩
  | readable => exact ⟨hs.live, by simp [hstack], by simp, by simpa using hs.flow⟩
  | flushReset => exact ⟨fun _ => ⟨_, rfl⟩, by simp [hstack], by simp, by simp⟩
  | @flush _ c ws w o callback event hstate hchan hopen stop split writablecb =>
      refine ⟨fun _ => ⟨_, rfl⟩, ?_, ?_, ?_⟩
      · rcases writablecb with rfl | ⟨rfl, -⟩ <;> simp [hstack]
      · rintro _ _ ⟨⟩ hclosed
        simp [hopen] at hclosed
      · rintro _ _ ⟨⟩ _ hne
        have hmore : s.output.contents ≠ [] := by
          intro hnil
          rw [hnil, List.append_eq_nil_iff] at split
          exact hne split.2
        rcases hs.flow hstate c hchan hopen hmore with h | h
        · simp [hstack] at h
        · exact Or.inr (afterIsend_writeEnabled _ h)
  | @handshake _ _ _ c next from' hstate hchan hopen hpoll statecb =>
      obtain ⟨rfl, ws, hev⟩ : next = [] ∧ ∃ ws, ch.event = .writable ws := by simpa using from'
      exact hs.handshake hstate
        (hch.handshake ⟨hstate, hpoll, ⟨c, hchan, hopen⟩, Or.inr ⟨hstack, ws, hev⟩⟩) hopen
        (Or.inl rfl) statecb
  | @refused _ _ c from' hstate hchan =>
      exact ⟨fun _ => ⟨c, hchan⟩, by simp [hstack], by simp, by simp⟩

theorem Interest.frame {codec : Codec α} {s s' : Conn α} {ch : Choice α} {f : Frame α}
    (hs : Interest (s.push f)) (hch : KeepsInterest codec (s.push f) ch)
    (h : Move codec ch (some f) s s') (hf : s'.fault = none) : Interest s' := by
  obtain ⟨hlive, hended, hclosing, hflow⟩ := hs
  simp only [push_toTcpConn, push_stack] at hlive hended hclosing hflow
  cases h with
  | faults fault => exact absurd hf fault
  | @handshake _ _ _ c next from' hstate hchan hopen hpoll statecb =>
      obtain ⟨rfl, rfl⟩ : f = .handleRead ∧ next = [.readLoop] := by simpa using from'
      refine Interest.handshake (s := s) ?_ hstate ?_ hopen (Or.inr rfl)
        statecb
      · exact ⟨hlive, by simpa using hended, by simp [hstate], by simp [hstate]⟩
      · exact hch.handshake ⟨hstate, hpoll, ⟨c, hchan, hopen⟩, Or.inl ⟨s.stack, rfl⟩⟩
  | @refused _ _ c from' hstate hchan =>
      obtain rfl : f = .handleRead := by simpa using from'
      exact ⟨hlive, by simpa using hended, by simp [hstate], by simp [hstate]⟩
  | finish ends =>
      rcases ends with rfl | ⟨rfl, -, h⟩ | ⟨rfl, h⟩ | rfl
      · exact ⟨hlive, by simpa using hended, by simpa using hclosing, by simpa using hflow⟩
      · exact ⟨hlive, by simpa using hended, fun hc => absurd hc h, fun hc => absurd hc h⟩
      · exact ⟨hlive, by simpa using hended, fun hc => absurd hc h, fun hc => absurd hc h⟩
      · exact ⟨hlive, by simpa using hended, by simpa using hclosing, by simpa using hflow⟩
  | @perform _ _ act todo h =>
      refine Interest.performs (s := s.push (.user todo)) ?_ ?_ h hf
      · exact ⟨hlive, by simpa using hended, by simpa using hclosing, by simpa using hflow⟩
      · rintro bytes ws c rfl hstate hclean hchan hopen hoff hstop
        exact hch.send ⟨hstate, by simpa using hclean, bytes, ws, c, rfl, hchan, hopen, hoff, hstop⟩
  | handleRead =>
      exact ⟨hlive, by simpa using hended, by simp, by simpa using hflow⟩
  | readEnd => exact ⟨hlive, by simpa using hended, by simp, by simp⟩
  | readRetry => exact ⟨hlive, by simpa using hended, by simp, by simpa using hflow⟩
  | @readAll _ _ c i hstate hchan hopen _ readcb =>
      refine Interest.callsRead ?_ readcb
      refine ⟨hlive, by simpa using hended, fun _ c' hc' hclosed => ?_, by simpa using hflow⟩
      obtain rfl : c = c' := Option.some.inj (hchan.symm.trans hc')
      simp [hopen] at hclosed
  | readData => exact ⟨hlive, by simpa using hended, by simp, by simpa using hflow⟩
  | @writeOff _ c hchan hopen hempty =>
      refine ⟨fun _ => ⟨_, rfl⟩, by simpa using hended, ?_, fun _ _ _ _ hne => absurd hempty hne⟩
      rintro _ _ ⟨⟩ hclosed
      simp [hopen] at hclosed
  | cleanup readcb =>
      refine Interest.callsRead ?_ readcb
      exact ⟨hlive, by simpa using hended, by simp, by simp⟩
  | cleanupState statecb =>
      refine Interest.callsState ?_ statecb
      by_cases hst : s.state = .handshaking <;> constructor <;> simp [hst]
  | reconnect =>
      have hst := hended (by simp)
      refine ⟨?_, fun _ => hst, ?_, ?_⟩ <;> rcases hst with h | h <;> simp [h]
  | release =>
      have hst := hended (by simp)
      refine ⟨?_, fun _ => hst, ?_, ?_⟩ <;> rcases hst with h | h <;> simp [h]
  | reconnectEnd =>
      have hst := hended (by simp)
      refine ⟨?_, fun _ => hst, ?_, ?_⟩ <;> rcases hst with h | h <;> simp [h]
  | decodeNull => simp at hf
  | @decodeShut _ c hchan hopen =>
      refine ⟨fun _ => ⟨_, rfl⟩, by simpa using hended, by simp, ?_⟩
      rintro _ _ ⟨⟩ h
      cases h
  | decodeWait =>
      exact ⟨hlive, by simpa using hended, by simpa using hclosing, by simpa using hflow⟩
  | decodeFrame =>
      exact ⟨hlive, by simpa using hended, by simpa using hclosing, by simpa using hflow⟩
  | consume =>
      exact ⟨hlive, by simpa using hended, by simpa using hclosing, by simpa using hflow⟩
  | overrun => simp at hf

/-- In every run from a new connection whose steps all keep the interest, with
nothing running a connected socket with bytes in `output_` has write interest
on. -/
theorem unsent_data_watched [Inhabited α] (codec : Codec α) (readcb : ReadCb)
    (writablecb statecb : Bool) (interval : Int) (cs : List (Choice α))
    (hcs : Driven.Along (step codec) (KeepsInterest codec)
      (fresh readcb writablecb statecb interval) cs) :
    let t := Driven.run (step codec) (fresh readcb writablecb statecb interval) cs
    t.stack = [] → t.fault = none → t.state = .connected → t.output.contents ≠ [] →
      ∃ c, t.channel = some c ∧ c.fdOpen = true ∧ c.writeEnabled = true := by
  intro t hstack hfault hstate hne
  have hstart : Interest (fresh readcb writablecb statecb interval : Conn α) := by
    constructor <;> simp [fresh]
  have hend : t.fault = none → Interest t := by
    refine run_of_moves codec (I := fun s => s.fault = none → Interest s)
      (fun s s' ch hf hstack hi hp hm hf' => (hi hf).event hstack hp hm hf')
      (fun s s' ch f hf hi hp hm hf' => (hi hf).frame hp hm hf')
      (fun _ => hstart) hcs
  have hinv := hend hfault
  obtain ⟨c, hch⟩ := hinv.live (Or.inr hstate)
  have hopen : c.fdOpen = true := by
    by_contra hclosed
    have h := hinv.closing hstate c hch (by simpa using hclosed)
    simp [hstack] at h
  have hon := hinv.flow hstate c hch hopen hne
  exact ⟨c, hch, hopen, by simpa [hstack] using hon⟩

/-- A run for the hypotheses: connect, complete the handshake, send two bytes of
which the socket takes one. -/
def watchedRun : List (Choice UInt8) :=
  [{ event := .connect 80 false },
    { event := .writable [] },
    { event := .call (.sendBuffer (Buffer.new.append [0x61, 0x62]) [.wrote 0, .eagain]) }]

theorem unsent_data_watched_partial :
    ∃ c, (Driven.run (step LineCodec.codec) (fresh .none false false (-1)) watchedRun).channel =
      some c ∧ c.fdOpen = true ∧ c.writeEnabled = true := by
  refine unsent_data_watched LineCodec.codec .none false false (-1) watchedRun ?_ ?_ ?_ ?_ ?_
  · refine ⟨⟨fun _ => rfl, ?_⟩, ⟨fun _ => ?_, ?_⟩, ⟨nofun, ?_⟩, trivial⟩
    · rintro ⟨_, _, _, _, _, ⟨⟩, _⟩
    · decide +kernel
    · rintro ⟨_, _, _, _, _, ⟨⟩, _⟩
    · rintro ⟨_, _, _, _, _, ⟨⟩, _⟩
  · decide +kernel
  · decide +kernel
  · decide +kernel
  · decide +kernel

/-- Two bytes sent before the handshake is over stay in `output_` with write
interest off. -/
theorem handshake_strands_output :
    let t := Driven.run (step LineCodec.codec) (fresh .none false false (-1))
      [{ event := .connect 80 false },
        { event := .call (.sendStr [0x61, 0x62] [.eagain]) },
        { event := .writable [] }]
    t.stack.isEmpty = true ∧ t.fault = none ∧ t.state = .connected ∧
      t.output.contents = [0x61, 0x62] ∧ t.channel = some ⟨true, true, false⟩ := by
  decide +kernel

end Conn

end Handy
