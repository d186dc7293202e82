import Handy.Codec.Safety
import Handy.Conn.Calculus

/-! # Each frame is delivered once

The `onMsg` lambda consumes a frame when `cb` has returned. Until then the frame
is in `input_`, so a `cb` that makes `cleanup` run has the lambda run again on
the same frame: `closeNow`, a send whose peer is gone. The frame is then handed
over twice and consumed twice. As long as no `cb` does that or takes bytes from
`input_` itself, a frame on its way out is the topmost business of the
connection, and every position of the stream is delivered once.
-/

namespace Handy

namespace Conn

variable {α : Type}

/-- The stream positions of the frames passed to `cb`, in order. -/
def deliveredAt (log : List (Ev α)) : List Nat :=
  log.flatMap fun e => match e with
    | .deliver pos _ => [pos]
    | _ => []

/-- The calls `consume(r)` of the lambda, with `size()` at the call. -/
def consumedIn (log : List (Ev α)) : List (Nat × Nat) :=
  log.flatMap fun e => match e with
    | .consume r size => [(r, size)]
    | _ => []

/-- The next code to run is the body of a `cb(con, msg)`. -/
def inMessage (s : Conn α) : Bool :=
  match s.stack with
  | .user _ :: .decodeConsume _ :: _ => true
  | _ => false

/-- The call closes the channel, meets a peer that is gone, or takes bytes out of
`input_`. -/
def bites (codec : Codec α) (s : Conn α) : Action α → Bool
  | .closeNow => s.channel.any Channel.fdOpen
  | .sendInput _ => s.channel.isSome
  | .consume len => len != 0
  | act => stopOf codec s act == some .reset

/-- A message callback makes no such call. -/
def Gentle (codec : Codec α) (s : Conn α) (ch : Choice α) : Prop :=
  s.inMessage = true → (acting s ch).any (bites codec s) = false

instance (codec : Codec α) (s : Conn α) (ch : Choice α) : Decidable (Gentle codec s ch) :=
  inferInstanceAs (Decidable (_ → _))

/-! ## What most steps leave alone -/

def Plain (stack : List (Frame α)) : Prop := ∀ r, .decodeConsume r ∉ stack

/-- Nothing is delivered or consumed by the lambda, and the calls under way stay
under way. -/
structure Grows (s s' : Conn α) : Prop where
  delivered : deliveredAt s'.log = deliveredAt s.log
  consumed : consumedIn s'.log = consumedIn s.log
  pos : s.pos ≤ s'.pos
  stack : Plain s.stack → Plain s'.stack

@[simp] theorem deliveredAt_append (l l' : List (Ev α)) :
    deliveredAt (l ++ l') = deliveredAt l ++ deliveredAt l' :=
  List.flatMap_append

@[simp] theorem consumedIn_append (l l' : List (Ev α)) :
    consumedIn (l ++ l') = consumedIn l ++ consumedIn l' :=
  List.flatMap_append

@[simp] theorem plain_cons (f : Frame α) (stack : List (Frame α)) :
    Plain (f :: stack) ↔ (∀ r, f ≠ .decodeConsume r) ∧ Plain stack := by
  simp only [Plain, List.mem_cons, not_or, forall_and, ne_comm (a := f), ne_eq]

@[simp] theorem plain_nil : Plain ([] : List (Frame α)) := by simp [Plain]

theorem silent_leftovers {bs : List α} {tail : List (Ev α)} (h : ∀ e ∈ tail, e = .leftover bs) :
    deliveredAt tail = [] ∧ consumedIn tail = [] := by
  simp only [deliveredAt, consumedIn, List.flatMap_eq_nil_iff]
  exact ⟨fun e he => by rw [h e he], fun e he => by rw [h e he]⟩

@[simp] theorem deliveredAt_passed (k : Nat) (bs : List α) (l : List (Ev α)) :
    deliveredAt (.passed k bs :: l) = deliveredAt l := rfl

@[simp] theorem deliveredAt_wrote (k : Nat) (bs : List α) (l : List (Ev α)) :
    deliveredAt (.wrote k bs :: l) = deliveredAt l := rfl

@[simp] theorem consumedIn_passed (k : Nat) (bs : List α) (l : List (Ev α)) :
    consumedIn (.passed k bs :: l) = consumedIn l := rfl

@[simp] theorem consumedIn_wrote (k : Nat) (bs : List α) (l : List (Ev α)) :
    consumedIn (.wrote k bs :: l) = consumedIn l := rfl

theorem Grows.sends {codec : Codec α} {s s' : Conn α} {act : Action α}
    (h : Sends codec s act s') : Grows s s' := by
  cases h with
  | closed _ _ _ _ left log =>
      obtain ⟨hd, hc⟩ := silent_leftovers left
      exact ⟨by simp [log, hd], by simp [log, hc], Nat.le_refl _, id⟩
  | queued _ _ _ _ _ input left log =>
      obtain ⟨hd, hc⟩ := silent_leftovers left
      refine ⟨by simp [log, hd], by simp [log, hc], ?_, id⟩
      rcases input with ⟨-, h⟩ | ⟨-, -, h⟩ <;> simp [h]
  | wrote _ _ _ _ _ _ _ _ _ _ _ input left log =>
      obtain ⟨hd, hc⟩ := silent_leftovers left
      refine ⟨by simp [log, hd], by simp [log, hc], ?_, id⟩
      rcases input with ⟨-, h⟩ | ⟨-, -, h⟩ <;> simp [h]
  | reset _ _ _ _ _ _ left log =>
      obtain ⟨hd, hc⟩ := silent_leftovers left
      exact ⟨by simp [log, hd], by simp [log, hc], Nat.le_refl _, by simp⟩

theorem Grows.performs {codec : Codec α} {s s' : Conn α} {act : Action α}
    (h : Performs codec s act s') : Grows s s' := by
  cases h with
  | sends h => exact Grows.sends h
  | shuts => exact ⟨rfl, rfl, Nat.le_refl _, by simp⟩
  | shutAlready => exact ⟨rfl, rfl, Nat.le_refl _, id⟩
  | close => exact ⟨rfl, rfl, Nat.le_refl _, id⟩
  | consume => exact ⟨rfl, rfl, Nat.le_add_right _ _, id⟩
  | overrun => exact ⟨rfl, rfl, Nat.le_refl _, id⟩
  | addIdle => exact ⟨rfl, rfl, Nat.le_refl _, id⟩
  | addNoIdle => exact ⟨rfl, rfl, Nat.le_refl _, id⟩
  | exit => exact ⟨rfl, rfl, Nat.le_refl _, id⟩

theorem Grows.callsState {ch : Choice α} {s s' : Conn α} (h : CallsState ch s s') :
    Grows s s' := by
  cases h with
  | skip => exact ⟨rfl, rfl, Nat.le_refl _, id⟩
  | user => exact ⟨by simp [deliveredAt], by simp [consumedIn], Nat.le_refl _, by simp⟩

theorem Grows.callsRead {ch : Choice α} {s s' : Conn α} (h : CallsRead ch s s') :
    Grows s s' := by
  cases h with
  | skip => exact ⟨rfl, rfl, Nat.le_refl _, id⟩
  | user => exact ⟨by simp [deliveredAt], by simp [consumedIn], Nat.le_refl _, by simp⟩
  | onMsg => exact ⟨rfl, rfl, Nat.le_refl _, by simp⟩

theorem Grows.trans {s t u : Conn α} (h : Grows s t) (h' : Grows t u) : Grows s u :=
  ⟨h'.delivered.trans h.delivered, h'.consumed.trans h.consumed, h.pos.trans h'.pos,
    fun hp => h'.stack (h.stack hp)⟩

theorem Grows.push_user (s : Conn α) (todo : List (Action α)) : Grows s (s.push (.user todo)) :=
  ⟨rfl, rfl, Nat.le_refl _, by simp⟩

/-- A step that neither hands a frame over nor consumes one, or the end of the
process. -/
theorem Move.grows {codec : Codec α} {ch : Choice α} {f : Option (Frame α)} {s s' : Conn α}
    (h : Move codec ch f s s') (hf : ∀ r, f ≠ some (.decodeConsume r)) :
    s'.fault ≠ none ∧ s'.log = s.log ∨ Grows s s' ∨
      ∃ r msg, codec.tryDecode s.input.contents = (r, msg) ∧ 0 < r ∧ s' = { s with
        stack := .user ch.body :: .decodeConsume r.toNat :: s.stack
        log := s.log ++ [.sees s.attempt s.input.contents, .deliver s.pos msg] } := by
  cases h with
  | faults fault _ log => exact Or.inl ⟨fault, log⟩
  | chore => exact Or.inr (Or.inl ⟨rfl, rfl, Nat.le_refl _, id⟩)
  | call _ h => exact Or.inr (Or.inl (Grows.performs h))
  | shut => exact Or.inr (Or.inl ⟨rfl, rfl, Nat.le_refl _, by simp⟩)
  | shutdown => exact Or.inr (Or.inl ⟨rfl, rfl, Nat.le_refl _, by simp⟩)
  | attach =>
      exact Or.inr (Or.inl ⟨by simp [deliveredAt], by simp [consumedIn], Nat.le_refl _, id⟩)
  | sets => exact Or.inr (Or.inl ⟨rfl, rfl, Nat.le_refl _, id⟩)
  | readable => exact Or.inr (Or.inl ⟨rfl, rfl, Nat.le_refl _, by simp⟩)
  | flushReset =>
      exact Or.inr (Or.inl ⟨by simp [deliveredAt], by simp [consumedIn], Nat.le_refl _, by simp⟩)
  | flush _ _ _ _ _ _ _ writablecb =>
      refine Or.inr (Or.inl ⟨by simp [deliveredAt], by simp [consumedIn], Nat.le_refl _, ?_⟩)
      rcases writablecb with rfl | ⟨rfl, -⟩ <;> simp
  | handshake from' _ _ _ _ statecb =>
      refine Or.inr (Or.inl (Grows.trans ?_ (Grows.callsState statecb)))
      refine ⟨rfl, rfl, Nat.le_refl _, ?_⟩
      rcases from' with ⟨-, rfl⟩ | ⟨rfl, -⟩ <;> simp
  | refused => exact Or.inr (Or.inl ⟨rfl, rfl, Nat.le_refl _, by simp⟩)
  | finish => exact Or.inr (Or.inl ⟨rfl, rfl, Nat.le_refl _, id⟩)
  | perform h => exact Or.inr (Or.inl ((Grows.push_user s _).trans (Grows.performs h)))
  | handleRead => exact Or.inr (Or.inl ⟨rfl, rfl, Nat.le_refl _, by simp⟩)
  | readEnd => exact Or.inr (Or.inl ⟨rfl, rfl, Nat.le_refl _, by simp⟩)
  | readRetry => exact Or.inr (Or.inl ⟨rfl, rfl, Nat.le_refl _, by simp⟩)
  | readAll _ _ _ _ readcb =>
      refine Or.inr (Or.inl (Grows.trans ?_ (Grows.callsRead readcb)))
      exact ⟨by simp [deliveredAt], by simp [consumedIn], Nat.le_refl _, id⟩
  | readData =>
      exact Or.inr (Or.inl ⟨by simp [deliveredAt], by simp [consumedIn], Nat.le_refl _, by simp⟩)
  | writeOff => exact Or.inr (Or.inl ⟨rfl, rfl, Nat.le_refl _, id⟩)
  | cleanup readcb =>
      refine Or.inr (Or.inl (Grows.trans ?_ (Grows.callsRead readcb)))
      exact ⟨by simp [deliveredAt], by simp [consumedIn], Nat.le_refl _, by simp⟩
  | cleanupState statecb =>
      refine Or.inr (Or.inl (Grows.trans ?_ (Grows.callsState statecb)))
      exact ⟨rfl, rfl, Nat.le_refl _, by simp⟩
  | reconnect _ _ _ close =>
      refine Or.inr (Or.inl ⟨rfl, rfl, Nat.le_refl _, ?_⟩)
      rcases close with rfl | ⟨rfl, -⟩ <;> simp
  | release _ _ close =>
      refine Or.inr (Or.inl ⟨by simp [deliveredAt], by simp [consumedIn], Nat.le_refl _, ?_⟩)
      rcases close with rfl | rfl <;> simp
  | reconnectEnd => exact Or.inr (Or.inl ⟨rfl, rfl, Nat.le_refl _, id⟩)
  | decodeNull =>
      exact Or.inr (Or.inl ⟨by simp [deliveredAt], by simp [consumedIn], Nat.le_refl _, id⟩)
  | decodeShut =>
      exact Or.inr (Or.inl ⟨by simp [deliveredAt], by simp [consumedIn], Nat.le_refl _, by simp⟩)
  | decodeWait =>
      exact Or.inr (Or.inl ⟨by simp [deliveredAt], by simp [consumedIn], Nat.le_refl _, id⟩)
  | decodeFrame _ _ decode pos => exact Or.inr (Or.inr ⟨_, _, decode, pos, rfl⟩)
  | consume => exact absurd rfl (hf _)
  | overrun => exact absurd rfl (hf _)

/-! ## The invariant -/

/-- Where the decode loop is: no frame is out, or one is, on top or under the
running `cb`, and its bytes are still the first of `input_`. -/
inductive Outstanding (s : Conn α) : Prop
  | idle (plain : Plain s.stack) (before : ∀ p ∈ deliveredAt s.log, p < s.pos)
  | frame {r : Nat} {rest : List (Frame α)}
      (stack : s.stack = .decodeConsume r :: rest ∨
        ∃ todo, s.stack = .user todo :: .decodeConsume r :: rest)
      (plain : Plain rest) (positive : 0 < r) (there : r ≤ s.input.size)
      (before : ∀ p ∈ deliveredAt s.log, p ≤ s.pos)

structure Once (s : Conn α) : Prop where
  delivered : (deliveredAt s.log).Nodup
  consumed : ∀ c ∈ consumedIn s.log, c.1 ≤ c.2
  out : s.fault = none → Outstanding s

theorem Once.of_fault {s s' : Conn α} (hs : Once s) (hfault : s'.fault ≠ none)
    (hlog : s'.log = s.log) : Once s' :=
  ⟨hlog ▸ hs.delivered, hlog ▸ hs.consumed, fun h => absurd h hfault⟩

theorem Once.of_grows {s s' : Conn α} (hs : Once s) (hplain : Plain s.stack)
    (hbefore : ∀ p ∈ deliveredAt s.log, p < s.pos) (h : Grows s s') : Once s' := by
  refine ⟨h.delivered ▸ hs.delivered, h.consumed ▸ hs.consumed, fun _ => ?_⟩
  exact .idle (h.stack hplain) fun p hp => (hbefore p (h.delivered ▸ hp)).trans_le h.pos

/-- A step with no frame out. -/
theorem Once.idle {codec : Codec α} (hb : codec.Bounded) {ch : Choice α} {f : Option (Frame α)}
    {s s' : Conn α} (hs : Once s) (hplain : Plain s.stack)
    (hbefore : ∀ p ∈ deliveredAt s.log, p < s.pos) (hf : ∀ r, f ≠ some (.decodeConsume r))
    (h : Move codec ch f s s') : Once s' := by
  rcases h.grows hf with ⟨hfault, hlog⟩ | h | ⟨r, msg, hdecode, hr, rfl⟩
  · exact hs.of_fault hfault hlog
  · exact hs.of_grows hplain hbefore h
  · have hnew : deliveredAt (s.log ++ [.sees s.attempt s.input.contents, .deliver s.pos msg]) =
        deliveredAt s.log ++ [s.pos] := by simp [deliveredAt]
    refine ⟨?_, by simpa [consumedIn] using hs.consumed, fun _ => ?_⟩
    · rw [hnew]
      refine List.nodup_append.mpr ⟨hs.delivered, by simp, ?_⟩
      intro p hp q hq
      rw [List.mem_singleton.mp hq]
      exact Nat.ne_of_lt (hbefore p hp)
    · refine .frame (Or.inr ⟨ch.body, rfl⟩) hplain (by omega) ?_ ?_
      · have h := hb s.input.contents
        rw [hdecode, Buffer.contents_length] at h
        simp only at h ⊢
        omega
      · intro p hp
        rw [hnew] at hp
        rcases List.mem_append.mp hp with hp | hp
        · exact Nat.le_of_lt (hbefore p hp)
        · exact Nat.le_of_eq (List.mem_singleton.mp hp)

/-- A call that does not bite leaves the frame, its position and the calls under
way where they are. -/
theorem kept_of_gentle {codec : Codec α} {s s' : Conn α} {act : Action α}
    (hact : bites codec s act = false) (h : Performs codec s act s') :
    s'.stack = s.stack ∧ s'.input.size = s.input.size ∧ s'.pos = s.pos := by
  cases h with
  | sends h =>
      cases h with
      | closed => exact ⟨rfl, rfl, rfl⟩
      | queued _ _ hch _ _ input =>
          rcases input with ⟨rfl, rfl⟩ | ⟨⟨ws, rfl⟩, -⟩
          · exact ⟨rfl, rfl, rfl⟩
          · simp [bites, hch] at hact
      | wrote _ _ _ hch _ _ _ _ _ _ _ input =>
          rcases input with ⟨rfl, rfl⟩ | ⟨⟨ws, rfl⟩, -⟩
          · exact ⟨rfl, rfl, rfl⟩
          · simp [bites, hch] at hact
      | reset hpassed hstop hch =>
          cases act with
          | sendStr => simp [bites, hstop] at hact
          | sendBuffer => simp [bites, hstop] at hact
          | sendInput => simp [bites, hch] at hact
          | sendMsg => simp [bites, hstop] at hact
          | closeNow => simp [passedBy] at hpassed
          | close => simp [passedBy] at hpassed
          | consume => simp [passedBy] at hpassed
          | addIdleCB => simp [passedBy] at hpassed
          | exit => simp [passedBy] at hpassed
  | shuts hch hopen => simp [bites, hch, hopen] at hact
  | shutAlready => exact ⟨rfl, rfl, rfl⟩
  | close => exact ⟨rfl, rfl, rfl⟩
  | @consume len le =>
      have hzero : len = 0 := by simpa [bites] using hact
      refine ⟨rfl, ?_, by simp [hzero]⟩
      rw [← Buffer.contents_length, Buffer.contents_consume, hzero, List.drop_zero,
        Buffer.contents_length]
  | @overrun len lt =>
      have hzero : len = 0 := by simpa [bites] using hact
      omega
  | addIdle => exact ⟨rfl, rfl, rfl⟩
  | addNoIdle => exact ⟨rfl, rfl, rfl⟩
  | exit => exact ⟨rfl, rfl, rfl⟩

theorem Once.event {codec : Codec α} (hb : codec.Bounded) {ch : Choice α} {s s' : Conn α}
    (hs : Once s) (hf : s.fault = none) (hstack : s.stack = []) (h : Move codec ch none s s') :
    Once s' := by
  cases hs.out hf with
  | idle plain before => exact hs.idle hb plain before (by simp) h
  | frame stack => simp [hstack] at stack

theorem Once.frame {codec : Codec α} (hb : codec.Bounded) {ch : Choice α} {f : Frame α}
    {s s' : Conn α} (hs : Once (s.push f)) (hf : s.fault = none)
    (hch : Gentle codec (s.push f) ch) (h : Move codec ch (some f) s s') : Once s' := by
  have hlog : deliveredAt (s.push f).log = deliveredAt s.log := rfl
  cases hs.out hf with
  | idle plain before =>
      obtain ⟨hplain, hrest⟩ := (plain_cons f s.stack).mp plain
      have hnow : Once s := ⟨hs.delivered, hs.consumed, fun _ => .idle hrest before⟩
      exact hnow.idle hb hrest before (fun r hr => hplain r (Option.some.inj hr)) h
  | @frame r rest stack plain positive there before =>
      rcases stack with hstack | ⟨todo, hstack⟩
      · obtain ⟨rfl, hrest⟩ := List.cons.inj hstack
        subst hrest
        cases h with
        | faults fault _ hlog =>
            exact ⟨hlog ▸ hs.delivered, hlog ▸ hs.consumed, fun h => absurd h fault⟩
        | handshake from' => simp at from'
        | refused from' => simp at from'
        | finish ends => simp at ends
        | consume le =>
            refine ⟨by simpa [deliveredAt] using hs.delivered, ?_, fun _ => .idle ?_ ?_⟩
            · intro c hc
              rw [consumedIn_append] at hc
              rcases List.mem_append.mp hc with hc | hc
              · exact hs.consumed c hc
              · rw [List.mem_singleton.mp hc]
                exact le
            · simpa using plain
            · intro p hp
              have h := before p (by simpa [deliveredAt] using hp)
              simp only [push] at h ⊢
              omega
        | overrun lt =>
            simp only [push_toTcpConn] at there
            omega
      · obtain ⟨rfl, hrest⟩ := List.cons.inj hstack
        cases h with
        | faults fault _ hlog =>
            exact ⟨hlog ▸ hs.delivered, hlog ▸ hs.consumed, fun h => absurd h fault⟩
        | handshake from' => simp at from'
        | refused from' => simp at from'
        | finish ends =>
            exact ⟨hs.delivered, hs.consumed,
              fun _ => .frame (Or.inl hrest) plain positive there before⟩
        | @perform _ _ act todo h =>
            have hact : bites codec (s.push (.user todo)) act = false := by
              have h : bites codec (s.push (.user (act :: todo))) act = false := by
                simpa [acting] using hch (by simp [inMessage, hrest])
              rw [← h]
              rfl
            obtain ⟨hkept, hsize, hpos⟩ := kept_of_gentle hact h
            have hgrows := Grows.performs h
            refine ⟨hgrows.delivered ▸ hs.delivered, hgrows.consumed ▸ hs.consumed, fun _ => ?_⟩
            refine .frame (Or.inr ⟨todo, ?_⟩) plain positive ?_ ?_
            · rw [hkept, push_stack, hrest]
            · rw [hsize]
              exact there
            · rw [hgrows.delivered, hpos]
              exact before

/-- In every run of a connection with a codec that answers no more than it was
given, from any moment with no frame out, if no message callback closes the
channel, meets a peer that is gone or takes bytes out of `input_` itself, then
each position of the stream is passed to `cb` at most once and every
`consume(r)` has `r` bytes to consume. -/
theorem messages_delivered_once [Inhabited α] (codec : Codec α) (hb : codec.Bounded) (s : Conn α)
    (hstack : Plain s.stack) (hlog : s.log = []) (cs : List (Choice α))
    (hcs : Driven.Along (step codec) (Gentle codec) s cs) :
    let t := Driven.run (step codec) s cs
    (deliveredAt t.log).Nodup ∧ ∀ c ∈ consumedIn t.log, c.1 ≤ c.2 := by
  have hstart : Once s := by
    refine ⟨by simp [hlog, deliveredAt], by simp [hlog, consumedIn], fun _ => .idle hstack ?_⟩
    simp [hlog, deliveredAt]
  have hend := run_of_moves codec (fun _ _ _ hf hstack hi _ hm => hi.event hb hf hstack hm)
    (fun _ _ _ _ hf hi hp hm => hi.frame hb hf hp hm) hstart hcs
  exact ⟨hend.delivered, hend.consumed⟩

/-- Lines arrive in one read, and `cb` makes the calls of `body` for the first. -/
def lineRun (lines : Bytes) (body : List (Action UInt8)) : List (Choice UInt8) :=
  [{ event := .readable }, .go, { read := .data lines }, .go, { body := body }] ++
    List.replicate 12 .go

theorem messages_delivered_once_echo :
    let t := Driven.run (step LineCodec.codec) (opened .onMsg false false (-1))
      (lineRun [0x61, 0x0a, 0x62, 0x0a] [.sendMsg [0x61] [.wrote 0, .eagain]])
    deliveredAt t.log = [0, 2] ∧ (deliveredAt t.log).Nodup ∧
      ∀ c ∈ consumedIn t.log, c.1 ≤ c.2 :=
  ⟨by decide +kernel,
    messages_delivered_once LineCodec.codec LineCodec.bounded _ (by simp [opened, fresh]) rfl _
      (by decide +kernel)⟩

/-- A callback that calls `closeNow` gets its line twice, and the second
`consume` finds nothing. -/
theorem closeNow_delivers_twice :
    let t := Driven.run (step LineCodec.codec) (opened .onMsg false false (-1))
      (lineRun [0x61, 0x0d, 0x0a] [.closeNow])
    deliveredAt t.log = [0, 0] ∧ consumedIn t.log = [(3, 3), (3, 0)] ∧
      ¬ ((deliveredAt t.log).Nodup ∧ ∀ c ∈ consumedIn t.log, c.1 ≤ c.2) := by
  decide +kernel

end Conn

end Handy
