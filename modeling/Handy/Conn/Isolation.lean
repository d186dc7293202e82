import Handy.Conn.Calculus

/-! # Attempts do not share bytes

A client connection lives through several attempts. `cleanup`, `reconnect`,
`connect` and `attach` reset the channel and the state between two of them and
leave `input_` and `output_` as they are, so the streams of two attempts are
separate exactly as far as both buffers are empty when `reconnect` gives the old
channel up. The cells are of any type: that a cell was passed to a send cannot
then be an accident of its value.
-/

namespace Handy

namespace Conn

variable {α : Type}

/-- What was read from the socket of attempt `k`. -/
def readIn (k : Nat) (log : List (Ev α)) : List α :=
  log.flatMap fun e => match e with
    | .read j bytes => if j = k then bytes else []
    | _ => []

/-- What was passed to the sends after the end of attempt `k - 1` and up to the
end of attempt `k`. -/
def passedIn (k : Nat) (log : List (Ev α)) : List α :=
  log.flatMap fun e => match e with
    | .passed j bytes => if j = k then bytes else []
    | _ => []

/-- What an entry may show of an attempt, after the entries `pre`. -/
def OwnBytes (pre : List (Ev α)) : Ev α → Prop
  | .sees k input => input <:+ readIn k pre
  | .wrote k bytes => ∀ x ∈ bytes, x ∈ passedIn k pre
  | _ => True

/-- What a callback or the codec saw in attempt `k` is an end of what was read in
attempt `k`, and what was written in attempt `k` was passed for it. -/
def Isolated (log : List (Ev α)) : Prop :=
  ∀ pre e post, log = pre ++ e :: post → OwnBytes pre e

/-- `reconnect` is about to give the old channel up. -/
def givesUp (s : Conn α) : Bool :=
  match s.stack with
  | .reconnectEnd :: _ => true
  | _ => false

/-- No exit, and `reconnect` gives a channel up with both buffers empty. -/
structure LeavesNothing (s : Conn α) (ch : Choice α) : Prop where
  exit : (acting s ch).any Action.isExit = false
  buffers : s.givesUp = true → s.input.contents = [] ∧ s.output.contents = []

instance (s : Conn α) (ch : Choice α) : Decidable (LeavesNothing s ch) :=
  decidable_of_iff ((acting s ch).any Action.isExit = false ∧
      (s.givesUp = true → s.input.contents = [] ∧ s.output.contents = []))
    ⟨fun h => ⟨h.1, h.2⟩, fun h => ⟨h.1, h.2⟩⟩

/-! ## The log -/

theorem isolated_nil : Isolated ([] : List (Ev α)) := by
  intro pre e post h
  simp at h

theorem Isolated.snoc {log : List (Ev α)} (hl : Isolated log) {e : Ev α} (he : OwnBytes log e) :
    Isolated (log ++ [e]) := by
  intro pre x post h
  rcases List.eq_nil_or_concat post with rfl | ⟨post, y, rfl⟩
  · obtain ⟨rfl, hx⟩ := List.append_inj' h rfl
    rw [List.cons.inj hx |>.1] at he
    exact he
  · rw [List.concat_eq_append, ← List.cons_append, ← List.append_assoc] at h
    exact hl pre x post (List.append_inj' h rfl).1

def Mute : Ev α → Prop
  | .sees _ _ | .wrote _ _ => False
  | _ => True

theorem Isolated.append {log : List (Ev α)} (hl : Isolated log) {es : List (Ev α)}
    (hes : ∀ e ∈ es, Mute e) : Isolated (log ++ es) := by
  induction es generalizing log with
  | nil => simpa using hl
  | cons e es ih =>
      have he : OwnBytes log e := by
        have h := hes e List.mem_cons_self
        cases e <;> trivial
      have h := ih (hl.snoc he) fun x hx => hes x (List.mem_cons_of_mem _ hx)
      rwa [List.append_assoc] at h

@[simp] theorem readIn_append (k : Nat) (l l' : List (Ev α)) :
    readIn k (l ++ l') = readIn k l ++ readIn k l' :=
  List.flatMap_append

@[simp] theorem passedIn_append (k : Nat) (l l' : List (Ev α)) :
    passedIn k (l ++ l') = passedIn k l ++ passedIn k l' :=
  List.flatMap_append

theorem readIn_of_suffix {k : Nat} {log es : List (Ev α)} {x : List α} (hx : x <:+ readIn k log)
    (hes : readIn k es = []) : x <:+ readIn k (log ++ es) := by
  rwa [readIn_append, hes, List.append_nil]

/-! ## The invariant -/

/-- `output` keeps what was passed for the attempt that runs or comes next; with
no channel that is the next one, and nothing of the last one is left. -/
structure Separate (s : Conn α) : Prop where
  interval : 0 ≤ s.reconnectInterval
  exited : s.exited = false
  between : s.channel = none → s.attempt = s.ended ∧ s.input.contents = []
  during : ∀ c, s.channel = some c → s.attempt = s.ended + 1
  input : s.input.contents <:+ readIn s.attempt s.log
  output : ∀ x ∈ s.output.contents, x ∈ passedIn (s.ended + 1) s.log

/-- The log stays isolated; the rest matters while the process lives. -/
structure Apart (s : Conn α) : Prop where
  log : Isolated s.log
  state : s.fault = none → Separate s

theorem mute_leftovers {bs : List α} {tail : List (Ev α)} (h : ∀ e ∈ tail, e = .leftover bs) :
    ∀ e ∈ tail, Mute e := by
  intro e he
  rw [h e he]
  trivial

theorem in_leftovers {bs : List α} {tail : List (Ev α)} (h : ∀ e ∈ tail, e = .leftover bs)
    (k : Nat) : readIn k tail = [] ∧ passedIn k tail = [] := by
  simp only [readIn, passedIn, List.flatMap_eq_nil_iff]
  exact ⟨fun e he => by rw [h e he], fun e he => by rw [h e he]⟩

@[simp] theorem passedIn_passed (k : Nat) (bs : List α) (l : List (Ev α)) :
    passedIn k (.passed k bs :: l) = bs ++ passedIn k l := by
  simp [passedIn]

@[simp] theorem passedIn_wrote (j k : Nat) (bs : List α) (l : List (Ev α)) :
    passedIn j (.wrote k bs :: l) = passedIn j l := rfl

/-- A send that ends without a call adds what was passed, and what it wrote was
waiting or passed. -/
theorem Isolated.send {log tail : List (Ev α)} (hl : Isolated log) (k : Nat) (bs : List α)
    {w : List α} {j : Nat} (hw : ∀ x ∈ w, j = k ∧ (x ∈ passedIn k log ∨ x ∈ bs))
    (htail : ∀ e ∈ tail, Mute e) :
    Isolated (log ++ .passed k bs :: .wrote j w :: tail) := by
  have hpassed : Isolated (log ++ [.passed k bs]) := hl.snoc trivial
  have hwrote : Isolated (log ++ [.passed k bs] ++ [.wrote j w]) := by
    refine hpassed.snoc fun x hx => ?_
    obtain ⟨rfl, h⟩ := hw x hx
    rw [passedIn_append]
    rcases h with h | h
    · exact List.mem_append_left _ h
    · exact List.mem_append_right _ (by simpa [passedIn] using h)
  have h := hwrote.append htail
  simpa using h

/-- What a send leaves in `output_` was there or was passed. -/
theorem Separate.sent {s : Conn α} (hs : Separate s) {o : List α} (bs : List α) {es : List (Ev α)}
    (ho : ∀ x ∈ o, x ∈ s.output.contents ++ bs) (hes : passedIn (s.ended + 1) es = bs) :
    ∀ x ∈ o, x ∈ passedIn (s.ended + 1) (s.log ++ es) := by
  intro x hx
  rw [passedIn_append, hes]
  rcases List.mem_append.mp (ho x hx) with h | h
  · exact List.mem_append_left _ (hs.output x h)
  · exact List.mem_append_right _ h

theorem Separate.input_eq {s : Conn α} (hs : Separate s) {i : Buffer α}
    (stack : List (Frame α)) (hi : i.contents = s.input.contents) :
    Separate { s with input := i, stack := stack } :=
  { hs with
    between := fun h => ⟨(hs.between h).1, hi.trans (hs.between h).2⟩
    input := by simpa [hi] using hs.input }

theorem Apart.performs {codec : Codec α} {s s' : Conn α} {act : Action α} (hs : Apart s)
    (hf : s.fault = none) (hact : act.isExit = false) (h : Performs codec s act s') :
    Apart s' := by
  have hsep := hs.state hf
  cases h with
  | sends h =>
      cases h with
      | @closed bs o l tail _ _ hnone hout hleft hlog =>
          subst hlog
          refine ⟨hs.log.append ?_, fun _ => ?_⟩
          · exact List.forall_mem_cons.mpr ⟨trivial, mute_leftovers hleft⟩
          · refine ⟨hsep.interval, hsep.exited, hsep.between, hsep.during,
              readIn_of_suffix hsep.input (in_leftovers hleft _).1, hsep.sent bs ?_ ?_⟩
            · intro x hx
              rcases hout with h | h
              · exact List.mem_append_left _ (h ▸ hx)
              · exact h ▸ hx
            · rw [passedIn_passed, (in_leftovers hleft _).2, List.append_nil]
      | @queued bs o i p l tail c _ _ hch hout hqueue hin hleft hlog =>
          subst hlog
          refine ⟨hs.log.append ?_, fun _ => ?_⟩
          · exact List.forall_mem_cons.mpr ⟨trivial, mute_leftovers hleft⟩
          · refine ⟨hsep.interval, hsep.exited, nofun, fun _ _ => hsep.during c hch, ?_,
              hsep.sent bs (fun x hx => hout ▸ hx) ?_⟩
            · refine readIn_of_suffix ?_ (in_leftovers hleft _).1
              rcases hin with ⟨rfl, -⟩ | ⟨-, hnil, -⟩
              · exact hsep.input
              · exact hnil ▸ List.nil_suffix
            · rw [passedIn_passed, (in_leftovers hleft _).2, List.append_nil]
      | @wrote bs base w rest o i p l tail c c' st f _ hstop hkept hch hsplit hoff hout hfd
          hstays hrest hfault hin hleft hlog =>
          subst hlog
          have hmem : ∀ x, x ∈ base ++ (w ++ rest) → x ∈ s.output.contents ++ bs :=
            fun x hx => hsplit ▸ hx
          refine ⟨hs.log.send _ bs (fun x hx => ⟨hsep.during c hch, ?_⟩) (mute_leftovers hleft),
            fun _ => ?_⟩
          · have h := hmem x (List.mem_append_right _ (List.mem_append_left _ hx))
            exact (List.mem_append.mp h).imp_left (hsep.output x)
          · refine ⟨hsep.interval, hsep.exited, nofun, fun _ _ => hsep.during c hch, ?_,
              hsep.sent bs (fun x hx => ?_) ?_⟩
            · refine readIn_of_suffix ?_ (in_leftovers hleft _).1
              rcases hin with ⟨rfl, -⟩ | ⟨-, hnil, -⟩
              · exact hsep.input
              · exact hnil ▸ List.nil_suffix
            · have h : x ∈ base ++ rest := hout ▸ hx
              rcases List.mem_append.mp h with h | h
              · exact hmem x (List.mem_append_left _ h)
              · exact hmem x (List.mem_append_right _ (List.mem_append_right _ h))
            · rw [passedIn_passed, passedIn_wrote, (in_leftovers hleft _).2, List.append_nil]
      | @reset bs w o l tail c _ _ hch hopen hout hown hleft hlog =>
          subst hlog
          refine ⟨hs.log.send _ bs (fun x hx => ⟨hsep.during c hch, ?_⟩) (mute_leftovers hleft),
            fun _ => ?_⟩
          · exact (List.mem_append.mp (hown x hx)).imp_left (hsep.output x)
          · refine ⟨hsep.interval, hsep.exited, nofun, fun _ _ => hsep.during c hch,
              readIn_of_suffix hsep.input (in_leftovers hleft _).1, hsep.sent bs ?_ ?_⟩
            · intro x hx
              rcases hout with h | h
              · exact List.mem_append_left _ (h ▸ hx)
              · exact h ▸ hx
            · rw [passedIn_passed, passedIn_wrote, (in_leftovers hleft _).2, List.append_nil]
  | @shuts c hch hopen =>
      exact ⟨hs.log, fun _ => ⟨hsep.interval, hsep.exited, nofun, fun _ _ => hsep.during c hch,
        hsep.input, hsep.output⟩⟩
  | shutAlready => exact hs
  | close n =>
      exact ⟨hs.log, fun _ => { hsep with }⟩
  | @consume len le =>
      refine ⟨hs.log, fun _ => ⟨hsep.interval, hsep.exited, fun hnone => ?_, hsep.during, ?_,
        hsep.output⟩⟩
      · obtain ⟨hatt, hnil⟩ := hsep.between hnone
        exact ⟨hatt, by simp [hnil]⟩
      · exact (Buffer.contents_consume _ _ le ▸ List.drop_suffix _ _).trans hsep.input
  | overrun => exact ⟨hs.log, fun hf' => by simp at hf'⟩
  | addIdle =>
      exact ⟨hs.log, fun _ => { hsep with }⟩
  | addNoIdle => exact hs
  | exit => cases hact

theorem Apart.callsState {ch : Choice α} {s s' : Conn α} (hs : Apart s)
    (h : CallsState ch s s') : Apart s' := by
  cases h with
  | skip => exact hs
  | user =>
      refine ⟨hs.log.snoc trivial, fun hf => ?_⟩
      have hsep := hs.state hf
      exact ⟨hsep.interval, hsep.exited, hsep.between, hsep.during,
        readIn_of_suffix hsep.input rfl, by simpa [passedIn] using hsep.output⟩

/-- Whoever looks at `input_` sees bytes of this attempt. -/
theorem Apart.callsRead {ch : Choice α} {s s' : Conn α} (hs : Apart s) (hf : s.fault = none)
    (h : CallsRead ch s s') : Apart s' := by
  have hsep := hs.state hf
  cases h with
  | skip => exact hs
  | user =>
      refine ⟨hs.log.snoc hsep.input, fun _ => ?_⟩
      exact ⟨hsep.interval, hsep.exited, hsep.between, hsep.during,
        readIn_of_suffix hsep.input rfl, by simpa [passedIn] using hsep.output⟩
  | onMsg =>
      exact ⟨hs.log, fun _ => { hsep with }⟩

theorem Apart.event {codec : Codec α} {s s' : Conn α} {ch : Choice α} (hs : Apart s)
    (hf : s.fault = none) (hstack : s.stack = []) (hch : LeavesNothing s ch)
    (h : Move codec ch none s s') : Apart s' := by
  have hsep := hs.state hf
  cases h with
  | faults fault _ log => exact ⟨log ▸ hs.log, fun hf' => absurd hf' fault⟩
  | chore _ _ _ exited =>
      exact ⟨hs.log, fun _ => ⟨hsep.interval, exited.trans hsep.exited, hsep.between, hsep.during,
        hsep.input, hsep.output⟩⟩
  | call event h =>
      exact hs.performs hf (by simpa [acting, hstack, event] using hch.exit) h
  | @shut _ c _ _ _ _ exited hchan =>
      exact ⟨hs.log, fun _ => ⟨hsep.interval, exited.trans hsep.exited, nofun,
        fun _ _ => hsep.during c hchan, hsep.input, hsep.output⟩⟩
  | shutdown _ _ _ _ _ done => simp [hsep.exited] at done
  | attach _ _ _ _ _ exited hnone =>
      obtain ⟨hatt, hnil⟩ := hsep.between hnone
      refine ⟨hs.log.snoc trivial, fun _ => ⟨hsep.interval, exited.trans hsep.exited, nofun,
        fun _ _ => congrArg (· + 1) hatt, ?_, by simpa [passedIn] using hsep.output⟩⟩
      exact hnil ▸ List.nil_suffix
  | sets => exact ⟨hs.log, fun _ => { hsep with }⟩
  | readable =>
      exact ⟨hs.log, fun _ => { hsep with }⟩
  | @flushReset _ c ws w _ _ hchan _ _ own =>
      refine ⟨hs.log.snoc fun x hx => ?_, fun _ => ?_⟩
      · exact hsep.during c hchan ▸ hsep.output x (own x hx)
      · exact ⟨hsep.interval, hsep.exited, nofun, fun _ _ => hsep.during c hchan,
          readIn_of_suffix hsep.input rfl, by simpa [passedIn] using hsep.output⟩
  | @flush _ c ws w o callback _ _ hchan _ _ split =>
      have hmem : ∀ x, x ∈ w ++ o.contents → x ∈ passedIn (s.ended + 1) s.log :=
        fun x hx => hsep.output x (split ▸ hx)
      refine ⟨hs.log.snoc fun x hx => ?_, fun _ => ?_⟩
      · exact hsep.during c hchan ▸ hmem x (List.mem_append_left _ hx)
      · refine ⟨hsep.interval, hsep.exited, nofun, fun _ _ => hsep.during c hchan,
          readIn_of_suffix hsep.input rfl, fun x hx => ?_⟩
        rw [passedIn_append]
        exact List.mem_append_left _ (hmem x (List.mem_append_right _ hx))
  | @handshake _ _ _ c next _ _ hchan _ _ statecb =>
      refine Apart.callsState ?_ statecb
      exact ⟨hs.log, fun _ => { hsep with between := nofun, during := fun _ _ => hsep.during c hchan }⟩
  | refused =>
      exact ⟨hs.log, fun _ => { hsep with }⟩

theorem Apart.frame {codec : Codec α} {s s' : Conn α} {ch : Choice α} {f : Frame α}
    (hs : Apart (s.push f)) (hf : s.fault = none) (hch : LeavesNothing (s.push f) ch)
    (h : Move codec ch (some f) s s') : Apart s' := by
  have hnow : Apart s := by
    refine ⟨hs.log, fun _ => ?_⟩
    have h := hs.state hf
    exact ⟨h.interval, h.exited, h.between, h.during, h.input, h.output⟩
  have hsep := hnow.state hf
  cases h with
  | faults fault _ log => exact ⟨log ▸ hs.log, fun hf' => absurd hf' fault⟩
  | @handshake _ _ _ c next _ _ hchan _ _ statecb =>
      refine Apart.callsState ?_ statecb
      exact ⟨hs.log, fun _ => { hsep with between := nofun, during := fun _ _ => hsep.during c hchan }⟩
  | refused =>
      exact ⟨hs.log, fun _ => { hsep with }⟩
  | finish => exact hnow
  | @perform _ _ act todo h =>
      have hact : act.isExit = false := by simpa [acting] using hch.exit
      refine Apart.performs (s := s.push (.user todo)) ⟨hs.log, fun _ => ?_⟩ hf hact h
      exact { hsep with }
  | handleRead =>
      exact ⟨hs.log, fun _ => { hsep with }⟩
  | readEnd _ _ hi => exact ⟨hs.log, fun _ => hsep.input_eq _ hi⟩
  | readRetry _ _ hi => exact ⟨hs.log, fun _ => hsep.input_eq _ hi⟩
  | readAll _ _ _ hi readcb =>
      refine Apart.callsRead ?_ (by exact hf) readcb
      refine ⟨hs.log.append ?_, fun _ => ?_⟩
      · simp [Mute]
      · have hin := hsep.input_eq s.stack hi
        have hmute : ∀ k, readIn k (s.idleIds.map (Ev.update (α := α))) = [] ∧
            passedIn k (s.idleIds.map (Ev.update (α := α))) = [] := by simp [readIn, passedIn]
        exact { hin with
          input := readIn_of_suffix hin.input (hmute _).1
          output := by simpa [hmute] using hin.output }
  | @readData _ c i got _ hchan _ hi =>
      refine ⟨hs.log.snoc trivial, fun _ => { hsep with
        between := fun h => by simp [hchan] at h
        input := ?_
        output := by simpa [passedIn] using hsep.output }⟩
      have hown : readIn s.attempt [Ev.read s.attempt got] = got := by simp [readIn]
      rw [readIn_append, hown, hi]
      exact List.suffix_append_self_iff.mpr hsep.input
  | @writeOff _ c hchan =>
      exact ⟨hs.log, fun _ => { hsep with between := nofun, during := fun _ _ => hsep.during c hchan }⟩
  | cleanup readcb =>
      refine Apart.callsRead ?_ (by exact hf) readcb
      refine ⟨hs.log.snoc trivial, fun _ => ?_⟩
      exact { hsep with
        input := readIn_of_suffix hsep.input rfl
        output := by simpa [passedIn] using hsep.output }
  | cleanupState statecb =>
      refine Apart.callsState ?_ statecb
      exact ⟨hs.log, fun _ => { hsep with }⟩
  | @reconnect _ c closing _ hchan =>
      exact ⟨hs.log, fun _ => { hsep with between := nofun, during := fun _ _ => hsep.during c hchan }⟩
  | release _ wanted => exact absurd ⟨hsep.interval, hsep.exited⟩ wanted
  | reconnectEnd =>
      obtain ⟨hin, hout⟩ := hch.buffers rfl
      refine ⟨hs.log, fun _ => ⟨hsep.interval, hsep.exited, fun _ => ⟨rfl, hin⟩, nofun, hsep.input, ?_⟩⟩
      intro x hx
      rw [show s.output.contents = [] from hout] at hx
      cases hx
  | decodeNull => exact ⟨hs.log.snoc hsep.input, fun hf' => by simp at hf'⟩
  | @decodeShut _ c hchan =>
      refine ⟨hs.log.snoc hsep.input, fun _ => { hsep with
        between := nofun
        during := fun _ _ => hsep.during c hchan
        input := readIn_of_suffix hsep.input rfl
        output := by simpa [passedIn] using hsep.output }⟩
  | decodeWait =>
      exact ⟨hs.log.snoc hsep.input, fun _ => { hsep with
        input := readIn_of_suffix hsep.input rfl
        output := by simpa [passedIn] using hsep.output }⟩
  | @decodeFrame _ r msg =>
      refine ⟨?_, fun _ => { hsep with
        input := readIn_of_suffix hsep.input rfl
        output := by simpa [passedIn] using hsep.output }⟩
      have h := (hs.log.snoc (e := .sees s.attempt s.input.contents) hsep.input).snoc
        (e := .deliver s.pos msg) trivial
      simpa using h
  | @consume _ r le =>
      refine ⟨hs.log.snoc trivial, fun _ => { hsep with
        between := fun h => ⟨(hsep.between h).1, by simp [(hsep.between h).2]⟩
        input := ?_
        output := by simpa [passedIn] using hsep.output }⟩
      refine readIn_of_suffix ?_ rfl
      exact (Buffer.contents_consume _ _ le ▸ List.drop_suffix _ _).trans hsep.input
  | overrun => exact ⟨hs.log.snoc trivial, fun hf' => by simp at hf'⟩

/-- In every run of a reconnecting client without an exit, if `reconnect` always
gives the old channel up with both buffers empty, every attempt sees its own
bytes and writes its own bytes. -/
theorem reconnect_isolates_streams [Inhabited α] (codec : Codec α) (readcb : ReadCb)
    (writablecb statecb : Bool) (interval : Int) (hinterval : 0 ≤ interval)
    (cs : List (Choice α))
    (hcs : Driven.Along (step codec) LeavesNothing (fresh readcb writablecb statecb interval) cs) :
    Isolated (Driven.run (step codec) (fresh readcb writablecb statecb interval) cs).log := by
  have hstart : Apart (fresh readcb writablecb statecb interval : Conn α) := by
    refine ⟨isolated_nil, fun _ => ⟨hinterval, rfl, fun _ => ⟨rfl, rfl⟩, nofun, ?_, nofun⟩⟩
    exact List.nil_suffix
  exact (run_of_moves codec (fun _ _ _ hf hstack hi hp hm => hi.event hf hstack hp hm)
    (fun _ _ _ _ hf hi hp hm => hi.frame hf hp hm) hstart hcs).log

/-- Up to the second attempt: the first one reads and, its callback being `body`,
ends at the end of the stream. -/
def twoAttempts (first : List (Choice UInt8)) (body : List (Action UInt8)) :
    List (Choice UInt8) :=
  [{ event := .connect 80 false }, { event := .writable [] }] ++ first ++
    [{ event := .readable }, .go, { read := .data [1, 2] }, { body := body }] ++
    List.replicate (body.length + 1) .go ++
    [{ event := .readable }, .go, { read := .eof }, .go, .go, .go, .go, .go, .go,
      { event := .reconnectTimer }, { event := .writable [] }, { event := .writable [.wrote 7] }, .go,
      { event := .readable }, .go, { read := .data [3] }, .go]

theorem reconnect_isolates_streams_consumed :
    Isolated (Driven.run (step LineCodec.codec) (fresh .user false false 0)
      (twoAttempts [] [.consume 2])).log ∧
      readIn 2 (Driven.run (step LineCodec.codec) (fresh .user false false 0)
        (twoAttempts [] [.consume 2])).log = [3] :=
  ⟨reconnect_isolates_streams LineCodec.codec .user false false 0 (Int.le_refl 0) _
    (by decide +kernel), by decide +kernel⟩

/-- What the first attempt leaves unread by its callback and unsent goes to the
second one: it sees both and its peer gets both. -/
theorem leftover_crosses_reconnect :
    let t := Driven.run (step LineCodec.codec) (fresh .user false false 0)
      (twoAttempts [{ event := .call (.sendStr [8, 9] [.eagain]) }] [])
    Ev.sees 2 [1, 2, 3] ∈ t.log ∧ readIn 2 t.log = [3] ∧
      Ev.wrote 2 [8, 9] ∈ t.log ∧ passedIn 2 t.log = [] ∧ ¬ Isolated t.log := by
  intro t
  have hwrote : Ev.wrote 2 [8, 9] ∈ t.log := by decide +kernel
  have hpassed : passedIn 2 t.log = [] := by decide +kernel
  refine ⟨by decide +kernel, by decide +kernel, hwrote, hpassed, fun h => ?_⟩
  obtain ⟨pre, post, hlog⟩ := List.append_of_mem hwrote
  have hown : (8 : UInt8) ∈ passedIn 2 pre := h pre _ post hlog 8 (by simp)
  rw [hlog, passedIn_append] at hpassed
  rw [(List.append_eq_nil_iff.mp hpassed).1] at hown
  cases hown

end Conn

end Handy
