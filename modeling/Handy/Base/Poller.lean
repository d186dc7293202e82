import Handy.Lib.Run
import Mathlib.Data.List.Basic

/-! # Dispatching ready events

`PollerEpoll::loop_once` walks the ready entries from the last to the first and
calls the handlers of their channels. A handler may close any channel, its own
too, and `Channel::close` comes back through `removeChannel`, which takes the
closed channel out of the entries still to come by the shared cursor
`lastActive_`. The pointer the loop has already read is not among them: what
keeps a dispatch off a closed channel is that no channel is closed by the write
part of an entry that still has its read part before it.
-/

namespace Handy

/-- The bits of an entry the loop looks at. -/
structure ReadyEvents where
  read : Bool
  write : Bool
  err : Bool
deriving DecidableEq, Repr

/-- `events & (kReadEvent | POLLERR)`. -/
def ReadyEvents.wantsRead (ev : ReadyEvents) : Bool := ev.read || ev.err

/-- Where `loop_once` is when no handler runs: not entered, at the head of its
`while`, or behind the write part of an entry. -/
inductive LoopPos (C : Type) where
  | idle
  | head
  | readPart (ch : C) (events : ReadyEvents)
deriving DecidableEq, Repr

/-- What happened to a channel: `Channel::close`, and the calls the loop makes. -/
inductive PollEvent (C : Type) where
  | closed (ch : C)
  | dispatched (ch : C)
deriving DecidableEq, Repr

/-- The poller, the channels, and the handler calls in progress. `ids` are the
channels constructed so far; `log` is newest first. -/
structure Poller (C : Type) where
  activeEvs : List (Option C × ReadyEvents)
  lastActive : Int
  exited : Bool
  liveChannels : List C
  fdOpen : C → Bool
  ids : List C
  loop : LoopPos C
  calls : Nat
  dead : Bool
  log : List (PollEvent C)

/-- The environment's next move: what `epoll_wait` returns, a task run outside
`loop_once`, the loop's own next piece of code, what the innermost handler call
does, and `exited()`. -/
inductive PollChoice (C : Type) where
  | wait (batch : List (C × ReadyEvents))
  | interrupted
  | task
  | go
  | close (ch : C)
  | register (ch : C)
  | ret
  | exit
deriving Repr

/-- The scan of `removeChannel` over the entries below `k`, from the last. -/
def clearDown {C : Type} [DecidableEq C] (c : C) :
    Nat → List (Option C × ReadyEvents) → List (Option C × ReadyEvents)
  | 0, evs => evs
  | i + 1, evs =>
      match evs[i]? with
      | some (some ch, ev) => if ch = c then evs.set i (none, ev) else clearDown c i evs
      | _ => clearDown c i evs

namespace Poller

variable {C : Type} [DecidableEq C]

omit [DecidableEq C] in
def new : Poller C where
  activeEvs := []
  lastActive := -1
  exited := false
  liveChannels := []
  fdOpen _ := false
  ids := []
  loop := .idle
  calls := 0
  dead := false
  log := []

/-- What `epoll_wait` may return: channels that are registered, each once. -/
def Ready (s : Poller C) (batch : List (C × ReadyEvents)) : Prop :=
  (batch.map Prod.fst).Nodup ∧ ∀ p ∈ batch, p.1 ∈ s.liveChannels

instance (s : Poller C) (batch : List (C × ReadyEvents)) : Decidable (s.Ready batch) :=
  inferInstanceAs (Decidable (_ ∧ _))

omit [DecidableEq C] in
/-- Entries behind the new ones keep what an earlier call left there. -/
def wait (s : Poller C) (batch : List (C × ReadyEvents)) : Poller C :=
  { s with
    activeEvs := batch.map (fun p => (some p.1, p.2)) ++ s.activeEvs.drop batch.length
    lastActive := batch.length
    loop := .head }

def removeChannel (s : Poller C) (ch : C) : Poller C :=
  { s with
    liveChannels := s.liveChannels.filter fun c => c ≠ ch
    activeEvs := clearDown ch (s.lastActive + 1).toNat s.activeEvs }

/-- `Channel::close` up to the call of `handleRead()`, which is one more call in
progress. -/
def closeChannel (s : Poller C) (ch : C) : Poller C :=
  if s.fdOpen ch then
    { s.removeChannel ch with
      fdOpen := fun c => if c = ch then false else s.fdOpen c
      calls := s.calls + 1
      log := .closed ch :: s.log }
  else s

/-- `Channel(base, fd, events)` with a new id. -/
def addChannel (s : Poller C) (ch : C) : Poller C :=
  { s with
    liveChannels := ch :: s.liveChannels
    fdOpen := fun c => if c = ch then true else s.fdOpen c
    ids := ch :: s.ids }

omit [DecidableEq C] in
/-- The loop calls a handler of `ch` and goes on at `next`. -/
def dispatch (s : Poller C) (ch : C) (next : LoopPos C) : Poller C :=
  { s with loop := next, calls := 1, log := .dispatched ch :: s.log }

omit [DecidableEq C] in
/-- `while ((--lastActive_ >= 0) && (!exited_))` and the body up to the write part. -/
def head (s : Poller C) : Poller C :=
  let s := { s with lastActive := s.lastActive - 1 }
  if 0 ≤ s.lastActive ∧ s.exited = false then
    match s.activeEvs[s.lastActive.toNat]? with
    | some (some ch, ev) =>
        if ev.write then s.dispatch ch (.readPart ch ev) else { s with loop := .readPart ch ev }
    | _ => s
  else { s with loop := .idle }

omit [DecidableEq C] in
/-- The body from the read part on, with the `ch` read before the write part. -/
def readPart (s : Poller C) (ch : C) (ev : ReadyEvents) : Poller C :=
  if ev.wantsRead then s.dispatch ch .head
  else if ev.write then { s with loop := .head }
  else { s with dead := true }

/-- One step; a choice that is not possible changes nothing. -/
def step (s : Poller C) (choice : PollChoice C) : Poller C :=
  if s.dead then s
  else
    match choice with
    | .wait batch => if s.loop = .idle ∧ s.calls = 0 ∧ s.Ready batch then s.wait batch else s
    | .interrupted =>
        if s.loop = .idle ∧ s.calls = 0 then { s with lastActive := -1, loop := .head } else s
    | .task => if s.loop = .idle ∧ s.calls = 0 then { s with calls := 1 } else s
    | .go =>
        if s.calls = 0 then
          match s.loop with
          | .idle => s
          | .head => s.head
          | .readPart ch ev => s.readPart ch ev
        else s
    | .close ch => if s.calls = 0 then s else s.closeChannel ch
    | .register ch => if s.calls = 0 ∨ ch ∈ s.ids then s else s.addChannel ch
    | .ret => { s with calls := s.calls - 1 }
    | .exit => { s with exited := true }

omit [DecidableEq C] in
/-- The calls the loop makes are all to channels not closed before. -/
def Orderly (s : Poller C) : Prop :=
  s.log.Pairwise fun later earlier => ∀ ch, later = .dispatched ch → earlier ≠ .closed ch

/-- The loop is going to call `ch->handleRead()` when the calls in progress are over. -/
def readNext (s : Poller C) (ch : C) : Bool :=
  match s.loop with
  | .readPart c ev => decide (c = ch) && ev.wantsRead
  | _ => false

/-- The handler is not about to close the channel whose read part comes next. -/
def KeepsReader (s : Poller C) : PollChoice C → Prop
  | .close ch => ¬ (s.calls ≠ 0 ∧ s.fdOpen ch = true ∧ s.readNext ch = true)
  | _ => True

instance (s : Poller C) : (choice : PollChoice C) → Decidable (s.KeepsReader choice)
  | .close _ => inferInstanceAs (Decidable (¬ _))
  | .wait _ => isTrue trivial
  | .interrupted => isTrue trivial
  | .task => isTrue trivial
  | .go => isTrue trivial
  | .register _ => isTrue trivial
  | .ret => isTrue trivial
  | .exit => isTrue trivial

end Poller

/-! ## The scan -/

section Scan

variable {C : Type} [DecidableEq C]

theorem clearDown_getElem? (c : C) (k : Nat) {evs : List (Option C × ReadyEvents)} {i : Nat}
    {ch : C} {ev : ReadyEvents} (h : (clearDown c k evs)[i]? = some (some ch, ev)) :
    evs[i]? = some (some ch, ev) := by
  induction k with
  | zero => exact h
  | succ k ih =>
      rw [clearDown] at h
      split at h
      · split at h
        · rw [List.getElem?_set] at h
          split at h
          · split at h
            · cases h
            · cases h
          · exact h
        · exact ih h
      · exact ih h

/-- It takes the channel out of the one entry below `k` that has it. -/
theorem clearDown_ne (c : C) (k : Nat) {evs : List (Option C × ReadyEvents)}
    (hone : ∀ i j ev ev', i < k → j < k → evs[i]? = some (some c, ev) →
      evs[j]? = some (some c, ev') → i = j) {i : Nat} (hi : i < k) {ch : C} {ev : ReadyEvents}
    (h : (clearDown c k evs)[i]? = some (some ch, ev)) : ch ≠ c := by
  rintro rfl
  have hthere := clearDown_getElem? ch k h
  induction k with
  | zero => omega
  | succ k ih =>
      have hrec : i ≠ k → (clearDown ch k evs)[i]? = some (some ch, ev) → False := by
        intro hik hget
        apply ih (by omega) _ hget
        exact fun a b ea eb ha hb => hone a b ea eb (by omega) (by omega)
      rw [clearDown] at h
      split at h
      · next d ev' hk =>
          by_cases hd : d = ch
          · subst hd
            have hik : i = k := hone i k _ _ hi (Nat.lt_succ_self k) hthere hk
            subst hik
            rw [if_pos rfl, List.getElem?_set] at h
            split at h
            · split at h
              · cases h
              · cases h
            · next hne => exact hne rfl
          · rw [if_neg hd] at h
            apply hrec _ h
            rintro rfl
            rw [hk] at hthere
            exact hd (Option.some.inj (Prod.mk.inj (Option.some.inj hthere)).1)
      · next hk =>
          apply hrec _ h
          rintro rfl
          exact hk ch ev hthere

end Scan

namespace Poller

variable {C : Type} [DecidableEq C]

/-! ## What holds between two steps -/

/-- The entries a handler's `removeChannel` scans, or, at the head of the loop,
those still to come. -/
def horizon (s : Poller C) : Int :=
  if s.calls = 0 ∧ s.loop = .head then s.lastActive else s.lastActive + 1

structure Inv (s : Poller C) : Prop where
  live : ∀ c ∈ s.liveChannels, s.fdOpen c = true
  known : ∀ c, s.fdOpen c = true ∨ .closed c ∈ s.log → c ∈ s.ids
  shut : ∀ c, .closed c ∈ s.log → s.fdOpen c = false
  orderly : s.Orderly
  pending : s.loop ≠ .idle → ∀ (i : Nat) c ev, (i : Int) < s.lastActive →
    s.activeEvs[i]? = some (some c, ev) → s.fdOpen c = true
  apart : s.loop ≠ .idle → ∀ (i j : Nat) c ev ev', (i : Int) < s.horizon → (j : Int) < s.horizon →
    s.activeEvs[i]? = some (some c, ev) → s.activeEvs[j]? = some (some c, ev') → i = j
  reader : ∀ c ev, s.loop = .readPart c ev → ev.wantsRead = true → s.fdOpen c = true

omit [DecidableEq C] in
theorem Orderly.dispatch {s : Poller C} (h : s.Orderly) {ch : C} (next : LoopPos C)
    (hopen : .closed ch ∉ s.log) : (s.dispatch ch next).Orderly := by
  refine List.pairwise_cons.mpr ⟨?_, h⟩
  rintro earlier hmem c hc rfl
  cases hc
  exact hopen hmem

theorem Inv.not_closed {s : Poller C} (h : s.Inv) {ch : C} (hopen : s.fdOpen ch = true) :
    .closed ch ∉ s.log := by
  intro hmem
  rw [h.shut ch hmem] at hopen
  cases hopen

theorem horizon_le (s : Poller C) : s.lastActive ≤ s.horizon ∧ s.horizon ≤ s.lastActive + 1 := by
  unfold horizon
  split <;> omega

theorem Inv.new : (new : Poller C).Inv where
  live _ h := by cases h
  known _ h := by rcases h with h | h <;> cases h
  shut _ h := by cases h
  orderly := List.Pairwise.nil
  pending h := absurd rfl h
  apart h := absurd rfl h
  reader _ _ h := by cases h

theorem Inv.leave {s : Poller C} (h : s.Inv) (last : Int) (calls : Nat) :
    Inv { s with lastActive := last, loop := .idle, calls := calls } where
  live := h.live
  known := h.known
  shut := h.shut
  orderly := h.orderly
  pending hne := absurd rfl hne
  apart hne := absurd rfl hne
  reader _ _ hpos := by cases hpos

theorem Inv.wait {s : Poller C} (h : s.Inv) {batch : List (C × ReadyEvents)}
    (hcalls : s.calls = 0) (hready : s.Ready batch) : (s.wait batch).Inv := by
  have hlook : ∀ i : Nat, (i : Int) < (batch.length : Int) → ∀ c ev,
      (s.wait batch).activeEvs[i]? = some (some c, ev) → batch[i]? = some (c, ev) := by
    intro i hi c ev hget
    rw [Poller.wait, List.getElem?_append_left (by rw [List.length_map]; omega),
      List.getElem?_map, Option.map_eq_some_iff] at hget
    obtain ⟨⟨d, ev'⟩, hb, heq⟩ := hget
    cases heq
    exact hb
  have hhorizon : (s.wait batch).horizon = batch.length := if_pos ⟨hcalls, rfl⟩
  refine ⟨h.live, h.known, h.shut, h.orderly, fun _ i c ev hi hget => ?_,
    fun _ i j c ev ev' hi hj hgi hgj => ?_, fun _ _ hpos => by cases hpos⟩
  · have hmem := List.mem_of_getElem? (hlook i hi c ev hget)
    exact h.live c (hready.2 _ hmem)
  · rw [hhorizon] at hi hj
    have hbi := hlook i hi c ev hgi
    have hbj := hlook j hj c ev' hgj
    have hlen : i < (batch.map Prod.fst).length := by
      rw [List.length_map]
      omega
    apply (List.getElem?_inj hlen hready.1).mp
    rw [List.getElem?_map, List.getElem?_map, hbi, hbj]
    rfl

theorem Inv.closeChannel {s : Poller C} (h : s.Inv) {ch : C} (hcalls : s.calls ≠ 0)
    (hkeep : s.KeepsReader (.close ch)) : (s.closeChannel ch).Inv := by
  unfold Poller.closeChannel
  split
  · next hopen =>
      have hhorizon : s.horizon = s.lastActive + 1 := if_neg fun hz => hcalls hz.1
      refine ⟨?_, ?_, ?_, ?_, ?_, ?_, ?_⟩
      · intro c hc
        obtain ⟨hlive, hne⟩ := List.mem_filter.mp hc
        have hne' : c ≠ ch := of_decide_eq_true hne
        simpa only [if_neg hne'] using h.live c hlive
      · intro c hc
        by_cases hcc : c = ch
        · exact hcc ▸ h.known ch (Or.inl hopen)
        · apply h.known c
          rcases hc with hc | hc
          · exact Or.inl (by simpa only [if_neg hcc] using hc)
          · rcases List.mem_cons.mp hc with heq | hc
            · cases heq
              exact absurd rfl hcc
            · exact Or.inr hc
      · intro c hc
        show (if c = ch then false else s.fdOpen c) = false
        by_cases hcc : c = ch
        · exact if_pos hcc
        · rw [if_neg hcc]
          rcases List.mem_cons.mp hc with heq | hc
          · cases heq
            exact absurd rfl hcc
          · exact h.shut c hc
      · exact List.pairwise_cons.mpr ⟨fun _ _ c hc => absurd hc (by simp), h.orderly⟩
      · intro hne i c ev hi hget
        change (clearDown ch (s.lastActive + 1).toNat s.activeEvs)[i]? = _ at hget
        change (i : Int) < s.lastActive at hi
        have hcc : c ≠ ch := by
          apply clearDown_ne ch _ (fun a b ea eb ha hb => ?_) (by omega) hget
          apply h.apart hne a b ch ea eb
          · rw [hhorizon]; omega
          · rw [hhorizon]; omega
        simpa only [if_neg hcc] using h.pending hne i c ev hi (clearDown_getElem? ch _ hget)
      · intro hne i j c ev ev' hi hj hgi hgj
        have hle := (horizon_le { s.removeChannel ch with
          fdOpen := fun c => if c = ch then false else s.fdOpen c
          calls := s.calls + 1
          log := .closed ch :: s.log }).2
        change _ ≤ s.lastActive + 1 at hle
        apply h.apart hne i j c ev ev' (by rw [hhorizon]; omega) (by rw [hhorizon]; omega)
        · exact clearDown_getElem? ch _ hgi
        · exact clearDown_getElem? ch _ hgj
      · intro c ev hpos hread
        have hcc : c ≠ ch := by
          rintro rfl
          change s.loop = .readPart c ev at hpos
          have hnext : s.readNext c = true := by simp [readNext, hpos, hread]
          exact hkeep ⟨hcalls, hopen, hnext⟩
        simpa only [if_neg hcc] using h.reader c ev hpos hread
  · exact h

theorem Inv.addChannel {s : Poller C} (h : s.Inv) {ch : C} (hnew : ch ∉ s.ids) :
    (s.addChannel ch).Inv := by
  have hkeep : ∀ c, s.fdOpen c = true → (s.addChannel ch).fdOpen c = true := by
    intro c hc
    show (if c = ch then true else s.fdOpen c) = true
    split
    · rfl
    · exact hc
  refine ⟨?_, ?_, ?_, h.orderly, ?_, h.apart, ?_⟩
  · intro c hc
    rcases List.mem_cons.mp hc with rfl | hc
    · exact if_pos rfl
    · exact hkeep c (h.live c hc)
  · intro c hc
    by_cases hcc : c = ch
    · exact hcc ▸ List.mem_cons_self
    · apply List.mem_cons_of_mem
      apply h.known c
      exact hc.imp_left fun hc => by simpa only [Poller.addChannel, if_neg hcc] using hc
  · intro c hc
    have hcc : c ≠ ch := by
      rintro rfl
      exact hnew (h.known c (Or.inr hc))
    simpa only [Poller.addChannel, if_neg hcc] using h.shut c hc
  · exact fun hne i c ev hi hget => hkeep c (h.pending hne i c ev hi hget)
  · exact fun c ev hpos hread => hkeep c (h.reader c ev hpos hread)

/-- A call to an open channel, with no more entries to come and none more to scan
than before. -/
theorem Inv.dispatch {s : Poller C} (h : s.Inv) {ch : C} {next : LoopPos C} {last : Int}
    (hopen : s.fdOpen ch = true) (hin : s.loop ≠ .idle) (hlast : last ≤ s.lastActive)
    (hscan : last + 1 ≤ s.horizon) (hnext : ∀ c ev, next = .readPart c ev → c = ch) :
    (Poller.dispatch { s with lastActive := last } ch next).Inv := by
  have hhorizon : (Poller.dispatch { s with lastActive := last } ch next).horizon = last + 1 :=
    if_neg fun hz => absurd hz.1 Nat.one_ne_zero
  refine ⟨h.live, ?_, ?_, ?_, ?_, ?_, ?_⟩
  · intro c hc
    apply h.known c
    refine hc.imp_right fun hc => ?_
    rcases List.mem_cons.mp hc with heq | hc
    · cases heq
    · exact hc
  · intro c hc
    rcases List.mem_cons.mp hc with heq | hc
    · cases heq
    · exact h.shut c hc
  · exact Orderly.dispatch h.orderly next (h.not_closed hopen)
  · intro _ i c ev hi hget
    change (i : Int) < last at hi
    exact h.pending hin i c ev (by omega) hget
  · intro _ i j c ev ev' hi hj hgi hgj
    rw [hhorizon] at hi hj
    exact h.apart hin i j c ev ev' (by omega) (by omega) hgi hgj
  · intro c ev hpos _
    rw [hnext c ev hpos]
    exact hopen

theorem Inv.move {s : Poller C} (h : s.Inv) (next : LoopPos C) (last : Int) (calls : Nat)
    (hin : s.loop ≠ .idle) (hlast : last ≤ s.lastActive)
    (hscan : Poller.horizon { s with lastActive := last, loop := next, calls := calls } ≤ s.horizon)
    (hnext : ∀ c ev, next = .readPart c ev → ev.wantsRead = true → s.fdOpen c = true) :
    Inv { s with lastActive := last, loop := next, calls := calls } where
  live := h.live
  known := h.known
  shut := h.shut
  orderly := h.orderly
  pending _ i c ev hi hget := by
    change (i : Int) < last at hi
    exact h.pending hin i c ev (by omega) hget
  apart _ i j c ev ev' hi hj hgi hgj := by
    exact h.apart hin i j c ev ev' (by omega) (by omega) hgi hgj
  reader := hnext

/-- The entry the loop comes to belongs to an open channel. -/
theorem Inv.head {s : Poller C} (h : s.Inv) (hcalls : s.calls = 0) (hpos : s.loop = .head) :
    s.head.Inv := by
  have hin : s.loop ≠ .idle := by simp [hpos]
  have hhorizon : s.horizon = s.lastActive := if_pos ⟨hcalls, hpos⟩
  have hstay := fun next => (horizon_le { s with lastActive := s.lastActive - 1, loop := next }).2
  unfold Poller.head
  dsimp only
  split
  · next hgo =>
      split
      · next ch ev hget =>
          have hopen : s.fdOpen ch = true :=
            h.pending hin (s.lastActive - 1).toNat ch ev (by omega) hget
          split
          · exact h.dispatch hopen hin (by omega) (by omega) fun c ev' heq => by cases heq; rfl
          · apply h.move _ _ s.calls hin (by omega)
            · have hle := hstay (.readPart ch ev)
              change _ ≤ s.lastActive - 1 + 1 at hle
              omega
            · intro c ev' heq _
              cases heq
              exact hopen
      · apply h.move _ _ s.calls hin (by omega)
        · have hle := hstay s.loop
          change _ ≤ s.lastActive - 1 + 1 at hle
          omega
        · intro c ev heq
          rw [hpos] at heq
          cases heq
  · exact h.leave (s.lastActive - 1) s.calls

/-- Behind the write part the cached channel is the one the entry had. -/
theorem Inv.readPart {s : Poller C} (h : s.Inv) {ch : C} {ev : ReadyEvents}
    (hpos : s.loop = .readPart ch ev) : (s.readPart ch ev).Inv := by
  have hin : s.loop ≠ .idle := by simp [hpos]
  have hhorizon : s.horizon = s.lastActive + 1 := by
    apply if_neg
    simp [hpos]
  unfold Poller.readPart
  split
  · next hread =>
      exact h.dispatch (h.reader ch ev hpos hread) hin (Int.le_refl _) (by omega)
        fun c ev' heq => by cases heq
  · split
    · apply h.move _ s.lastActive s.calls hin (Int.le_refl _)
      · have hle := (horizon_le { s with loop := .head }).2
        change _ ≤ s.lastActive + 1 at hle
        omega
      · intro c ev' heq
        cases heq
    · exact ⟨h.live, h.known, h.shut, h.orderly, h.pending, h.apart, h.reader⟩

theorem Inv.ret {s : Poller C} (h : s.Inv) : Inv { s with calls := s.calls - 1 } := by
  by_cases hidle : s.loop = .idle
  · have hleave := h.leave s.lastActive (s.calls - 1)
    rw [← hidle] at hleave
    exact hleave
  · apply h.move s.loop s.lastActive _ hidle (Int.le_refl _)
    · show (if s.calls - 1 = 0 ∧ s.loop = .head then s.lastActive else s.lastActive + 1) ≤ s.horizon
      by_cases hz : s.calls = 0 ∧ s.loop = .head
      · have hz' : s.calls - 1 = 0 ∧ s.loop = .head := ⟨by omega, hz.2⟩
        apply Int.le_of_eq
        rw [horizon, if_pos hz, if_pos hz']
      · rw [horizon, if_neg hz]
        split <;> omega
    · exact h.reader

theorem Inv.step {s : Poller C} (h : s.Inv) {choice : PollChoice C} (hkeep : s.KeepsReader choice) :
    (s.step choice).Inv := by
  unfold Poller.step
  split
  · exact h
  · cases choice with
    | wait batch =>
        dsimp only
        split
        · next hok => exact h.wait hok.2.1 hok.2.2
        · exact h
    | interrupted =>
        dsimp only
        split
        · next hok =>
            refine ⟨h.live, h.known, h.shut, h.orderly, ?_, ?_, fun _ _ hpos => by cases hpos⟩
            · intro _ i c ev hi
              change (i : Int) < -1 at hi
              omega
            · intro _ i j c ev ev' hi
              have hle := (horizon_le { s with lastActive := -1, loop := .head }).2
              change _ ≤ (-1 : Int) + 1 at hle
              omega
        · exact h
    | task =>
        dsimp only
        split
        · next hok =>
            have hleave := h.leave s.lastActive 1
            rw [← hok.1] at hleave
            exact hleave
        · exact h
    | go =>
        dsimp only
        split
        · next hcalls =>
            cases hpos : s.loop with
            | idle => exact h
            | head => exact h.head hcalls hpos
            | readPart ch ev => exact h.readPart hpos
        · exact h
    | close ch =>
        dsimp only
        split
        · exact h
        · next hcalls => exact h.closeChannel hcalls hkeep
    | register ch =>
        dsimp only
        split
        · exact h
        · next hok => exact h.addChannel fun hmem => hok (Or.inr hmem)
    | ret => exact h.ret
    | exit => exact ⟨h.live, h.known, h.shut, h.orderly, h.pending, h.apart, h.reader⟩

end Poller

open Poller in
/-- While no handler called for the write part of an entry closes the channel whose
read part comes next, the loop calls no handler of a channel closed before,
whatever the handlers close and register. -/
theorem no_dispatch_to_closed {C : Type} [DecidableEq C] (choices : List (PollChoice C))
    (hkeep : Driven.Along step KeepsReader new choices) :
    (Driven.run step new choices).Orderly :=
  (Driven.run_invariant (I := Inv) (fun _ _ h hk => h.step hk) Inv.new hkeep).orderly

open Poller in
/-- A handler closes the channel of an entry to come, then, in its read part, its
own. -/
theorem no_dispatch_to_closed_busy :
    let both : ReadyEvents := ⟨true, true, false⟩
    let choices : List (PollChoice Nat) :=
      [.task, .register 0, .register 1, .register 2, .ret, .wait [(0, both), (2, both), (1, both)],
        .go, .close 2, .ret, .ret, .go, .register 3, .close 1, .ret, .ret, .go, .go, .ret, .go]
    (Driven.run step new choices).Orderly :=
  no_dispatch_to_closed _ (by decide)

open Poller in
/-- A write handler closes its own channel; the loop still calls `handleRead` on it. -/
theorem handleRead_after_own_close :
    let choices : List (PollChoice Unit) :=
      [.task, .register (), .ret, .wait [((), ⟨true, true, false⟩)], .go, .close (), .ret, .ret, .go]
    (Driven.run step new choices).log = [.dispatched (), .closed (), .dispatched ()] ∧
      ¬ (Driven.run step new choices).Orderly := by
  refine ⟨by decide, ?_⟩
  intro h
  have hfirst := (List.pairwise_cons.mp h).1 (.closed ()) (by decide) ()
  exact hfirst rfl rfl

end Handy
