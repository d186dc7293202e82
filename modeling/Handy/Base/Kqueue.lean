import Handy.Base.Channels
import Mathlib.Data.List.NodupEquivFin

/-! # Dispatching from a kqueue

`PollerKqueue` is `PollerBase` over `kevent`. The kernel keeps a read and a write filter for a
descriptor and reports each on its own, so that a channel may stand in `activeEvs_` twice,
where an `epoll` has it once; `removeChannel` takes it out of one entry, as there.
`updateChannel` deletes the filter of a direction that is off, and to delete a filter that is
not there is an error.
-/

namespace Handy

/-- `EVFILT_READ`, `EVFILT_WRITE`. -/
inductive KqueueFilter where
  | read
  | write
deriving DecidableEq, Repr

/-- Whether a filter is registered, or a direction enabled. -/
def ChannelEvents.has (ev : ChannelEvents) : KqueueFilter → Bool
  | .read => ev.read
  | .write => ev.write

/-- An entry of `activeEvs_`: `udata` (`none` is `NULL`), `filter`, and `EV_EOF` of `flags`. -/
structure Kevent (C : Type) where
  udata : Option C
  filter : KqueueFilter
  eof : Bool
deriving DecidableEq, Repr

/-- What happened to a channel: `Channel::close`, and the calls the loop makes. -/
inductive KqueueCall (C : Type) where
  | closed (ch : C)
  | handleWrite (ch : C)
  | handleRead (ch : C)
deriving DecidableEq, Repr

namespace KqueueCall

/-- The channel of a call from the loop. -/
def called {C : Type} : KqueueCall C → Option C
  | .closed _ => none
  | .handleWrite ch => some ch
  | .handleRead ch => some ch

end KqueueCall

/-- The poller with its channels. `filters` is the kernel's side of a channel's descriptor,
`events` the channel's `events_`; `looping` holds from `kevent` to the end of the `while`;
`ids` are the channels constructed so far; `log` is newest first. -/
structure Kqueue (C : Type) where
  filters : C → ChannelEvents
  events : C → ChannelEvents
  fdOpen : C → Bool
  liveChannels : List C
  ids : List C
  activeEvs : List (Kevent C)
  lastActive : Int
  looping : Bool
  calls : Nat
  dead : Bool
  log : List (KqueueCall C)

/-- The environment's next move: what `kevent` returns, a task run outside `loop_once`, the
loop's next entry, and what the innermost handler call does. `setfl` and `granted` are the
kernel's answers to the calls made (`F_SETFL`, the changes of a `kevent`), `failed` a `kevent`
of the loop that fails for another reason than `EINTR`. -/
inductive KqueueChoice (C : Type) where
  | wait (batch : List (Kevent C))
  | interrupted
  | failed
  | task
  | go
  | construct (ch : C) (events : ChannelEvents) (setfl granted : Bool)
  | update (ch : C) (events : ChannelEvents) (granted : Bool)
  | close (ch : C)
  | ret
deriving Repr

/-- The scan of `removeChannel` over the entries below `k`, from the last. -/
def clearLast {C : Type} [DecidableEq C] (c : C) : Nat → List (Kevent C) → List (Kevent C)
  | 0, evs => evs
  | i + 1, evs =>
      match evs[i]? with
      | some e => if e.udata = some c then evs.set i { e with udata := none } else clearLast c i evs
      | none => clearLast c i evs

namespace Kqueue

variable {C : Type} [DecidableEq C]

omit [DecidableEq C] in
def new : Kqueue C where
  filters _ := ⟨false, false⟩
  events _ := ⟨false, false⟩
  fdOpen _ := false
  liveChannels := []
  ids := []
  activeEvs := []
  lastActive := -1
  looping := false
  calls := 0
  dead := false
  log := []

omit [DecidableEq C] in
/-- A `fatalif` that fires. -/
def fatal (s : Kqueue C) : Kqueue C := { s with dead := true }

/-- `EV_SET` of one filter: `EV_ADD | EV_ENABLE`, or `EV_DELETE`, which fails with `ENOENT`
when there is none. -/
def change (enable registered : Bool) : Option Bool :=
  if enable || registered then some enable else none

/-- `kevent` with the changes for both filters. -/
def changes (enabled registered : ChannelEvents) : Option ChannelEvents :=
  match change enabled.read registered.read with
  | none => none
  | some read =>
      match change enabled.write registered.write with
      | none => none
      | some write => some ⟨read, write⟩

/-- A new descriptor has no filters: those of the directions that are on are added. A `kevent`
without changes has nothing to refuse. -/
def addChannel (s : Kqueue C) (ch : C) (events : ChannelEvents) (granted : Bool) : Kqueue C :=
  if (events.read || events.write) && !granted then s.fatal
  else
    { s with
      filters := fun c => if c = ch then events else s.filters c
      events := fun c => if c = ch then events else s.events c
      fdOpen := fun c => if c = ch then true else s.fdOpen c
      liveChannels := ch :: s.liveChannels
      ids := ch :: s.ids }

/-- `Channel(base, fd, events)`: `setNonBlock`, then `addChannel`. A descriptor that is not
open fails `F_GETFL`, which gives `errno` and is no failure, and then the changes. -/
def construct (s : Kqueue C) (ch : C) (events : ChannelEvents) (setfl granted : Bool) : Kqueue C :=
  if setfl then s.addChannel ch events granted else s.fatal

/-- `events_` gets its new value, then `updateChannel`; a closed channel's descriptor is `-1`. -/
def updateChannel (s : Kqueue C) (ch : C) (events : ChannelEvents) (granted : Bool) : Kqueue C :=
  let s := { s with events := fun c => if c = ch then events else s.events c }
  if s.fdOpen ch && granted then
    match changes events (s.filters ch) with
    | none => s.fatal
    | some registered =>
        { s with filters := fun c => if c = ch then registered else s.filters c }
  else s.fatal

def removeChannel (s : Kqueue C) (ch : C) : Kqueue C :=
  { s with
    liveChannels := s.liveChannels.filter fun c => c ≠ ch
    activeEvs := clearLast ch (s.lastActive + 1).toNat s.activeEvs }

/-- `Channel::close` up to the call of `handleRead()`, which is one more call in progress. The
filters go with the descriptor. -/
def closeChannel (s : Kqueue C) (ch : C) : Kqueue C :=
  if s.fdOpen ch then
    { s.removeChannel ch with
      filters := fun c => if c = ch then ⟨false, false⟩ else s.filters c
      fdOpen := fun c => if c = ch then false else s.fdOpen c
      calls := s.calls + 1
      log := .closed ch :: s.log }
  else s

/-- `kMaxEvents`. -/
def maxEvents : Nat := 2000

/-- What `kevent` may return: filters that are registered, each once. -/
def Offers (s : Kqueue C) (batch : List (Kevent C)) : Prop :=
  batch.length ≤ maxEvents ∧ (batch.map fun e => (e.udata, e.filter)).Nodup ∧
    ∀ e ∈ batch, ∃ ch ∈ s.liveChannels, e.udata = some ch ∧ (s.filters ch).has e.filter = true

instance (s : Kqueue C) (batch : List (Kevent C)) : Decidable (s.Offers batch) :=
  inferInstanceAs (Decidable (_ ∧ _ ∧ _))

omit [DecidableEq C] in
/-- Entries behind the new ones keep what an earlier call left there. -/
def wait (s : Kqueue C) (batch : List (Kevent C)) : Kqueue C :=
  { s with
    activeEvs := batch ++ s.activeEvs.drop batch.length
    lastActive := batch.length
    looping := true }

omit [DecidableEq C] in
def call (s : Kqueue C) (c : KqueueCall C) : Kqueue C :=
  { s with calls := 1, log := c :: s.log }

omit [DecidableEq C] in
/-- The entry `--lastActive_` comes to. -/
def nextEntry (s : Kqueue C) : Option (Kevent C) :=
  if 0 ≤ s.lastActive - 1 then s.activeEvs[(s.lastActive - 1).toNat]? else none

omit [DecidableEq C] in
/-- The body of the `while` for an entry that still has its channel. -/
def dispatch (s : Kqueue C) (ch : C) (eof : Bool) : Kqueue C :=
  if !eof && (s.events ch).write then s.call (.handleWrite ch)
  else if eof || (s.events ch).read then s.call (.handleRead ch)
  else s.fatal

omit [DecidableEq C] in
/-- `while (--lastActive_ >= 0)` and its body. -/
def head (s : Kqueue C) : Kqueue C :=
  let next := { s with lastActive := s.lastActive - 1 }
  if 0 ≤ next.lastActive then
    match s.nextEntry with
    | some ⟨some ch, _, eof⟩ => next.dispatch ch eof
    | _ => next
  else { next with looping := false }

/-- One step; a choice that is not possible changes nothing. -/
def step (s : Kqueue C) (choice : KqueueChoice C) : Kqueue C :=
  if s.dead then s
  else
    match choice with
    | .wait batch =>
        if s.looping = false ∧ s.calls = 0 ∧ s.Offers batch then s.wait batch else s
    | .interrupted =>
        if s.looping = false ∧ s.calls = 0 then { s with lastActive := -1, looping := true } else s
    | .failed => if s.looping = false ∧ s.calls = 0 then s.fatal else s
    | .task => if s.looping = false ∧ s.calls = 0 then { s with calls := 1 } else s
    | .go => if s.looping = true ∧ s.calls = 0 then s.head else s
    | .construct ch events setfl granted =>
        if s.calls = 0 ∨ ch ∈ s.ids then s else s.construct ch events setfl granted
    | .update ch events granted => if s.calls = 0 then s else s.updateChannel ch events granted
    | .close ch => if s.calls = 0 then s else s.closeChannel ch
    | .ret => { s with calls := s.calls - 1 }

omit [DecidableEq C] in
/-- The calls the loop makes are all to channels not closed before. -/
def Orderly (s : Kqueue C) : Prop :=
  s.log.Pairwise fun later earlier => ∀ ch, later.called = some ch → earlier ≠ .closed ch

omit [DecidableEq C] in
def scanned (s : Kqueue C) : List (Option C) :=
  (s.activeEvs.take (s.lastActive + 1).toNat).map Kevent.udata

/-- A channel is closed with at most one entry in the scan. -/
def ClosesOne (s : Kqueue C) : KqueueChoice C → Prop
  | .close ch => s.calls ≠ 0 → s.fdOpen ch = true → ¬ List.Duplicate (some ch) s.scanned
  | _ => True

/-- The kernel grants what it is asked, the loop's `kevent` does not fail, a direction that is
off is not turned off again, and the channel of an entry without `EV_EOF` has a direction that
is on. -/
def Fine (s : Kqueue C) : KqueueChoice C → Prop
  | .failed => ¬ (s.looping = false ∧ s.calls = 0)
  | .construct ch events setfl granted => s.calls ≠ 0 → ch ∉ s.ids →
      setfl = true ∧ ((events.read || events.write) = true → granted = true)
  | .update ch events granted => s.calls ≠ 0 →
      (s.fdOpen ch = true ∧ (events.read || (s.events ch).read) = true ∧
        (events.write || (s.events ch).write) = true) ∧ granted = true
  | .go => s.looping = true → s.calls = 0 → ∀ ch f, s.nextEntry = some ⟨some ch, f, false⟩ →
      ((s.events ch).read || (s.events ch).write) = true
  | _ => True

end Kqueue

/-! ## The scan -/

/-- The channel an entry still has. -/
def channelAt {C : Type} (evs : List (Kevent C)) (i : Nat) : Option C := evs[i]?.bind Kevent.udata

section Scan

variable {C : Type} [DecidableEq C]

omit [DecidableEq C] in
theorem channelAt_set (evs : List (Kevent C)) (t i : Nat) (e : Kevent C) :
    channelAt (evs.set t { e with udata := none }) i = if i = t then none else channelAt evs i := by
  unfold channelAt
  rw [List.getElem?_set]
  by_cases hit : i = t
  · rw [if_pos hit, if_pos hit.symm]
    split
    · rfl
    · rfl
  · rw [if_neg hit, if_neg (Ne.symm hit)]

/-- The scan takes the channel out of the last entry below `k` that has it, and changes no
other. -/
theorem clearLast_cases (c : C) (k : Nat) (evs : List (Kevent C)) :
    ((∀ i < k, channelAt evs i ≠ some c) ∧ clearLast c k evs = evs) ∨
      ∃ t < k, channelAt evs t = some c ∧ (∀ i, t < i → i < k → channelAt evs i ≠ some c) ∧
        ∀ i, channelAt (clearLast c k evs) i = if i = t then none else channelAt evs i := by
  induction k with
  | zero => exact Or.inl ⟨fun i hi => absurd hi (Nat.not_lt_zero i), rfl⟩
  | succ k ih =>
      have hrec : channelAt evs k ≠ some c → clearLast c (k + 1) evs = clearLast c k evs →
          ((∀ i < k + 1, channelAt evs i ≠ some c) ∧ clearLast c (k + 1) evs = evs) ∨
            ∃ t < k + 1, channelAt evs t = some c ∧
              (∀ i, t < i → i < k + 1 → channelAt evs i ≠ some c) ∧
              ∀ i, channelAt (clearLast c (k + 1) evs) i =
                if i = t then none else channelAt evs i := by
        intro hk heq
        rw [heq]
        rcases ih with ⟨hnone, hsame⟩ | ⟨t, ht, hat, hlast, hscan⟩
        · refine Or.inl ⟨fun i hi => ?_, hsame⟩
          by_cases hik : i = k
          · exact hik ▸ hk
          · exact hnone i (by omega)
        · refine Or.inr ⟨t, by omega, hat, fun i hti hi => ?_, hscan⟩
          by_cases hik : i = k
          · exact hik ▸ hk
          · exact hlast i hti (by omega)
      cases hget : evs[k]? with
      | none =>
          apply hrec
          · simp [channelAt, hget]
          · simp [clearLast, hget]
      | some e =>
          by_cases he : e.udata = some c
          · refine Or.inr ⟨k, Nat.lt_succ_self k, ?_, fun i hki hi => by omega, fun i => ?_⟩
            · simp [channelAt, hget, he]
            · rw [clearLast, hget]
              simp only [if_pos he]
              exact channelAt_set evs k i e
          · apply hrec
            · simp [channelAt, hget, he]
            · simp [clearLast, hget, he]

theorem channelAt_clearLast {c d : C} {k i : Nat} {evs : List (Kevent C)}
    (h : channelAt (clearLast c k evs) i = some d) : channelAt evs i = some d := by
  rcases clearLast_cases c k evs with ⟨_, hsame⟩ | ⟨t, _, _, _, hscan⟩
  · rwa [hsame] at h
  · rw [hscan] at h
    split at h
    · cases h
    · exact h

theorem channelAt_other {c d : C} (hne : d ≠ c) {k i : Nat} {evs : List (Kevent C)}
    (h : channelAt evs i = some d) : channelAt (clearLast c k evs) i = some d := by
  rcases clearLast_cases c k evs with ⟨_, hsame⟩ | ⟨t, _, hat, _, hscan⟩
  · rwa [hsame]
  · have hit : i ≠ t := by
      intro heq
      rw [heq, hat] at h
      exact hne (Option.some.inj h).symm
    rw [hscan, if_neg hit, h]

end Scan

namespace Kqueue

variable {C : Type} [DecidableEq C]

omit [DecidableEq C] in
theorem duplicate_iff (s : Kqueue C) (ch : C) :
    List.Duplicate (some ch) s.scanned ↔ ∃ i j : Nat, i < j ∧ (j : Int) ≤ s.lastActive ∧
      channelAt s.activeEvs i = some ch ∧ channelAt s.activeEvs j = some ch := by
  have hget : ∀ i : Nat, s.scanned[i]? = some (some ch) ↔
      (i : Int) ≤ s.lastActive ∧ channelAt s.activeEvs i = some ch := by
    intro i
    unfold scanned channelAt
    rw [List.getElem?_map, List.getElem?_take]
    split
    · next hi =>
        constructor
        · intro h
          obtain ⟨e, he, hch⟩ := Option.map_eq_some_iff.mp h
          exact ⟨by omega, by rw [he, Option.bind_some, hch]⟩
        · intro h
          obtain ⟨e, he, hch⟩ := Option.bind_eq_some_iff.mp h.2
          rw [he, Option.map_some, hch]
    · next hi =>
        constructor
        · intro h
          cases h
        · intro h
          omega
  rw [List.duplicate_iff_exists_distinct_get]
  constructor
  · rintro ⟨i, j, hij, hi, hj⟩
    have hgi := (hget i).mp (by rw [List.getElem?_eq_getElem i.2]; exact congrArg some hi.symm)
    have hgj := (hget j).mp (by rw [List.getElem?_eq_getElem j.2]; exact congrArg some hj.symm)
    exact ⟨i, j, hij, hgj.1, hgi.2, hgj.2⟩
  · rintro ⟨i, j, hij, hj, hgi, hgj⟩
    obtain ⟨hilen, hi⟩ := List.getElem?_eq_some_iff.mp ((hget i).mpr ⟨by omega, hgi⟩)
    obtain ⟨hjlen, hj⟩ := List.getElem?_eq_some_iff.mp ((hget j).mpr ⟨hj, hgj⟩)
    exact ⟨⟨i, hilen⟩, ⟨j, hjlen⟩, hij, hi.symm, hj.symm⟩

omit [DecidableEq C] in
theorem entry_channel {s : Kqueue C} {e : Kevent C} (h : s.nextEntry = some e) :
    1 ≤ s.lastActive ∧ channelAt s.activeEvs (s.lastActive - 1).toNat = e.udata := by
  unfold nextEntry at h
  split at h
  · exact ⟨by omega, by rw [channelAt, h, Option.bind_some]⟩
  · cases h

/-! ## What holds between two steps -/

structure Inv (s : Kqueue C) : Prop where
  live : ∀ c ∈ s.liveChannels, s.fdOpen c = true
  known : ∀ c, s.fdOpen c = true ∨ .closed c ∈ s.log → c ∈ s.ids
  shut : ∀ c, .closed c ∈ s.log → s.fdOpen c = false
  registered : ∀ c, s.fdOpen c = true → s.filters c = s.events c
  idle : s.looping = false → s.lastActive ≤ -1

omit [DecidableEq C] in
theorem Inv.new : (new : Kqueue C).Inv where
  live _ h := by cases h
  known _ h := by rcases h with h | h <;> cases h
  shut _ h := by cases h
  registered _ h := by cases h
  idle _ := Int.le_refl _

omit [DecidableEq C] in
theorem changes_eq (enabled registered : ChannelEvents) :
    changes enabled registered =
      if (enabled.read || registered.read) = true ∧ (enabled.write || registered.write) = true
      then some enabled else none := by
  unfold changes change
  cases enabled.read || registered.read <;> cases enabled.write || registered.write <;> rfl

omit [DecidableEq C] in
theorem Inv.call {s : Kqueue C} (h : s.Inv) {c : KqueueCall C} {ch : C} (hc : c.called = some ch)
    {last : Int} (hloop : s.looping = true) :
    (Kqueue.call { s with lastActive := last } c).Inv := by
  have hlog : ∀ d, .closed d ∈ c :: s.log → .closed d ∈ s.log := by
    intro d hd
    rcases List.mem_cons.mp hd with heq | hd
    · subst heq
      cases hc
    · exact hd
  refine ⟨h.live, fun d hd => h.known d (hd.imp_right (hlog d)), fun d hd => h.shut d (hlog d hd),
    h.registered, fun hidle => ?_⟩
  change s.looping = false at hidle
  rw [hloop] at hidle
  cases hidle

omit [DecidableEq C] in
theorem dispatch_cases (s : Kqueue C) (ch : C) (eof : Bool) :
    (∃ c : KqueueCall C, c.called = some ch ∧ s.dispatch ch eof = s.call c) ∨
      s.dispatch ch eof = s.fatal := by
  unfold dispatch
  split
  · exact Or.inl ⟨.handleWrite ch, rfl, rfl⟩
  · split
    · exact Or.inl ⟨.handleRead ch, rfl, rfl⟩
    · exact Or.inr rfl

omit [DecidableEq C] in
/-- What the loop does at the head of its `while`: the end, an entry without a channel, a call,
or a `fatal`. -/
theorem head_cases (s : Kqueue C) :
    (s.lastActive ≤ 0 ∧ s.head = { s with lastActive := s.lastActive - 1, looping := false }) ∨
      (1 ≤ s.lastActive ∧ channelAt s.activeEvs (s.lastActive - 1).toNat = none ∧
        s.head = { s with lastActive := s.lastActive - 1 }) ∨
      ∃ ch, 1 ≤ s.lastActive ∧ channelAt s.activeEvs (s.lastActive - 1).toNat = some ch ∧
        ((∃ c : KqueueCall C, c.called = some ch ∧
            s.head = Kqueue.call { s with lastActive := s.lastActive - 1 } c) ∨
          s.head = Kqueue.fatal { s with lastActive := s.lastActive - 1 }) := by
  unfold head
  dsimp only
  split
  · next hgo =>
      cases hentry : s.nextEntry with
      | none =>
          refine Or.inr (Or.inl ⟨by omega, ?_, rfl⟩)
          rw [nextEntry, if_pos hgo] at hentry
          rw [channelAt, hentry, Option.bind_none]
      | some e =>
          obtain ⟨hlast, hat⟩ := entry_channel hentry
          obtain ⟨udata, f, eof⟩ := e
          cases udata with
          | none => exact Or.inr (Or.inl ⟨hlast, hat, rfl⟩)
          | some ch => exact Or.inr (Or.inr ⟨ch, hlast, hat, dispatch_cases _ ch eof⟩)
  · next hend => exact Or.inl ⟨by omega, rfl⟩

omit [DecidableEq C] in
theorem Inv.head {s : Kqueue C} (h : s.Inv) (hloop : s.looping = true) : s.head.Inv := by
  have hmove : ∀ last : Int, Inv { s with lastActive := last } := fun last =>
    ⟨h.live, h.known, h.shut, h.registered, fun hidle => by
      change s.looping = false at hidle
      rw [hloop] at hidle
      cases hidle⟩
  rcases head_cases s with ⟨hend, heq⟩ | ⟨_, _, heq⟩ | ⟨ch, _, _, ⟨c, hc, heq⟩ | heq⟩
  · rw [heq]
    exact ⟨h.live, h.known, h.shut, h.registered, fun _ => by
      show s.lastActive - 1 ≤ -1
      omega⟩
  · rw [heq]
    exact hmove _
  · rw [heq]
    exact h.call hc hloop
  · rw [heq]
    have hmoved := hmove (s.lastActive - 1)
    exact ⟨hmoved.live, hmoved.known, hmoved.shut, hmoved.registered, hmoved.idle⟩

/-- The constructor of a channel puts it among the live ones or is the end. -/
theorem construct_cases (s : Kqueue C) (ch : C) (events : ChannelEvents) (setfl granted : Bool) :
    ((setfl = true ∧ ((events.read || events.write) = true → granted = true)) ∧
        s.construct ch events setfl granted = s.addChannel ch events true) ∨
      (¬ (setfl = true ∧ ((events.read || events.write) = true → granted = true)) ∧
        s.construct ch events setfl granted = s.fatal) := by
  unfold construct addChannel
  cases setfl with
  | false => exact Or.inr ⟨by simp, rfl⟩
  | true =>
      cases granted with
      | true => exact Or.inl ⟨by simp, rfl⟩
      | false =>
          cases hany : events.read || events.write with
          | true => exact Or.inr ⟨by simp, rfl⟩
          | false => exact Or.inl ⟨by simp, rfl⟩

theorem addChannel_granted (s : Kqueue C) (ch : C) (events : ChannelEvents) :
    s.addChannel ch events true =
      { s with
        filters := fun c => if c = ch then events else s.filters c
        events := fun c => if c = ch then events else s.events c
        fdOpen := fun c => if c = ch then true else s.fdOpen c
        liveChannels := ch :: s.liveChannels
        ids := ch :: s.ids } := by
  simp [addChannel]

theorem Inv.addChannel {s : Kqueue C} (h : s.Inv) {ch : C} (hnew : ch ∉ s.ids)
    (events : ChannelEvents) : (s.addChannel ch events true).Inv := by
  rw [addChannel_granted]
  refine ⟨fun c hc => ?_, fun c hc => ?_, fun c hc => ?_, fun c hc => ?_, h.idle⟩
  · show (if c = ch then true else s.fdOpen c) = true
    rcases List.mem_cons.mp hc with rfl | hc
    · exact if_pos rfl
    · rw [h.live c hc, ite_self]
  · by_cases hcc : c = ch
    · exact hcc ▸ List.mem_cons_self
    · apply List.mem_cons_of_mem
      apply h.known c
      exact hc.imp_left fun hc => by simpa only [if_neg hcc] using hc
  · have hcc : c ≠ ch := by
      rintro rfl
      exact hnew (h.known c (Or.inr hc))
    simpa only [if_neg hcc] using h.shut c hc
  · by_cases hcc : c = ch
    · subst hcc
      simp
    · simp only [if_neg hcc] at hc ⊢
      exact h.registered c hc

theorem Inv.closeChannel {s : Kqueue C} (h : s.Inv) (ch : C) : (s.closeChannel ch).Inv := by
  unfold Kqueue.closeChannel
  split
  · next hopen =>
      refine ⟨fun c hc => ?_, fun c hc => ?_, fun c hc => ?_, fun c hc => ?_, h.idle⟩
      · obtain ⟨hlive, hne⟩ := List.mem_filter.mp hc
        have hne' : c ≠ ch := of_decide_eq_true hne
        simpa only [if_neg hne'] using h.live c hlive
      · by_cases hcc : c = ch
        · exact hcc ▸ h.known ch (Or.inl hopen)
        · apply h.known c
          rcases hc with hc | hc
          · exact Or.inl (by simpa only [if_neg hcc] using hc)
          · rcases List.mem_cons.mp hc with heq | hc
            · cases heq
              exact absurd rfl hcc
            · exact Or.inr hc
      · show (if c = ch then false else s.fdOpen c) = false
        by_cases hcc : c = ch
        · exact if_pos hcc
        · rw [if_neg hcc]
          rcases List.mem_cons.mp hc with heq | hc
          · cases heq
            exact absurd rfl hcc
          · exact h.shut c hc
      · by_cases hcc : c = ch
        · simp [hcc] at hc
        · simp only [if_neg hcc] at hc ⊢
          exact h.registered c hc
  · exact h

/-- An update goes through or is the end. -/
theorem updateChannel_cases {s : Kqueue C} (h : s.Inv) (ch : C) (events : ChannelEvents)
    (granted : Bool) :
    (((s.fdOpen ch = true ∧ (events.read || (s.events ch).read) = true ∧
          (events.write || (s.events ch).write) = true) ∧ granted = true) ∧
        s.updateChannel ch events granted = { s with
          events := fun c => if c = ch then events else s.events c
          filters := fun c => if c = ch then events else s.filters c }) ∨
      (¬ ((s.fdOpen ch = true ∧ (events.read || (s.events ch).read) = true ∧
          (events.write || (s.events ch).write) = true) ∧ granted = true) ∧
        s.updateChannel ch events granted = Kqueue.fatal { s with
          events := fun c => if c = ch then events else s.events c }) := by
  unfold updateChannel
  dsimp only
  split
  · next hboth =>
      obtain ⟨hopen, hgranted⟩ := Bool.and_eq_true_iff.mp hboth
      rw [changes_eq, h.registered ch hopen]
      by_cases hon : (events.read || (s.events ch).read) = true ∧
          (events.write || (s.events ch).write) = true
      · rw [if_pos hon]
        exact Or.inl ⟨⟨⟨hopen, hon⟩, hgranted⟩, rfl⟩
      · rw [if_neg hon]
        exact Or.inr ⟨fun hall => hon hall.1.2, rfl⟩
  · next hboth =>
      exact Or.inr ⟨fun hall => hboth (Bool.and_eq_true_iff.mpr ⟨hall.1.1, hall.2⟩), rfl⟩

theorem Inv.updateChannel {s : Kqueue C} (h : s.Inv) (ch : C) (events : ChannelEvents)
    (granted : Bool) :
    (s.updateChannel ch events granted).Inv ∨ (s.updateChannel ch events granted).dead = true := by
  rcases updateChannel_cases h ch events granted with ⟨_, heq⟩ | ⟨_, heq⟩
  · refine Or.inl ?_
    rw [heq]
    refine ⟨h.live, h.known, h.shut, fun c hc => ?_, h.idle⟩
    by_cases hcc : c = ch
    · simp [hcc]
    · simp only [if_neg hcc]
      exact h.registered c hc
  · exact Or.inr (by rw [heq]; rfl)

theorem Inv.step {s : Kqueue C} (h : s.Inv) (choice : KqueueChoice C) :
    (s.step choice).Inv ∨ (s.step choice).dead = true := by
  unfold Kqueue.step
  split
  · exact Or.inl h
  · cases choice with
    | wait batch =>
        dsimp only
        split
        · exact Or.inl ⟨h.live, h.known, h.shut, h.registered, fun hidle => by cases hidle⟩
        · exact Or.inl h
    | interrupted =>
        dsimp only
        split
        · exact Or.inl ⟨h.live, h.known, h.shut, h.registered, fun hidle => by cases hidle⟩
        · exact Or.inl h
    | task =>
        dsimp only
        split
        · exact Or.inl ⟨h.live, h.known, h.shut, h.registered, h.idle⟩
        · exact Or.inl h
    | go =>
        dsimp only
        split
        · next hgo => exact Or.inl (h.head hgo.1)
        · exact Or.inl h
    | failed =>
        dsimp only
        split
        · exact Or.inr rfl
        · exact Or.inl h
    | construct ch events setfl granted =>
        dsimp only
        split
        · exact Or.inl h
        · next hok =>
            rcases s.construct_cases ch events setfl granted with ⟨_, heq⟩ | ⟨_, heq⟩
            · rw [heq]
              exact Or.inl (h.addChannel (fun hmem => hok (Or.inr hmem)) events)
            · rw [heq]
              exact Or.inr rfl
    | update ch events granted =>
        dsimp only
        split
        · exact Or.inl h
        · exact h.updateChannel ch events granted
    | close ch =>
        dsimp only
        split
        · exact Or.inl h
        · exact Or.inl (h.closeChannel ch)
    | ret => exact Or.inl ⟨h.live, h.known, h.shut, h.registered, h.idle⟩

/-! ## Calls of closed channels -/

omit [DecidableEq C] in
theorem head_log (s : Kqueue C) : ∃ new, s.head.log = new ++ s.log := by
  rcases head_cases s with ⟨_, heq⟩ | ⟨_, _, heq⟩ | ⟨ch, _, _, ⟨c, _, heq⟩ | heq⟩
  · exact ⟨[], by rw [heq]; rfl⟩
  · exact ⟨[], by rw [heq]; rfl⟩
  · exact ⟨[c], by rw [heq]; rfl⟩
  · exact ⟨[], by rw [heq]; rfl⟩

theorem step_log {s : Kqueue C} (h : s.Inv) (choice : KqueueChoice C) :
    ∃ new, (s.step choice).log = new ++ s.log := by
  have hsame : ∀ t : Kqueue C, t.log = s.log → ∃ new, t.log = new ++ s.log :=
    fun t ht => ⟨[], by rw [ht]; rfl⟩
  unfold Kqueue.step
  split
  · exact hsame s rfl
  · cases choice with
    | wait batch =>
        dsimp only
        split <;> exact hsame _ rfl
    | interrupted =>
        dsimp only
        split <;> exact hsame _ rfl
    | task =>
        dsimp only
        split <;> exact hsame _ rfl
    | go =>
        dsimp only
        split
        · exact head_log s
        · exact hsame s rfl
    | failed =>
        dsimp only
        split <;> exact hsame _ rfl
    | construct ch events setfl granted =>
        dsimp only
        split
        · exact hsame s rfl
        · rcases s.construct_cases ch events setfl granted with ⟨_, heq⟩ | ⟨_, heq⟩
          · exact hsame _ (by rw [heq, addChannel_granted])
          · exact hsame _ (by rw [heq]; rfl)
    | update ch events granted =>
        dsimp only
        split
        · exact hsame s rfl
        · rcases updateChannel_cases h ch events granted with ⟨_, heq⟩ | ⟨_, heq⟩
          · exact hsame _ (by rw [heq])
          · exact hsame _ (by rw [heq]; rfl)
    | close ch =>
        dsimp only
        split
        · exact hsame s rfl
        · unfold Kqueue.closeChannel
          split
          · exact ⟨[.closed ch], rfl⟩
          · exact hsame s rfl
    | ret => exact hsame _ rfl

omit [DecidableEq C] in
theorem Orderly.of_append {s t : Kqueue C} {new : List (KqueueCall C)} (hlog : t.log = new ++ s.log)
    (h : t.Orderly) : s.Orderly := by
  unfold Orderly at h ⊢
  rw [hlog] at h
  exact (List.pairwise_append.mp h).2.1

omit [DecidableEq C] in
theorem Orderly.call {s : Kqueue C} (h : s.Orderly) {c : KqueueCall C} {ch : C}
    (hc : c.called = some ch) (hopen : .closed ch ∉ s.log) (last : Int) :
    (Kqueue.call { s with lastActive := last } c).Orderly := by
  refine List.pairwise_cons.mpr ⟨?_, h⟩
  intro earlier hmem d hd heq
  rw [hc] at hd
  rw [heq, ← Option.some.inj hd] at hmem
  exact hopen hmem

omit [DecidableEq C] in
/-- The entries to come are of open channels, and no closed channel was called. -/
structure Sound (s : Kqueue C) : Prop where
  orderly : s.Orderly
  pending : ∀ (i : Nat) c, (i : Int) < s.lastActive → channelAt s.activeEvs i = some c →
    s.fdOpen c = true

omit [DecidableEq C] in
def Doomed (s : Kqueue C) : Prop :=
  s.looping = true ∧ ∃ (i : Nat) (c : C), (i : Int) < s.lastActive ∧
    channelAt s.activeEvs i = some c ∧ .closed c ∈ s.log

omit [DecidableEq C] in
theorem Sound.head {s : Kqueue C} (h : s.Sound) (hinv : s.Inv) : s.head.Sound := by
  have hmove : ∀ (i : Nat) c, (i : Int) < s.lastActive - 1 → channelAt s.activeEvs i = some c →
      s.fdOpen c = true := fun i c hi => h.pending i c (by omega)
  rcases head_cases s with ⟨_, heq⟩ | ⟨_, _, heq⟩ | ⟨ch, hlast, hat, ⟨c, hc, heq⟩ | heq⟩
  · rw [heq]
    exact ⟨h.orderly, hmove⟩
  · rw [heq]
    exact ⟨h.orderly, hmove⟩
  · rw [heq]
    have hopen := h.pending (s.lastActive - 1).toNat ch (by omega) hat
    refine ⟨h.orderly.call hc (fun hmem => ?_) _, hmove⟩
    rw [hinv.shut ch hmem] at hopen
    cases hopen
  · rw [heq]
    exact ⟨h.orderly, hmove⟩

omit [DecidableEq C] in
theorem Sound.wait {s : Kqueue C} (h : s.Sound) (hinv : s.Inv) {batch : List (Kevent C)}
    (hoffers : s.Offers batch) : (s.wait batch).Sound := by
  refine ⟨h.orderly, fun i c hi hat => ?_⟩
  change (i : Int) < (batch.length : Int) at hi
  obtain ⟨e, he, hc⟩ := Option.bind_eq_some_iff.mp hat
  have hmem : e ∈ batch := by
    apply List.mem_of_getElem? (i := i)
    rw [← he]
    exact (List.getElem?_append_left (by omega)).symm
  obtain ⟨d, hlive, hd, _⟩ := hoffers.2.2 e hmem
  rw [hd] at hc
  rw [← Option.some.inj hc]
  exact hinv.live d hlive

/-- One entry of the channel in the scan, or none: the scan takes it out. -/
theorem Sound.closeChannel {s : Kqueue C} (h : s.Sound) {ch : C}
    (hone : s.fdOpen ch = true → ¬ List.Duplicate (some ch) s.scanned) :
    (s.closeChannel ch).Sound := by
  unfold Kqueue.closeChannel
  split
  · next hopen =>
      have hno := hone hopen
      refine ⟨List.pairwise_cons.mpr ⟨fun _ _ d hd => absurd hd (by simp [KqueueCall.called]),
        h.orderly⟩, fun i d hi hat => ?_⟩
      change (i : Int) < s.lastActive at hi
      change channelAt (clearLast ch (s.lastActive + 1).toNat s.activeEvs) i = some d at hat
      have hwas := channelAt_clearLast hat
      have hne : d ≠ ch := by
        rintro rfl
        rcases clearLast_cases d (s.lastActive + 1).toNat s.activeEvs with
          ⟨hnone, _⟩ | ⟨t, ht, htat, hlast, hscan⟩
        · exact hnone i (by omega) hwas
        · have hit : i ≠ t := by
            rintro rfl
            rw [hscan, if_pos rfl] at hat
            cases hat
          apply hno
          rw [duplicate_iff]
          by_cases hlt : i < t
          · exact ⟨i, t, hlt, by omega, hwas, htat⟩
          · exact absurd hwas (hlast i (by omega) (by omega))
      show (if d = ch then false else s.fdOpen d) = true
      rw [if_neg hne]
      exact h.pending i d hi hwas
  · exact h

/-- Two entries of the channel in the scan: one stays, and is still to come. -/
theorem doomed_closeChannel {s : Kqueue C} (hinv : s.Inv) {ch : C} (hopen : s.fdOpen ch = true)
    (htwo : List.Duplicate (some ch) s.scanned) : (s.closeChannel ch).Doomed := by
  obtain ⟨i, j, hij, hj, hati, hatj⟩ := (duplicate_iff s ch).mp htwo
  have hloop : s.looping = true := by
    by_contra hidle
    have hlast := hinv.idle (Bool.eq_false_of_not_eq_true hidle)
    omega
  unfold Kqueue.closeChannel
  rw [if_pos hopen]
  refine ⟨hloop, i, ch, ?_, ?_, List.mem_cons_self⟩
  · show (i : Int) < s.lastActive
    omega
  · show channelAt (clearLast ch (s.lastActive + 1).toNat s.activeEvs) i = some ch
    rcases clearLast_cases ch (s.lastActive + 1).toNat s.activeEvs with
      ⟨hnone, _⟩ | ⟨t, ht, _, hlast, hscan⟩
    · exact absurd hatj (hnone j (by omega))
    · have hjt : ¬ t < j := fun htj => hlast j htj (by omega) hatj
      rw [hscan, if_neg (by omega), hati]

theorem Sound.step {s : Kqueue C} (h : s.Sound) (hinv : s.Inv) {choice : KqueueChoice C}
    (hone : s.ClosesOne choice) : (s.step choice).Sound := by
  unfold Kqueue.step
  split
  · exact h
  · cases choice with
    | wait batch =>
        dsimp only
        split
        · next hok => exact h.wait hinv hok.2.2
        · exact h
    | interrupted =>
        dsimp only
        split
        · refine ⟨h.orderly, fun i c hi => ?_⟩
          change (i : Int) < -1 at hi
          omega
        · exact h
    | task =>
        dsimp only
        split
        · exact ⟨h.orderly, h.pending⟩
        · exact h
    | go =>
        dsimp only
        split
        · exact h.head hinv
        · exact h
    | failed =>
        dsimp only
        split
        · exact ⟨h.orderly, h.pending⟩
        · exact h
    | construct ch events setfl granted =>
        dsimp only
        split
        · exact h
        · rcases s.construct_cases ch events setfl granted with ⟨_, heq⟩ | ⟨_, heq⟩
          · rw [heq, addChannel_granted]
            refine ⟨h.orderly, fun i c hi hat => ?_⟩
            show (if c = ch then true else s.fdOpen c) = true
            rw [h.pending i c hi hat, ite_self]
          · rw [heq]
            exact ⟨h.orderly, h.pending⟩
    | update ch events granted =>
        dsimp only
        split
        · exact h
        · rcases updateChannel_cases hinv ch events granted with ⟨_, heq⟩ | ⟨_, heq⟩
          · rw [heq]
            exact ⟨h.orderly, h.pending⟩
          · rw [heq]
            exact ⟨h.orderly, h.pending⟩
    | close ch =>
        dsimp only
        split
        · exact h
        · next hcalls => exact h.closeChannel (hone hcalls)
    | ret => exact ⟨h.orderly, h.pending⟩

/-- Past saving: the run has ended in a `fatal`, a closed channel was called, or one is going
to be. -/
def Lost (s : Kqueue C) : Prop := s.dead = true ∨ ¬ s.Orderly ∨ s.Doomed

omit [DecidableEq C] in
/-- The loop comes to the entry of the closed channel, or nearer to it. -/
theorem Doomed.head {s : Kqueue C} (h : s.Doomed) : s.head.Lost := by
  obtain ⟨hloop, i, c, hi, hat, hmem⟩ := h
  have hnearer : i ≠ (s.lastActive - 1).toNat → (i : Int) < s.lastActive - 1 := by
    intro hne
    omega
  rcases head_cases s with ⟨hend, _⟩ | ⟨_, hnone, heq⟩ | ⟨ch, _, hhere, ⟨k, hk, heq⟩ | heq⟩
  · omega
  · have hne : i ≠ (s.lastActive - 1).toNat := by
      intro hi'
      rw [← hi', hat] at hnone
      cases hnone
    rw [heq]
    exact Or.inr (Or.inr ⟨hloop, i, c, hnearer hne, hat, hmem⟩)
  · rw [heq]
    by_cases hhit : i = (s.lastActive - 1).toNat
    · rw [← hhit, hat] at hhere
      refine Or.inr (Or.inl fun horderly => ?_)
      have hfirst := (List.pairwise_cons.mp horderly).1 (.closed c) hmem c
      exact hfirst (by rw [hk, hhere]) rfl
    · exact Or.inr (Or.inr ⟨hloop, i, c, hnearer hhit, hat, List.mem_cons_of_mem _ hmem⟩)
  · rw [heq]
    exact Or.inl rfl

theorem Doomed.step {s : Kqueue C} (h : s.Doomed) (hinv : s.Inv) (choice : KqueueChoice C) :
    (s.step choice).Lost := by
  have hstay : s.Lost := Or.inr (Or.inr h)
  have hbusy : s.looping ≠ false := by simp [h.1]
  unfold Kqueue.step
  split
  · exact hstay
  · cases choice with
    | wait batch =>
        dsimp only
        rw [if_neg fun hok => hbusy hok.1]
        exact hstay
    | interrupted =>
        dsimp only
        rw [if_neg fun hok => hbusy hok.1]
        exact hstay
    | task =>
        dsimp only
        rw [if_neg fun hok => hbusy hok.1]
        exact hstay
    | go =>
        dsimp only
        split
        · exact h.head
        · exact hstay
    | failed =>
        dsimp only
        rw [if_neg fun hok => hbusy hok.1]
        exact hstay
    | construct ch events setfl granted =>
        dsimp only
        split
        · exact hstay
        · rcases s.construct_cases ch events setfl granted with ⟨_, heq⟩ | ⟨_, heq⟩
          · rw [heq, addChannel_granted]
            exact Or.inr (Or.inr h)
          · rw [heq]
            exact Or.inl rfl
    | update ch events granted =>
        dsimp only
        split
        · exact hstay
        · rcases updateChannel_cases hinv ch events granted with ⟨_, heq⟩ | ⟨_, heq⟩
          · rw [heq]
            exact Or.inr (Or.inr h)
          · rw [heq]
            exact Or.inl rfl
    | close ch =>
        dsimp only
        split
        · exact hstay
        · unfold Kqueue.closeChannel
          split
          · next hopen =>
              obtain ⟨hloop, i, c, hi, hat, hmem⟩ := h
              have hne : c ≠ ch := by
                rintro rfl
                rw [hinv.shut c hmem] at hopen
                cases hopen
              exact Or.inr (Or.inr ⟨hloop, i, c, hi, channelAt_other hne hat,
                List.mem_cons_of_mem _ hmem⟩)
          · exact hstay
    | ret => exact Or.inr (Or.inr h)

theorem Lost.step {s : Kqueue C} (h : s.Lost) (hinv : s.Inv) (choice : KqueueChoice C) :
    (s.step choice).Lost := by
  rcases h with hdead | hbad | hdoomed
  · refine Or.inl ?_
    unfold Kqueue.step
    rw [if_pos hdead]
    exact hdead
  · obtain ⟨new, hlog⟩ := step_log hinv choice
    exact Or.inr (Or.inl fun horderly => hbad (horderly.of_append hlog))
  · exact hdoomed.step hinv choice

/-- A close with two entries in the scan is past saving. -/
theorem lost_of_two {s : Kqueue C} (hinv : s.Inv) {choice : KqueueChoice C}
    (htwo : ¬ s.ClosesOne choice) : (s.step choice).Lost := by
  cases choice with
  | close ch =>
      have hall : s.calls ≠ 0 ∧ s.fdOpen ch = true ∧ List.Duplicate (some ch) s.scanned := by
        by_contra hno
        apply htwo
        intro hcalls hopen hdup
        exact hno ⟨hcalls, hopen, hdup⟩
      unfold Kqueue.step
      split
      · next hdead => exact Or.inl hdead
      · dsimp only
        rw [if_neg hall.1]
        exact Or.inr (Or.inr (doomed_closeChannel hinv hall.2.1 hall.2.2))
  | wait => exact absurd trivial htwo
  | interrupted => exact absurd trivial htwo
  | failed => exact absurd trivial htwo
  | task => exact absurd trivial htwo
  | go => exact absurd trivial htwo
  | construct => exact absurd trivial htwo
  | update => exact absurd trivial htwo
  | ret => exact absurd trivial htwo

theorem run_dead {s : Kqueue C} (h : s.dead = true) (choices : List (KqueueChoice C)) :
    Driven.run step s choices = s := by
  induction choices with
  | nil => rfl
  | cons choice choices ih =>
      have hstay : s.step choice = s := by
        unfold Kqueue.step
        rw [if_pos h]
      rw [Driven.run_cons, hstay, ih]

theorem run_lost {s : Kqueue C} (h : s.Lost) (hinv : s.Inv) (choices : List (KqueueChoice C)) :
    (Driven.run step s choices).Lost := by
  induction choices generalizing s with
  | nil => exact h
  | cons choice choices ih =>
      rcases hinv.step choice with hinv' | hdead
      · exact ih (h.step hinv choice) hinv'
      · rw [Driven.run_cons, run_dead hdead]
        exact Or.inl hdead

/-- A run from a sound state ends in one, or past saving, by its closes. -/
theorem run_sound_iff {s : Kqueue C} (h : s.Sound) (hinv : s.Inv)
    (choices : List (KqueueChoice C)) :
    (Driven.Along step ClosesOne s choices → (Driven.run step s choices).Sound) ∧
      (¬ Driven.Along step ClosesOne s choices → (Driven.run step s choices).Lost) := by
  induction choices generalizing s with
  | nil => exact ⟨fun _ => h, fun hno => absurd trivial hno⟩
  | cons choice choices ih =>
      by_cases hone : s.ClosesOne choice
      · have hnext := h.step hinv hone
        rcases hinv.step choice with hinv' | hdead
        · obtain ⟨hyes, hno⟩ := ih hnext hinv'
          exact ⟨fun hall => hyes hall.2, fun hnot => hno fun hrest => hnot ⟨hone, hrest⟩⟩
        · rw [Driven.run_cons, run_dead hdead]
          exact ⟨fun _ => hnext, fun _ => Or.inl hdead⟩
      · have hlost := lost_of_two hinv hone
        refine ⟨fun hall => absurd hall.1 hone, fun _ => ?_⟩
        rcases hinv.step choice with hinv' | hdead
        · exact run_lost hlost hinv' choices
        · rw [Driven.run_cons, run_dead hdead]
          exact Or.inl hdead

omit [DecidableEq C] in
theorem Sound.new : (new : Kqueue C).Sound := by
  refine ⟨List.Pairwise.nil, fun i c hi => ?_⟩
  change (i : Int) < -1 at hi
  omega

end Kqueue

open Kqueue in
/-- When a pass over, or between passes, the loop has called no channel closed before exactly
when none was closed while two of the entries from the current one down were its own: its read
and its write filter, ready together. -/
theorem kqueue_calls_closed_iff {C : Type} [DecidableEq C] (choices : List (KqueueChoice C))
    (hdead : (Driven.run step new choices).dead = false)
    (hidle : (Driven.run step new choices).looping = false) :
    (Driven.run step new choices).Orderly ↔ Driven.Along step ClosesOne new choices := by
  obtain ⟨hyes, hno⟩ := run_sound_iff (Sound.new (C := C)) Inv.new choices
  constructor
  · intro horderly
    by_contra htwo
    rcases hno htwo with h | h | h
    · rw [hdead] at h
      cases h
    · exact h horderly
    · rw [h.1] at hidle
      cases hidle
  · exact fun hall => (hyes hall).orderly

open Kqueue in
/-- A channel with both directions on is reset by its peer: both filters report the end, the
handler of the later entry closes the channel, and the earlier entry calls it again. -/
theorem kqueue_calls_closed_iff_reset :
    let choices : List (KqueueChoice Nat) :=
      [.task, .construct 0 ⟨true, true⟩ true true, .ret,
        .wait [⟨some 0, .read, true⟩, ⟨some 0, .write, true⟩], .go, .close 0, .ret, .ret, .go, .ret,
        .go]
    (Driven.run step new choices).log = [.handleRead 0, .closed 0, .handleRead 0] ∧
      ¬ Driven.Along step ClosesOne new choices := by
  intro choices
  have hlog : (Driven.run step new choices).log = [.handleRead 0, .closed 0, .handleRead 0] := by
    decide
  refine ⟨hlog, fun hall => ?_⟩
  have horderly := (kqueue_calls_closed_iff choices (by decide) (by decide)).mpr hall
  unfold Orderly at horderly
  rw [hlog] at horderly
  exact (List.pairwise_cons.mp horderly).1 (.closed 0) (by simp) 0 rfl rfl

/-! ## The ends of the process -/

namespace Kqueue

variable {C : Type} [DecidableEq C]

omit [DecidableEq C] in
theorem dispatch_dead (s : Kqueue C) (ch : C) (eof : Bool) :
    (s.dispatch ch eof).dead = true ↔
      s.dead = true ∨ (eof || (s.events ch).read || (s.events ch).write) = false := by
  unfold dispatch Kqueue.call fatal
  cases eof <;> cases (s.events ch).read <;> cases (s.events ch).write <;> simp

omit [DecidableEq C] in
theorem head_dead {s : Kqueue C} (h : s.dead = false) :
    s.head.dead = false ↔ ∀ ch f, s.nextEntry = some ⟨some ch, f, false⟩ →
      ((s.events ch).read || (s.events ch).write) = true := by
  have hnone : ∀ t : Kqueue C, t.dead = s.dead → (∀ ch f, s.nextEntry ≠ some ⟨some ch, f, false⟩) →
      (t.dead = false ↔ ∀ ch f, s.nextEntry = some ⟨some ch, f, false⟩ →
        ((s.events ch).read || (s.events ch).write) = true) := by
    intro t ht hno
    exact iff_of_true (ht.trans h) fun ch f hentry => absurd hentry (hno ch f)
  unfold head
  dsimp only
  split
  · next hgo =>
      cases hentry : s.nextEntry with
      | none =>
          have hgo' := hnone { s with lastActive := s.lastActive - 1 } rfl (by simp [hentry])
          rw [hentry] at hgo'
          exact hgo'
      | some e =>
          obtain ⟨udata, f, eof⟩ := e
          cases udata with
          | none =>
              have hgo' := hnone { s with lastActive := s.lastActive - 1 } rfl (by simp [hentry])
              rw [hentry] at hgo'
              exact hgo'
          | some ch =>
              have hends := dispatch_dead { s with lastActive := s.lastActive - 1 } ch eof
              rw [← Bool.not_eq_true, hends]
              cases eof with
              | true => simp [h]
              | false =>
                  simp only [h, Bool.false_eq_true, false_or, Bool.false_or, Bool.not_eq_false]
                  constructor
                  · intro hon c f' heq
                    cases heq
                    exact hon
                  · exact fun hall => hall ch f rfl
  · next hend =>
      apply hnone _ rfl
      intro ch f hentry
      rw [nextEntry, if_neg hend] at hentry
      cases hentry

theorem step_dead {s : Kqueue C} (hinv : s.Inv) (h : s.dead = false) (choice : KqueueChoice C) :
    (s.step choice).dead = false ↔ s.Fine choice := by
  have hlives : ¬ s.dead = true := by simp [h]
  unfold Kqueue.step
  rw [if_neg hlives]
  cases choice with
  | wait batch =>
      dsimp only
      split <;> exact iff_of_true h trivial
  | interrupted =>
      dsimp only
      split <;> exact iff_of_true h trivial
  | task =>
      dsimp only
      split <;> exact iff_of_true h trivial
  | go =>
      dsimp only
      split
      · next hgo =>
          rw [head_dead h]
          exact ⟨fun hall _ _ => hall, fun hfine => hfine hgo.1 hgo.2⟩
      · next hno => exact iff_of_true h fun hloop hcalls => absurd ⟨hloop, hcalls⟩ hno
  | failed =>
      dsimp only
      split
      · next hfails => exact iff_of_false (by simp [fatal]) fun hfine => hfine hfails
      · next hno => exact iff_of_true h hno
  | construct ch events setfl granted =>
      dsimp only
      split
      · next hno => exact iff_of_true h fun hcalls hnew => absurd hno (by simp [hcalls, hnew])
      · next hok =>
          rw [not_or] at hok
          rcases s.construct_cases ch events setfl granted with ⟨hyes, heq⟩ | ⟨hbad, heq⟩
          · rw [heq, addChannel_granted]
            exact iff_of_true h fun _ _ => hyes
          · rw [heq]
            exact iff_of_false (by simp [fatal]) fun hfine => hbad (hfine hok.1 hok.2)
  | update ch events granted =>
      dsimp only
      split
      · next hcalls => exact iff_of_true h fun hbusy => absurd hcalls hbusy
      · next hcalls =>
          rcases updateChannel_cases hinv ch events granted with ⟨hok, heq⟩ | ⟨hbad, heq⟩
          · rw [heq]
            exact iff_of_true h fun _ => hok
          · rw [heq]
            exact iff_of_false (by simp [fatal]) fun hfine => hbad (hfine hcalls)
  | close ch =>
      dsimp only
      split
      · exact iff_of_true h trivial
      · unfold Kqueue.closeChannel
        split <;> exact iff_of_true h trivial
  | ret => exact iff_of_true h trivial

theorem run_dead_iff {s : Kqueue C} (hinv : s.Inv) (h : s.dead = false)
    (choices : List (KqueueChoice C)) :
    (Driven.run step s choices).dead = false ↔ Driven.Along step Fine s choices := by
  induction choices generalizing s with
  | nil => exact iff_of_true h trivial
  | cons choice choices ih =>
      have hone := step_dead hinv h choice
      rw [Driven.run_cons]
      by_cases hfine : s.Fine choice
      · have hnext := hone.mpr hfine
        rcases hinv.step choice with hinv' | hdead
        · rw [ih hinv' hnext]
          exact ⟨fun hrest => ⟨hfine, hrest⟩, fun hall => hall.2⟩
        · rw [hnext] at hdead
          cases hdead
      · have hdead : (s.step choice).dead = true := by
          rw [← Bool.not_eq_false, hone]
          exact hfine
        rw [run_dead hdead]
        exact iff_of_false (by simp [hdead]) fun hall => hfine hall.1

end Kqueue

open Kqueue in
/-- The process lives on exactly as long as the kernel grants what it is asked, no `kevent` of
the loop fails but for `EINTR`, every update is of a channel that is open and leaves no
direction off that was off, and no entry without `EV_EOF` meets a channel with both directions
off: what is registered with the kernel is what `events_` says. -/
theorem kqueue_lives_iff {C : Type} [DecidableEq C] (choices : List (KqueueChoice C)) :
    (Driven.run step new choices).dead = false ↔ Driven.Along step Fine new choices :=
  run_dead_iff Inv.new rfl choices

open Kqueue in
/-- A channel that only reads cannot be told to go on reading. -/
example : (Driven.run step new ([.task, .construct 0 ⟨true, false⟩ true true,
    .update 0 ⟨true, false⟩ true] : List (KqueueChoice Nat))).dead = true := by decide

end Handy
