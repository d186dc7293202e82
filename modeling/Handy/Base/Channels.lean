import Handy.Base.Poller
import Mathlib.Data.List.Nodup
import Mathlib.Data.List.Perm.Basic

/-! # Channels and their descriptors

A `Channel` owns a descriptor and is registered with the `epoll` of its base under it.
`PollerEpoll::removeChannel` does not take the registration back: `Channel::close` leaves
that to the kernel, which drops it with the last descriptor of the open file. The kernel
here is the table of descriptors, each referring to an open file, and the interest list of
the one `epoll`, whose keys are a descriptor together with its file.
-/

namespace Handy

/-- `events_`: `kReadEvent` and `kWriteEvent`. -/
structure ChannelEvents where
  read : Bool
  write : Bool
deriving DecidableEq, Repr

/-- A registration: the key, `ev.data.ptr` and `ev.events`. -/
structure EpollEntry (C : Type) where
  fd : Nat
  file : Nat
  ch : C
  events : ChannelEvents
deriving DecidableEq, Repr

/-- What is the matter with a file. `err` and `hup` are reported unasked. -/
structure Readiness where
  read : Bool
  write : Bool
  err : Bool
  hup : Bool
deriving DecidableEq, Repr

namespace EpollEntry

variable {C : Type}

/-- The bits of the report the loop looks at. -/
def report (e : EpollEntry C) (r : Readiness) : ReadyEvents :=
  ⟨r.read && e.events.read, r.write && e.events.write, r.err⟩

def Reported (e : EpollEntry C) (r : Readiness) : Prop :=
  (r.read && e.events.read) || (r.write && e.events.write) || r.err || r.hup

instance (e : EpollEntry C) (r : Readiness) : Decidable (e.Reported r) :=
  inferInstanceAs (Decidable (_ = true))

end EpollEntry

/-- The descriptors, each with its open file, and the interest list of the `epoll`. -/
structure Kernel (C : Type) where
  files : List (Nat × Nat)
  epoll : List (EpollEntry C)

namespace Kernel

variable {C : Type}

def fileOf (k : Kernel C) (fd : Nat) : Option Nat := k.files.lookup fd

/-- `net::setNonBlock`. A failed `F_GETFL` gives its `errno` (`EBADF`), which is not negative;
`setfl` is whether `F_SETFL` succeeds. -/
def setNonBlock (k : Kernel C) (fd : Nat) (setfl : Bool) : Int :=
  match k.fileOf fd with
  | none => 9
  | some _ => if setfl then 0 else -1

/-- `EPOLL_CTL_ADD`: `EBADF`, `EEXIST`, or a new registration when the kernel grants it, which
it need not (`EPERM` for a regular file, `ENOSPC`, `ENOMEM`). -/
def ctlAdd (k : Kernel C) (fd : Nat) (ch : C) (events : ChannelEvents) (granted : Bool) :
    Option (Kernel C) :=
  match k.fileOf fd with
  | none => none
  | some file =>
      if k.epoll.any fun e => e.fd = fd ∧ e.file = file then none
      else if granted then some { k with epoll := ⟨fd, file, ch, events⟩ :: k.epoll }
      else none

/-- `EPOLL_CTL_MOD`: `EBADF`, `ENOENT`, or other events under the key, when granted
(`ENOMEM`). -/
def ctlMod (k : Kernel C) (fd : Nat) (ch : C) (events : ChannelEvents) (granted : Bool) :
    Option (Kernel C) :=
  match k.fileOf fd with
  | none => none
  | some file =>
      if k.epoll.any fun e => e.fd = fd ∧ e.file = file then
        if granted then
          some { k with epoll := k.epoll.map fun e =>
            if e.fd = fd ∧ e.file = file then ⟨fd, file, ch, events⟩ else e }
        else none
      else none

/-- `close`: the last descriptor of a file takes its registrations along. -/
def close (k : Kernel C) (fd : Nat) : Kernel C :=
  match k.fileOf fd with
  | none => k
  | some file =>
      let files := k.files.filter fun p => p.1 ≠ fd
      { files := files
        epoll := if files.any fun p => p.2 = file then k.epoll
          else k.epoll.filter fun e => e.file ≠ file }

/-- `socket`, `accept`, `pipe`: a descriptor not in use for a new file. -/
def opens (k : Kernel C) (fd file : Nat) : Kernel C :=
  if k.files.any fun p => p.1 = fd ∨ p.2 = file then k
  else { k with files := (fd, file) :: k.files }

/-- `dup`: one more descriptor, not in use, for the same file. -/
def dup (k : Kernel C) (fd fd' : Nat) : Kernel C :=
  match k.fileOf fd with
  | none => k
  | some file =>
      if k.files.any fun p => p.1 = fd' then k else { k with files := (fd', file) :: k.files }

end Kernel

/-- The poller with its channels: `fd_` (`none` is `-1`) and `events_` of each, and the kernel. -/
structure Channels (C : Type) where
  poller : Poller C
  kernel : Kernel C
  fd : C → Option Nat
  events : C → ChannelEvents

/-- The environment's next move. Descriptors are opened, duplicated and closed by anyone, at
any time; channels are constructed, changed and closed by the handlers and tasks. `setfl` and
`granted` are the kernel's answers to the calls made, `failed` an `epoll_wait` that fails for
another reason than `EINTR`. -/
inductive ChannelChoice (C : Type) where
  | opens (fd file : Nat)
  | dup (fd fd' : Nat)
  | closeFd (fd : Nat)
  | construct (ch : C) (fd : Nat) (events : ChannelEvents) (setfl granted : Bool)
  | enableRead (ch : C) (enable granted : Bool)
  | enableWrite (ch : C) (enable granted : Bool)
  | enableReadWrite (ch : C) (readable writable granted : Bool)
  | close (ch : C)
  | wait (batch : List (EpollEntry C × Readiness))
  | interrupted
  | failed
  | task
  | go
  | ret
  | exit
deriving Repr

namespace Channels

variable {C : Type} [DecidableEq C]

/-- `kMaxEvents`. -/
def maxEvents : Nat := 2000

omit [DecidableEq C] in
def new : Channels C where
  poller := .new
  kernel := ⟨[], []⟩
  fd _ := none
  events _ := ⟨false, false⟩

omit [DecidableEq C] in
/-- A `fatalif` that fires. -/
def fatal (s : Channels C) : Channels C := { s with poller := { s.poller with dead := true } }

/-- `Channel(base, fd, events)`. -/
def construct (s : Channels C) (ch : C) (fd : Nat) (events : ChannelEvents)
    (setfl granted : Bool) : Channels C :=
  if s.kernel.setNonBlock fd setfl < 0 then s.fatal
  else
    match s.kernel.ctlAdd fd ch events granted with
    | none => s.fatal
    | some k =>
        { poller := s.poller.addChannel ch
          kernel := k
          fd := fun c => if c = ch then some fd else s.fd c
          events := fun c => if c = ch then events else s.events c }

/-- `events_` and `updateChannel`. The new value is written before the call, but behind a
`fatalif` that fires nothing reads it. -/
def update (s : Channels C) (ch : C) (events : ChannelEvents) (granted : Bool) : Channels C :=
  match s.fd ch with
  | none => s.fatal
  | some fd =>
      match s.kernel.ctlMod fd ch events granted with
      | none => s.fatal
      | some k =>
          { s with
            kernel := k
            events := fun c => if c = ch then events else s.events c }

def enableRead (s : Channels C) (ch : C) (enable granted : Bool) : Channels C :=
  s.update ch { s.events ch with read := enable } granted

def enableWrite (s : Channels C) (ch : C) (enable granted : Bool) : Channels C :=
  s.update ch { s.events ch with write := enable } granted

def enableReadWrite (s : Channels C) (ch : C) (readable writable granted : Bool) : Channels C :=
  s.update ch ⟨readable, writable⟩ granted

/-- `Channel::close` up to the call of `handleRead()`. -/
def closeChannel (s : Channels C) (ch : C) : Channels C :=
  match s.fd ch with
  | none => s
  | some fd =>
      { s with
        poller := s.poller.closeChannel ch
        kernel := s.kernel.close fd
        fd := fun c => if c = ch then none else s.fd c }

/-- What `epoll_wait` may return: registrations, each once, that have something to report. -/
def Offers (s : Channels C) (batch : List (EpollEntry C × Readiness)) : Prop :=
  batch.length ≤ maxEvents ∧ (batch.map Prod.fst).Nodup ∧
    ∀ p ∈ batch, p.1 ∈ s.kernel.epoll ∧ p.1.Reported p.2

instance (s : Channels C) (batch : List (EpollEntry C × Readiness)) : Decidable (s.Offers batch) :=
  inferInstanceAs (Decidable (_ ∧ _ ∧ _))

omit [DecidableEq C] in
/-- The entries of `activeEvs_` that a batch becomes. -/
def reports (batch : List (EpollEntry C × Readiness)) : List (C × ReadyEvents) :=
  batch.map fun p => (p.1.ch, p.1.report p.2)

/-- One step; a choice that is not possible changes nothing. -/
def step (s : Channels C) (choice : ChannelChoice C) : Channels C :=
  if s.poller.dead then s
  else
    match choice with
    | .opens fd file => { s with kernel := s.kernel.opens fd file }
    | .dup fd fd' => { s with kernel := s.kernel.dup fd fd' }
    | .closeFd fd => { s with kernel := s.kernel.close fd }
    | .construct ch fd events setfl granted =>
        if s.poller.calls = 0 ∨ ch ∈ s.poller.ids then s
        else s.construct ch fd events setfl granted
    | .enableRead ch enable granted =>
        if s.poller.calls = 0 then s else s.enableRead ch enable granted
    | .enableWrite ch enable granted =>
        if s.poller.calls = 0 then s else s.enableWrite ch enable granted
    | .enableReadWrite ch readable writable granted =>
        if s.poller.calls = 0 then s else s.enableReadWrite ch readable writable granted
    | .close ch => if s.poller.calls = 0 then s else s.closeChannel ch
    | .wait batch =>
        if s.poller.loop = .idle ∧ s.poller.calls = 0 ∧ s.Offers batch then
          { s with poller := s.poller.wait (reports batch) }
        else s
    | .interrupted => { s with poller := s.poller.step .interrupted }
    | .failed => if s.poller.loop = .idle ∧ s.poller.calls = 0 then s.fatal else s
    | .task => { s with poller := s.poller.step .task }
    | .go => { s with poller := s.poller.step .go }
    | .ret => { s with poller := s.poller.step .ret }
    | .exit => { s with poller := s.poller.step .exit }

omit [DecidableEq C] in
/-- Nobody closes the descriptor of a channel behind its back. -/
def Proper (s : Channels C) : ChannelChoice C → Prop
  | .closeFd fd => ∀ c ∈ s.poller.ids, s.fd c ≠ some fd
  | _ => True

omit [DecidableEq C] in
instance (s : Channels C) : (choice : ChannelChoice C) → Decidable (s.Proper choice)
  | .closeFd _ => inferInstanceAs (Decidable (∀ _ ∈ _, _))
  | .opens _ _ => isTrue trivial
  | .dup _ _ => isTrue trivial
  | .construct _ _ _ _ _ => isTrue trivial
  | .enableRead _ _ _ => isTrue trivial
  | .enableWrite _ _ _ => isTrue trivial
  | .enableReadWrite _ _ _ _ => isTrue trivial
  | .close _ => isTrue trivial
  | .wait _ => isTrue trivial
  | .interrupted => isTrue trivial
  | .failed => isTrue trivial
  | .task => isTrue trivial
  | .go => isTrue trivial
  | .ret => isTrue trivial
  | .exit => isTrue trivial

end Channels

/-! ## The kernel's tables -/

namespace Kernel

variable {C : Type} {k k' : Kernel C} {fd file : Nat}

/-- What the kernel sees to. A registration lasts no longer than its file. -/
structure WF (k : Kernel C) : Prop where
  fds : (k.files.map Prod.fst).Nodup
  keys : (k.epoll.map fun e => (e.fd, e.file)).Nodup
  inUse : ∀ e ∈ k.epoll, ∃ fd, (fd, e.file) ∈ k.files

theorem lookup_iff {l : List (Nat × Nat)} (h : (l.map Prod.fst).Nodup) (fd file : Nat) :
    l.lookup fd = some file ↔ (fd, file) ∈ l := by
  induction l with
  | nil => simp
  | cons p l ih =>
      rw [List.map_cons, List.nodup_cons] at h
      rw [List.lookup_cons, List.mem_cons]
      by_cases hp : fd = p.1
      · have hnot : (fd, file) ∉ l := by
          intro hmem
          exact h.1 (hp ▸ List.mem_map_of_mem (f := Prod.fst) hmem)
        subst hp
        simp only [beq_self_eq_true, Option.some.injEq, hnot, or_false]
        constructor
        · intro heq
          exact Prod.ext rfl heq.symm
        · intro heq
          exact (congrArg Prod.snd heq).symm
      · have hne : (fd, file) ≠ p := fun heq => hp (congrArg Prod.fst heq)
        have hbeq : (fd == p.1) = false := beq_false_of_ne hp
        simp only [hbeq, hne, false_or]
        exact ih h.2

theorem WF.fileOf_iff (h : k.WF) (fd file : Nat) :
    k.fileOf fd = some file ↔ (fd, file) ∈ k.files :=
  lookup_iff h.fds fd file

theorem WF.file_inj (h : k.WF) {file' : Nat} (hfile : (fd, file) ∈ k.files)
    (hfile' : (fd, file') ∈ k.files) : file = file' := by
  have hone := (h.fileOf_iff fd file).mpr hfile
  rw [(h.fileOf_iff fd file').mpr hfile'] at hone
  exact (Option.some.inj hone).symm

theorem WF.key_inj (h : k.WF) {e e' : EpollEntry C} (he : e ∈ k.epoll) (he' : e' ∈ k.epoll)
    (hfd : e.fd = e'.fd) (hfile : e.file = e'.file) : e = e' :=
  List.inj_on_of_nodup_map h.keys he he' (Prod.ext hfd hfile)

/-- A descriptor that is not open is no failure of `setNonBlock`. -/
theorem setNonBlock_neg {setfl : Bool} :
    k.setNonBlock fd setfl < 0 ↔ k.fileOf fd ≠ none ∧ setfl = false := by
  unfold setNonBlock
  cases k.fileOf fd with
  | none => simp
  | some file => cases setfl <;> simp

theorem WF.register (h : k.WF) (hfile : (fd, file) ∈ k.files)
    (hfree : ∀ e ∈ k.epoll, e.fd = fd → e.file ≠ file) (ch : C) (events : ChannelEvents) :
    WF { k with epoll := ⟨fd, file, ch, events⟩ :: k.epoll } where
  fds := h.fds
  keys := by
    rw [List.map_cons, List.nodup_cons]
    refine ⟨fun hmem => ?_, h.keys⟩
    obtain ⟨e, he, heq⟩ := List.mem_map.mp hmem
    exact hfree e he (congrArg Prod.fst heq) (congrArg Prod.snd heq)
  inUse e he := by
    rcases List.mem_cons.mp he with rfl | he
    · exact ⟨fd, hfile⟩
    · exact h.inUse e he

/-- `EPOLL_CTL_ADD` succeeds for an open descriptor without a registration, when granted. -/
theorem WF.ctlAdd_eq (h : k.WF) {ch : C} {events : ChannelEvents} {granted : Bool} :
    k.ctlAdd fd ch events granted = some k' ↔
      ∃ file, (fd, file) ∈ k.files ∧ (∀ e ∈ k.epoll, e.fd = fd → e.file ≠ file) ∧
        granted = true ∧ k' = { k with epoll := ⟨fd, file, ch, events⟩ :: k.epoll } := by
  unfold ctlAdd
  cases hfile : k.fileOf fd with
  | none =>
      have hno : ∀ file, (fd, file) ∉ k.files := by
        intro file hmem
        rw [(h.fileOf_iff fd file).mpr hmem] at hfile
        cases hfile
      simp [hno]
  | some file =>
      have hmem := (h.fileOf_iff fd file).mp hfile
      constructor
      · intro hadd
        simp only at hadd
        split at hadd
        · cases hadd
        · next hany =>
            split at hadd
            · next hgranted =>
                refine ⟨file, hmem, ?_, hgranted, (Option.some.inj hadd).symm⟩
                intro e he hfd heq
                exact hany (List.any_eq_true.mpr ⟨e, he, by simp [hfd, heq]⟩)
            · cases hadd
      · rintro ⟨file', hmem', hnone, rfl, rfl⟩
        obtain rfl := h.file_inj hmem hmem'
        have hany : ¬ (k.epoll.any fun e => e.fd = fd ∧ e.file = file) = true := by
          intro hany
          obtain ⟨e, he, heq⟩ := List.any_eq_true.mp hany
          rw [decide_eq_true_eq] at heq
          exact hnone e he heq.1 heq.2
        simp only [hany]
        rfl

/-- `EPOLL_CTL_MOD` succeeds for an open descriptor with a registration, when granted. -/
theorem WF.ctlMod_eq (h : k.WF) {ch : C} {events : ChannelEvents} {e : EpollEntry C}
    (he : e ∈ k.epoll) (hfd : (e.fd, e.file) ∈ k.files) :
    k.ctlMod e.fd ch events true =
      some { k with epoll := k.epoll.map fun e' =>
        if e'.fd = e.fd ∧ e'.file = e.file then ⟨e.fd, e.file, ch, events⟩ else e' } := by
  have hany : (k.epoll.any fun e' => e'.fd = e.fd ∧ e'.file = e.file) = true :=
    List.any_eq_true.mpr ⟨e, he, by simp⟩
  unfold ctlMod
  simp only [(h.fileOf_iff e.fd e.file).mpr hfd, hany]
  rfl

theorem ctlMod_refused (k : Kernel C) (fd : Nat) (ch : C) (events : ChannelEvents) :
    k.ctlMod fd ch events false = none := by
  unfold ctlMod
  cases k.fileOf fd with
  | none => rfl
  | some file => simp

theorem WF.opens (h : k.WF) (fd file : Nat) : (k.opens fd file).WF := by
  unfold Kernel.opens
  split
  · exact h
  · next hfree =>
      refine ⟨?_, h.keys, fun e he => ?_⟩
      · rw [List.map_cons, List.nodup_cons]
        refine ⟨fun hmem => ?_, h.fds⟩
        obtain ⟨p, hp, heq⟩ := List.mem_map.mp hmem
        exact hfree (List.any_eq_true.mpr ⟨p, hp, by simp [heq]⟩)
      · obtain ⟨fd', hfd'⟩ := h.inUse e he
        exact ⟨fd', List.mem_cons_of_mem _ hfd'⟩

theorem WF.dup (h : k.WF) (fd fd' : Nat) : (k.dup fd fd').WF := by
  unfold Kernel.dup
  split
  · exact h
  · split
    · exact h
    · next hfree =>
        refine ⟨?_, h.keys, fun e he => ?_⟩
        · rw [List.map_cons, List.nodup_cons]
          refine ⟨fun hmem => ?_, h.fds⟩
          obtain ⟨p, hp, heq⟩ := List.mem_map.mp hmem
          exact hfree (List.any_eq_true.mpr ⟨p, hp, by simpa using heq⟩)
        · obtain ⟨fd', hfd'⟩ := h.inUse e he
          exact ⟨fd', List.mem_cons_of_mem _ hfd'⟩

theorem mem_files_close {p : Nat × Nat} (fd : Nat) (h : k.WF) :
    p ∈ (k.close fd).files ↔ p ∈ k.files ∧ p.1 ≠ fd := by
  unfold Kernel.close
  cases hfile : k.fileOf fd with
  | none =>
      refine ⟨fun hp => ⟨hp, fun heq => ?_⟩, fun hp => hp.1⟩
      rw [(h.fileOf_iff fd p.2).mpr (heq ▸ hp)] at hfile
      cases hfile
  | some file => simp [List.mem_filter]

/-- A registration lasts as long as its file is open. -/
theorem mem_epoll_close {e : EpollEntry C} (fd : Nat) (h : k.WF) :
    e ∈ (k.close fd).epoll ↔ e ∈ k.epoll ∧ ∃ fd', (fd', e.file) ∈ (k.close fd).files := by
  unfold Kernel.close
  cases hfile : k.fileOf fd with
  | none => exact ⟨fun he => ⟨he, h.inUse e he⟩, fun he => he.1⟩
  | some file =>
      have hmem := (h.fileOf_iff fd file).mp hfile
      have hstays : ∀ fd', (fd', e.file) ∈ k.files → e.file ≠ file →
          (fd', e.file) ∈ k.files.filter fun p => p.1 ≠ fd := by
        intro fd' hfd' hne
        refine List.mem_filter.mpr ⟨hfd', ?_⟩
        rw [decide_eq_true_eq]
        rintro rfl
        exact hne (h.file_inj hfd' hmem)
      simp only
      split
      · next hany =>
          refine ⟨fun he => ⟨he, ?_⟩, fun he => he.1⟩
          obtain ⟨fd', hfd'⟩ := h.inUse e he
          by_cases heq : e.file = file
          · obtain ⟨p, hp, hpfile⟩ := List.any_eq_true.mp hany
            rw [decide_eq_true_eq] at hpfile
            refine ⟨p.1, ?_⟩
            rw [heq, ← hpfile]
            exact hp
          · exact ⟨fd', hstays fd' hfd' heq⟩
      · next hany =>
          rw [List.mem_filter, decide_eq_true_eq]
          refine and_congr_right fun he => ⟨fun hne => ?_, ?_⟩
          · obtain ⟨fd', hfd'⟩ := h.inUse e he
            exact ⟨fd', hstays fd' hfd' hne⟩
          · rintro ⟨fd', hfd'⟩ heq
            exact hany (List.any_eq_true.mpr ⟨_, hfd', by simpa using heq⟩)

theorem sublist_close (k : Kernel C) (fd : Nat) :
    (k.close fd).files.Sublist k.files ∧ (k.close fd).epoll.Sublist k.epoll := by
  unfold Kernel.close
  split
  · exact ⟨List.Sublist.refl _, List.Sublist.refl _⟩
  · refine ⟨List.filter_sublist, ?_⟩
    dsimp only
    split
    · exact List.Sublist.refl _
    · exact List.filter_sublist

theorem WF.close (h : k.WF) (fd : Nat) : (k.close fd).WF where
  fds := h.fds.sublist ((sublist_close k fd).1.map _)
  keys := h.keys.sublist ((sublist_close k fd).2.map _)
  inUse _ he := ((mem_epoll_close fd h).mp he).2

end Kernel

/-! ## Registrations and channels -/

namespace Channels

variable {C : Type} [DecidableEq C] {s : Channels C}

structure Inv (s : Channels C) : Prop where
  kernel : s.kernel.WF
  opened : ∀ c, s.poller.fdOpen c = (s.fd c).isSome
  live : ∀ c, c ∈ s.poller.liveChannels ↔ (s.fd c).isSome = true
  once : s.poller.liveChannels.Nodup
  ids : ∀ c, (s.fd c).isSome = true → c ∈ s.poller.ids
  known : ∀ e ∈ s.kernel.epoll, e.ch ∈ s.poller.ids
  apart : (s.kernel.epoll.map EpollEntry.ch).Nodup
  held : ∀ c fd, s.fd c = some fd →
    ∃ file, (fd, file) ∈ s.kernel.files ∧ ⟨fd, file, c, s.events c⟩ ∈ s.kernel.epoll

omit [DecidableEq C] in
theorem Inv.entry_inj (h : s.Inv) {e e' : EpollEntry C} (he : e ∈ s.kernel.epoll)
    (he' : e' ∈ s.kernel.epoll) (hch : e.ch = e'.ch) : e = e' :=
  List.inj_on_of_nodup_map h.apart he he' hch

omit [DecidableEq C] in
/-- The registration of an open channel is the one of its descriptor. -/
theorem Inv.entry_of_open (h : s.Inv) {e : EpollEntry C} (he : e ∈ s.kernel.epoll) {fd : Nat}
    (hfd : s.fd e.ch = some fd) :
    e.fd = fd ∧ e.events = s.events e.ch ∧ (e.fd, e.file) ∈ s.kernel.files := by
  obtain ⟨file, hfile, hentry⟩ := h.held e.ch fd hfd
  have heq := h.entry_inj he hentry rfl
  rw [heq]
  exact ⟨rfl, rfl, hfile⟩

omit [DecidableEq C] in
/-- No two open channels share a descriptor. -/
theorem Inv.fd_inj (h : s.Inv) {c d : C} {fd : Nat} (hc : s.fd c = some fd)
    (hd : s.fd d = some fd) : c = d := by
  obtain ⟨file, hfile, hentry⟩ := h.held c fd hc
  obtain ⟨file', hfile', hentry'⟩ := h.held d fd hd
  obtain rfl := h.kernel.file_inj hfile hfile'
  exact congrArg EpollEntry.ch (h.kernel.key_inj hentry hentry' rfl rfl)

omit [DecidableEq C] in
theorem Inv.new : (new : Channels C).Inv where
  kernel := ⟨List.nodup_nil, List.nodup_nil, fun e he => by cases he⟩
  opened _ := rfl
  live _ := by simp [Channels.new, Poller.new]
  once := List.nodup_nil
  ids _ h := by cases h
  known _ he := by cases he
  apart := List.nodup_nil
  held _ _ h := by cases h

omit [DecidableEq C] in
/-- What leaves the registrations alone and takes no descriptor away. -/
theorem Inv.of_kernel (h : s.Inv) {k : Kernel C} (hwf : k.WF) (hepoll : k.epoll = s.kernel.epoll)
    (hfiles : ∀ p ∈ s.kernel.files, p ∈ k.files) : Inv { s with kernel := k } where
  kernel := hwf
  opened := h.opened
  live := h.live
  once := h.once
  ids := h.ids
  known e he := h.known e (hepoll ▸ he)
  apart := by
    show (k.epoll.map _).Nodup
    rw [hepoll]
    exact h.apart
  held c fd hfd := by
    obtain ⟨file, hfile, hentry⟩ := h.held c fd hfd
    exact ⟨file, hfiles _ hfile, hepoll ▸ hentry⟩

omit [DecidableEq C] in
/-- What the loop does by itself. -/
theorem Inv.of_poller (h : s.Inv) {p : Poller C} (hlive : p.liveChannels = s.poller.liveChannels)
    (hopen : p.fdOpen = s.poller.fdOpen) (hids : p.ids = s.poller.ids) :
    Inv { s with poller := p } where
  kernel := h.kernel
  opened c := by
    show p.fdOpen c = _
    rw [hopen]
    exact h.opened c
  live c := by
    show c ∈ p.liveChannels ↔ _
    rw [hlive]
    exact h.live c
  once := by
    show p.liveChannels.Nodup
    rw [hlive]
    exact h.once
  ids c hc := by
    show c ∈ p.ids
    rw [hids]
    exact h.ids c hc
  known e he := by
    show e.ch ∈ p.ids
    rw [hids]
    exact h.known e he
  apart := h.apart
  held := h.held

omit [DecidableEq C] in
theorem opens_epoll (k : Kernel C) (fd file : Nat) : (k.opens fd file).epoll = k.epoll := by
  unfold Kernel.opens
  split <;> rfl

omit [DecidableEq C] in
theorem mem_files_opens (k : Kernel C) (fd file : Nat) :
    ∀ p ∈ k.files, p ∈ (k.opens fd file).files := by
  intro p hp
  unfold Kernel.opens
  split
  · exact hp
  · exact List.mem_cons_of_mem _ hp

omit [DecidableEq C] in
theorem dup_epoll (k : Kernel C) (fd fd' : Nat) : (k.dup fd fd').epoll = k.epoll := by
  unfold Kernel.dup
  split
  · rfl
  · split <;> rfl

omit [DecidableEq C] in
theorem mem_files_dup (k : Kernel C) (fd fd' : Nat) : ∀ p ∈ k.files, p ∈ (k.dup fd fd').files := by
  intro p hp
  unfold Kernel.dup
  split
  · exact hp
  · split
    · exact hp
    · exact List.mem_cons_of_mem _ hp

omit [DecidableEq C] in
/-- The registrations of the channels that keep their descriptor outlast a `close`. -/
theorem Inv.held_close (h : s.Inv) {fd fd' : Nat} {c : C} (hc : s.fd c = some fd') (hne : fd' ≠ fd) :
    ∃ file, (fd', file) ∈ (s.kernel.close fd).files ∧
      ⟨fd', file, c, s.events c⟩ ∈ (s.kernel.close fd).epoll := by
  obtain ⟨file, hfile, hentry⟩ := h.held c fd' hc
  have hstays : (fd', file) ∈ (s.kernel.close fd).files :=
    (Kernel.mem_files_close fd h.kernel).mpr ⟨hfile, hne⟩
  exact ⟨file, hstays, (Kernel.mem_epoll_close fd h.kernel).mpr ⟨hentry, fd', hstays⟩⟩

omit [DecidableEq C] in
theorem Inv.closeFd (h : s.Inv) {fd : Nat} (hnone : ∀ c ∈ s.poller.ids, s.fd c ≠ some fd) :
    Inv { s with kernel := s.kernel.close fd } where
  kernel := h.kernel.close fd
  opened := h.opened
  live := h.live
  once := h.once
  ids := h.ids
  known e he := h.known e ((Kernel.mem_epoll_close fd h.kernel).mp he).1
  apart := h.apart.sublist ((Kernel.sublist_close s.kernel fd).2.map _)
  held c fd' hc := by
    apply h.held_close hc
    rintro rfl
    exact hnone c (h.ids c (by rw [hc]; rfl)) hc

/-- The constructor of a channel either ends the process or registers the channel. -/
theorem construct_cases (s : Channels C) (ch : C) (fd : Nat) (events : ChannelEvents)
    (setfl granted : Bool) :
    s.construct ch fd events setfl granted = s.fatal ∨
      ∃ k, s.kernel.ctlAdd fd ch events granted = some k ∧
        s.construct ch fd events setfl granted =
          { poller := s.poller.addChannel ch
            kernel := k
            fd := fun c => if c = ch then some fd else s.fd c
            events := fun c => if c = ch then events else s.events c } := by
  unfold Channels.construct
  split
  · exact Or.inl rfl
  · cases hadd : s.kernel.ctlAdd fd ch events granted with
    | none => exact Or.inl rfl
    | some k => exact Or.inr ⟨k, rfl, rfl⟩

/-- A channel is constructed for an open descriptor without a registration. -/
theorem Inv.register (h : s.Inv) {ch : C} (hnew : ch ∉ s.poller.ids) {fd file : Nat}
    (hfile : (fd, file) ∈ s.kernel.files)
    (hfree : ∀ e ∈ s.kernel.epoll, e.fd = fd → e.file ≠ file) (events : ChannelEvents) :
    Inv {
      poller := s.poller.addChannel ch
      kernel := { s.kernel with epoll := ⟨fd, file, ch, events⟩ :: s.kernel.epoll }
      fd := fun c => if c = ch then some fd else s.fd c
      events := fun c => if c = ch then events else s.events c } where
  kernel := h.kernel.register hfile hfree ch events
  opened c := by
    simp only [Poller.addChannel]
    split
    · rfl
    · exact h.opened c
  live c := by
    simp only [Poller.addChannel, List.mem_cons, h.live c]
    by_cases hc : c = ch
    · simp [hc]
    · simp [hc]
  once := by
    have hidle : ch ∉ s.poller.liveChannels := fun hmem => hnew (h.ids ch ((h.live ch).mp hmem))
    exact List.nodup_cons.mpr ⟨hidle, h.once⟩
  ids c hc := by
    by_cases hcc : c = ch
    · exact hcc ▸ List.mem_cons_self
    · simp only [if_neg hcc] at hc
      exact List.mem_cons_of_mem _ (h.ids c hc)
  known e he := by
    rcases List.mem_cons.mp he with rfl | he
    · exact List.mem_cons_self
    · exact List.mem_cons_of_mem _ (h.known e he)
  apart := by
    have hlone : ch ∉ s.kernel.epoll.map EpollEntry.ch := by
      intro hmem
      obtain ⟨e, he, hch⟩ := List.mem_map.mp hmem
      exact hnew (hch ▸ h.known e he)
    rw [List.map_cons, List.nodup_cons]
    exact ⟨hlone, h.apart⟩
  held c fd' hc := by
    by_cases hcc : c = ch
    · subst hcc
      simp only [if_true, Option.some.injEq] at hc ⊢
      exact ⟨file, hc ▸ hfile, hc ▸ List.mem_cons_self⟩
    · simp only [if_neg hcc] at hc ⊢
      obtain ⟨file', hfile', hentry⟩ := h.held c fd' hc
      exact ⟨file', hfile', List.mem_cons_of_mem _ hentry⟩

theorem Inv.construct (h : s.Inv) {ch : C} (hnew : ch ∉ s.poller.ids) (fd : Nat)
    (events : ChannelEvents) (setfl granted : Bool) :
    (s.construct ch fd events setfl granted).Inv := by
  rcases s.construct_cases ch fd events setfl granted with heq | ⟨k, hadd, heq⟩
  · rw [heq]
    exact h.of_poller rfl rfl rfl
  · rw [heq]
    obtain ⟨file, hfile, hfree, -, rfl⟩ := h.kernel.ctlAdd_eq.mp hadd
    exact h.register hnew hfile hfree events

/-- The registration of `ch` with other events. -/
def changed (ch : C) (events : ChannelEvents) (e : EpollEntry C) : EpollEntry C :=
  if e.ch = ch then { e with events := events } else e

@[simp] theorem changed_fd (ch : C) (events : ChannelEvents) (e : EpollEntry C) :
    (changed ch events e).fd = e.fd := by
  unfold changed
  split <;> rfl

@[simp] theorem changed_file (ch : C) (events : ChannelEvents) (e : EpollEntry C) :
    (changed ch events e).file = e.file := by
  unfold changed
  split <;> rfl

@[simp] theorem changed_ch (ch : C) (events : ChannelEvents) (e : EpollEntry C) :
    (changed ch events e).ch = e.ch := by
  unfold changed
  split <;> rfl

/-- `updateChannel` of an open channel, when granted, changes the events of its
registration. -/
theorem Inv.update_eq (h : s.Inv) {ch : C} (hopen : s.fd ch ≠ none) (events : ChannelEvents) :
    s.update ch events true =
      { s with
        events := fun c => if c = ch then events else s.events c
        kernel := { s.kernel with epoll := s.kernel.epoll.map (changed ch events) } } := by
  cases hfd : s.fd ch with
  | none => exact absurd hfd hopen
  | some fd =>
      obtain ⟨file, hfile, hentry⟩ := h.held ch fd hfd
      have hmod : s.kernel.ctlMod fd ch events true = some _ := h.kernel.ctlMod_eq hentry hfile
      have hsame : (s.kernel.epoll.map fun e =>
          if e.fd = fd ∧ e.file = file then (⟨fd, file, ch, events⟩ : EpollEntry C) else e) =
          s.kernel.epoll.map (changed ch events) := by
        apply List.map_congr_left
        intro e he
        unfold changed
        by_cases hch : e.ch = ch
        · have heq := h.entry_inj he hentry hch
          subst heq
          simp
        · have hkey : ¬ (e.fd = fd ∧ e.file = file) := by
            intro hkey
            exact hch (congrArg EpollEntry.ch (h.kernel.key_inj he hentry hkey.1 hkey.2))
          rw [if_neg hch, if_neg hkey]
      unfold Channels.update
      simp only [hfd, hmod, hsame]

theorem update_fatal {ch : C} {events : ChannelEvents} {granted : Bool}
    (hno : ¬ (s.fd ch ≠ none ∧ granted = true)) :
    s.update ch events granted = s.fatal := by
  unfold Channels.update
  cases hfd : s.fd ch with
  | none => rfl
  | some fd =>
      have hrefused : granted = false := by simpa [hfd] using hno
      subst hrefused
      simp only [Kernel.ctlMod_refused]

theorem Inv.reregister (h : s.Inv) (ch : C) (events : ChannelEvents) :
    Inv { s with
      events := fun c => if c = ch then events else s.events c
      kernel := { s.kernel with epoll := s.kernel.epoll.map (changed ch events) } } where
  kernel :=
    { fds := h.kernel.fds
      keys := by
        simp only [List.map_map, Function.comp_def, changed_fd, changed_file]
        exact h.kernel.keys
      inUse := by
        intro e he
        obtain ⟨e', he', rfl⟩ := List.mem_map.mp he
        rw [changed_file]
        exact h.kernel.inUse e' he' }
  opened := h.opened
  live := h.live
  once := h.once
  ids := h.ids
  known e he := by
    obtain ⟨e', he', rfl⟩ := List.mem_map.mp he
    rw [changed_ch]
    exact h.known e' he'
  apart := by
    simp only [List.map_map, Function.comp_def, changed_ch]
    exact h.apart
  held c fd hc := by
    obtain ⟨file, hfile, hentry⟩ := h.held c fd hc
    refine ⟨file, hfile, List.mem_map.mpr ⟨_, hentry, ?_⟩⟩
    by_cases hcc : c = ch
    · simp [changed, hcc]
    · simp [changed, hcc]

theorem Inv.update (h : s.Inv) (ch : C) (events : ChannelEvents) (granted : Bool) :
    (s.update ch events granted).Inv := by
  by_cases hok : s.fd ch ≠ none ∧ granted = true
  · obtain ⟨hopen, rfl⟩ := hok
    rw [h.update_eq hopen]
    exact h.reregister ch events
  · rw [update_fatal hok]
    exact h.of_poller rfl rfl rfl

theorem Inv.closeChannel (h : s.Inv) (ch : C) : (s.closeChannel ch).Inv := by
  unfold Channels.closeChannel
  split
  · exact h
  · next fd hfd =>
      have hopen : s.poller.fdOpen ch = true := by
        rw [h.opened, hfd]
        rfl
      refine ⟨h.kernel.close fd, ?_, ?_, ?_, ?_, ?_, ?_, ?_⟩
      · intro c
        simp only [Poller.closeChannel, if_pos hopen]
        split
        · rfl
        · exact h.opened c
      · intro c
        simp only [Poller.closeChannel, if_pos hopen, Poller.removeChannel, List.mem_filter, h.live c]
        by_cases hc : c = ch
        · simp [hc]
        · simp [hc]
      · simp only [Poller.closeChannel, if_pos hopen, Poller.removeChannel]
        exact h.once.filter _
      · intro c hc
        simp only [Poller.closeChannel, if_pos hopen, Poller.removeChannel]
        by_cases hcc : c = ch
        · simp [hcc] at hc
        · simp only [if_neg hcc] at hc
          exact h.ids c hc
      · intro e he
        simp only [Poller.closeChannel, if_pos hopen, Poller.removeChannel]
        exact h.known e ((Kernel.mem_epoll_close fd h.kernel).mp he).1
      · exact h.apart.sublist ((Kernel.sublist_close s.kernel fd).2.map _)
      · intro c fd' hc
        by_cases hcc : c = ch
        · simp [hcc] at hc
        · simp only [if_neg hcc] at hc
          apply h.held_close hc
          rintro rfl
          exact hcc (h.fd_inj hc hfd)

/-- What the loop does by itself changes no channel. -/
def SameChannels (p p' : Poller C) : Prop :=
  p'.liveChannels = p.liveChannels ∧ p'.fdOpen = p.fdOpen ∧ p'.ids = p.ids

omit [DecidableEq C] in
theorem head_same (p : Poller C) : SameChannels p p.head := by
  unfold Poller.head
  dsimp only
  split
  · split
    · split <;> exact ⟨rfl, rfl, rfl⟩
    · exact ⟨rfl, rfl, rfl⟩
  · exact ⟨rfl, rfl, rfl⟩

omit [DecidableEq C] in
theorem readPart_same (p : Poller C) (ch : C) (ev : ReadyEvents) :
    SameChannels p (p.readPart ch ev) := by
  unfold Poller.readPart
  split
  · exact ⟨rfl, rfl, rfl⟩
  · split <;> exact ⟨rfl, rfl, rfl⟩

theorem loop_same (p : Poller C) (choice : PollChoice C) (hclose : ∀ ch, choice ≠ .close ch)
    (hregister : ∀ ch, choice ≠ .register ch) : SameChannels p (p.step choice) := by
  unfold Poller.step
  split
  · exact ⟨rfl, rfl, rfl⟩
  · cases choice with
    | wait batch =>
        dsimp only
        split <;> exact ⟨rfl, rfl, rfl⟩
    | interrupted =>
        dsimp only
        split <;> exact ⟨rfl, rfl, rfl⟩
    | task =>
        dsimp only
        split <;> exact ⟨rfl, rfl, rfl⟩
    | go =>
        dsimp only
        split
        · split
          · exact ⟨rfl, rfl, rfl⟩
          · exact head_same p
          · exact readPart_same p _ _
        · exact ⟨rfl, rfl, rfl⟩
    | close ch => exact absurd rfl (hclose ch)
    | register ch => exact absurd rfl (hregister ch)
    | ret => exact ⟨rfl, rfl, rfl⟩
    | exit => exact ⟨rfl, rfl, rfl⟩

theorem Inv.loop (h : s.Inv) (choice : PollChoice C) (hclose : ∀ ch, choice ≠ .close ch)
    (hregister : ∀ ch, choice ≠ .register ch) :
    Inv { s with poller := s.poller.step choice } := by
  obtain ⟨hlive, hopen, hids⟩ := loop_same s.poller choice hclose hregister
  exact h.of_poller hlive hopen hids

theorem Inv.step (h : s.Inv) {choice : ChannelChoice C} (hproper : s.Proper choice) :
    (s.step choice).Inv := by
  unfold Channels.step
  split
  · exact h
  · cases choice with
    | opens fd file =>
        exact h.of_kernel (h.kernel.opens fd file) (opens_epoll _ _ _) (mem_files_opens _ _ _)
    | dup fd fd' => exact h.of_kernel (h.kernel.dup fd fd') (dup_epoll _ _ _) (mem_files_dup _ _ _)
    | closeFd fd => exact h.closeFd hproper
    | construct ch fd events setfl granted =>
        dsimp only
        split
        · exact h
        · next hnew =>
            exact h.construct (fun hmem => hnew (Or.inr hmem)) fd events setfl granted
    | enableRead ch enable granted =>
        dsimp only
        split
        · exact h
        · exact h.update ch _ granted
    | enableWrite ch enable granted =>
        dsimp only
        split
        · exact h
        · exact h.update ch _ granted
    | enableReadWrite ch readable writable granted =>
        dsimp only
        split
        · exact h
        · exact h.update ch _ granted
    | close ch =>
        dsimp only
        split
        · exact h
        · exact h.closeChannel ch
    | wait batch =>
        dsimp only
        split
        · exact h.of_poller rfl rfl rfl
        · exact h
    | interrupted => exact h.loop _ (by simp) (by simp)
    | failed =>
        dsimp only
        split
        · exact h.of_poller rfl rfl rfl
        · exact h
    | task => exact h.loop _ (by simp) (by simp)
    | go => exact h.loop _ (by simp) (by simp)
    | ret => exact h.loop _ (by simp) (by simp)
    | exit => exact h.loop _ (by simp) (by simp)

/-! ## Descriptors that are the only ones of their files -/

omit [DecidableEq C] in
def Sole (_ : Channels C) : ChannelChoice C → Prop
  | .dup _ _ => False
  | _ => True

instance (s : Channels C) : (choice : ChannelChoice C) → Decidable (s.Sole choice)
  | .dup _ _ => isFalse id
  | .opens _ _ => isTrue trivial
  | .closeFd _ => isTrue trivial
  | .construct _ _ _ _ _ => isTrue trivial
  | .enableRead _ _ _ => isTrue trivial
  | .enableWrite _ _ _ => isTrue trivial
  | .enableReadWrite _ _ _ _ => isTrue trivial
  | .close _ => isTrue trivial
  | .wait _ => isTrue trivial
  | .interrupted => isTrue trivial
  | .failed => isTrue trivial
  | .task => isTrue trivial
  | .go => isTrue trivial
  | .ret => isTrue trivial
  | .exit => isTrue trivial

/-- Nothing is registered for a channel that is closed. -/
structure Own (s : Channels C) : Prop extends Inv s where
  sole : (s.kernel.files.map Prod.snd).Nodup
  clean : ∀ e ∈ s.kernel.epoll, s.fd e.ch = some e.fd

omit [DecidableEq C] in
theorem Own.file_once (h : s.Own) {fd fd' file : Nat} (hfd : (fd, file) ∈ s.kernel.files)
    (hfd' : (fd', file) ∈ s.kernel.files) : fd = fd' :=
  congrArg Prod.fst (List.inj_on_of_nodup_map h.sole hfd hfd' rfl)

omit [DecidableEq C] in
theorem Own.new : (new : Channels C).Own :=
  ⟨Inv.new, List.nodup_nil, fun e he => by cases he⟩

omit [DecidableEq C] in
theorem Own.fatal (h : s.Own) : s.fatal.Own :=
  ⟨h.toInv.of_poller rfl rfl rfl, h.sole, h.clean⟩

theorem Own.construct (h : s.Own) {ch : C} (hnew : ch ∉ s.poller.ids) (fd : Nat)
    (events : ChannelEvents) (setfl granted : Bool) :
    (s.construct ch fd events setfl granted).Own := by
  have hinv := h.toInv.construct hnew fd events setfl granted
  rcases s.construct_cases ch fd events setfl granted with heq | ⟨k, hadd, heq⟩
  · rw [heq]
    exact h.fatal
  · rw [heq] at hinv ⊢
    obtain ⟨file, hfile, hfree, -, rfl⟩ := h.kernel.ctlAdd_eq.mp hadd
    refine ⟨hinv, h.sole, fun e he => ?_⟩
    rcases List.mem_cons.mp he with rfl | he
    · exact if_pos rfl
    · have hne : e.ch ≠ ch := fun heq => hnew (heq ▸ h.known e he)
      simp only [if_neg hne]
      exact h.clean e he

theorem Own.update (h : s.Own) (ch : C) (events : ChannelEvents) (granted : Bool) :
    (s.update ch events granted).Own := by
  have hinv := h.toInv.update ch events granted
  by_cases hok : s.fd ch ≠ none ∧ granted = true
  · obtain ⟨hopen, rfl⟩ := hok
    rw [h.toInv.update_eq hopen] at hinv ⊢
    refine ⟨hinv, h.sole, fun e he => ?_⟩
    obtain ⟨e', he', rfl⟩ := List.mem_map.mp he
    rw [changed_ch, changed_fd]
    exact h.clean e' he'
  · rw [update_fatal hok]
    exact h.fatal

/-- The last descriptor of the file takes the registration along. -/
theorem Own.closeChannel (h : s.Own) (ch : C) : (s.closeChannel ch).Own := by
  have hinv := h.toInv.closeChannel ch
  cases hfd : s.fd ch with
  | none =>
      unfold Channels.closeChannel
      simp only [hfd]
      exact h
  | some fd =>
      unfold Channels.closeChannel at hinv ⊢
      simp only [hfd] at hinv ⊢
      refine ⟨hinv, h.sole.sublist ((Kernel.sublist_close s.kernel fd).1.map _), fun e he => ?_⟩
      obtain ⟨he', fd', hfd'⟩ := (Kernel.mem_epoll_close fd h.kernel).mp he
      obtain ⟨hthere, hne⟩ := (Kernel.mem_files_close fd h.kernel).mp hfd'
      have hopen := h.clean e he'
      have hech : e.ch ≠ ch := by
        intro heq
        rw [heq, hfd] at hopen
        obtain ⟨-, -, hfile⟩ := h.entry_of_open he' (h.clean e he')
        exact hne ((h.file_once hthere hfile).trans (Option.some.inj hopen).symm)
      simp only [if_neg hech]
      exact hopen

theorem Own.step (h : s.Own) {choice : ChannelChoice C} (hproper : s.Proper choice)
    (hsole : s.Sole choice) : (s.step choice).Own := by
  have hinv := h.toInv.step hproper
  by_cases hdead : s.poller.dead = true
  · unfold Channels.step
    rw [if_pos hdead]
    exact h
  · unfold Channels.step at hinv ⊢
    rw [if_neg hdead] at hinv ⊢
    cases choice with
    | opens fd file =>
        refine ⟨hinv, ?_, fun e he => h.clean e (opens_epoll s.kernel fd file ▸ he)⟩
        simp only [Kernel.opens]
        split
        · exact h.sole
        · next hfree =>
            refine List.nodup_cons.mpr ⟨fun hmem => ?_, h.sole⟩
            obtain ⟨p, hp, heq⟩ := List.mem_map.mp hmem
            exact hfree (List.any_eq_true.mpr ⟨p, hp, by simp [heq]⟩)
    | dup fd fd' => exact hsole.elim
    | closeFd fd =>
        have hsub := Kernel.sublist_close s.kernel fd
        exact ⟨hinv, h.sole.sublist (hsub.1.map _), fun e he => h.clean e (hsub.2.subset he)⟩
    | construct ch fd events setfl granted =>
        dsimp only
        split
        · exact h
        · next hnew =>
            exact h.construct (fun hmem => hnew (Or.inr hmem)) fd events setfl granted
    | enableRead ch enable granted =>
        dsimp only
        split
        · exact h
        · exact h.update ch _ granted
    | enableWrite ch enable granted =>
        dsimp only
        split
        · exact h
        · exact h.update ch _ granted
    | enableReadWrite ch readable writable granted =>
        dsimp only
        split
        · exact h
        · exact h.update ch _ granted
    | close ch =>
        dsimp only
        split
        · exact h
        · exact h.closeChannel ch
    | wait batch =>
        dsimp only at hinv ⊢
        split
        · next hok =>
            rw [if_pos hok] at hinv
            exact ⟨hinv, h.sole, h.clean⟩
        · exact h
    | interrupted => exact ⟨hinv, h.sole, h.clean⟩
    | failed =>
        dsimp only at hinv ⊢
        split
        · next hfails =>
            rw [if_pos hfails] at hinv
            exact ⟨hinv, h.sole, h.clean⟩
        · exact h
    | task => exact ⟨hinv, h.sole, h.clean⟩
    | go => exact ⟨hinv, h.sole, h.clean⟩
    | ret => exact ⟨hinv, h.sole, h.clean⟩
    | exit => exact ⟨hinv, h.sole, h.clean⟩

/-- In every run, with descriptors opened, duplicated, closed and used again by anyone, the
live channels are those with a descriptor, no two have the same one, each is registered with
its current events, and what is registered beyond that belongs to a closed channel whose open
file has another descriptor. While nobody duplicates one, the interest list is exactly the
live channels, each with its descriptor and its events. -/
theorem interest_list_is_live (cs : List (ChannelChoice C))
    (hproper : Driven.Along step Proper new cs) :
    let s := Driven.run step new cs
    (∀ c, c ∈ s.poller.liveChannels ↔ (s.fd c).isSome = true) ∧
      (∀ c d fd, s.fd c = some fd → s.fd d = some fd → c = d) ∧
      (∀ c fd, s.fd c = some fd →
        ∃ file, (fd, file) ∈ s.kernel.files ∧ ⟨fd, file, c, s.events c⟩ ∈ s.kernel.epoll) ∧
      (∀ e ∈ s.kernel.epoll, s.fd e.ch = some e.fd ∧ e.events = s.events e.ch ∨
        s.fd e.ch = none ∧ ∃ fd, (fd, e.file) ∈ s.kernel.files) ∧
      (Driven.Along step Sole new cs →
        (s.kernel.epoll.map fun e => (e.ch, some e.fd, e.events)).Perm
          (s.poller.liveChannels.map fun c => (c, s.fd c, s.events c))) := by
  have h : (Driven.run step new cs).Inv :=
    Driven.run_invariant (fun _ _ hi hp => hi.step hp) Inv.new hproper
  refine ⟨h.live, fun c d fd => h.fd_inj, h.held, fun e he => ?_, fun hsole => ?_⟩
  · cases hfd : (Driven.run step new cs).fd e.ch with
    | none => exact Or.inr ⟨rfl, h.kernel.inUse e he⟩
    | some fd =>
        obtain ⟨rfl, hevents, -⟩ := h.entry_of_open he hfd
        exact Or.inl ⟨rfl, hevents⟩
  · have hown : (Driven.run step new cs).Own :=
      Driven.run_invariant (fun _ _ hi hp => hi.step hp.1 hp.2) Own.new
        (Driven.along_and.mpr ⟨hproper, hsole⟩)
    have hentries : ((Driven.run step new cs).kernel.epoll.map fun e => (e.ch, some e.fd, e.events)) =
        ((Driven.run step new cs).kernel.epoll.map EpollEntry.ch).map fun c =>
          (c, (Driven.run step new cs).fd c, (Driven.run step new cs).events c) := by
      rw [List.map_map]
      apply List.map_congr_left
      intro e he
      obtain ⟨-, hevents, -⟩ := h.entry_of_open he (hown.clean e he)
      rw [Function.comp_apply, hown.clean e he, hevents]
    rw [hentries]
    apply List.Perm.map
    rw [List.perm_ext_iff_of_nodup h.apart h.once]
    intro c
    rw [h.live]
    constructor
    · intro hc
      obtain ⟨e, he, rfl⟩ := List.mem_map.mp hc
      rw [hown.clean e he]
      rfl
    · intro hc
      obtain ⟨fd, hfd⟩ := Option.isSome_iff_exists.mp hc
      obtain ⟨file, -, hentry⟩ := h.held c fd hfd
      exact List.mem_map.mpr ⟨_, hentry, rfl⟩

/-- Channel 0 is closed and channel 1 gets its descriptor again. -/
theorem interest_list_is_live_reused :
    let cs : List (ChannelChoice Nat) :=
      [.task, .opens 5 0, .construct 0 5 ⟨true, false⟩ true true, .enableWrite 0 true true,
        .close 0, .ret, .opens 5 1, .opens 6 2, .closeFd 6,
        .construct 1 5 ⟨true, false⟩ true true]
    let s := Driven.run step new cs
    s.poller.liveChannels = [1] ∧
      (s.kernel.epoll.map fun e => (e.ch, some e.fd, e.events)).Perm
        (s.poller.liveChannels.map fun c => (c, s.fd c, s.events c)) :=
  ⟨by decide, (interest_list_is_live _ (by decide)).2.2.2.2 (by decide)⟩

end Channels

end Handy
