import Handy.Base.Channels

/-! # The loop over the kernel's events

`Handy.Base.Poller` takes the batches of `epoll_wait` to be of live channels, each once. Here
they come from the interest list. While nobody duplicates a channel's descriptor the steps of
the whole are steps of that loop, and it is said exactly when a `fatalif` ends the process.
-/

namespace Handy

namespace Channels

variable {C : Type} [DecidableEq C] {s : Channels C}

omit [DecidableEq C] in
/-- A batch of the kernel is one the loop may be given: open channels, each once. -/
theorem Own.ready (h : s.Own) {batch : List (EpollEntry C × Readiness)} (hoffers : s.Offers batch) :
    s.poller.Ready (reports batch) := by
  obtain ⟨-, honce, hthere⟩ := hoffers
  constructor
  · have hmap : (reports batch).map Prod.fst = (batch.map Prod.fst).map EpollEntry.ch := by
      simp only [reports, List.map_map]
      rfl
    rw [hmap]
    apply honce.map_on
    intro e he e' he' hch
    obtain ⟨p, hp, rfl⟩ := List.mem_map.mp he
    obtain ⟨p', hp', rfl⟩ := List.mem_map.mp he'
    exact h.entry_inj (hthere p hp).1 (hthere p' hp').1 hch
  · intro q hq
    obtain ⟨p, hp, rfl⟩ := List.mem_map.mp hq
    rw [h.live, h.clean p.1 (hthere p hp).1]
    rfl

def moves (s : Channels C) : ChannelChoice C → List (PollChoice C)
  | .construct ch _ _ _ _ => [.register ch]
  | .close ch => [.close ch]
  | .wait batch => if s.Offers batch then [.wait (reports batch)] else []
  | .interrupted => [.interrupted]
  | .task => [.task]
  | .go => [.go]
  | .ret => [.ret]
  | .exit => [.exit]
  | _ => []

/-- What lets the process live on: a channel is constructed for an open descriptor that no
other channel has, only open channels are changed, the kernel grants both, `epoll_wait` does
not fail, and no entry is a hang-up alone. -/
def Allowed (s : Channels C) : ChannelChoice C → Prop
  | .construct ch fd _ setfl granted => s.poller.calls = 0 ∨ ch ∈ s.poller.ids ∨
      ((∃ p ∈ s.kernel.files, p.1 = fd) ∧ ∀ c ∈ s.poller.ids, s.fd c ≠ some fd) ∧
        setfl = true ∧ granted = true
  | .enableRead ch _ granted => s.poller.calls = 0 ∨ s.fd ch ≠ none ∧ granted = true
  | .enableWrite ch _ granted => s.poller.calls = 0 ∨ s.fd ch ≠ none ∧ granted = true
  | .enableReadWrite ch _ _ granted => s.poller.calls = 0 ∨ s.fd ch ≠ none ∧ granted = true
  | .failed => ¬ (s.poller.loop = .idle ∧ s.poller.calls = 0)
  | .go =>
      match s.poller.loop with
      | .readPart _ ev => s.poller.calls = 0 → (ev.wantsRead || ev.write) = true
      | _ => True
  | _ => True

/-- The handlers do not close the channel whose read part comes next. -/
def KeepsReader (s : Channels C) : ChannelChoice C → Prop
  | .close ch => s.poller.KeepsReader (.close ch)
  | _ => True

instance (s : Channels C) : (choice : ChannelChoice C) → Decidable (s.KeepsReader choice)
  | .close ch => inferInstanceAs (Decidable (s.poller.KeepsReader (.close ch)))
  | .closeFd _ => isTrue trivial
  | .opens _ _ => isTrue trivial
  | .dup _ _ => isTrue trivial
  | .construct _ _ _ _ _ => isTrue trivial
  | .enableRead _ _ _ => isTrue trivial
  | .enableWrite _ _ _ => isTrue trivial
  | .enableReadWrite _ _ _ _ => isTrue trivial
  | .wait _ => isTrue trivial
  | .interrupted => isTrue trivial
  | .failed => isTrue trivial
  | .task => isTrue trivial
  | .go => isTrue trivial
  | .ret => isTrue trivial
  | .exit => isTrue trivial

theorem Own.construct_dead (h : s.Own) (hlive : s.poller.dead = false) (ch : C) (fd : Nat)
    (events : ChannelEvents) (setfl granted : Bool) :
    (s.construct ch fd events setfl granted).poller.dead = false ↔
      ((∃ p ∈ s.kernel.files, p.1 = fd) ∧ ∀ c ∈ s.poller.ids, s.fd c ≠ some fd) ∧
        setfl = true ∧ granted = true := by
  constructor
  · intro hdead
    rcases s.construct_cases ch fd events setfl granted with heq | ⟨k, hadd, heq⟩
    · rw [heq] at hdead
      cases hdead
    · obtain ⟨file, hfile, hfree, hgranted, -⟩ := h.kernel.ctlAdd_eq.mp hadd
      have hset : setfl = true := by
        by_contra hset
        have hneg : s.kernel.setNonBlock fd setfl < 0 :=
          Kernel.setNonBlock_neg.mpr ⟨by simp [(h.kernel.fileOf_iff fd file).mpr hfile],
            eq_false_of_ne_true hset⟩
        unfold Channels.construct at hdead
        rw [if_pos hneg] at hdead
        cases hdead
      refine ⟨⟨⟨_, hfile, rfl⟩, fun c _ hc => ?_⟩, hset, hgranted⟩
      obtain ⟨file', hfile', hentry⟩ := h.held c fd hc
      exact hfree _ hentry rfl (h.kernel.file_inj hfile' hfile)
  · rintro ⟨⟨⟨p, hp, rfl⟩, hfree⟩, rfl, rfl⟩
    have hnone : ∀ e ∈ s.kernel.epoll, e.fd = p.1 → e.file ≠ p.2 :=
      fun e he hfd _ => hfree e.ch (h.known e he) (hfd ▸ h.clean e he)
    have hadd : s.kernel.ctlAdd p.1 ch events true = some _ :=
      h.kernel.ctlAdd_eq.mpr ⟨p.2, hp, hnone, rfl, rfl⟩
    have hset : ¬ s.kernel.setNonBlock p.1 true < 0 := by simp [Kernel.setNonBlock_neg]
    unfold Channels.construct
    simp only [if_neg hset, hadd]
    exact hlive

theorem Own.update_dead (h : s.Own) (hlive : s.poller.dead = false) (ch : C)
    (events : ChannelEvents) (granted : Bool) :
    (s.update ch events granted).poller.dead = false ↔ s.fd ch ≠ none ∧ granted = true := by
  by_cases hok : s.fd ch ≠ none ∧ granted = true
  · obtain ⟨hopen, rfl⟩ := hok
    rw [h.toInv.update_eq hopen]
    exact ⟨fun _ => ⟨hopen, rfl⟩, fun _ => hlive⟩
  · rw [update_fatal hok]
    exact ⟨fun hdead => absurd hdead (by simp [Channels.fatal]), fun hyes => absurd hyes hok⟩

theorem loop_alive {p : Poller C} {choice : PollChoice C} (hlive : p.dead = false)
    (hgo : choice ≠ .go) : (p.step choice).dead = false := by
  have hno : ¬ p.dead = true := by simp [hlive]
  unfold Poller.step
  rw [if_neg hno]
  cases choice with
  | wait batch =>
      dsimp only
      split
      · exact hlive
      · exact hlive
  | interrupted =>
      dsimp only
      split
      · exact hlive
      · exact hlive
  | task =>
      dsimp only
      split
      · exact hlive
      · exact hlive
  | go => exact absurd rfl hgo
  | close ch =>
      dsimp only
      unfold Poller.closeChannel
      split
      · exact hlive
      · split
        · exact hlive
        · exact hlive
  | register ch =>
      dsimp only
      split
      · exact hlive
      · exact hlive
  | ret => exact hlive
  | exit => exact hlive

theorem go_alive {p : Poller C} (hlive : p.dead = false) :
    (p.step .go).dead = false ↔
      match p.loop with
      | .readPart _ ev => p.calls = 0 → (ev.wantsRead || ev.write) = true
      | _ => True := by
  have hno : ¬ p.dead = true := by simp [hlive]
  unfold Poller.step
  rw [if_neg hno]
  by_cases hcalls : p.calls = 0
  · simp only [hcalls, if_true, forall_true_left]
    cases hloop : p.loop with
    | idle => simp [hlive]
    | head =>
        have hhead : p.head.dead = p.dead := by
          unfold Poller.head
          dsimp only
          split
          · split
            · split <;> rfl
            · rfl
          · rfl
        simp [hhead, hlive]
    | readPart ch ev =>
        simp only [Poller.readPart]
        cases hread : ev.wantsRead
        · cases hwrite : ev.write
          · simp
          · simp [hlive]
        · simp [Poller.dispatch, hlive]
  · simp only [hcalls, if_false]
    cases p.loop with
    | idle => simp [hlive]
    | head => simp [hlive]
    | readPart ch ev => simp [hlive]

theorem Own.alive_iff (h : s.Own) (hlive : s.poller.dead = false) (choice : ChannelChoice C) :
    (s.step choice).poller.dead = false ↔ s.Allowed choice := by
  have hno : ¬ s.poller.dead = true := by simp [hlive]
  unfold Channels.step
  rw [if_neg hno]
  cases choice with
  | opens fd file => exact ⟨fun _ => trivial, fun _ => hlive⟩
  | dup fd fd' => exact ⟨fun _ => trivial, fun _ => hlive⟩
  | closeFd fd => exact ⟨fun _ => trivial, fun _ => hlive⟩
  | construct ch fd events setfl granted =>
      dsimp only [Allowed]
      rw [← or_assoc]
      split
      · next hno => exact ⟨fun _ => Or.inl hno, fun _ => hlive⟩
      · next hok => rw [h.construct_dead hlive, or_iff_right hok]
  | enableRead ch enable granted =>
      dsimp only [Allowed]
      split
      · next hno => exact ⟨fun _ => Or.inl hno, fun _ => hlive⟩
      · next hok => exact (h.update_dead hlive ch _ granted).trans (or_iff_right hok).symm
  | enableWrite ch enable granted =>
      dsimp only [Allowed]
      split
      · next hno => exact ⟨fun _ => Or.inl hno, fun _ => hlive⟩
      · next hok => exact (h.update_dead hlive ch _ granted).trans (or_iff_right hok).symm
  | enableReadWrite ch readable writable granted =>
      dsimp only [Allowed]
      split
      · next hno => exact ⟨fun _ => Or.inl hno, fun _ => hlive⟩
      · next hok => exact (h.update_dead hlive ch _ granted).trans (or_iff_right hok).symm
  | close ch =>
      refine ⟨fun _ => trivial, fun _ => ?_⟩
      dsimp only
      split
      · exact hlive
      · unfold Channels.closeChannel
        split
        · exact hlive
        · dsimp only
          unfold Poller.closeChannel
          split
          · exact hlive
          · exact hlive
  | wait batch =>
      refine ⟨fun _ => trivial, fun _ => ?_⟩
      dsimp only
      split
      · exact hlive
      · exact hlive
  | interrupted => exact ⟨fun _ => trivial, fun _ => loop_alive hlive (by simp)⟩
  | failed =>
      dsimp only [Allowed]
      split
      · next hfails => exact iff_of_false (by simp [Channels.fatal]) fun hno => hno hfails
      · next hno => exact iff_of_true hlive hno
  | task => exact ⟨fun _ => trivial, fun _ => loop_alive hlive (by simp)⟩
  | go => exact go_alive hlive
  | ret => exact ⟨fun _ => trivial, fun _ => loop_alive hlive (by simp)⟩
  | exit => exact ⟨fun _ => trivial, fun _ => loop_alive hlive (by simp)⟩

theorem Inv.update_poller (h : s.Inv) (ch : C) (events : ChannelEvents) (granted : Bool) :
    (s.update ch events granted).poller = s.poller ∨
      (s.update ch events granted).poller = { s.poller with dead := true } := by
  by_cases hok : s.fd ch ≠ none ∧ granted = true
  · obtain ⟨hopen, rfl⟩ := hok
    rw [h.update_eq hopen]
    exact Or.inl rfl
  · rw [update_fatal hok]
    exact Or.inr rfl

/-- A step is for the loop one of its own steps, or the end of the process. -/
theorem Own.step_poller (h : s.Own) (choice : ChannelChoice C) :
    (s.step choice).poller = Driven.run Poller.step s.poller (s.moves choice) ∨
      (s.step choice).poller = { s.poller with dead := true } := by
  by_cases hdead : s.poller.dead = true
  · right
    unfold Channels.step
    rw [if_pos hdead, ← hdead]
  · have hlive : s.poller.dead = false := by simpa using hdead
    unfold Channels.step
    rw [if_neg hdead]
    cases choice with
    | opens fd file => exact Or.inl rfl
    | dup fd fd' => exact Or.inl rfl
    | closeFd fd => exact Or.inl rfl
    | construct ch fd events setfl granted =>
        simp only [moves, Driven.run_cons, Driven.run_nil, Poller.step, if_neg hdead]
        split
        · exact Or.inl rfl
        · rcases s.construct_cases ch fd events setfl granted with heq | ⟨k, -, heq⟩
          · rw [heq]
            exact Or.inr rfl
          · rw [heq]
            exact Or.inl rfl
    | enableRead ch enable granted =>
        dsimp only
        split
        · exact Or.inl rfl
        · exact h.toInv.update_poller ch _ granted
    | enableWrite ch enable granted =>
        dsimp only
        split
        · exact Or.inl rfl
        · exact h.toInv.update_poller ch _ granted
    | enableReadWrite ch readable writable granted =>
        dsimp only
        split
        · exact Or.inl rfl
        · exact h.toInv.update_poller ch _ granted
    | close ch =>
        left
        simp only [moves, Driven.run_cons, Driven.run_nil, Poller.step, if_neg hdead]
        split
        · rfl
        · unfold Channels.closeChannel
          cases hfd : s.fd ch with
          | none =>
              have hclosed : s.poller.fdOpen ch = false := by
                rw [h.opened, hfd]
                rfl
              simp [Poller.closeChannel, hclosed]
          | some fd => rfl
    | wait batch =>
        left
        simp only [moves]
        by_cases hoffers : s.Offers batch
        · have hready := h.ready hoffers
          simp only [hoffers, hready, and_true, if_true, Driven.run_cons, Driven.run_nil,
            Poller.step, if_neg hdead]
          split <;> rfl
        · simp only [hoffers, and_false, if_false, Driven.run_nil]
    | interrupted => exact Or.inl rfl
    | failed =>
        dsimp only
        split
        · exact Or.inr rfl
        · exact Or.inl rfl
    | task => exact Or.inl rfl
    | go => exact Or.inl rfl
    | ret => exact Or.inl rfl
    | exit => exact Or.inl rfl

theorem moves_keep {choice : ChannelChoice C} (hkeep : s.KeepsReader choice) :
    Driven.Along Poller.step Poller.KeepsReader s.poller (s.moves choice) := by
  cases choice with
  | close ch => exact ⟨hkeep, trivial⟩
  | wait batch =>
      simp only [moves]
      split
      · exact ⟨trivial, trivial⟩
      · trivial
  | opens fd file => trivial
  | dup fd fd' => trivial
  | closeFd fd => trivial
  | enableRead ch enable granted => trivial
  | enableWrite ch enable granted => trivial
  | enableReadWrite ch readable writable granted => trivial
  | construct ch fd events setfl granted => exact ⟨trivial, trivial⟩
  | interrupted => exact ⟨trivial, trivial⟩
  | failed => trivial
  | task => exact ⟨trivial, trivial⟩
  | go => exact ⟨trivial, trivial⟩
  | ret => exact ⟨trivial, trivial⟩
  | exit => exact ⟨trivial, trivial⟩

/-- The loop's invariant, whatever the channels and the kernel do. -/
theorem Own.step_loop (h : s.Own) (hloop : s.poller.Inv) {choice : ChannelChoice C}
    (hkeep : s.KeepsReader choice) : (s.step choice).poller.Inv := by
  rcases h.step_poller choice with hstep | hstep
  · rw [hstep]
    exact Driven.run_invariant (fun _ _ hi hk => hi.step hk) hloop (moves_keep hkeep)
  · rw [hstep]
    exact ⟨hloop.live, hloop.known, hloop.shut, hloop.orderly, hloop.pending, hloop.apart,
      hloop.reader⟩

/-! ## Runs -/

def Survives (s : Channels C) (choice : ChannelChoice C) : Prop :=
  (s.step choice).poller.dead = false

theorem Own.survives_iff (h : s.Own) (hlive : s.poller.dead = false) {cs : List (ChannelChoice C)}
    (hproper : Driven.Along Channels.step Proper s cs) (hsole : Driven.Along Channels.step Sole s cs) :
    Driven.Along Channels.step Survives s cs ↔ Driven.Along Channels.step Allowed s cs := by
  induction cs generalizing s with
  | nil => exact Iff.rfl
  | cons c cs ih =>
      have hone := h.alive_iff hlive c
      have hnext := h.step hproper.1 hsole.1
      constructor
      · intro hrun
        exact ⟨hone.mp hrun.1, (ih hnext hrun.1 hproper.2 hsole.2).mp hrun.2⟩
      · intro hrun
        have hsurvives := hone.mpr hrun.1
        exact ⟨hsurvives, (ih hnext hsurvives hproper.2 hsole.2).mpr hrun.2⟩

theorem Own.run_poller (h : s.Own) {cs : List (ChannelChoice C)}
    (hproper : Driven.Along Channels.step Proper s cs) (hsole : Driven.Along Channels.step Sole s cs)
    (hsurvives : Driven.Along Channels.step Survives s cs) :
    (Driven.run Channels.step s cs).poller =
      Driven.run Poller.step s.poller (Driven.collect Channels.step moves s cs) := by
  induction cs generalizing s with
  | nil => rfl
  | cons c cs ih =>
      have hnext := ih (h.step hproper.1 hsole.1) hproper.2 hsole.2 hsurvives.2
      rw [Driven.run_cons, hnext, Driven.collect, Driven.run_append]
      rcases h.step_poller c with hstep | hstep
      · rw [hstep]
      · have halive := hsurvives.1
        unfold Survives at halive
        rw [hstep] at halive
        cases halive

/-- In every run in which nobody duplicates a descriptor the process lives on exactly while
channels are constructed for open descriptors no other channel has, only open channels are
changed, the kernel grants both, no `epoll_wait` fails but for `EINTR` and no entry is a
hang-up alone; as long as it lives the loop makes a run of its own, whose batches are of live
channels; and no handler of a closed channel is called, unless one closes the channel whose
read part comes next. -/
theorem loop_over_kernel (cs : List (ChannelChoice C)) (hproper : Driven.Along step Proper new cs)
    (hsole : Driven.Along step Sole new cs) :
    (Driven.Along step Survives new cs ↔ Driven.Along step Allowed new cs) ∧
      (Driven.Along step Allowed new cs →
        (Driven.run step new cs).poller =
          Driven.run Poller.step Poller.new (Driven.collect step moves new cs)) ∧
      (Driven.Along step KeepsReader new cs → (Driven.run step new cs).poller.Orderly) := by
  have hiff := Own.new.survives_iff rfl hproper hsole
  refine ⟨hiff, fun hallowed => Own.new.run_poller hproper hsole (hiff.mpr hallowed), ?_⟩
  intro hkeep
  have hboth : ∀ (s : Channels C) c, (s.Own ∧ s.poller.Inv) →
      ((s.Proper c ∧ s.Sole c) ∧ s.KeepsReader c) → ((s.step c).Own ∧ (s.step c).poller.Inv) :=
    fun s c hi hp => ⟨hi.1.step hp.1.1 hp.1.2, hi.1.step_loop hi.2 hp.2⟩
  have hrun := Driven.run_invariant hboth ⟨Own.new, Poller.Inv.new⟩
    (Driven.along_and.mpr ⟨Driven.along_and.mpr ⟨hproper, hsole⟩, hkeep⟩)
  exact hrun.2.orderly

/-- Two channels are ready, and the handler of one closes the other. -/
theorem loop_over_kernel_pair :
    let cs : List (ChannelChoice Nat) :=
      [.task, .opens 5 0, .opens 6 1, .construct 0 5 ⟨true, false⟩ true true, .construct 1 6 ⟨true, true⟩ true true, .ret,
        .wait [(⟨5, 0, 0, ⟨true, false⟩⟩, ⟨true, false, false, false⟩),
          (⟨6, 1, 1, ⟨true, true⟩⟩, ⟨false, true, false, true⟩)],
        .go, .close 0, .ret, .ret, .go, .go, .go]
    (Driven.run step new cs).poller.log = [.closed 0, .dispatched 1] ∧
      (Driven.run step new cs).poller.Orderly :=
  ⟨by decide, (loop_over_kernel _ (by decide) (by decide)).2.2 (by decide)⟩

/-- With another descriptor for the file a closed channel stays registered, and its handler is
called. -/
example :
    let cs : List (ChannelChoice Nat) :=
      [.task, .opens 5 0, .dup 5 6, .construct 0 5 ⟨true, false⟩ true true, .close 0, .ret, .ret,
        .wait [(⟨5, 0, 0, ⟨true, false⟩⟩, ⟨true, false, false, false⟩)], .go, .go]
    (Driven.run step new cs).poller.log = [.dispatched 0, .closed 0] := by
  decide

end Channels

end Handy
