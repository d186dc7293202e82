import Handy.Base.IdlePass

/-! # Registrations that are gone

`unregisterIdle` erases the node from the list of the store, but a pass in progress
goes on with its copy, where the node still is. What the copies still have to fire is
what a callback must not unregister.
-/

namespace Handy

namespace IdleLoop

variable {κ γ : Type}

/-- What the loops in progress come to before they stop. -/
def pending : List (IdleFrame κ γ) → List κ
  | [] => []
  | .callback :: rest => pending rest
  | .pass now idle lst :: rest =>
      (lst.takeWhile fun node => node.updated + idle ≤ now).map (·.handle) ++ pending rest

/-- No registration is unregistered that a pass in progress comes to. -/
def Leaves [DecidableEq κ] (s : IdleLoop κ γ) : Choice κ γ → Prop
  | .unregisterIdle id =>
      s.UserRuns = true → s.store.has id = true → id.iter ∉ pending s.stack
  | _ => True

/-- A firing does not come after the unregistration. -/
def SilentAfter (later earlier : IdleEvent κ) : Prop :=
  ∀ handle idle now, later = .fired handle idle now → earlier ≠ .unregistered handle

/-- A registration that is gone is in no list, and no pass comes to it. -/
structure Forgotten (s : IdleLoop κ γ) (handle : κ) : Prop where
  known : handle ∈ known s.log
  lists : ∀ idle, ∀ node ∈ s.store.list idle, node.handle ≠ handle
  copies : handle ∉ pending s.stack

structure Gone (s : IdleLoop κ γ) : Prop where
  rooted : s.Rooted
  forgotten : ∀ handle, .unregistered handle ∈ s.log → s.Forgotten handle
  silent : s.log.Pairwise SilentAfter

theorem Gone.new (clock : Int) : (new clock : IdleLoop κ γ).Gone where
  rooted := Rooted.new clock
  forgotten _ h := by cases h
  silent := List.Pairwise.nil

/-! ## The copies -/

theorem pending_tail (frame : IdleFrame κ γ) (rest : List (IdleFrame κ γ)) {h : κ}
    (hmem : h ∈ pending rest) : h ∈ pending (frame :: rest) := by
  cases frame with
  | callback => exact hmem
  | pass now idle lst => exact List.mem_append_right _ hmem

theorem mem_pending_pass {now idle : Int} {lst : List (IdleNode κ γ)}
    {rest : List (IdleFrame κ γ)} {h : κ} (hmem : h ∈ pending (.pass now idle lst :: rest)) :
    (∃ node ∈ lst, node.handle = h) ∨ h ∈ pending rest := by
  rcases List.mem_append.mp hmem with htop | hrest
  · obtain ⟨node, hnode, hh⟩ := List.mem_map.mp htop
    exact Or.inl ⟨node, (List.takeWhile_sublist _).subset hnode, hh⟩
  · exact Or.inr hrest

/-- What comes to the end may be come to as well. -/
theorem mem_takeWhile_concat {p : IdleNode κ γ → Bool} {l : List (IdleNode κ γ)}
    {a m : IdleNode κ γ} (h : m ∈ (l ++ [a]).takeWhile p) : m ∈ l.takeWhile p ∨ m = a := by
  induction l with
  | nil => exact Or.inr (List.mem_singleton.mp ((List.takeWhile_sublist p).subset h))
  | cons b rest ih =>
      rw [List.cons_append, List.takeWhile_cons] at h
      rw [List.takeWhile_cons]
      split at h
      · next hb =>
          rw [if_pos hb]
          rcases List.mem_cons.mp h with rfl | h
          · exact Or.inl List.mem_cons_self
          · exact (ih h).imp_left (List.mem_cons_of_mem b)
      · cases h

theorem pending_fire {now idle : Int} {node : IdleNode κ γ} {nodes : List (IdleNode κ γ)}
    {rest : List (IdleFrame κ γ)} (hdue : node.updated + idle ≤ now) {h : κ}
    (hmem : h ∈ pending (.pass now idle (nodes ++ [{ node with updated := now }]) :: rest)) :
    h ∈ pending (.pass now idle (node :: nodes) :: rest) := by
  rw [pending, List.takeWhile_cons_of_pos (by simpa using hdue), List.map_cons]
  rcases List.mem_append.mp hmem with htop | hrest
  · obtain ⟨m, hm, rfl⟩ := List.mem_map.mp htop
    rcases mem_takeWhile_concat hm with hold | heq
    · exact List.mem_cons_of_mem _ (List.mem_append_left _ (List.mem_map_of_mem hold))
    · rw [heq]
      exact List.mem_cons_self
  · exact List.mem_cons_of_mem _ (List.mem_append_right _ hrest)

theorem pending_front {now idle : Int} {node : IdleNode κ γ} (nodes : List (IdleNode κ γ))
    (rest : List (IdleFrame κ γ)) (hdue : node.updated + idle ≤ now) :
    node.handle ∈ pending (.pass now idle (node :: nodes) :: rest) := by
  rw [pending, List.takeWhile_cons_of_pos (by simpa using hdue), List.map_cons]
  exact List.mem_cons_self

/-! ## One step -/

theorem Gone.cons {s s' : IdleLoop κ γ} (h : s.Gone) {e : IdleEvent κ} (hrooted : s'.Rooted)
    (hlog : s'.log = e :: s.log) (hunregistered : ∀ handle, e ≠ .unregistered handle)
    (hfired : ∀ handle idle now, e ≠ .fired handle idle now)
    (hforgotten : ∀ handle, s.Forgotten handle → s'.Forgotten handle) : s'.Gone := by
  constructor
  · exact hrooted
  · intro handle hmem
    rw [hlog] at hmem
    rcases List.mem_cons.mp hmem with heq | hmem
    · exact absurd heq.symm (hunregistered handle)
    · exact hforgotten handle (h.forgotten handle hmem)
  · rw [hlog]
    apply List.pairwise_cons.mpr
    constructor
    · intro earlier _ handle idle now heq
      exact absurd heq (hfired handle idle now)
    · exact h.silent

theorem Gone.registerIdle {s : IdleLoop κ γ} (h : s.Gone) {idle now : Int} {handle : κ} (cb : γ)
    (hfresh : handle ∉ IdleLoop.known s.log) :
    Gone { s with
      store := (s.store.registerIdle idle now handle cb).1
      clock := now
      log := .registered handle idle now :: s.log } := by
  apply h.cons (h.rooted.registerIdle cb hfresh) rfl nofun nofun
  intro a ha
  constructor
  · exact known_cons _ ha.known
  · intro j node hnode
    rcases mem_register hnode with hold | ⟨_, rfl⟩
    · exact ha.lists j node hold
    · exact fun heq : handle = a => hfresh (heq ▸ ha.known)
  · exact ha.copies

theorem Gone.updateIdle [DecidableEq κ] {s : IdleLoop κ γ} (h : s.Gone) {now : Int}
    {id : IdleId κ} {store : IdleStore κ γ} (hc : s.store.updateIdle now id = some store) :
    Gone { s with store := store, clock := now, log := .updated id.iter now :: s.log } := by
  apply h.cons (h.rooted.updateIdle hc) rfl nofun nofun
  intro a ha
  constructor
  · exact known_cons _ ha.known
  · intro j node hnode
    rcases h.rooted.mem_update hc hnode with ⟨hold, _⟩ | ⟨_, hiter, _⟩
    · exact ha.lists j node hold
    · obtain ⟨old, hold, hhandle, _⟩ := list_update hc
      rw [hiter, ← hhandle]
      exact ha.lists id.lst old hold
  · exact ha.copies

theorem has_of_unregister [DecidableEq κ] {st st' : IdleStore κ γ} {id : IdleId κ}
    (h : st.unregisterIdle id = some st') : st.has id = true := by
  rw [IdleStore.unregisterIdle] at h
  split at h
  · assumption
  · cases h

theorem Rooted.ne_of_unregister [DecidableEq κ] {s : IdleLoop κ γ} (h : s.Rooted) {id : IdleId κ}
    {store : IdleStore κ γ} (hc : s.store.unregisterIdle id = some store) {j : Int}
    {m : IdleNode κ γ} (hm : m ∈ store.list j) : m.handle ≠ id.iter := by
  rw [IdleStore.unregisterIdle] at hc
  split at hc
  · next hhas =>
      cases hc
      rw [IdleStore.list_insert] at hm
      split at hm
      · exact ne_of_mem_eraseP (h.distinct id.lst) hm
      · next hne =>
          intro heq
          obtain ⟨node, hnode, hhandle⟩ := IdleStore.has_iff.mp hhas
          have hhome := h.nodes j m hm
          rw [heq, ← hhandle] at hhome
          exact hne (h.homes node.handle j id.lst hhome (h.nodes id.lst node hnode))
  · cases hc

theorem Gone.unregisterIdle [DecidableEq κ] {s : IdleLoop κ γ} (h : s.Gone) {id : IdleId κ}
    {store : IdleStore κ γ} (hc : s.store.unregisterIdle id = some store)
    (hleaves : id.iter ∉ pending s.stack) :
    Gone { s with store := store, log := .unregistered id.iter :: s.log } := by
  constructor
  · exact h.rooted.unregisterIdle hc
  · intro a hmem
    rcases List.mem_cons.mp hmem with heq | hmem
    · cases heq
      constructor
      · obtain ⟨node, hnode, hhandle⟩ := IdleStore.has_iff.mp (has_of_unregister hc)
        exact known_cons _ (hhandle ▸ (h.rooted.nodes id.lst node hnode).known)
      · exact fun j m hm => h.rooted.ne_of_unregister hc hm
      · exact hleaves
    · have ha := h.forgotten a hmem
      exact ⟨known_cons _ ha.known,
        fun j m hm => ha.lists j m ((sublist_unregister hc j).subset hm), ha.copies⟩
  · apply List.pairwise_cons.mpr
    constructor
    · intro earlier _ handle idle now heq
      cases heq
    · exact h.silent

theorem Gone.fire {s : IdleLoop κ γ} (h : s.Gone) {now idle : Int} {node : IdleNode κ γ}
    {nodes : List (IdleNode κ γ)} {rest : List (IdleFrame κ γ)}
    (hstack : s.stack = .pass now idle (node :: nodes) :: rest)
    (hdue : node.updated + idle ≤ now) :
    Gone { s with
      stack := .callback :: .pass now idle (nodes ++ [{ node with updated := now }]) :: rest
      log := .fired node.handle idle now :: s.log } := by
  constructor
  · exact h.rooted.cons (e := .fired node.handle idle now) nofun rfl rfl
  · intro a hmem
    rcases List.mem_cons.mp hmem with heq | hmem
    · cases heq
    · have ha := h.forgotten a hmem
      constructor
      · exact known_cons _ ha.known
      · exact ha.lists
      · intro hin
        apply ha.copies
        rw [hstack]
        exact pending_fire hdue hin
  · apply List.pairwise_cons.mpr
    constructor
    · intro earlier hearlier handle i t heq hgone
      cases heq
      rw [hgone] at hearlier
      apply (h.forgotten node.handle hearlier).copies
      rw [hstack]
      exact pending_front nodes rest hdue
    · exact h.silent

theorem Gone.drop {s : IdleLoop κ γ} (h : s.Gone) (now : Int) {rest : List (IdleFrame κ γ)}
    (hsub : ∀ a ∈ pending rest, a ∈ pending s.stack) :
    Gone { s with stack := rest, clock := now } := by
  constructor
  · exact ⟨h.rooted.homes, h.rooted.nodes, h.rooted.distinct⟩
  · intro a hmem
    have ha := h.forgotten a hmem
    exact ⟨ha.known, ha.lists, fun hin => ha.copies (hsub a hin)⟩
  · exact h.silent

theorem Gone.visit {s : IdleLoop κ γ} (h : s.Gone) (now : Int)
    {entry : Option (Int × List (IdleNode κ γ))}
    (hentry : ∀ idle lst, entry = some (idle, lst) → s.store.list idle = lst) :
    (s.visit now s.stack entry).Gone := by
  cases entry with
  | none => exact h
  | some l =>
      have hlist := hentry l.1 l.2 rfl
      apply h.cons (h.rooted.visit now s.stack (some l)) rfl nofun nofun
      intro a ha
      constructor
      · exact known_cons _ ha.known
      · exact ha.lists
      · intro hin
        rcases mem_pending_pass hin with ⟨node, hnode, hh⟩ | hrest
        · exact ha.lists l.1 node (hlist ▸ hnode) hh
        · exact ha.copies hrest

theorem Gone.step [DecidableEq κ] {s : IdleLoop κ γ} (h : s.Gone) {choice : Choice κ γ}
    (hleaves : s.Leaves choice) : (s.step choice).Gone := by
  -- a frame that is taken off has nothing pending
  have hpop : ∀ {frame rest}, s.stack = frame :: rest → Gone { s with stack := rest } := by
    intro frame rest hstack
    apply h.drop s.clock
    rw [hstack]
    exact fun _ ha => pending_tail _ _ ha
  have hstep := s.step_changes choice
  generalize s.step choice = s' at hstep ⊢
  rcases hstep with hsame | hchanges
  · rwa [hsame]
  · cases hchanges with
    | registerIdle cb fresh => exact h.registerIdle cb fresh
    | unregisterIdle runs found =>
        exact h.unregisterIdle found (hleaves runs (has_of_unregister found))
    | updateIdle found => exact h.updateIdle found
    | @callIdles now =>
        apply (h.drop now fun _ ha => ha).visit
        exact fun idle lst heq => list_of_get? (OrdMap.get?_first heq)
    | fire stack late => exact h.fire stack late
    | @next now _ _ _ stack =>
        apply (hpop stack).visit now
        exact fun i l heq => list_of_get? (OrdMap.get?_after heq)
    | ret stack => exact hpop stack

instance [DecidableEq κ] (s : IdleLoop κ γ) : (choice : Choice κ γ) → Decidable (s.Leaves choice)
  | .unregisterIdle _ => inferInstanceAs (Decidable (_ → _ → ¬ _))
  | .registerIdle _ _ _ _ => isTrue trivial
  | .updateIdle _ _ => isTrue trivial
  | .callIdles _ => isTrue trivial
  | .go => isTrue trivial
  | .ret => isTrue trivial

end IdleLoop

open IdleLoop in
/-- No registration is fired after its unregistration, in every run in which none is
unregistered that a pass in progress comes to. -/
theorem unregistered_never_fired {κ γ : Type} [DecidableEq κ] (clock : Int)
    (choices : List (Choice κ γ)) (hleaves : Driven.Along step Leaves (new clock) choices) :
    (Driven.run step (new clock) choices).log.Pairwise SilentAfter := by
  have hgone : (Driven.run step (new clock) choices).Gone :=
    Driven.run_invariant (I := Gone) (fun _ _ h hc => h.step hc) (Gone.new clock) hleaves
  exact hgone.silent

open IdleLoop in
/-- A callback that unregisters itself, one that is not due and one of a later list. -/
theorem unregistered_never_fired_spared :
    let choices : List (Choice Nat Unit) :=
      [.registerIdle 10 0 0 (), .registerIdle 10 5 1 (), .registerIdle 12 5 2 (), .callIdles 12,
        .go, .unregisterIdle ⟨10, 0⟩, .unregisterIdle ⟨10, 1⟩, .unregisterIdle ⟨12, 2⟩, .ret, .go,
        .go]
    (Driven.run step (new 0) choices).log.Pairwise SilentAfter :=
  unregistered_never_fired 0 _ (by decide)

open IdleLoop in
/-- Two registrations are due, and the callback of the first closes the second. -/
theorem unregistered_fires :
    ¬ (Driven.run step (new 0)
      ([.registerIdle 10 0 0 (), .registerIdle 10 0 1 (), .callIdles 10, .go,
        .unregisterIdle ⟨10, 1⟩, .ret, .go] : List (Choice Nat Unit))).log.Pairwise SilentAfter := by
  intro h
  have hsilent := (List.pairwise_cons.mp h).1 (.unregistered 1) (by decide) 1 10 10 rfl
  exact hsilent rfl

end Handy
