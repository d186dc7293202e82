import Handy.Base.IdlePass

/-! # One pass over the idle lists

A list is in the order of the last updates, because `registerIdle` and `updateIdle`
both write at its end and the clock does not go back. So the nodes that are due are
the first ones, and the loop of `callIdles` may stop at one that is not. It moves each
fired node to the end of its copy with the time of the pass in it; with a positive
idle time such a node is not due, and the loop ends.
-/

namespace Handy

namespace IdleLoop

variable {κ γ : Type}

def Positive (_ : IdleLoop κ γ) : Choice κ γ → Prop
  | .registerIdle idle _ _ _ => 0 < idle
  | _ => True

/-- What the loop thread does next when callbacks do nothing. -/
def quiet (s : IdleLoop κ γ) : Choice κ γ :=
  match s.stack with
  | .callback :: _ => .ret
  | _ => .go

/-- Steps of a pass whose callbacks do nothing. -/
def pass [DecidableEq κ] : Nat → IdleLoop κ γ → IdleLoop κ γ
  | 0, s => s
  | n + 1, s => pass n (s.step s.quiet)

/-- A pass above the calls of `base` gets from one state to the other. -/
def Passes [DecidableEq κ] (base : List (IdleFrame κ γ)) (s t : IdleLoop κ γ) : Prop :=
  ∃ n, pass n s = t ∧ ∀ k < n, base.length < (pass k s).stack.length

/-- The registrations fired, newest first. -/
def fired : List (IdleEvent κ) → List κ
  | [] => []
  | .fired handle _ _ :: log => handle :: fired log
  | _ :: log => fired log

/-- The registrations that are due at `now`, list by list. -/
def dueIn (now : Int) (lists : List (Int × List (IdleNode κ γ))) : List κ :=
  lists.flatMap fun l => (l.2.filter fun node => node.updated + l.1 ≤ now).map (·.handle)

/-- The registrations come in the order of their last updates. -/
def InUpdateOrder (store : IdleStore κ γ) (handles : List κ) : Prop :=
  handles.Pairwise fun a b => ∀ i j, ∀ m ∈ store.list i, ∀ n ∈ store.list j,
    m.handle = a → n.handle = b → m.updated ≤ n.updated

/-! ## The lists are ordered -/

structure Ordered (s : IdleLoop κ γ) : Prop where
  sorted : ∀ idle, (s.store.list idle).Pairwise fun a b => a.updated ≤ b.updated
  past : ∀ idle, ∀ node ∈ s.store.list idle, node.updated ≤ s.clock
  positive : ∀ idle, ∀ node ∈ s.store.list idle, 0 < idle

theorem Ordered.new (clock : Int) : (new clock : IdleLoop κ γ).Ordered where
  sorted _ := List.Pairwise.nil
  past _ _ h := by cases h
  positive _ _ h := by cases h

theorem Ordered.later {s s' : IdleLoop κ γ} (h : s.Ordered) (hstore : s'.store = s.store)
    (hclock : s.clock ≤ s'.clock) : s'.Ordered := by
  constructor
  · rw [hstore]
    exact h.sorted
  · intro idle node hnode
    rw [hstore] at hnode
    exact Int.le_trans (h.past idle node hnode) hclock
  · rw [hstore]
    exact h.positive

theorem Ordered.visit {s : IdleLoop κ γ} (h : s.Ordered) (now : Int)
    (rest : List (IdleFrame κ γ)) (entry : Option (Int × List (IdleNode κ γ))) :
    (s.visit now rest entry).Ordered := by
  cases entry with
  | none => exact h.later rfl (Int.le_refl _)
  | some l => exact h.later rfl (Int.le_refl _)

theorem sorted_concat {l : List (IdleNode κ γ)} {node : IdleNode κ γ}
    (h : l.Pairwise fun a b => a.updated ≤ b.updated) (hlast : ∀ m ∈ l, m.updated ≤ node.updated) :
    (l ++ [node]).Pairwise fun a b => a.updated ≤ b.updated := by
  apply List.pairwise_append.mpr
  constructor
  · exact h
  · constructor
    · exact List.pairwise_singleton _ _
    · intro a ha b hb
      rw [List.mem_singleton.mp hb]
      exact hlast a ha

theorem Ordered.registerIdle {s : IdleLoop κ γ} (h : s.Ordered) {idle now : Int} {handle : κ}
    {cb : γ} (hclock : s.clock ≤ now) (hpositive : 0 < idle) (log : List (IdleEvent κ)) :
    Ordered { s with
      store := (s.store.registerIdle idle now handle cb).1
      clock := now
      log := log } := by
  constructor
  · intro j
    dsimp only
    rw [IdleStore.registerIdle, IdleStore.list_insert]
    split
    · exact sorted_concat (h.sorted idle) fun m hm => Int.le_trans (h.past idle m hm) hclock
    · exact h.sorted j
  · intro j m hm
    rcases mem_register hm with hold | ⟨_, rfl⟩
    · exact Int.le_trans (h.past j m hold) hclock
    · exact Int.le_refl now
  · intro j m hm
    rcases mem_register hm with hold | ⟨rfl, _⟩
    · exact h.positive j m hold
    · exact hpositive

theorem Ordered.unregisterIdle [DecidableEq κ] {s : IdleLoop κ γ} (h : s.Ordered) {id : IdleId κ}
    {store : IdleStore κ γ} (hc : s.store.unregisterIdle id = some store)
    (log : List (IdleEvent κ)) : Ordered { s with store := store, log := log } where
  sorted j := (h.sorted j).sublist (sublist_unregister hc j)
  past j m hm := h.past j m ((sublist_unregister hc j).subset hm)
  positive j m hm := h.positive j m ((sublist_unregister hc j).subset hm)

theorem Ordered.updateIdle [DecidableEq κ] {s : IdleLoop κ γ} (h : s.Ordered) {now : Int}
    {id : IdleId κ} {store : IdleStore κ γ} (hclock : s.clock ≤ now)
    (hc : s.store.updateIdle now id = some store) (log : List (IdleEvent κ)) :
    Ordered { s with store := store, clock := now, log := log } := by
  obtain ⟨node, hnode, _, hlists⟩ := list_update hc
  have hmem : ∀ j, ∀ m ∈ store.list j, m ∈ s.store.list j ∨ (j = id.lst ∧ m.updated = now) := by
    intro j m hm
    rw [hlists j] at hm
    split at hm
    · next heq =>
        rcases List.mem_append.mp hm with hold | hnew
        · exact Or.inl (heq ▸ List.mem_of_mem_eraseP hold)
        · rw [List.mem_singleton.mp hnew]
          exact Or.inr ⟨heq, rfl⟩
    · exact Or.inl hm
  constructor
  · intro j
    dsimp only
    rw [hlists j]
    split
    · apply sorted_concat ((h.sorted id.lst).sublist List.eraseP_sublist)
      intro m hm
      exact Int.le_trans (h.past id.lst m (List.mem_of_mem_eraseP hm)) hclock
    · exact h.sorted j
  · intro j m hm
    rcases hmem j m hm with hold | ⟨_, hnow⟩
    · exact Int.le_trans (h.past j m hold) hclock
    · exact Int.le_of_eq hnow
  · intro j m hm
    rcases hmem j m hm with hold | ⟨rfl, _⟩
    · exact h.positive j m hold
    · exact h.positive id.lst node hnode

theorem Ordered.step [DecidableEq κ] {s : IdleLoop κ γ} (h : s.Ordered) {choice : Choice κ γ}
    (hforward : s.Forward choice) (hpositive : s.Positive choice) : (s.step choice).Ordered := by
  have hstep := s.step_changes choice
  generalize s.step choice = s' at hstep ⊢
  rcases hstep with hsame | hchanges
  · rwa [hsame]
  · cases hchanges with
    | registerIdle => exact h.registerIdle hforward hpositive _
    | unregisterIdle _ found => exact h.unregisterIdle found _
    | updateIdle found => exact h.updateIdle hforward found _
    | @callIdles now =>
        have hlater : Ordered { s with clock := now } := h.later rfl hforward
        exact hlater.visit _ _ _
    | fire => exact h.later rfl (Int.le_refl _)
    | next => exact h.visit _ _ _
    | ret => exact h.later rfl (Int.le_refl _)

/-! ## What is due -/

/-- In a list that is ordered the nodes that are due come first. -/
theorem takeWhile_due {l : List (IdleNode κ γ)} {idle now : Int}
    (h : l.Pairwise fun a b => a.updated ≤ b.updated) :
    (l.takeWhile fun node => node.updated + idle ≤ now) =
      l.filter fun node => node.updated + idle ≤ now := by
  induction l with
  | nil => rfl
  | cons a rest ih =>
      obtain ⟨ha, hrest⟩ := List.pairwise_cons.mp h
      by_cases hdue : a.updated + idle ≤ now
      · rw [List.takeWhile_cons_of_pos (by simpa using hdue),
          List.filter_cons_of_pos (by simpa using hdue), ih hrest]
      · rw [List.takeWhile_cons_of_neg (by simpa using hdue),
          List.filter_cons_of_neg (by simpa using hdue)]
        symm
        apply List.filter_eq_nil_iff.mpr
        intro b hb
        have hle := ha b hb
        simp only [decide_eq_true_eq]
        omega

theorem list_of_mem {st : IdleStore κ γ} {idle : Int} {lst : List (IdleNode κ γ)}
    (h : (idle, lst) ∈ st.idleConns.entries) : st.list idle = lst :=
  list_of_get? (OrdMap.get?_of_mem h)

theorem mem_dueIn {st : IdleStore κ γ} {now : Int} {h : κ} :
    h ∈ dueIn now st.idleConns.entries ↔
      ∃ idle, ∃ node ∈ st.list idle, node.handle = h ∧ node.updated + idle ≤ now := by
  constructor
  · intro hmem
    obtain ⟨⟨idle, lst⟩, hl, hin⟩ := List.mem_flatMap.mp hmem
    obtain ⟨node, hnode, hh⟩ := List.mem_map.mp hin
    obtain ⟨hlst, hdue⟩ := List.mem_filter.mp hnode
    rw [← list_of_mem hl] at hlst
    exact ⟨idle, node, hlst, hh, by simpa using hdue⟩
  · intro hex
    obtain ⟨idle, node, hnode, hh, hdue⟩ := hex
    rw [IdleStore.list] at hnode
    cases hget : st.idleConns.get? idle with
    | none =>
        rw [hget] at hnode
        cases hnode
    | some lst =>
        rw [hget] at hnode
        apply List.mem_flatMap.mpr
        refine ⟨(idle, lst), OrdMap.mem_of_get? hget, List.mem_map.mpr ⟨node, ?_, hh⟩⟩
        exact List.mem_filter.mpr ⟨hnode, by simpa using hdue⟩

theorem Rooted.nodup_dueIn {s : IdleLoop κ γ} (h : s.Rooted) (now : Int) :
    (dueIn now s.store.idleConns.entries).Nodup := by
  apply List.nodup_flatMap.mpr
  constructor
  · intro l hl
    have hlist : s.store.list l.1 = l.2 := list_of_mem hl
    rw [← hlist]
    exact (h.distinct l.1).sublist (List.filter_sublist.map _)
  · apply s.store.idleConns.sorted.imp_of_mem
    intro l l' hl hl' hlt a ha ha'
    obtain ⟨m, hm, rfl⟩ := List.mem_map.mp ha
    obtain ⟨n, hn, hhandle⟩ := List.mem_map.mp ha'
    have hmem := (List.mem_filter.mp hm).1
    have hmem' := (List.mem_filter.mp hn).1
    have hlist : s.store.list l.1 = l.2 := list_of_mem hl
    have hlist' : s.store.list l'.1 = l'.2 := list_of_mem hl'
    rw [← hlist] at hmem
    rw [← hlist'] at hmem'
    have hhome := h.nodes l'.1 n hmem'
    rw [hhandle] at hhome
    have heq := h.homes m.handle l.1 l'.1 (h.nodes l.1 m hmem) hhome
    exact absurd heq (ne_of_lt hlt)

/-! ## The pass -/

section Pass

variable [DecidableEq κ] {base : List (IdleFrame κ γ)}

theorem Passes.refl (s : IdleLoop κ γ) : Passes base s s := ⟨0, rfl, nofun⟩

theorem Passes.step {s t : IdleLoop κ γ} (hstack : base.length < s.stack.length)
    (h : Passes base (s.step s.quiet) t) : Passes base s t := by
  obtain ⟨n, hend, hlong⟩ := h
  refine ⟨n + 1, hend, fun k hk => ?_⟩
  cases k with
  | zero => exact hstack
  | succ k => exact hlong k (by omega)

theorem Passes.trans {s t u : IdleLoop κ γ} (h : Passes base s t) (h' : Passes base t u) :
    Passes base s u := by
  obtain ⟨n, hend, hlong⟩ := h
  induction n generalizing s with
  | zero =>
      change s = t at hend
      rw [hend]
      exact h'
  | succ n ih => exact .step (hlong 0 (by omega)) (ih hend fun k hk => hlong (k + 1) (by omega))

omit [DecidableEq κ] in
/-- The loop stops at this copy, whatever it has moved to its end. -/
def Stops (now idle : Int) (lst : List (IdleNode κ γ)) : Prop :=
  ∀ r : List (IdleNode κ γ), (∀ node ∈ r, node.updated = now) → due? now idle (lst ++ r) = none

omit [DecidableEq κ] in
theorem stops_dropWhile {now idle : Int} (hpositive : 0 < idle) (lst : List (IdleNode κ γ)) :
    Stops now idle (lst.dropWhile fun node => node.updated + idle ≤ now) := by
  intro r hr
  cases hdrop : lst.dropWhile fun node => node.updated + idle ≤ now with
  | nil =>
      cases r with
      | nil => rfl
      | cons node r =>
          have hnow := hr node List.mem_cons_self
          rw [List.nil_append, due?, if_pos (by omega)]
  | cons node nodes =>
      have hlate := List.head_dropWhile_not (fun node : IdleNode κ γ => node.updated + idle ≤ now)
        (l := lst) (by rw [hdrop]; exact List.cons_ne_nil _ _)
      simp only [hdrop, List.head_cons, decide_eq_false_iff_not] at hlate
      rw [List.cons_append, due?, if_pos (by omega)]

/-- The nodes that are due are fired one after the other. -/
theorem passes_due {s : IdleLoop κ γ} {now idle : Int} {d kept : List (IdleNode κ γ)}
    (hstack : s.stack = .pass now idle (d ++ kept) :: base)
    (hdue : ∀ node ∈ d, node.updated + idle ≤ now) (hstops : Stops now idle kept) :
    ∃ lst log, Passes base s { s with stack := .pass now idle lst :: base, log := log } ∧
      fired log = (d.map (·.handle)).reverse ++ fired s.log ∧ due? now idle lst = none := by
  induction d generalizing s kept with
  | nil =>
      refine ⟨kept, s.log, ?_, rfl, ?_⟩
      · rw [List.nil_append] at hstack
        rw [← hstack]
        exact .refl s
      · have hnone := hstops [] nofun
        rwa [List.append_nil] at hnone
  | cons node d ih =>
      have hfront : ¬ node.updated + idle > now := by
        have hle := hdue node List.mem_cons_self
        omega
      let moved : IdleNode κ γ := { node with updated := now }
      let called : IdleLoop κ γ := { s with
        stack := .callback :: .pass now idle (d ++ (kept ++ [moved])) :: base
        log := .fired node.handle idle now :: s.log }
      let back : IdleLoop κ γ := { s with
        stack := .pass now idle (d ++ (kept ++ [moved])) :: base
        log := .fired node.handle idle now :: s.log }
      have hquiet : s.quiet = .go := by rw [quiet, hstack]
      have hgo : s.step s.quiet = called := by
        rw [hquiet, IdleLoop.step, hstack]
        simp only [List.cons_append, due?, if_neg hfront, List.append_assoc]
        rfl
      have hret : called.step called.quiet = back := rfl
      have hkept : Stops now idle (kept ++ [moved]) := by
        intro r hr
        rw [List.append_assoc]
        apply hstops
        intro m hm
        rcases List.mem_cons.mp hm with rfl | hm
        · rfl
        · exact hr m hm
      obtain ⟨lst, log, hpasses, hfired, hnone⟩ :=
        ih (s := back) rfl (fun m hm => hdue m (List.mem_cons_of_mem _ hm)) hkept
      refine ⟨lst, log, ?_, ?_, hnone⟩
      · apply Passes.step
        · rw [hstack, List.length_cons]
          omega
        · rw [hgo]
          apply Passes.step
          · show base.length < base.length + 1 + 1
            omega
          · rw [hret]
            exact hpasses
      · rw [hfired]
        simp [back, fired]

theorem passes_list {s : IdleLoop κ γ} {now idle : Int} {lst : List (IdleNode κ γ)}
    (hsorted : lst.Pairwise fun a b => a.updated ≤ b.updated)
    (hpositive : ∀ node ∈ lst, 0 < idle) (hstack : s.stack = .pass now idle lst :: base) :
    ∃ copy log, Passes base s { s with stack := .pass now idle copy :: base, log := log } ∧
      fired log = (dueIn now [(idle, lst)]).reverse ++ fired s.log ∧
      due? now idle copy = none := by
  cases hlst : lst with
  | nil =>
      refine ⟨[], s.log, ?_, rfl, rfl⟩
      rw [hlst] at hstack
      rw [← hstack]
      exact .refl s
  | cons node nodes =>
      have hidle : 0 < idle := hpositive node (by rw [hlst]; exact List.mem_cons_self)
      have hsplit : (lst.takeWhile fun node => node.updated + idle ≤ now) ++
          (lst.dropWhile fun node => node.updated + idle ≤ now) = lst :=
        List.takeWhile_append_dropWhile
      rw [← hsplit] at hstack
      have hdue : ∀ node ∈ lst.takeWhile fun node => node.updated + idle ≤ now,
          node.updated + idle ≤ now := by
        intro m hm
        simpa using List.all_eq_true.mp List.all_takeWhile m hm
      obtain ⟨copy, log, hpasses, hfired, hnone⟩ :=
        passes_due hstack hdue (stops_dropWhile hidle lst)
      refine ⟨copy, log, hpasses, ?_, hnone⟩
      rw [hfired, takeWhile_due hsorted, ← hlst, dueIn, List.flatMap_singleton]

theorem quiet_of_pass {s : IdleLoop κ γ} {now idle : Int} {lst : List (IdleNode κ γ)}
    (hstack : s.stack = .pass now idle lst :: base) (hnone : due? now idle lst = none) :
    s.step s.quiet = s.visit now base (s.store.idleConns.after? idle) := by
  rw [quiet, hstack]
  dsimp only
  rw [IdleLoop.step, hstack]
  dsimp only
  rw [hnone]

/-- The loop goes through the lists that are left. -/
theorem passes_lists {s : IdleLoop κ γ}
    (hsorted : ∀ idle, (s.store.list idle).Pairwise fun a b => a.updated ≤ b.updated)
    (hpositive : ∀ idle, ∀ node ∈ s.store.list idle, 0 < idle) {now idle : Int}
    {lst : List (IdleNode κ γ)} {pre post : List (Int × List (IdleNode κ γ))}
    (hentries : s.store.idleConns.entries = pre ++ (idle, lst) :: post)
    (hstack : s.stack = .pass now idle lst :: base) :
    ∃ log, Passes base s { s with stack := base, log := log } ∧
      fired log = (dueIn now ((idle, lst) :: post)).reverse ++ fired s.log := by
  induction post generalizing s idle lst pre with
  | nil =>
      have hlist : s.store.list idle = lst := list_of_mem (by rw [hentries]; simp)
      obtain ⟨copy, log, hpasses, hfired, hnone⟩ :=
        passes_list (hlist ▸ hsorted idle) (hlist ▸ hpositive idle) hstack
      refine ⟨log, hpasses.trans ?_, hfired⟩
      apply Passes.step
      · exact Nat.lt_succ_self _
      · rw [quiet_of_pass rfl hnone, OrdMap.after?_of_entries hentries]
        exact .refl _
  | cons l post ih =>
      have hlist : s.store.list idle = lst := list_of_mem (by rw [hentries]; simp)
      obtain ⟨copy, log, hpasses, hfired, hnone⟩ :=
        passes_list (hlist ▸ hsorted idle) (hlist ▸ hpositive idle) hstack
      let next : IdleLoop κ γ := { s with
        stack := .pass now l.1 l.2 :: base
        log := .visited l.1 now :: log }
      have hentries' : next.store.idleConns.entries =
          (pre ++ [(idle, lst)]) ++ (l.1, l.2) :: post := by
        rw [List.append_assoc]
        exact hentries
      obtain ⟨log', hrest, hfired'⟩ := ih (s := next) hsorted hpositive hentries' rfl
      refine ⟨log', hpasses.trans ?_, ?_⟩
      · apply Passes.step
        · exact Nat.lt_succ_self _
        · rw [quiet_of_pass rfl hnone, OrdMap.after?_of_entries hentries]
          exact hrest
      · have hsplit : dueIn now ((idle, lst) :: l :: post) =
            dueIn now [(idle, lst)] ++ dueIn now (l :: post) := by
          simp only [dueIn, List.flatMap_cons, List.flatMap_nil, List.append_nil]
        have hlog : fired next.log = fired log := rfl
        rw [hfired', hlog, hfired, hsplit, List.reverse_append, List.append_assoc]

/-- From the call of `callIdles` to its return. -/
theorem passes_callIdles {s : IdleLoop κ γ} (h : s.Ordered) (hruns : s.UserRuns = true)
    (now : Int) :
    ∃ log, Passes s.stack (s.step (.callIdles now)) { s with clock := now, log := log } ∧
      fired log = (dueIn now s.store.idleConns.entries).reverse ++ fired s.log := by
  rw [IdleLoop.step, if_pos hruns, OrdMap.first?]
  cases hentries : s.store.idleConns.entries with
  | nil => exact ⟨s.log, .refl _, rfl⟩
  | cons l post =>
      let first : IdleLoop κ γ := { s with
        stack := .pass now l.1 l.2 :: s.stack
        clock := now
        log := .visited l.1 now :: s.log }
      have hfront : first.store.idleConns.entries = [] ++ (l.1, l.2) :: post := hentries
      exact passes_lists (s := first) h.sorted h.positive hfront rfl

end Pass

instance (s : IdleLoop κ γ) : (choice : Choice κ γ) → Decidable (s.Positive choice)
  | .registerIdle _ _ _ _ => inferInstanceAs (Decidable (_ < _))
  | .unregisterIdle _ => isTrue trivial
  | .updateIdle _ _ => isTrue trivial
  | .callIdles _ => isTrue trivial
  | .go => isTrue trivial
  | .ret => isTrue trivial

end IdleLoop

open IdleLoop in
/-- While the clock does not go back and idle times are positive, each list is in the order
of the last updates. A pass whose callbacks do nothing ends; it fires once each the
registrations that have been idle for their time, list by list, and in each list in its
order. -/
theorem callIdles_fires_due {κ γ : Type} [DecidableEq κ] (clock : Int)
    (choices : List (Choice κ γ)) (hclock : Driven.Along step Forward (new clock) choices)
    (hpositive : Driven.Along step Positive (new clock) choices) (now : Int)
    (hruns : (Driven.run step (new clock) choices).UserRuns = true) :
    let s := Driven.run step (new clock) choices
    (∀ idle, (s.store.list idle).Pairwise fun a b => a.updated ≤ b.updated) ∧
      (dueIn now s.store.idleConns.entries).Nodup ∧
      (∀ h, h ∈ dueIn now s.store.idleConns.entries ↔
        ∃ idle, ∃ node ∈ s.store.list idle, node.handle = h ∧ node.updated + idle ≤ now) ∧
      ∃ log, Passes s.stack (s.step (.callIdles now)) { s with clock := now, log := log } ∧
        fired log = (dueIn now s.store.idleConns.entries).reverse ++ fired s.log := by
  have hordered : (Driven.run step (new clock) choices).Ordered :=
    Driven.run_invariant (I := Ordered) (fun _ _ h hc => h.step hc.1 hc.2) (Ordered.new clock)
      (Driven.along_and.mpr ⟨hclock, hpositive⟩)
  have hrooted : (Driven.run step (new clock) choices).Rooted :=
    Driven.run_keeps (I := Rooted) (fun _ c h => h.step c) (Rooted.new clock) choices
  exact ⟨hordered.sorted, hrooted.nodup_dueIn now, fun h => mem_dueIn,
    passes_callIdles hordered hruns now⟩

open IdleLoop in
/-- Two lists, in one of them a registration that is not due; the oldest was updated. -/
theorem callIdles_fires_due_mixed :
    let s := Driven.run step (new 0)
      ([.registerIdle 10 0 0 (), .registerIdle 10 1 1 (), .registerIdle 5 3 2 (),
        .updateIdle 6 ⟨10, 0⟩] : List (Choice Nat Unit))
    ∃ log, Passes [] (s.step (.callIdles 11)) { s with clock := 11, log := log } ∧
      fired log = [1, 2] := by
  obtain ⟨_, _, _, log, hpasses, hfired⟩ := callIdles_fires_due 0
    ([.registerIdle 10 0 0 (), .registerIdle 10 1 1 (), .registerIdle 5 3 2 (),
      .updateIdle 6 ⟨10, 0⟩] : List (Choice Nat Unit)) (by decide) (by decide) 11 rfl
  exact ⟨log, hpasses, hfired.trans (by decide)⟩

open IdleLoop in
/-- The list of the shorter idle time is taken up first, though its node was updated
last. -/
theorem callIdles_order_across_lists :
    let choices : List (Choice Nat Unit) := [.registerIdle 10 0 0 (), .registerIdle 5 3 1 ()]
    let s := Driven.run step (new 0) choices
    let t := pass 6 (s.step (.callIdles 10))
    Driven.Along step Forward (new 0) choices ∧ Driven.Along step Positive (new 0) choices ∧
      t.stack.isEmpty = true ∧ ¬ InUpdateOrder s.store (fired t.log).reverse := by
  refine ⟨by decide, by decide, by decide, fun h => ?_⟩
  have hle := (List.pairwise_cons.mp h).1 0 (by decide) 5 10 ⟨1, 3, ()⟩ List.mem_cons_self
    ⟨0, 0, ()⟩ List.mem_cons_self rfl rfl
  exact absurd hle (by decide)

end Handy
