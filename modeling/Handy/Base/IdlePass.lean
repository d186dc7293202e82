import Handy.Base.Idle
import Handy.Lib.Run
import Mathlib.Data.List.Nodup

/-! # Passes over the idle lists

`callIdles` takes up the lists of `idleConns_` one after the other, each as a copy:
what it writes into a node and the move to the tail are gone when the copy is. The
callbacks run on the loop thread and may call back into the store, so passes in
progress are kept on a stack. `log` says what was read, written and called, with
the clock in seconds.
-/

namespace Handy

/-- The code of `callIdles` still to run: the loop over the copy `lst` of the list of
`idle`, or a callback above it. -/
inductive IdleFrame (κ γ : Type) where
  | pass (now idle : Int) (lst : List (IdleNode κ γ))
  | callback

/-- What happened to a registration or to a list. -/
inductive IdleEvent (κ : Type) where
  | registered (handle : κ) (idle now : Int)
  | updated (handle : κ) (now : Int)
  | unregistered (handle : κ)
  | visited (idle now : Int)
  | fired (handle : κ) (idle now : Int)
deriving DecidableEq, Repr

/-- The registration an event is about, and when it was written, updated or fired. -/
def IdleEvent.touches {κ : Type} : IdleEvent κ → Option (κ × Int)
  | .registered handle _ now => some (handle, now)
  | .updated handle now => some (handle, now)
  | .fired handle _ now => some (handle, now)
  | .unregistered _ => none
  | .visited _ _ => none

/-- A firing comes an idle time after everything before it. -/
def IdleEvent.Apart {κ : Type} (later earlier : IdleEvent κ) : Prop :=
  ∀ handle idle now, later = .fired handle idle now → 0 < idle →
    ∀ t, earlier.touches = some (handle, t) → t + idle ≤ now

/-- The idle part of `EventsImp`, with the clock as last read; `log`, newest first, is
read by no function of the source. -/
structure IdleLoop (κ γ : Type) where
  store : IdleStore κ γ
  stack : List (IdleFrame κ γ)
  clock : Int
  log : List (IdleEvent κ)

namespace IdleLoop

variable {κ γ : Type}

def new (clock : Int) : IdleLoop κ γ := ⟨.new, [], clock, []⟩

/-- The front of the copy, when it has been idle for long enough. -/
def due? (now idle : Int) : List (IdleNode κ γ) → Option (IdleNode κ γ × List (IdleNode κ γ))
  | [] => none
  | node :: nodes => if node.updated + idle > now then none else some (node, nodes)

/-- `for (auto &l : idleConns_)` with `auto lst = l.second`, or its end. -/
def visit (s : IdleLoop κ γ) (now : Int) (rest : List (IdleFrame κ γ)) :
    Option (Int × List (IdleNode κ γ)) → IdleLoop κ γ
  | none => { s with stack := rest }
  | some (idle, lst) =>
      { s with stack := .pass now idle lst :: rest, log := .visited idle now :: s.log }

/-- What happens next: user code calls one of the store's functions, `callIdles` is
called at time `now`, its loop goes on, or a callback returns. -/
inductive Choice (κ γ : Type) where
  | registerIdle (idle now : Int) (handle : κ) (cb : γ)
  | unregisterIdle (id : IdleId κ)
  | updateIdle (now : Int) (id : IdleId κ)
  | callIdles (now : Int)
  | go
  | ret

/-- User code runs, in a callback or elsewhere on the loop thread. -/
def UserRuns (s : IdleLoop κ γ) : Bool :=
  match s.stack with
  | .pass _ _ _ :: _ => false
  | _ => true

def known : List (IdleEvent κ) → List κ
  | [] => []
  | .registered handle _ _ :: log => handle :: known log
  | _ :: log => known log

/-- One step; a choice that is not possible changes nothing. Nodes are new, and an id is
used while its node is there. -/
def step [DecidableEq κ] (s : IdleLoop κ γ) : Choice κ γ → IdleLoop κ γ
  | .registerIdle idle now handle cb =>
      if s.UserRuns ∧ handle ∉ known s.log then
        { s with
          store := (s.store.registerIdle idle now handle cb).1
          clock := now
          log := .registered handle idle now :: s.log }
      else s
  | .unregisterIdle id =>
      if s.UserRuns then
        match s.store.unregisterIdle id with
        | some store => { s with store := store, log := .unregistered id.iter :: s.log }
        | none => s
      else s
  | .updateIdle now id =>
      if s.UserRuns then
        match s.store.updateIdle now id with
        | some store => { s with store := store, clock := now, log := .updated id.iter now :: s.log }
        | none => s
      else s
  | .callIdles now =>
      if s.UserRuns then visit { s with clock := now } now s.stack s.store.idleConns.first? else s
  | .go =>
      match s.stack with
      | .pass now idle lst :: rest =>
          match due? now idle lst with
          | some (node, nodes) =>
              { s with
                stack := .callback :: .pass now idle (nodes ++ [{ node with updated := now }]) ::
                  rest
                log := .fired node.handle idle now :: s.log }
          | none => s.visit now rest (s.store.idleConns.after? idle)
      | _ => s
  | .ret =>
      match s.stack with
      | .callback :: rest => { s with stack := rest }
      | _ => s

/-! ## What is asked of a run -/

/-- Each firing of a registration with an idle time comes that time after the
registration, after each update and after each firing before. -/
def RateLimited (log : List (IdleEvent κ)) : Prop := log.Pairwise IdleEvent.Apart

/-- When passes took up the list of `idle`. -/
def visits (idle : Int) : List (IdleEvent κ) → List Int
  | [] => []
  | .visited i now :: log => if i = idle then now :: visits idle log else visits idle log
  | _ :: log => visits idle log

/-- What the passes in progress still have to fire. -/
def owed : List (IdleFrame κ γ) → List κ
  | [] => []
  | .callback :: rest => owed rest
  | .pass now idle lst :: rest =>
      (if 0 < idle then (lst.filter fun node => node.updated + idle ≤ now).map (·.handle)
        else []) ++ owed rest

/-- No registration that is overdue in the list taken up at `now` was so at an earlier pass
less than its idle time before, and none is still to be fired by a pass in progress. -/
def Spaced (log : List (IdleEvent κ)) (rest : List (IdleFrame κ γ)) (now : Int) :
    Option (Int × List (IdleNode κ γ)) → Prop
  | none => True
  | some (idle, lst) => 0 < idle → ∀ node ∈ lst, node.updated + idle ≤ now →
      (∀ t ∈ visits idle log, node.updated + idle ≤ t → t + idle ≤ now) ∧ node.handle ∉ owed rest

/-- The lists that the step takes up are spaced, and it updates no registration that is
still to be fired. -/
def Spares (s : IdleLoop κ γ) : Choice κ γ → Prop
  | .updateIdle _ id => id.iter ∉ owed s.stack
  | .callIdles now => Spaced s.log s.stack now s.store.idleConns.first?
  | .go =>
      match s.stack with
      | .pass now idle lst :: rest =>
          (due? now idle lst).isNone = true →
            Spaced s.log rest now (s.store.idleConns.after? idle)
      | _ => True
  | _ => True

def Forward (s : IdleLoop κ γ) : Choice κ γ → Prop
  | .registerIdle _ now _ _ => s.clock ≤ now
  | .updateIdle now _ => s.clock ≤ now
  | .callIdles now => s.clock ≤ now
  | _ => True

/-! ## The invariant -/

/-- The registration was made with idle time `idle`. -/
def Home (log : List (IdleEvent κ)) (handle : κ) (idle : Int) : Prop :=
  ∃ now, .registered handle idle now ∈ log

/-- Every node is where it was registered, and once. -/
structure Rooted (s : IdleLoop κ γ) : Prop where
  homes : ∀ h i j, Home s.log h i → Home s.log h j → i = j
  nodes : ∀ idle, ∀ node ∈ s.store.list idle, Home s.log node.handle idle
  distinct : ∀ idle, ((s.store.list idle).map (·.handle)).Nodup

/-- A node of the copy that a pass at `now` has made of the list of `idle`: before it is
fired, nothing has happened to the registration since. -/
structure Copied (s : IdleLoop κ γ) (now idle : Int) (node : IdleNode κ γ) : Prop where
  home : Home s.log node.handle idle
  before : 0 < idle → node.updated + idle ≤ now →
    ∀ e ∈ s.log, ∀ t, e.touches = some (node.handle, t) → t + idle ≤ now
  same : 0 < idle → node.updated + idle ≤ now →
    ∀ m ∈ s.store.list idle, m.handle = node.handle → m.updated = node.updated

structure Inv (s : IdleLoop κ γ) : Prop where
  past : ∀ e ∈ s.log, ∀ h t, e.touches = some (h, t) → t ≤ s.clock ∧ h ∈ known s.log
  homes : ∀ h i j, Home s.log h i → Home s.log h j → i = j
  nodes : ∀ idle, ∀ node ∈ s.store.list idle, Home s.log node.handle idle
  distinct : ∀ idle, ((s.store.list idle).map (·.handle)).Nodup
  recorded : ∀ idle, 0 < idle → ∀ node ∈ s.store.list idle, ∀ e ∈ s.log, ∀ t,
    e.touches = some (node.handle, t) →
      t ≤ node.updated ∨ (t ∈ visits idle s.log ∧ node.updated + idle ≤ t)
  passes : ∀ now idle lst, .pass now idle lst ∈ s.stack →
    now ≤ s.clock ∧ now ∈ visits idle s.log ∧ ∀ node ∈ lst, s.Copied now idle node
  owedOnce : (owed s.stack).Nodup
  limited : RateLimited s.log

theorem Inv.new (clock : Int) : (new clock : IdleLoop κ γ).Inv where
  past _ h := by cases h
  homes _ _ _ h := by
    obtain ⟨_, hmem⟩ := h
    cases hmem
  nodes _ _ h := by cases h
  distinct _ := List.nodup_nil
  recorded _ _ _ h := by cases h
  passes _ _ _ h := by cases h
  owedOnce := List.nodup_nil
  limited := List.Pairwise.nil

/-! ## What the store's functions do to a list -/

theorem mem_register {st : IdleStore κ γ} {idle now : Int} {handle : κ} {cb : γ} {j : Int}
    {m : IdleNode κ γ} (h : m ∈ (st.registerIdle idle now handle cb).1.list j) :
    m ∈ st.list j ∨ (j = idle ∧ m = ⟨handle, now, cb⟩) := by
  rw [IdleStore.registerIdle, IdleStore.list_insert] at h
  split at h
  · next heq =>
      subst heq
      rcases List.mem_append.mp h with h | h
      · exact Or.inl h
      · exact Or.inr ⟨rfl, List.mem_singleton.mp h⟩
  · exact Or.inl h

theorem sublist_unregister [DecidableEq κ] {st st' : IdleStore κ γ} {id : IdleId κ}
    (h : st.unregisterIdle id = some st') (j : Int) : (st'.list j).Sublist (st.list j) := by
  rw [IdleStore.unregisterIdle] at h
  split at h
  · cases h
    rw [IdleStore.list_insert]
    split
    · next heq =>
        rw [heq]
        exact List.eraseP_sublist
    · exact List.Sublist.refl _
  · cases h

/-- `updateIdle` writes the node of the id and moves it; the others are as they were. -/
theorem list_update [DecidableEq κ] {st st' : IdleStore κ γ} {now : Int} {id : IdleId κ}
    (h : st.updateIdle now id = some st') :
    ∃ node ∈ st.list id.lst, node.handle = id.iter ∧
      ∀ j, st'.list j = if j = id.lst then
        ((st.list id.lst).eraseP fun node => node.handle == id.iter) ++
          [{ node with updated := now }] else st.list j := by
  rw [IdleStore.updateIdle] at h
  split at h
  · cases h
  · next node hfind =>
      cases h
      refine ⟨node, List.mem_of_find?_eq_some hfind, by simpa using List.find?_some hfind, ?_⟩
      exact fun j => IdleStore.list_insert _ _ _ _ _

/-! ## One step -/

theorem known_cons {log : List (IdleEvent κ)} {h : κ} (e : IdleEvent κ) (hk : h ∈ known log) :
    h ∈ known (e :: log) := by
  cases e with
  | registered => exact List.mem_cons_of_mem _ hk
  | updated => exact hk
  | unregistered => exact hk
  | visited => exact hk
  | fired => exact hk

theorem visits_cons {log : List (IdleEvent κ)} {idle t : Int} (e : IdleEvent κ)
    (hv : t ∈ visits idle log) : t ∈ visits idle (e :: log) := by
  cases e with
  | visited i now =>
      rw [visits]
      split
      · exact List.mem_cons_of_mem _ hv
      · exact hv
  | registered => exact hv
  | updated => exact hv
  | unregistered => exact hv
  | fired => exact hv

theorem mem_owed {stack : List (IdleFrame κ γ)} {h : κ} :
    h ∈ owed stack ↔ ∃ now idle lst, .pass now idle lst ∈ stack ∧ 0 < idle ∧
      ∃ node ∈ lst, node.updated + idle ≤ now ∧ node.handle = h := by
  induction stack with
  | nil => simp [owed]
  | cons frame rest ih =>
      cases frame with
      | callback => simp [owed, ih]
      | pass now idle lst =>
          rw [owed, List.mem_append, ih]
          constructor
          · rintro (hin | ⟨now', idle', lst', hmem, hrest⟩)
            · split at hin
              · next hpos =>
                  obtain ⟨node, hnode, rfl⟩ := List.mem_map.mp hin
                  obtain ⟨hmem, hdue⟩ := List.mem_filter.mp hnode
                  exact ⟨now, idle, lst, List.mem_cons_self, hpos, node, hmem, by simpa using hdue,
                    rfl⟩
              · cases hin
            · exact ⟨now', idle', lst', List.mem_cons_of_mem _ hmem, hrest⟩
          · rintro ⟨now', idle', lst', hmem, hpos, node, hnode, hdue, rfl⟩
            rcases List.mem_cons.mp hmem with heq | hmem
            · cases heq
              apply Or.inl
              rw [if_pos hpos]
              exact List.mem_map_of_mem (List.mem_filter.mpr ⟨hnode, by simpa using hdue⟩)
            · exact Or.inr ⟨now', idle', lst', hmem, hpos, node, hnode, hdue, rfl⟩

theorem Home.cons {log : List (IdleEvent κ)} {h : κ} {idle : Int} (hh : Home log h idle)
    (e : IdleEvent κ) : Home (e :: log) h idle := by
  obtain ⟨now, hmem⟩ := hh
  exact ⟨now, List.mem_cons_of_mem _ hmem⟩

theorem Home.known {log : List (IdleEvent κ)} {h : κ} {idle : Int} (hh : Home log h idle) :
    h ∈ known log := by
  obtain ⟨now, hmem⟩ := hh
  induction log with
  | nil => cases hmem
  | cons e rest ih =>
      rcases List.mem_cons.mp hmem with rfl | hmem
      · exact List.mem_cons_self
      · exact known_cons e (ih hmem)

theorem Home.of_cons {log : List (IdleEvent κ)} {h : κ} {idle : Int} {e : IdleEvent κ}
    (he : ∀ now, e ≠ .registered h idle now) (hh : Home (e :: log) h idle) : Home log h idle := by
  obtain ⟨now, hmem⟩ := hh
  rcases List.mem_cons.mp hmem with heq | hmem
  · exact absurd heq.symm (he now)
  · exact ⟨now, hmem⟩

theorem Rooted.new (clock : Int) : (new clock : IdleLoop κ γ).Rooted where
  homes _ _ _ h := by
    obtain ⟨_, hmem⟩ := h
    cases hmem
  nodes _ _ h := by cases h
  distinct _ := List.nodup_nil

theorem Rooted.cons {s s' : IdleLoop κ γ} (h : s.Rooted) {e : IdleEvent κ}
    (he : ∀ handle idle now, e ≠ .registered handle idle now) (hlog : s'.log = e :: s.log)
    (hstore : s'.store = s.store) : s'.Rooted := by
  constructor
  · intro a i j hi hj
    rw [hlog] at hi hj
    exact h.homes a i j (hi.of_cons (he a i)) (hj.of_cons (he a j))
  · intro idle node hnode
    rw [hstore] at hnode
    rw [hlog]
    exact (h.nodes idle node hnode).cons e
  · rw [hstore]
    exact h.distinct

theorem Rooted.registerIdle {s : IdleLoop κ γ} (h : s.Rooted) {idle now : Int} {handle : κ}
    (cb : γ) (hfresh : handle ∉ known s.log) :
    Rooted { s with
      store := (s.store.registerIdle idle now handle cb).1
      clock := now
      log := .registered handle idle now :: s.log } := by
  constructor
  · intro a i j hi hj
    by_cases ha : a = handle
    · obtain ⟨t, hi⟩ := hi
      obtain ⟨t', hj⟩ := hj
      subst ha
      have hnone : ∀ k u, .registered a k u ∉ s.log := fun k u hmem => hfresh (Home.known ⟨u, hmem⟩)
      have hone := (List.mem_cons.mp hi).resolve_right (hnone i t)
      have htwo := (List.mem_cons.mp hj).resolve_right (hnone j t')
      cases hone
      cases htwo
      rfl
    · have hne : ∀ k u, IdleEvent.registered handle idle now ≠ .registered a k u := by
        rintro k u heq
        cases heq
        exact ha rfl
      exact h.homes a i j (hi.of_cons (hne i)) (hj.of_cons (hne j))
  · intro j m hm
    rcases mem_register hm with hold | ⟨rfl, rfl⟩
    · exact (h.nodes j m hold).cons _
    · exact ⟨now, List.mem_cons_self⟩
  · intro j
    dsimp only
    rw [IdleStore.registerIdle, IdleStore.list_insert]
    split
    · rw [List.map_append]
      apply List.nodup_append.mpr ⟨h.distinct idle, List.pairwise_singleton _ _, ?_⟩
      intro a ha b hb heq
      obtain ⟨m, hm, rfl⟩ := List.mem_map.mp ha
      have hhandle : m.handle = handle := by
        rw [heq, List.mem_singleton.mp hb]
      exact hfresh (hhandle ▸ (h.nodes idle m hm).known)
    · exact h.distinct j

theorem Rooted.unregisterIdle [DecidableEq κ] {s : IdleLoop κ γ} (h : s.Rooted) {id : IdleId κ}
    {store : IdleStore κ γ} (hc : s.store.unregisterIdle id = some store) :
    Rooted { s with store := store, log := .unregistered id.iter :: s.log } := by
  constructor
  · exact fun a i j hi hj => h.homes a i j (hi.of_cons (by simp)) (hj.of_cons (by simp))
  · exact fun j m hm => (h.nodes j m ((sublist_unregister hc j).subset hm)).cons _
  · exact fun j => (h.distinct j).sublist ((sublist_unregister hc j).map _)

theorem ne_of_mem_eraseP [DecidableEq κ] {l : List (IdleNode κ γ)} {iter : κ}
    (hl : (l.map (·.handle)).Nodup) {m : IdleNode κ γ}
    (hm : m ∈ l.eraseP fun node => node.handle == iter) : m.handle ≠ iter := by
  induction l with
  | nil => cases hm
  | cons a rest ih =>
      obtain ⟨ha, hrest⟩ := List.nodup_cons.mp hl
      by_cases heq : a.handle = iter
      · rw [List.eraseP_cons_of_pos (by simpa using heq)] at hm
        intro hh
        exact ha (List.mem_map.mpr ⟨m, hm, hh.trans heq.symm⟩)
      · rw [List.eraseP_cons_of_neg (by simpa using heq)] at hm
        rcases List.mem_cons.mp hm with rfl | hm
        · exact heq
        · exact ih hrest hm

/-- What `updateIdle` leaves in a list: nodes of other ids, and the node of the id. -/
theorem Rooted.mem_update [DecidableEq κ] {s : IdleLoop κ γ} (h : s.Rooted) {now : Int}
    {id : IdleId κ} {store : IdleStore κ γ} (hc : s.store.updateIdle now id = some store) {j : Int}
    {m : IdleNode κ γ} (hm : m ∈ store.list j) :
    (m ∈ s.store.list j ∧ m.handle ≠ id.iter) ∨
      (Home s.log m.handle j ∧ m.handle = id.iter ∧ m.updated = now) := by
  obtain ⟨node, hnode, hhandle, hlists⟩ := list_update hc
  rw [hlists j] at hm
  split at hm
  · next heq =>
      subst heq
      rcases List.mem_append.mp hm with hm | hm
      · exact Or.inl ⟨List.mem_of_mem_eraseP hm, ne_of_mem_eraseP (h.distinct id.lst) hm⟩
      · rw [List.mem_singleton.mp hm]
        exact Or.inr ⟨h.nodes id.lst node hnode, hhandle, rfl⟩
  · next hne =>
      refine Or.inl ⟨hm, fun hh => hne ?_⟩
      have hhome := h.nodes j m hm
      rw [hh, ← hhandle] at hhome
      exact h.homes node.handle j id.lst hhome (h.nodes id.lst node hnode)

theorem Rooted.updateIdle [DecidableEq κ] {s : IdleLoop κ γ} (h : s.Rooted) {now : Int}
    {id : IdleId κ} {store : IdleStore κ γ} (hc : s.store.updateIdle now id = some store) :
    Rooted { s with store := store, clock := now, log := .updated id.iter now :: s.log } := by
  constructor
  · exact fun a i j hi hj => h.homes a i j (hi.of_cons (by simp)) (hj.of_cons (by simp))
  · intro j m hm
    rcases h.mem_update hc hm with ⟨hold, _⟩ | ⟨hhome, _⟩
    · exact (h.nodes j m hold).cons _
    · exact hhome.cons _
  · intro j
    obtain ⟨node, hnode, hhandle, hlists⟩ := list_update hc
    dsimp only
    rw [hlists j]
    split
    · rw [List.map_append]
      have herase : (((s.store.list id.lst).eraseP fun node => node.handle == id.iter).map
          (·.handle)).Nodup := (h.distinct id.lst).sublist (List.eraseP_sublist.map _)
      apply List.nodup_append.mpr ⟨herase, List.pairwise_singleton _ _, ?_⟩
      intro a ha b hb heq
      obtain ⟨m, hm, rfl⟩ := List.mem_map.mp ha
      have hne := ne_of_mem_eraseP (h.distinct id.lst) hm
      exact hne (heq.trans ((List.mem_singleton.mp hb).trans hhandle))
    · exact h.distinct j

theorem due?_some {now idle : Int} {lst nodes : List (IdleNode κ γ)} {node : IdleNode κ γ}
    (h : due? now idle lst = some (node, nodes)) :
    lst = node :: nodes ∧ node.updated + idle ≤ now := by
  cases lst with
  | nil => cases h
  | cons a rest =>
      rw [due?] at h
      split at h
      · cases h
      · next hdue =>
          cases h
          exact ⟨rfl, by omega⟩

/-- What a step can change: one case for each choice that is possible. -/
inductive Changes [DecidableEq κ] (s : IdleLoop κ γ) : Choice κ γ → IdleLoop κ γ → Prop
  | registerIdle {idle now : Int} {handle : κ} (cb : γ) (fresh : handle ∉ known s.log) :
      Changes s (.registerIdle idle now handle cb)
        { s with
          store := (s.store.registerIdle idle now handle cb).1
          clock := now
          log := .registered handle idle now :: s.log }
  | unregisterIdle {id : IdleId κ} {store : IdleStore κ γ} (runs : s.UserRuns = true)
      (found : s.store.unregisterIdle id = some store) :
      Changes s (.unregisterIdle id)
        { s with store := store, log := .unregistered id.iter :: s.log }
  | updateIdle {now : Int} {id : IdleId κ} {store : IdleStore κ γ}
      (found : s.store.updateIdle now id = some store) :
      Changes s (.updateIdle now id)
        { s with store := store, clock := now, log := .updated id.iter now :: s.log }
  | callIdles {now : Int} :
      Changes s (.callIdles now) (visit { s with clock := now } now s.stack s.store.idleConns.first?)
  | fire {now idle : Int} {node : IdleNode κ γ} {nodes : List (IdleNode κ γ)}
      {rest : List (IdleFrame κ γ)} (stack : s.stack = .pass now idle (node :: nodes) :: rest)
      (late : node.updated + idle ≤ now) :
      Changes s .go
        { s with
          stack := .callback :: .pass now idle (nodes ++ [{ node with updated := now }]) :: rest
          log := .fired node.handle idle now :: s.log }
  | next {now idle : Int} {lst : List (IdleNode κ γ)} {rest : List (IdleFrame κ γ)}
      (stack : s.stack = .pass now idle lst :: rest) (undue : due? now idle lst = none) :
      Changes s .go (s.visit now rest (s.store.idleConns.after? idle))
  | ret {rest : List (IdleFrame κ γ)} (stack : s.stack = .callback :: rest) :
      Changes s .ret { s with stack := rest }

theorem step_changes [DecidableEq κ] (s : IdleLoop κ γ) (choice : Choice κ γ) :
    s.step choice = s ∨ Changes s choice (s.step choice) := by
  cases choice with
  | registerIdle idle now handle cb =>
      rw [step]
      split
      · next hc => exact Or.inr (.registerIdle cb hc.2)
      · exact Or.inl rfl
  | unregisterIdle id =>
      rw [step]
      split
      · next hruns =>
          split
          · next store hc => exact Or.inr (.unregisterIdle hruns hc)
          · exact Or.inl rfl
      · exact Or.inl rfl
  | updateIdle now id =>
      rw [step]
      split
      · split
        · next store hc => exact Or.inr (.updateIdle hc)
        · exact Or.inl rfl
      · exact Or.inl rfl
  | callIdles now =>
      rw [step]
      split
      · exact Or.inr .callIdles
      · exact Or.inl rfl
  | go =>
      rw [step]
      split
      · next now idle lst rest hstack =>
          split
          · next node nodes hdue =>
              obtain ⟨rfl, hlate⟩ := due?_some hdue
              exact Or.inr (.fire hstack hlate)
          · next hundue => exact Or.inr (.next hstack hundue)
      · exact Or.inl rfl
  | ret =>
      rw [step]
      split
      · next rest hstack => exact Or.inr (.ret hstack)
      · exact Or.inl rfl

theorem Rooted.visit {s : IdleLoop κ γ} (h : s.Rooted) (now : Int) (rest : List (IdleFrame κ γ))
    (entry : Option (Int × List (IdleNode κ γ))) : (s.visit now rest entry).Rooted := by
  cases entry with
  | none => exact ⟨h.homes, h.nodes, h.distinct⟩
  | some l => exact h.cons (e := .visited l.1 now) nofun rfl rfl

theorem Rooted.step [DecidableEq κ] {s : IdleLoop κ γ} (h : s.Rooted) (choice : Choice κ γ) :
    (s.step choice).Rooted := by
  have hstep := s.step_changes choice
  generalize s.step choice = s' at hstep ⊢
  rcases hstep with hsame | hchanges
  · rwa [hsame]
  · cases hchanges with
    | registerIdle cb fresh => exact h.registerIdle cb fresh
    | unregisterIdle _ found => exact h.unregisterIdle found
    | updateIdle found => exact h.updateIdle found
    | @callIdles now =>
        exact Rooted.visit (s := { s with clock := now }) ⟨h.homes, h.nodes, h.distinct⟩ _ _ _
    | @fire now idle node => exact h.cons (e := .fired node.handle idle now) nofun rfl rfl
    | next => exact h.visit _ _ _
    | ret => exact ⟨h.homes, h.nodes, h.distinct⟩

theorem Inv.rooted {s : IdleLoop κ γ} (h : s.Inv) : s.Rooted := ⟨h.homes, h.nodes, h.distinct⟩

/-- A copy stays good while its node is left alone and nothing happens to it before it
is fired. -/
theorem Copied.mono {s s' : IdleLoop κ γ} {now idle : Int} {node : IdleNode κ γ}
    (h : s.Copied now idle node) {e : IdleEvent κ} (hlog : s'.log = e :: s.log)
    (hlists : ∀ m ∈ s'.store.list idle, m.handle = node.handle →
      0 < idle → node.updated + idle ≤ now → m ∈ s.store.list idle)
    (hevent : 0 < idle → node.updated + idle ≤ now →
      ∀ t, e.touches = some (node.handle, t) → t + idle ≤ now) :
    s'.Copied now idle node where
  home := by
    rw [hlog]
    exact h.home.cons e
  before hpos hdue a ha t ht := by
    rw [hlog] at ha
    rcases List.mem_cons.mp ha with rfl | ha
    · exact hevent hpos hdue t ht
    · exact h.before hpos hdue a ha t ht
  same hpos hdue m hm hh := h.same hpos hdue m (hlists m hm hh hpos hdue) hh

theorem RateLimited.cons {log : List (IdleEvent κ)} (h : RateLimited log) {e : IdleEvent κ}
    (he : ∀ handle idle now, e ≠ .fired handle idle now) : RateLimited (e :: log) := by
  apply List.pairwise_cons.mpr ⟨fun _ _ handle idle now heq => absurd heq (he handle idle now), h⟩

theorem Inv.registerIdle {s : IdleLoop κ γ} (h : s.Inv) {idle now : Int} {handle : κ} (cb : γ)
    (hclock : s.clock ≤ now) (hfresh : handle ∉ known s.log) :
    Inv { s with
      store := (s.store.registerIdle idle now handle cb).1
      clock := now
      log := .registered handle idle now :: s.log } := by
  have hrooted : Rooted { s with
      store := (s.store.registerIdle idle now handle cb).1
      clock := now
      log := .registered handle idle now :: s.log } := h.rooted.registerIdle cb hfresh
  have hother : ∀ j, ∀ m ∈ s.store.list j, m.handle ≠ handle := by
    rintro j m hm rfl
    exact hfresh (h.nodes j m hm).known
  constructor
  · intro e he a t ht
    rcases List.mem_cons.mp he with rfl | he
    · cases ht
      exact ⟨Int.le_refl _, List.mem_cons_self⟩
    · obtain ⟨hle, hk⟩ := h.past e he a t ht
      exact ⟨Int.le_trans hle hclock, known_cons _ hk⟩
  · exact hrooted.homes
  · exact hrooted.nodes
  · exact hrooted.distinct
  · intro j hpos m hm e he t ht
    rcases mem_register hm with hold | ⟨rfl, rfl⟩
    · rcases List.mem_cons.mp he with rfl | he
      · cases ht
        exact absurd rfl (hother j m hold)
      · exact (h.recorded j hpos m hold e he t ht).imp_right
          fun hv => ⟨visits_cons _ hv.1, hv.2⟩
    · rcases List.mem_cons.mp he with rfl | he
      · cases ht
        exact Or.inl (Int.le_refl _)
      · exact absurd (h.past e he handle t ht).2 hfresh
  · intro now' idle' lst hpass
    obtain ⟨hle, hvisit, hcopied⟩ := h.passes now' idle' lst hpass
    refine ⟨Int.le_trans hle hclock, visits_cons _ hvisit, fun node hnode => ?_⟩
    have hc := hcopied node hnode
    have hne : node.handle ≠ handle := fun heq => hfresh (heq ▸ hc.home.known)
    apply hc.mono rfl
    · intro m hm hh _ _
      rcases mem_register hm with hold | ⟨_, rfl⟩
      · exact hold
      · exact absurd hh.symm hne
    · intro _ _ t ht
      cases ht
      exact absurd rfl hne
  · exact h.owedOnce
  · exact h.limited.cons fun _ _ _ heq => by cases heq

theorem Inv.unregisterIdle [DecidableEq κ] {s : IdleLoop κ γ} (h : s.Inv) {id : IdleId κ}
    {store : IdleStore κ γ} (hc : s.store.unregisterIdle id = some store) :
    Inv { s with store := store, log := .unregistered id.iter :: s.log } := by
  have hsub : ∀ j, ∀ m ∈ store.list j, m ∈ s.store.list j :=
    fun j m hm => (sublist_unregister hc j).subset hm
  constructor
  · intro e he a t ht
    rcases List.mem_cons.mp he with rfl | he
    · cases ht
    · exact h.past e he a t ht
  · exact (h.rooted.unregisterIdle hc).homes
  · exact (h.rooted.unregisterIdle hc).nodes
  · exact (h.rooted.unregisterIdle hc).distinct
  · intro j hpos m hm e he t ht
    rcases List.mem_cons.mp he with rfl | he
    · cases ht
    · exact h.recorded j hpos m (hsub j m hm) e he t ht
  · intro now idle lst hpass
    obtain ⟨hle, hvisit, hcopied⟩ := h.passes now idle lst hpass
    refine ⟨hle, hvisit, fun node hnode => (hcopied node hnode).mono rfl ?_ ?_⟩
    · exact fun m hm _ _ _ => hsub idle m hm
    · intro _ _ t ht
      cases ht
  · exact h.owedOnce
  · exact h.limited.cons fun _ _ _ heq => by cases heq

theorem Inv.updateIdle [DecidableEq κ] {s : IdleLoop κ γ} (h : s.Inv) {now : Int} {id : IdleId κ}
    {store : IdleStore κ γ} (hclock : s.clock ≤ now)
    (hc : s.store.updateIdle now id = some store) (hspare : id.iter ∉ owed s.stack) :
    Inv { s with store := store, clock := now, log := .updated id.iter now :: s.log } := by
  constructor
  · intro e he a t ht
    rcases List.mem_cons.mp he with rfl | he
    · cases ht
      obtain ⟨node, hnode, hhandle, _⟩ := list_update hc
      exact ⟨Int.le_refl _, hhandle ▸ (h.nodes id.lst node hnode).known⟩
    · obtain ⟨hle, hk⟩ := h.past e he a t ht
      exact ⟨Int.le_trans hle hclock, hk⟩
  · exact (h.rooted.updateIdle hc).homes
  · exact (h.rooted.updateIdle hc).nodes
  · exact (h.rooted.updateIdle hc).distinct
  · intro j hpos m hm e he t ht
    have hpast : t ≤ now := by
      rcases List.mem_cons.mp he with rfl | he
      · exact Int.le_of_eq (Prod.mk.inj (Option.some.inj ht)).2.symm
      · exact Int.le_trans (h.past e he _ t ht).1 hclock
    rcases h.rooted.mem_update hc hm with ⟨hold, hne⟩ | ⟨_, _, hnow⟩
    · rcases List.mem_cons.mp he with rfl | he
      · exact absurd (Prod.mk.inj (Option.some.inj ht)).1.symm hne
      · exact h.recorded j hpos m hold e he t ht
    · exact Or.inl (hnow.symm ▸ hpast)
  · intro now' idle lst hpass
    obtain ⟨hle, hvisit, hcopied⟩ := h.passes now' idle lst hpass
    refine ⟨Int.le_trans hle hclock, hvisit, fun node hnode => ?_⟩
    have hne : 0 < idle → node.updated + idle ≤ now' → node.handle ≠ id.iter :=
      fun hpos hdue heq =>
        hspare (mem_owed.mpr ⟨now', idle, lst, hpass, hpos, node, hnode, hdue, heq⟩)
    apply (hcopied node hnode).mono rfl
    · intro m hm hh hpos hdue
      rcases h.rooted.mem_update hc hm with ⟨hold, _⟩ | ⟨_, hiter, _⟩
      · exact hold
      · exact absurd (hh.symm.trans hiter) (hne hpos hdue)
    · intro hpos hdue t ht
      exact absurd (Prod.mk.inj (Option.some.inj ht)).1.symm (hne hpos hdue)
  · exact h.owedOnce
  · exact h.limited.cons fun _ _ _ heq => by cases heq

theorem owed_fire {now idle : Int} {node : IdleNode κ γ} {nodes : List (IdleNode κ γ)}
    {rest : List (IdleFrame κ γ)} (hpos : 0 < idle) (hdue : node.updated + idle ≤ now) :
    owed (.pass now idle (node :: nodes) :: rest) =
      node.handle :: owed (.pass now idle (nodes ++ [{ node with updated := now }]) :: rest) := by
  have hlate : ¬ now + idle ≤ now := by omega
  simp [owed, hpos, hdue, hlate]

theorem owed_skip {now idle : Int} (lst : List (IdleNode κ γ)) (rest : List (IdleFrame κ γ))
    (hpos : ¬ 0 < idle) : owed (.pass now idle lst :: rest) = owed rest := by
  rw [owed, if_neg hpos, List.nil_append]

/-- Once the front of the copy is fired, no copy that is still to be fired is one of its
registration. -/
theorem Inv.owed_apart {s : IdleLoop κ γ} (h : s.Inv) {now idle : Int} {node : IdleNode κ γ}
    {nodes : List (IdleNode κ γ)} {rest : List (IdleFrame κ γ)}
    (hstack : s.stack = .pass now idle (node :: nodes) :: rest)
    (hdue : node.updated + idle ≤ now) {now' idle' : Int} {lst : List (IdleNode κ γ)}
    (hpass : .pass now' idle' lst ∈
      .pass now idle (nodes ++ [{ node with updated := now }]) :: rest)
    (hpos : 0 < idle') {a : IdleNode κ γ} (ha : a ∈ lst) (hlate : a.updated + idle' ≤ now')
    (hhome : Home s.log a.handle idle') : a.handle ≠ node.handle := by
  intro heq
  have htop : .pass now idle (node :: nodes) ∈ s.stack := by
    rw [hstack]
    exact List.mem_cons_self
  have hnode := (h.passes now idle _ htop).2.2 node List.mem_cons_self
  rw [heq] at hhome
  have hidle := h.homes node.handle idle' idle hhome hnode.home
  subst hidle
  have honce := h.owedOnce
  rw [hstack, owed_fire hpos hdue] at honce
  apply (List.nodup_cons.mp honce).1
  exact mem_owed.mpr ⟨now', idle', lst, hpass, hpos, a, ha, hlate, heq⟩

/-- The copies of the passes in progress outlast the firing of the front one. -/
theorem Inv.copied_fire {s : IdleLoop κ γ} (h : s.Inv) {now idle : Int} {node : IdleNode κ γ}
    {nodes : List (IdleNode κ γ)} {rest : List (IdleFrame κ γ)}
    (hstack : s.stack = .pass now idle (node :: nodes) :: rest)
    (hdue : node.updated + idle ≤ now) {now' idle' : Int} {lst : List (IdleNode κ γ)}
    (hpass : .pass now' idle' lst ∈
      .pass now idle (nodes ++ [{ node with updated := now }]) :: rest)
    {a : IdleNode κ γ} (ha : a ∈ lst) (hc : s.Copied now' idle' a) :
    Copied { s with
      stack := .callback :: .pass now idle (nodes ++ [{ node with updated := now }]) :: rest
      log := .fired node.handle idle now :: s.log } now' idle' a := by
  apply hc.mono rfl
  · exact fun m hm _ _ _ => hm
  · intro hpos hlate t ht
    have hne := h.owed_apart hstack hdue hpass hpos ha hlate hc.home
    exact absurd (Prod.mk.inj (Option.some.inj ht)).1.symm hne

theorem Inv.recorded_fire {s : IdleLoop κ γ} (h : s.Inv) {now idle : Int} {node : IdleNode κ γ}
    {nodes : List (IdleNode κ γ)} {rest : List (IdleFrame κ γ)}
    (hstack : s.stack = .pass now idle (node :: nodes) :: rest)
    (hdue : node.updated + idle ≤ now) {j : Int} (hpos : 0 < j) {m : IdleNode κ γ}
    (hm : m ∈ s.store.list j) {t : Int}
    (ht : (IdleEvent.fired node.handle idle now).touches = some (m.handle, t)) :
    t ∈ visits j s.log ∧ m.updated + j ≤ t := by
  have htop : .pass now idle (node :: nodes) ∈ s.stack := by
    rw [hstack]
    exact List.mem_cons_self
  obtain ⟨_, hvisit, hcopied⟩ := h.passes now idle _ htop
  have hnode := hcopied node List.mem_cons_self
  obtain ⟨hh, rfl⟩ := Prod.mk.inj (Option.some.inj ht)
  have hhome := h.nodes j m hm
  rw [← hh] at hhome
  have hj := h.homes node.handle j idle hhome hnode.home
  subst hj
  rw [hnode.same hpos hdue m hm hh.symm]
  exact ⟨hvisit, hdue⟩

theorem Inv.owedOnce_fire {s : IdleLoop κ γ} (h : s.Inv) {now idle : Int} {node : IdleNode κ γ}
    {nodes : List (IdleNode κ γ)} {rest : List (IdleFrame κ γ)}
    (hstack : s.stack = .pass now idle (node :: nodes) :: rest)
    (hdue : node.updated + idle ≤ now) :
    (owed (.pass now idle (nodes ++ [{ node with updated := now }]) :: rest)).Nodup := by
  have honce := h.owedOnce
  rw [hstack] at honce
  by_cases hpos : 0 < idle
  · rw [owed_fire hpos hdue] at honce
    exact (List.nodup_cons.mp honce).2
  · rw [owed_skip _ _ hpos] at honce ⊢
    exact honce

theorem Inv.fire {s : IdleLoop κ γ} (h : s.Inv) {now idle : Int} {node : IdleNode κ γ}
    {nodes : List (IdleNode κ γ)} {rest : List (IdleFrame κ γ)}
    (hstack : s.stack = .pass now idle (node :: nodes) :: rest)
    (hdue : node.updated + idle ≤ now) :
    Inv { s with
      stack := .callback :: .pass now idle (nodes ++ [{ node with updated := now }]) :: rest
      log := .fired node.handle idle now :: s.log } := by
  have htop : .pass now idle (node :: nodes) ∈ s.stack := by
    rw [hstack]
    exact List.mem_cons_self
  obtain ⟨hle, hvisit, hcopied⟩ := h.passes now idle _ htop
  have hnode := hcopied node List.mem_cons_self
  have hrooted : Rooted { s with
      stack := .callback :: .pass now idle (nodes ++ [{ node with updated := now }]) :: rest
      log := .fired node.handle idle now :: s.log } := h.rooted.cons (by simp) rfl rfl
  constructor
  · intro e he a t ht
    rcases List.mem_cons.mp he with rfl | he
    · cases ht
      exact ⟨hle, hnode.home.known⟩
    · exact h.past e he a t ht
  · exact hrooted.homes
  · exact hrooted.nodes
  · exact hrooted.distinct
  · intro j hpos m hm e he t ht
    rcases List.mem_cons.mp he with rfl | he
    · exact Or.inr (h.recorded_fire hstack hdue hpos hm ht)
    · exact h.recorded j hpos m hm e he t ht
  · intro now' idle' lst hpass
    rcases List.mem_cons.mp hpass with heq | hpass
    · cases heq
    · rcases List.mem_cons.mp hpass with heq | hrest
      · cases heq
        refine ⟨hle, hvisit, fun a ha => ?_⟩
        rcases List.mem_append.mp ha with hold | hnew
        · exact h.copied_fire hstack hdue hpass ha (hcopied a (List.mem_cons_of_mem _ hold))
        · rw [List.mem_singleton.mp hnew]
          refine ⟨hnode.home.cons _, fun hpos hlate => ?_, fun hpos hlate => ?_⟩
          · dsimp only at hlate
            omega
          · dsimp only at hlate
            omega
      · obtain ⟨hle', hvisit', hcopied'⟩ := h.passes now' idle' lst (by
          rw [hstack]
          exact List.mem_cons_of_mem _ hrest)
        exact ⟨hle', hvisit', fun a ha => h.copied_fire hstack hdue hpass ha (hcopied' a ha)⟩
  · exact h.owedOnce_fire hstack hdue
  · apply List.pairwise_cons.mpr ⟨?_, h.limited⟩
    intro e he handle i n heq hpos t ht
    cases heq
    exact hnode.before hpos hdue e he t ht

theorem Inv.drop {s : IdleLoop κ γ} (h : s.Inv) {now : Int} (hclock : s.clock ≤ now)
    {rest : List (IdleFrame κ γ)} (hsub : ∀ frame ∈ rest, frame ∈ s.stack)
    (honce : (owed rest).Nodup) : Inv { s with stack := rest, clock := now } where
  past e he a t ht := by
    obtain ⟨hle, hk⟩ := h.past e he a t ht
    exact ⟨Int.le_trans hle hclock, hk⟩
  homes := h.homes
  nodes := h.nodes
  distinct := h.distinct
  recorded := h.recorded
  passes now' idle lst hpass := by
    obtain ⟨hle, hvisit, hcopied⟩ := h.passes now' idle lst (hsub _ hpass)
    refine ⟨Int.le_trans hle hclock, hvisit, fun node hnode => ?_⟩
    have hc := hcopied node hnode
    exact ⟨hc.home, hc.before, hc.same⟩
  owedOnce := honce
  limited := h.limited

/-- The nodes a new pass owes are owed by no pass below. -/
theorem Inv.owedOnce_visit {s : IdleLoop κ γ} (h : s.Inv) {now idle : Int}
    (hspaced : Spaced s.log s.stack now (some (idle, s.store.list idle))) :
    (owed (.pass now idle (s.store.list idle) :: s.stack)).Nodup := by
  by_cases hpos : 0 < idle
  · rw [owed, if_pos hpos]
    apply List.nodup_append.mpr
      ⟨(h.distinct idle).sublist (List.filter_sublist.map _), h.owedOnce, ?_⟩
    intro a ha b hb heq
    obtain ⟨node, hnode, rfl⟩ := List.mem_map.mp ha
    obtain ⟨hmem, hdue⟩ := List.mem_filter.mp hnode
    exact (hspaced hpos node hmem (by simpa using hdue)).2 (heq ▸ hb)
  · rw [owed_skip _ _ hpos]
    exact h.owedOnce

theorem Inv.visit {s : IdleLoop κ γ} (h : s.Inv) {now : Int} (hnow : now ≤ s.clock)
    {entry : Option (Int × List (IdleNode κ γ))}
    (hentry : ∀ idle lst, entry = some (idle, lst) → s.store.list idle = lst)
    (hspaced : Spaced s.log s.stack now entry) : (s.visit now s.stack entry).Inv := by
  cases entry with
  | none => exact h
  | some p =>
      obtain ⟨idle, lst⟩ := p
      have hlist := hentry idle lst rfl
      subst hlist
      have hrooted := h.rooted.visit now s.stack (some (idle, s.store.list idle))
      have hvisited : ∀ e ∈ .visited idle now :: s.log, ∀ a t, e.touches = some (a, t) →
          e ∈ s.log := by
        intro e he a t ht
        rcases List.mem_cons.mp he with rfl | he
        · cases ht
        · exact he
      constructor
      · exact fun e he a t ht => h.past e (hvisited e he a t ht) a t ht
      · exact hrooted.homes
      · exact hrooted.nodes
      · exact hrooted.distinct
      · intro j hpos m hm e he t ht
        exact (h.recorded j hpos m hm e (hvisited e he _ t ht) t ht).imp_right
          fun hv => ⟨visits_cons _ hv.1, hv.2⟩
      · intro now' idle' lst hpass
        rcases List.mem_cons.mp hpass with heq | hpass
        · cases heq
          refine ⟨hnow, by rw [IdleLoop.visit, visits, if_pos rfl]; exact List.mem_cons_self,
            fun node hnode => ⟨(h.nodes idle node hnode).cons _, ?_, ?_⟩⟩
          · intro hpos hdue e he t ht
            rcases h.recorded idle hpos node hnode e (hvisited e he _ t ht) t ht with
              hle | ⟨hv, hlate⟩
            · omega
            · exact (hspaced hpos node hnode hdue).1 t hv hlate
          · intro _ _ m hm hh
            rw [List.inj_on_of_nodup_map (h.distinct idle) hm hnode hh]
        · obtain ⟨hle, hv, hcopied⟩ := h.passes now' idle' lst hpass
          refine ⟨hle, visits_cons _ hv, fun node hnode => (hcopied node hnode).mono rfl ?_ ?_⟩
          · exact fun m hm _ _ _ => hm
          · intro _ _ t ht
            cases ht
      · exact h.owedOnce_visit hspaced
      · exact h.limited.cons fun _ _ _ heq => by cases heq

theorem owed_rest_sublist (frame : IdleFrame κ γ) (rest : List (IdleFrame κ γ)) :
    (owed rest).Sublist (owed (frame :: rest)) := by
  cases frame with
  | callback => exact List.Sublist.refl _
  | pass now idle lst => exact List.sublist_append_right _ _

theorem Inv.pop {s : IdleLoop κ γ} (h : s.Inv) {frame : IdleFrame κ γ}
    {rest : List (IdleFrame κ γ)} (hstack : s.stack = frame :: rest) :
    Inv { s with stack := rest } := by
  apply h.drop (Int.le_refl _)
  · intro a ha
    rw [hstack]
    exact List.mem_cons_of_mem _ ha
  · have honce := h.owedOnce
    rw [hstack] at honce
    exact honce.sublist (owed_rest_sublist frame rest)

theorem list_of_get? {st : IdleStore κ γ} {idle : Int} {lst : List (IdleNode κ γ)}
    (h : st.idleConns.get? idle = some lst) : st.list idle = lst := by
  rw [IdleStore.list, h, Option.getD_some]

theorem Inv.step [DecidableEq κ] {s : IdleLoop κ γ} (h : s.Inv) {choice : Choice κ γ}
    (hforward : s.Forward choice) (hspares : s.Spares choice) : (s.step choice).Inv := by
  have hstep := s.step_changes choice
  generalize s.step choice = s' at hstep ⊢
  rcases hstep with hsame | hchanges
  · rwa [hsame]
  · cases hchanges with
    | registerIdle cb fresh => exact h.registerIdle cb hforward fresh
    | unregisterIdle _ found => exact h.unregisterIdle found
    | updateIdle found => exact h.updateIdle hforward found hspares
    | callIdles =>
        apply (h.drop hforward (fun _ hf => hf) h.owedOnce).visit (Int.le_refl _)
        · exact fun idle lst heq => list_of_get? (OrdMap.get?_first heq)
        · exact hspares
    | fire stack late => exact h.fire stack late
    | @next now idle lst rest stack undue =>
        rw [Spares, stack] at hspares
        have htop : .pass now idle lst ∈ s.stack := by
          rw [stack]
          exact List.mem_cons_self
        apply (h.pop stack).visit (h.passes now idle lst htop).1
        · exact fun i l heq => list_of_get? (OrdMap.get?_after heq)
        · exact hspares (by rw [undue]; rfl)
    | ret stack => exact h.pop stack

end IdleLoop

open IdleLoop in
/-- While the clock does not go back, each firing of a registration comes its idle time
after its registration, its updates and its firings before, in every run in which no list
is taken up with a registration that was overdue at a pass less than its idle time before,
and no registration is updated that a pass in progress still has to fire. -/
theorem idle_callbacks_rate_limited {κ γ : Type} [DecidableEq κ] (clock : Int)
    (choices : List (Choice κ γ)) (hclock : Driven.Along step Forward (new clock) choices)
    (hspares : Driven.Along step Spares (new clock) choices) :
    RateLimited (Driven.run step (new clock) choices).log := by
  have hinv : (Driven.run step (new clock) choices).Inv :=
    Driven.run_invariant (I := Inv) (fun _ _ h hc => h.step hc.1 hc.2) (Inv.new clock)
      (Driven.along_and.mpr ⟨hclock, hspares⟩)
  exact hinv.limited

namespace IdleLoop

variable {κ γ : Type} [DecidableEq κ]

instance (s : IdleLoop κ γ) : (choice : Choice κ γ) → Decidable (s.Forward choice)
  | .registerIdle _ _ _ _ => inferInstanceAs (Decidable (_ ≤ _))
  | .updateIdle _ _ => inferInstanceAs (Decidable (_ ≤ _))
  | .callIdles _ => inferInstanceAs (Decidable (_ ≤ _))
  | .unregisterIdle _ => isTrue trivial
  | .go => isTrue trivial
  | .ret => isTrue trivial

instance (log : List (IdleEvent κ)) (rest : List (IdleFrame κ γ)) (now : Int) :
    (entry : Option (Int × List (IdleNode κ γ))) → Decidable (Spaced log rest now entry)
  | none => isTrue trivial
  | some (_, _) => inferInstanceAs (Decidable (_ → ∀ node ∈ _, _ → (∀ t ∈ _, _ → _) ∧ _))

instance (s : IdleLoop κ γ) : (choice : Choice κ γ) → Decidable (s.Spares choice)
  | .updateIdle _ _ => inferInstanceAs (Decidable (¬ _))
  | .callIdles _ => inferInstanceAs (Decidable (Spaced _ _ _ _))
  | .go =>
      match h : s.stack with
      | .pass _ _ _ :: _ => decidable_of_iff (_ → Spaced _ _ _ _) (by rw [Spares, h])
      | .callback :: _ => isTrue (by rw [Spares, h]; trivial)
      | [] => isTrue (by rw [Spares, h]; trivial)
  | .registerIdle _ _ _ _ => isTrue trivial
  | .unregisterIdle _ => isTrue trivial
  | .ret => isTrue trivial

end IdleLoop

open IdleLoop in
/-- A callback that updates its registration, once fired, and a later pass that fires it
again. -/
theorem idle_callbacks_rate_limited_active :
    let choices : List (Choice Nat Unit) :=
      [.registerIdle 10 0 0 (), .registerIdle 3 1 1 (), .updateIdle 9 ⟨3, 1⟩, .callIdles 10, .go,
        .go, .updateIdle 11 ⟨10, 0⟩, .ret, .go, .callIdles 21, .go, .ret, .unregisterIdle ⟨3, 1⟩,
        .go, .go, .ret, .go, .go]
    RateLimited (Driven.run step (new 0) choices).log :=
  idle_callbacks_rate_limited 0 _ (by decide) (by decide)

open IdleLoop in
/-- Ten seconds idle, and fired at two passes one second apart. -/
theorem idle_callback_fires_again :
    ¬ RateLimited (Driven.run step (new 0)
      ([.registerIdle 10 0 0 (), .callIdles 10, .go, .ret, .go, .go, .callIdles 11, .go] :
        List (Choice Nat Unit))).log := by
  intro h
  have hapart := (List.pairwise_cons.mp h).1 (.fired 0 10 10) (by decide) 0 10 11 rfl (by decide)
    10 rfl
  omega

end Handy
