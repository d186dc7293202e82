import Mathlib.Data.Int.Order.Basic
import Handy.Lib.OrdMap

/-! # The idle lists of an event base

`idleConns_` keeps one list for each idle time, and a registration is a node of
one of them. The `IdleId` a connection is given is a pointer to the list and an
iterator, so it is good only while the node is in that list: with a node that
has gone, `unregisterIdle` and `updateIdle` have no meaning and return `none`. An
iterator is modelled by the `handle` of its node.
-/

namespace Handy

/-- `IdleNode`; `callback` stands for `con_` and `cb_`. -/
structure IdleNode (κ γ : Type) where
  handle : κ
  updated : Int
  callback : γ

/-- `IdleIdImp`. -/
structure IdleId (κ : Type) where
  lst : Int
  iter : κ
deriving DecidableEq

/-- The part of `EventsImp` that keeps idle connections. -/
structure IdleStore (κ γ : Type) where
  idleConns : OrdMap Int (List (IdleNode κ γ))
  idleEnabled : Bool

namespace IdleStore

variable {κ γ : Type} [DecidableEq κ]

def new : IdleStore κ γ := ⟨.empty, false⟩

/-- `idleConns_[idle]`, which makes an empty list where there is none. -/
def list (s : IdleStore κ γ) (idle : Int) : List (IdleNode κ γ) :=
  (s.idleConns.get? idle).getD []

/-- The node of the id is in its list. -/
def has (s : IdleStore κ γ) (id : IdleId κ) : Bool :=
  (s.list id.lst).any fun node => node.handle == id.iter

/-- `registerIdle` at clock value `now`; `handle` is the new node. The first call
also starts the timer of `callIdles`. -/
def registerIdle (s : IdleStore κ γ) (idle now : Int) (handle : κ) (cb : γ) :
    IdleStore κ γ × IdleId κ :=
  ({ idleEnabled := true
     idleConns := s.idleConns.insert idle (s.list idle ++ [⟨handle, now, cb⟩]) }, ⟨idle, handle⟩)

/-- `unregisterIdle`. -/
def unregisterIdle (s : IdleStore κ γ) (id : IdleId κ) : Option (IdleStore κ γ) :=
  if s.has id then
    some { s with
      idleConns := s.idleConns.insert id.lst
        ((s.list id.lst).eraseP fun node => node.handle == id.iter) }
  else none

/-- `updateIdle` at clock value `now`: the node goes to the end of its list. -/
def updateIdle (s : IdleStore κ γ) (now : Int) (id : IdleId κ) : Option (IdleStore κ γ) :=
  match (s.list id.lst).find? fun node => node.handle == id.iter with
  | none => none
  | some node =>
      some { s with
        idleConns := s.idleConns.insert id.lst
          (((s.list id.lst).eraseP fun node => node.handle == id.iter) ++
            [{ node with updated := now }]) }

/-- `idleConns_.clear()`. -/
def clear (s : IdleStore κ γ) : IdleStore κ γ := { s with idleConns := .empty }

theorem has_iff {s : IdleStore κ γ} {id : IdleId κ} :
    s.has id = true ↔ ∃ node ∈ s.list id.lst, node.handle = id.iter := by
  simp [has]

omit [DecidableEq κ] in
theorem list_insert (m : OrdMap Int (List (IdleNode κ γ))) (e : Bool) (idle : Int)
    (l : List (IdleNode κ γ)) (a : Int) :
    list ⟨m.insert idle l, e⟩ a = if a = idle then l else list ⟨m, e⟩ a := by
  simp only [list, OrdMap.get?_insert]
  split <;> rfl

/-- A node that is not the erased one stays. -/
theorem mem_eraseP_of_ne {l : List (IdleNode κ γ)} {iter : κ} {node : IdleNode κ γ}
    (h : node ∈ l) (hne : node.handle ≠ iter) :
    node ∈ l.eraseP fun node => node.handle == iter :=
  (List.mem_eraseP_of_neg (by simpa using hne)).mpr h

theorem has_register (s : IdleStore κ γ) (idle now : Int) (handle : κ) (cb : γ) (id : IdleId κ) :
    (s.registerIdle idle now handle cb).1.has id = true ↔
      s.has id = true ∨ id = (s.registerIdle idle now handle cb).2 := by
  simp only [registerIdle, has_iff, list_insert]
  by_cases hl : id.lst = idle
  · rw [if_pos hl]
    constructor
    · rintro ⟨node, hnode, hiter⟩
      rcases List.mem_append.mp hnode with h | h
      · exact Or.inl ⟨node, hl ▸ h, hiter⟩
      · rw [List.mem_singleton.mp h] at hiter
        exact Or.inr (by cases id; simp_all)
    · rintro (⟨node, hnode, hiter⟩ | rfl)
      · exact ⟨node, List.mem_append_left _ (hl ▸ hnode), hiter⟩
      · exact ⟨_, List.mem_append_right _ List.mem_cons_self, rfl⟩
  · rw [if_neg hl]
    constructor
    · exact Or.inl
    · rintro (h | rfl)
      · exact h
      · exact absurd rfl hl

theorem unregister_of_has {s : IdleStore κ γ} {id : IdleId κ} (h : s.has id = true) :
    ∃ s', s.unregisterIdle id = some s' ∧
      ∀ id', id'.iter ≠ id.iter → s.has id' = true → s'.has id' = true := by
  refine ⟨_, if_pos h, fun id' hiter hid' => ?_⟩
  obtain ⟨node, hnode, hhandle⟩ := has_iff.mp hid'
  rw [has_iff]
  simp only [list_insert]
  split
  · next hl => exact ⟨node, mem_eraseP_of_ne (hl ▸ hnode) (hhandle ▸ hiter), hhandle⟩
  · exact ⟨node, hnode, hhandle⟩

theorem update_of_has {s : IdleStore κ γ} {id : IdleId κ} (now : Int) (h : s.has id = true) :
    ∃ s', s.updateIdle now id = some s' ∧ ∀ id', s.has id' = true → s'.has id' = true := by
  obtain ⟨node, hfind⟩ : ∃ node,
      (s.list id.lst).find? (fun node => node.handle == id.iter) = some node := by
    rw [← Option.isSome_iff_exists, List.find?_isSome]
    simpa [has] using h
  refine ⟨_, by rw [updateIdle, hfind], fun id' hid' => ?_⟩
  obtain ⟨node', hnode', hhandle'⟩ := has_iff.mp hid'
  have hnode : node.handle = id.iter := by simpa using List.find?_some hfind
  rw [has_iff]
  simp only [list_insert]
  split
  · next hl =>
      by_cases hsame : node'.handle = id.iter
      · exact ⟨_, List.mem_append_right _ List.mem_cons_self,
          hnode.trans (hsame.symm.trans hhandle')⟩
      · exact ⟨node', List.mem_append_left _ (mem_eraseP_of_ne (hl ▸ hnode') hsame), hhandle'⟩
  · exact ⟨node', hnode', hhandle'⟩

end IdleStore

end Handy
