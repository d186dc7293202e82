import Mathlib.Data.Multiset.Filter

/-! # One among many

A list whose members change one at a time, seen as a multiset: the one that changes and
the others. Accounts of what the members hold are kept member by member.
-/

namespace Crew

variable {W T : Type*}

theorem set_split {l : List W} {i : Nat} {w : W} (h : l[i]? = some w) :
    ∃ rest : Multiset W, (l : Multiset W) = w ::ₘ rest ∧
      ∀ w', (l.set i w' : Multiset W) = w' ::ₘ rest := by
  obtain ⟨hi, rfl⟩ := List.getElem?_eq_some_iff.mp h
  have hsplit : l = l.take i ++ l[i] :: l.drop (i + 1) := by
    rw [List.getElem_cons_drop, List.take_append_drop]
  refine ⟨(l.take i ++ l.drop (i + 1) : List W), ?_, fun w' => ?_⟩
  · rw [Multiset.cons_coe]
    apply Multiset.coe_eq_coe.mpr
    exact (List.Perm.of_eq hsplit).trans List.perm_middle
  · rw [Multiset.cons_coe, List.set_eq_take_append_cons_drop, if_pos hi]
    exact Multiset.coe_eq_coe.mpr List.perm_middle

theorem ofList_concat (l : List T) (a : T) : Multiset.ofList (l ++ [a]) = a ::ₘ .ofList l :=
  Multiset.coe_eq_coe.mpr (List.perm_append_singleton a l)

def held (f : W → Option T) (l : List W) : Multiset T := Multiset.filterMap f (.ofList l)

/-- A member that holds nothing takes something up, and lays it down. -/
theorem held_set_some {f : W → Option T} {l : List W} {i : Nat} {w w' : W} {t : T}
    (h : l[i]? = some w) (hw : f w = none) (hw' : f w' = some t) :
    held f (l.set i w') = t ::ₘ held f l := by
  obtain ⟨rest, hold, hnew⟩ := set_split h
  rw [held, held, hold, hnew, Multiset.filterMap_cons_some f w' rest hw',
    Multiset.filterMap_cons_none _ _ hw]

theorem held_set_none {f : W → Option T} {l : List W} {i : Nat} {w w' : W} {t : T}
    (h : l[i]? = some w) (hw : f w = some t) (hw' : f w' = none) :
    held f l = t ::ₘ held f (l.set i w') := by
  obtain ⟨rest, hold, hnew⟩ := set_split h
  rw [held, held, hold, hnew, Multiset.filterMap_cons_some f w rest hw,
    Multiset.filterMap_cons_none _ _ hw']

theorem held_set_same {f : W → Option T} {l : List W} {i : Nat} {w w' : W}
    (h : l[i]? = some w) (hw : f w = none) (hw' : f w' = none) :
    held f (l.set i w') = held f l := by
  obtain ⟨rest, hold, hnew⟩ := set_split h
  rw [held, held, hold, hnew, Multiset.filterMap_cons_none _ _ hw,
    Multiset.filterMap_cons_none _ _ hw']

/-- No one holds anything. -/
theorem held_of_none {f : W → Option T} {l : List W} (h : ∀ w ∈ l, f w = none) : held f l = 0 := by
  rw [held, Multiset.filterMap_coe, Multiset.coe_eq_zero, List.filterMap_eq_nil_iff]
  exact h

end Crew
