import Std.Data.ExtTreeMap.Lemmas
import Mathlib.Data.List.Basic

/-! # Lists by key

A map whose values are lists that are never empty, as it is filled one element at a time:
each element goes behind those of its key. After any number of them the list of a key is
what was there, followed by the elements that came under it, in their order.
-/

abbrev Grouped (K V : Type) [Ord K] : Type := Std.ExtTreeMap K { l : List V // l ≠ [] }

namespace Grouped

variable {K V : Type} [Ord K] [Std.TransOrd K]

/-- The list of a key, empty when the key is not there. -/
def list (m : Grouped K V) (k : K) : List V :=
  match m[k]? with
  | none => []
  | some l => l.1

/-- The last element of a key. -/
def last? (m : Grouped K V) (k : K) : Option V := m[k]?.map fun l => l.1.getLast l.2

/-- `m[k].push_back(v)`. -/
def push (m : Grouped K V) (k : K) (v : V) : Grouped K V :=
  m.insert k ⟨m.list k ++ [v], by simp⟩

theorem list_empty (k : K) : (∅ : Grouped K V).list k = [] := by
  rw [list, Std.ExtTreeMap.getElem?_empty]

theorem last?_eq (m : Grouped K V) (k : K) : m.last? k = (m.list k).getLast? := by
  unfold last? list
  cases m[k]? with
  | none => rfl
  | some l => exact (List.getLast?_eq_some_getLast l.2).symm

theorem list_push_same (m : Grouped K V) (k : K) (v : V) : (m.push k v).list k = m.list k ++ [v] := by
  rw [push, list, Std.ExtTreeMap.getElem?_insert_self]

variable {E : Type} (key : E → K) (value : E → V)

def pushAll (m : Grouped K V) (es : List E) : Grouped K V :=
  es.foldl (fun m e => m.push (key e) (value e)) m

@[simp] theorem pushAll_nil (m : Grouped K V) : m.pushAll key value [] = m := rfl

@[simp] theorem pushAll_cons (m : Grouped K V) (e : E) (es : List E) :
    m.pushAll key value (e :: es) = (m.push (key e) (value e)).pushAll key value es := rfl

theorem pushAll_append (m : Grouped K V) (es fs : List E) :
    m.pushAll key value (es ++ fs) = (m.pushAll key value es).pushAll key value fs :=
  List.foldl_append

variable [Std.LawfulEqOrd K]

theorem list_push_other {m : Grouped K V} {k a : K} (h : k ≠ a) (v : V) :
    (m.push k v).list a = m.list a := by
  rw [push, list, Std.ExtTreeMap.getElem?_insert, if_neg]
  · rfl
  · exact fun heq => h (Std.LawfulEqOrd.eq_of_compare heq)

variable [DecidableEq K]

theorem list_pushAll (m : Grouped K V) (es : List E) (k : K) :
    (m.pushAll key value es).list k = m.list k ++ (es.filter fun e => key e = k).map value := by
  induction es generalizing m with
  | nil => rw [pushAll_nil, List.filter_nil, List.map_nil, List.append_nil]
  | cons e es ih =>
      rw [pushAll_cons, ih]
      by_cases hk : key e = k
      · subst hk
        rw [list_push_same, List.filter_cons_of_pos (by simp), List.map_cons, List.append_assoc]
        rfl
      · rw [list_push_other hk, List.filter_cons_of_neg (by simpa using hk)]

/-- From nothing, the list of a key has the elements that pass a test, where those come under
the key, exactly when no other does. -/
theorem list_pushAll_iff {k : K} {p : E → Bool} {es : List E}
    (h : ∀ e ∈ es, p e = true → key e = k) :
    ((∅ : Grouped K V).pushAll key value es).list k = (es.filter p).map value ↔
      ∀ e ∈ es, key e = k → p e = true := by
  rw [list_pushAll, list_empty, List.nil_append]
  constructor
  · intro heq e he hk
    have hsame : es.filter p = (es.filter fun e => key e = k).filter p := by
      rw [List.filter_filter]
      refine List.filter_congr fun a ha => ?_
      cases hp : p a with
      | false => rfl
      | true => rw [Bool.true_and, decide_eq_true (h a ha hp)]
    have hlen := congrArg List.length heq
    rw [List.length_map, List.length_map, hsame] at hlen
    exact List.length_filter_eq_length_iff.mp hlen.symm e
      (List.mem_filter.mpr ⟨he, decide_eq_true hk⟩)
  · intro hall
    congr 1
    refine List.filter_congr fun e he => ?_
    rw [Bool.eq_iff_iff, decide_eq_true_iff]
    exact ⟨hall e he, h e he⟩

end Grouped
