import Mathlib.Order.Lattice
import Mathlib.Data.List.Pairwise

/-! # Ordered maps

A map from a linear order, kept as its entries in strictly increasing order of
their keys; the order is a field. `get?` reads, `insert` and `erase` write, and
`first?` is the entry with the least key. The `get?` equations are what a user
needs: which list the entries form shows only through `first?`.
-/

namespace OrdMap

variable {K V : Type*} [LinearOrder K]

/-! ## Entries -/

def lookup (k : K) : List (K × V) → Option V
  | [] => none
  | (a, v) :: rest => if a = k then some v else lookup k rest

def place (k : K) (v : V) : List (K × V) → List (K × V)
  | [] => [(k, v)]
  | (a, w) :: rest =>
      if k < a then (k, v) :: (a, w) :: rest
      else if k = a then (k, v) :: rest
      else (a, w) :: place k v rest

theorem lookup_place (k : K) (v : V) (a : K) (l : List (K × V)) :
    lookup a (place k v l) = if a = k then some v else lookup a l := by
  induction l with
  | nil => simp only [place, lookup, eq_comm]
  | cons p rest ih =>
      obtain ⟨b, w⟩ := p
      rw [place]
      split
      · simp only [lookup, eq_comm]
      · split
        · next heq =>
            subst heq
            simp only [lookup, eq_comm]
            split <;> rfl
        · next hne =>
            simp only [lookup, ih]
            by_cases hb : b = a
            · have hak : a ≠ k := fun h => hne (h ▸ hb.symm)
              rw [if_pos hb, if_pos hb, if_neg hak]
            · rw [if_neg hb, if_neg hb]

theorem lookup_filter (k a : K) (l : List (K × V)) :
    lookup a (l.filter fun p => p.1 ≠ k) = if a = k then none else lookup a l := by
  induction l with
  | nil => simp only [List.filter_nil, lookup, ite_self]
  | cons p rest ih =>
      obtain ⟨b, w⟩ := p
      by_cases hb : b = k
      · rw [List.filter_cons_of_neg (by simpa using hb), ih, lookup, hb]
        split
        · rfl
        · next hak => rw [if_neg fun h => hak h.symm]
      · rw [List.filter_cons_of_pos (by simpa using hb), lookup, ih, lookup]
        by_cases hba : b = a
        · rw [if_pos hba, if_pos hba, if_neg (hba ▸ hb)]
        · rw [if_neg hba, if_neg hba]

theorem fst_of_mem_place {k : K} {v : V} {l : List (K × V)} {p : K × V} (h : p ∈ place k v l) :
    p.1 = k ∨ p ∈ l := by
  induction l with
  | nil =>
      rw [List.mem_singleton.mp h]
      exact Or.inl rfl
  | cons q rest ih =>
      rw [place] at h
      split at h
      · rcases List.mem_cons.mp h with rfl | h
        · exact Or.inl rfl
        · exact Or.inr h
      · split at h
        · rcases List.mem_cons.mp h with rfl | h
          · exact Or.inl rfl
          · exact Or.inr (List.mem_cons_of_mem _ h)
        · rcases List.mem_cons.mp h with rfl | h
          · exact Or.inr List.mem_cons_self
          · exact (ih h).imp_right (List.mem_cons_of_mem _)

/-- Entries in strictly increasing order of their keys. -/
def Sorted (l : List (K × V)) : Prop := l.Pairwise fun p q => p.1 < q.1

theorem Sorted.place {l : List (K × V)} (h : Sorted l) (k : K) (v : V) :
    Sorted (OrdMap.place k v l) := by
  induction l with
  | nil => exact List.pairwise_singleton _ _
  | cons q rest ih =>
      obtain ⟨hq, hrest⟩ := List.pairwise_cons.mp h
      rw [OrdMap.place]
      split
      · next hlt =>
          apply List.pairwise_cons.mpr ⟨fun p hp => ?_, h⟩
          rcases List.mem_cons.mp hp with rfl | hp
          · exact hlt
          · exact lt_trans hlt (hq p hp)
      · split
        · next heq => exact List.pairwise_cons.mpr ⟨fun p hp => heq ▸ hq p hp, hrest⟩
        · next hlt hne =>
            apply List.pairwise_cons.mpr ⟨fun p hp => ?_, ih hrest⟩
            rcases fst_of_mem_place hp with hp | hp
            · rw [hp]
              exact lt_of_le_of_ne (not_lt.mp hlt) (Ne.symm hne)
            · exact hq p hp

end OrdMap

/-- A map from `K`, in the order of its keys. -/
structure OrdMap (K V : Type*) [LinearOrder K] where
  entries : List (K × V)
  sorted : OrdMap.Sorted entries

namespace OrdMap

variable {K V : Type*} [LinearOrder K]

def empty : OrdMap K V := ⟨[], List.Pairwise.nil⟩

def get? (m : OrdMap K V) (k : K) : Option V := lookup k m.entries

def insert (m : OrdMap K V) (k : K) (v : V) : OrdMap K V :=
  ⟨place k v m.entries, m.sorted.place k v⟩

def erase (m : OrdMap K V) (k : K) : OrdMap K V :=
  ⟨m.entries.filter fun p => p.1 ≠ k, m.sorted.filter _⟩

@[simp] theorem erase_insert_empty (k : K) (v : V) :
    (insert (empty : OrdMap K V) k v).erase k = empty := by
  simp [insert, erase, empty, place]

/-- The entry with the least key. -/
def first? (m : OrdMap K V) : Option (K × V) := m.entries.head?

/-- The entry with the least key above `k`. -/
def after? (m : OrdMap K V) (k : K) : Option (K × V) := m.entries.find? fun p => k < p.1

theorem get?_insert (m : OrdMap K V) (k : K) (v : V) (a : K) :
    (m.insert k v).get? a = if a = k then some v else m.get? a := lookup_place k v a m.entries

@[simp] theorem get?_insert_self (m : OrdMap K V) (k : K) (v : V) :
    (m.insert k v).get? k = some v := by rw [get?_insert, if_pos rfl]

theorem get?_insert_of_ne (m : OrdMap K V) {k a : K} (v : V) (h : a ≠ k) :
    (m.insert k v).get? a = m.get? a := by rw [get?_insert, if_neg h]

theorem get?_erase (m : OrdMap K V) (k a : K) :
    (m.erase k).get? a = if a = k then none else m.get? a := lookup_filter k a m.entries

theorem get?_erase_of_ne (m : OrdMap K V) {k a : K} (h : a ≠ k) :
    (m.erase k).get? a = m.get? a := by rw [get?_erase, if_neg h]

/-- A smaller map says nothing that the map did not say. -/
theorem get?_of_erase {m : OrdMap K V} {k a : K} {v : V} (h : (m.erase k).get? a = some v) :
    a ≠ k ∧ m.get? a = some v := by
  rw [get?_erase] at h
  split at h
  · cases h
  · next hne => exact ⟨hne, h⟩

theorem get?_first {m : OrdMap K V} {k : K} {v : V} (h : m.first? = some (k, v)) :
    m.get? k = some v := by
  rw [first?] at h
  cases hm : m.entries with
  | nil => rw [hm] at h; cases h
  | cons p rest =>
      rw [hm] at h
      cases h
      rw [get?, hm, lookup, if_pos rfl]

theorem mem_of_lookup {a : K} {w : V} {l : List (K × V)} (h : lookup a l = some w) :
    (a, w) ∈ l := by
  induction l with
  | nil => cases h
  | cons p rest ih =>
      obtain ⟨b, v⟩ := p
      rw [lookup] at h
      split at h
      · next heq =>
          cases h
          rw [heq]
          exact List.mem_cons_self
      · exact List.mem_cons_of_mem _ (ih h)

theorem lookup_of_mem {a : K} {w : V} {l : List (K × V)} (hl : Sorted l) (h : (a, w) ∈ l) :
    lookup a l = some w := by
  induction l with
  | nil => cases h
  | cons p rest ih =>
      obtain ⟨b, v⟩ := p
      obtain ⟨hb, hrest⟩ := List.pairwise_cons.mp hl
      rw [lookup]
      rcases List.mem_cons.mp h with heq | hmem
      · cases heq
        rw [if_pos rfl]
      · rw [if_neg (ne_of_lt (hb _ hmem))]
        exact ih hrest hmem

theorem get?_after {m : OrdMap K V} {k a : K} {v : V} (h : m.after? k = some (a, v)) :
    m.get? a = some v := lookup_of_mem m.sorted (List.mem_of_find?_eq_some h)

theorem first_le {m : OrdMap K V} {k a : K} {v w : V} (h : m.first? = some (k, v))
    (ha : m.get? a = some w) : k ≤ a := by
  obtain ⟨_ | ⟨p, rest⟩, hsorted⟩ := m
  · cases h
  · cases h
    rcases List.mem_cons.mp (mem_of_lookup ha) with heq | hmem
    · cases heq
      exact le_refl _
    · exact le_of_lt ((List.pairwise_cons.mp hsorted).1 _ hmem)

/-- Going through the entries one after the other. -/
theorem after?_of_entries {m : OrdMap K V} {pre post : List (K × V)} {k : K} {v : V}
    (h : m.entries = pre ++ (k, v) :: post) : m.after? k = post.head? := by
  have hsorted := m.sorted
  rw [h] at hsorted
  obtain ⟨-, hrest, hpre⟩ := List.pairwise_append.mp hsorted
  have hnone : pre.find? (fun p => k < p.1) = none := by
    apply List.find?_eq_none.mpr
    intro p hp
    simpa using le_of_lt (hpre p hp (k, v) List.mem_cons_self)
  rw [after?, h, List.find?_append, hnone, Option.none_or, List.find?_cons_of_neg (by simp)]
  cases post with
  | nil => rfl
  | cons q rest =>
      have hq := (List.pairwise_cons.mp hrest).1 q List.mem_cons_self
      rw [List.find?_cons_of_pos (by simpa using hq), List.head?_cons]

theorem get?_of_mem {m : OrdMap K V} {k : K} {v : V} (h : (k, v) ∈ m.entries) :
    m.get? k = some v := lookup_of_mem m.sorted h

theorem mem_of_get? {m : OrdMap K V} {k : K} {v : V} (h : m.get? k = some v) :
    (k, v) ∈ m.entries := mem_of_lookup h

theorem get?_of_first_none {m : OrdMap K V} (h : m.first? = none) (a : K) :
    m.get? a = none := by
  obtain ⟨_ | ⟨p, rest⟩, hsorted⟩ := m
  · rfl
  · cases h

/-! ## Weight -/

def total (f : K → V → Nat) : List (K × V) → Nat
  | [] => 0
  | (k, v) :: rest => f k v + total f rest

def weight (f : K → V → Nat) (m : OrdMap K V) : Nat := total f m.entries

theorem total_place (f : K → V → Nat) {k : K} (v : V) {l : List (K × V)}
    (h : lookup k l = none) : total f (place k v l) = f k v + total f l := by
  induction l with
  | nil => rfl
  | cons p rest ih =>
      obtain ⟨b, w⟩ := p
      rw [lookup] at h
      split at h
      · cases h
      · next hne =>
          rw [place]
          split
          · rfl
          · rw [if_neg fun heq => hne heq.symm, total, total, ih h]
            omega

theorem weight_insert (f : K → V → Nat) {m : OrdMap K V} {k : K} (v : V)
    (h : m.get? k = none) : (m.insert k v).weight f = f k v + m.weight f := total_place f v h

/-- Taking out the first entry takes its weight off. -/
theorem weight_erase_first (f : K → V → Nat) {m : OrdMap K V} {k : K} {v : V}
    (h : m.first? = some (k, v)) : m.weight f = f k v + (m.erase k).weight f := by
  obtain ⟨_ | ⟨p, rest⟩, hsorted⟩ := m
  · cases h
  · cases h
    have hrest : rest.filter (fun q => q.1 ≠ k) = rest := by
      apply List.filter_eq_self.mpr
      intro q hq
      exact decide_eq_true (ne_of_gt ((List.pairwise_cons.mp hsorted).1 q hq))
    simp only [weight, erase, total]
    rw [List.filter_cons_of_neg (by simp), hrest]

end OrdMap
