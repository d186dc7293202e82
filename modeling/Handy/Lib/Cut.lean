import Mathlib.Data.List.DropRight
import Mathlib.Data.List.TakeWhile

/-! # Cutting a list where a test ends

What the scanners of a text need: a list is a stretch on which a test holds, followed by
one that does not begin with it. `takeWhile` and `dropWhile` give the two parts back, and
the length of the first is the position where a cursor stops.
-/

namespace Cut

variable {α : Type*} {p : α → Bool}

/-- The test does not hold at the head. -/
def Ends (p : α → Bool) (l : List α) : Prop := ∀ a, l.head? = some a → p a = false

theorem ends_cons {a : α} {l : List α} (h : p a = false) : Ends p (a :: l) := by
  intro b hb
  cases hb
  exact h

theorem ends_dropWhile (p : α → Bool) (l : List α) : Ends p (l.dropWhile p) := by
  intro a ha
  have hnot := List.head?_dropWhile_not p l
  rw [ha] at hnot
  exact hnot

theorem takeWhile_ends {l : List α} (h : Ends p l) : l.takeWhile p = [] := by
  cases l with
  | nil => rfl
  | cons a l => exact List.takeWhile_cons_of_neg (by simp [h a rfl])

theorem dropWhile_ends {l : List α} (h : Ends p l) : l.dropWhile p = l := by
  cases l with
  | nil => rfl
  | cons a l => exact List.dropWhile_cons_of_neg (by simp [h a rfl])

theorem takeWhile_stop {pre post : List α} (hpre : ∀ a ∈ pre, p a = true) (hpost : Ends p post) :
    (pre ++ post).takeWhile p = pre := by
  rw [List.takeWhile_append_of_pos hpre, takeWhile_ends hpost, List.append_nil]

theorem dropWhile_stop {pre post : List α} (hpre : ∀ a ∈ pre, p a = true) (hpost : Ends p post) :
    (pre ++ post).dropWhile p = post := by
  rw [List.dropWhile_append_of_pos hpre, dropWhile_ends hpost]

/-- Where a scan for the test stops, the rest begins. -/
theorem drop_takeWhile (p : α → Bool) (l : List α) :
    l.drop (l.takeWhile p).length = l.dropWhile p := by
  calc l.drop (l.takeWhile p).length
      = (l.takeWhile p ++ l.dropWhile p).drop (l.takeWhile p).length := by
        rw [List.takeWhile_append_dropWhile]
    _ = l.dropWhile p := List.drop_left

/-- What does not pass the test is not dropped. -/
theorem mem_dropWhile_iff {a : α} (ha : p a = false) (l : List α) : a ∈ l.dropWhile p ↔ a ∈ l := by
  constructor
  · exact fun h => (List.dropWhile_sublist p).subset h
  · intro h
    rw [← List.takeWhile_append_dropWhile (p := p) (l := l), List.mem_append] at h
    refine h.resolve_left fun hmem => ?_
    rw [List.mem_takeWhile_imp hmem] at ha
    cases ha

theorem take_takeWhile (p : α → Bool) (l : List α) :
    l.take (l.takeWhile p).length = l.takeWhile p :=
  (List.prefix_iff_eq_take.mp (List.takeWhile_prefix p)).symm

/-! ## From both ends -/

/-- The test does not hold at the last element. -/
def Stops (p : α → Bool) (l : List α) : Prop := ∀ a, l.getLast? = some a → p a = false

theorem stops_iff_reverse {l : List α} : Stops p l ↔ Ends p l.reverse := by
  unfold Stops Ends
  rw [List.head?_reverse]

theorem stops_tail {a : α} {l : List α} (h : Stops p (a :: l)) : Stops p l := by
  intro b hb
  apply h
  rw [List.getLast?_cons, hb, Option.getD_some]

theorem stops_cons {a : α} {l : List α} (hne : l ≠ []) (h : Stops p l) : Stops p (a :: l) := by
  intro b hb
  apply h
  rwa [List.getLast?_cons_of_ne_nil hne] at hb

theorem stops_rdropWhile (p : α → Bool) (l : List α) : Stops p (l.rdropWhile p) := by
  rw [stops_iff_reverse, List.rdropWhile, List.reverse_reverse]
  exact ends_dropWhile p l.reverse

theorem rdropWhile_stop {pre post : List α} (hpre : Stops p pre) (hpost : ∀ a ∈ post, p a = true) :
    (pre ++ post).rdropWhile p = pre := by
  have hends := stops_iff_reverse.mp hpre
  have hall : ∀ a ∈ post.reverse, p a = true := fun a ha => hpost a (List.mem_reverse.mp ha)
  rw [List.rdropWhile, List.reverse_append, dropWhile_stop hall hends, List.reverse_reverse]

/-- What is left when both ends are cut off. -/
def trim (p : α → Bool) (l : List α) : List α := (l.dropWhile p).rdropWhile p

theorem trim_split {pre v post : List α} (hpre : ∀ a ∈ pre, p a = true) (hends : Ends p v)
    (hstops : Stops p v) (hpost : ∀ a ∈ post, p a = true) : trim p (pre ++ v ++ post) = v := by
  rw [trim, List.append_assoc, List.dropWhile_append_of_pos hpre]
  cases v with
  | nil =>
      rw [List.nil_append, List.dropWhile_eq_nil_iff.mpr hpost]
      rfl
  | cons a v =>
      have hbegins : Ends p (a :: v ++ post) := ends_cons (hends a rfl)
      rw [dropWhile_ends hbegins]
      exact rdropWhile_stop hstops hpost

theorem exists_trim (p : α → Bool) (l : List α) : ∃ pre post, l = pre ++ trim p l ++ post ∧
    (∀ a ∈ pre, p a = true) ∧ ∀ a ∈ post, p a = true := by
  refine ⟨l.takeWhile p, (l.dropWhile p).rtakeWhile p, ?_, ?_, ?_⟩
  · rw [trim, List.append_assoc, List.rdropWhile_append_rtakeWhile,
      List.takeWhile_append_dropWhile]
  · exact fun a ha => List.mem_takeWhile_imp ha
  · exact fun a ha => List.mem_rtakeWhile_imp ha

theorem stops_trim (p : α → Bool) (l : List α) : Stops p (trim p l) := stops_rdropWhile p _

theorem ends_trim (p : α → Bool) (l : List α) : Ends p (trim p l) := by
  intro a ha
  obtain ⟨rest, hrest⟩ := List.rdropWhile_prefix p (l.dropWhile p)
  apply ends_dropWhile p l
  rw [← hrest, List.head?_append, show ((l.dropWhile p).rdropWhile p).head? = some a from ha]
  rfl

/-! ## Two lists with a separator between them -/

/-- The separator is another one, so that a part of the second list went to the first. -/
def Shifted (sep : α) (a b a' b' : List α) : Prop := ∃ mid, a' = a ++ sep :: mid ∧ b = mid ++ sep :: b'

theorem not_shifted {sep : α} {a b b' : List α} : ¬ Shifted sep a b a b' := by
  intro ⟨mid, h, _⟩
  have hlen := congrArg List.length h
  rw [List.length_append, List.length_cons] at hlen
  omega

theorem Shifted.mem {sep : α} {a b a' b' : List α} (h : Shifted sep a b a' b') : sep ∈ a' := by
  obtain ⟨mid, rfl, -⟩ := h
  exact List.mem_append_right a List.mem_cons_self

theorem joined_eq_iff {sep : α} {a b a' b' : List α} :
    a ++ sep :: b = a' ++ sep :: b' ↔
      (a = a' ∧ b = b') ∨ Shifted sep a b a' b' ∨ Shifted sep a' b' a b := by
  rw [List.append_eq_append_iff]
  constructor
  · intro h
    rcases h with ⟨mid, ha, hb⟩ | ⟨mid, ha, hb⟩
    · cases mid with
      | nil =>
          rw [List.append_nil] at ha
          exact Or.inl ⟨ha.symm, (List.cons.inj hb).2⟩
      | cons c mid =>
          injection hb with hsep hb
          subst hsep
          exact Or.inr (Or.inl ⟨mid, ha, hb⟩)
    · cases mid with
      | nil =>
          rw [List.append_nil] at ha
          exact Or.inl ⟨ha, (List.cons.inj hb).2.symm⟩
      | cons c mid =>
          injection hb with hsep hb
          subst hsep
          exact Or.inr (Or.inr ⟨mid, ha, hb⟩)
  · intro h
    rcases h with ⟨rfl, rfl⟩ | ⟨mid, ha, hb⟩ | ⟨mid, ha, hb⟩
    · exact Or.inl ⟨[], (List.append_nil a).symm, rfl⟩
    · exact Or.inl ⟨sep :: mid, ha, congrArg (sep :: ·) hb⟩
    · exact Or.inr ⟨sep :: mid, ha, congrArg (sep :: ·) hb⟩

end Cut
