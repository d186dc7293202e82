import Mathlib.Data.List.Basic
import Handy.Lib.Run

/-! # Objects that own a block

Each object holds a pointer to a block of its own, or none. Copies duplicate the block,
moves hand it over, an assignment and a destructor delete what the object held. A program
goes wrong that deletes a block twice or reads one that is deleted. On values an object is
destroyed, empty or holds a content, and the operations are what one expects; a heap where
every pointer is good and no two objects share a block follows them, whatever the order of
the calls.
-/

namespace Owned

variable {β : Type}

/-- What an object is worth. -/
inductive Slot (β : Type) where
  | gone
  | null
  | held (b : β)
deriving DecidableEq

structure Heap (β : Type) where
  /-- by address; `none` once deleted -/
  blocks : List (Option β)
  /-- the pointer of each object; `none` once destroyed -/
  objects : List (Option (Option Nat))
deriving DecidableEq

inductive Call where
  | empty
  | copy (src : Nat)
  | move (src : Nat)
  | assign (dst src : Nat)
  | moveAssign (dst src : Nat)
  | destroy (i : Nat)
deriving DecidableEq, Repr

namespace Heap

/-- The pointer of an object that is alive. -/
def pointer (h : Heap β) (i : Nat) : Option (Option Nat) := h.objects[i]?.join

def block (h : Heap β) (a : Nat) : Option β := h.blocks[a]?.join

def setPointer (h : Heap β) (i : Nat) (p : Option Nat) : Heap β :=
  { h with objects := h.objects.set i (some p) }

def addObject (h : Heap β) (p : Option Nat) : Heap β :=
  { h with objects := h.objects ++ [some p] }

/-- `delete[]`. -/
def delete (h : Heap β) : Option Nat → Option (Heap β)
  | none => some h
  | some a => (h.block a).map fun _ => { h with blocks := h.blocks.set a none }

/-- A new block with a copy of what the pointer points to. -/
def duplicate (dup : β → Option β) (h : Heap β) : Option Nat → Option (Heap β × Option Nat)
  | none => some (h, none)
  | some a => do
      let b ← h.block a
      let c ← dup b
      return ({ h with blocks := h.blocks ++ [some c] }, some h.blocks.length)

/-- One call; `none` when it goes wrong. -/
def call (dup : β → Option β) (h : Heap β) : Call → Option (Heap β)
  | .empty => some (h.addObject none)
  | .copy src => do
      let p ← h.pointer src
      let (h, q) ← h.duplicate dup p
      return h.addObject q
  | .move src => do
      let p ← h.pointer src
      return (h.setPointer src none).addObject p
  | .assign dst src => do
      let h ← h.delete (← h.pointer dst)
      let (h, q) ← h.duplicate dup (← h.pointer src)
      return h.setPointer dst q
  | .moveAssign dst src => do
      let h ← h.delete (← h.pointer dst)
      let p ← h.pointer src
      return (h.setPointer dst p).setPointer src none
  | .destroy i => do
      let h ← h.delete (← h.pointer i)
      return { h with objects := h.objects.set i none }

def run (dup : β → Option β) (h : Heap β) : List Call → Option (Heap β)
  | [] => some h
  | c :: cs => (h.call dup c).bind fun h => h.run dup cs

/-- The first object, with a block of this content. -/
def start (b : β) : Heap β := ⟨[some b], [some (some 0)]⟩

def worth (h : Heap β) : Option (Option Nat) → Slot β
  | none => .gone
  | some none => .null
  | some (some a) => (h.block a).elim .gone .held

def view (h : Heap β) : List (Slot β) := h.objects.map h.worth

/-- Every pointer is good, and no two objects share a block. -/
structure Inv (h : Heap β) : Prop where
  live : ∀ i a : Nat, h.objects[i]? = some (some (some a)) → ∃ b, h.block a = some b
  alone : ∀ i j a : Nat, h.objects[i]? = some (some (some a)) → h.objects[j]? = some (some (some a)) →
    i = j

end Heap

/-! ## Values -/

def Live (s : List (Slot β)) (i : Nat) : Prop := s.getD i .gone ≠ .gone

/-- Calls on objects that are there, an assignment on two different ones. -/
def Valid (s : List (Slot β)) : Call → Prop
  | .empty => True
  | .copy src => Live s src
  | .move src => Live s src
  | .assign dst src => Live s dst ∧ Live s src ∧ dst ≠ src
  | .moveAssign dst src => Live s dst ∧ Live s src ∧ dst ≠ src
  | .destroy i => Live s i

instance [DecidableEq β] (s : List (Slot β)) (i : Nat) : Decidable (Live s i) :=
  inferInstanceAs (Decidable (_ ≠ _))

instance [DecidableEq β] (s : List (Slot β)) : (c : Call) → Decidable (Valid s c)
  | .empty => isTrue trivial
  | .copy _ => inferInstanceAs (Decidable (Live _ _))
  | .move _ => inferInstanceAs (Decidable (Live _ _))
  | .assign _ _ => inferInstanceAs (Decidable (_ ∧ _ ∧ _))
  | .moveAssign _ _ => inferInstanceAs (Decidable (_ ∧ _ ∧ _))
  | .destroy _ => inferInstanceAs (Decidable (Live _ _))

/-- What a call does to the values. -/
def step (s : List (Slot β)) : Call → List (Slot β)
  | .empty => s ++ [.null]
  | .copy src => s ++ [s.getD src .gone]
  | .move src => s.set src .null ++ [s.getD src .gone]
  | .assign dst src => s.set dst (s.getD src .gone)
  | .moveAssign dst src => (s.set dst (s.getD src .gone)).set src .null
  | .destroy i => s.set i .gone

def Slot.map {γ : Type} (f : β → γ) : Slot β → Slot γ
  | gone => gone
  | null => null
  | held b => held (f b)

section Map

variable {γ : Type} (f : β → γ)

theorem getD_map (s : List (Slot β)) (i : Nat) :
    (s.map (Slot.map f)).getD i .gone = (s.getD i .gone).map f := by
  rw [List.getD_eq_getElem?_getD, List.getD_eq_getElem?_getD, List.getElem?_map]
  cases s[i]? <;> rfl

theorem step_map (s : List (Slot β)) (c : Call) :
    step (s.map (Slot.map f)) c = (step s c).map (Slot.map f) := by
  cases c <;> simp only [step, getD_map, List.map_append, List.map_set, List.map_singleton, Slot.map]

theorem live_map {s : List (Slot β)} {i : Nat} (h : Live s i) : Live (s.map (Slot.map f)) i := by
  unfold Live at h ⊢
  rw [getD_map]
  cases hv : s.getD i .gone with
  | gone => exact absurd hv h
  | null => exact fun h => nomatch h
  | held b => exact fun h => nomatch h

theorem valid_map {s : List (Slot β)} {c : Call} (h : Valid s c) :
    Valid (s.map (Slot.map f)) c := by
  cases c with
  | empty => trivial
  | copy src => exact live_map f h
  | move src => exact live_map f h
  | assign dst src => exact ⟨live_map f h.1, live_map f h.2.1, h.2.2⟩
  | moveAssign dst src => exact ⟨live_map f h.1, live_map f h.2.1, h.2.2⟩
  | destroy i => exact live_map f h

theorem run_map {s : List (Slot β)} {cs : List Call} (h : Driven.Along step Valid s cs) :
    Driven.Along step Valid (s.map (Slot.map f)) cs ∧
      Driven.run step (s.map (Slot.map f)) cs = (Driven.run step s cs).map (Slot.map f) := by
  induction cs generalizing s with
  | nil => exact ⟨trivial, rfl⟩
  | cons c cs ih =>
      obtain ⟨hvalid, hrun⟩ := ih h.2
      refine ⟨⟨valid_map f h.1, ?_⟩, ?_⟩
      · rw [step_map]
        exact hvalid
      · rw [Driven.run_cons, step_map]
        exact hrun

end Map

namespace Heap

variable {h : Heap β} {dup : β → Option β}

theorem pointer_of_live {i : Nat} (hlive : Live h.view i) :
    ∃ p, h.pointer i = some p ∧ h.objects[i]? = some (some p) ∧
      h.view.getD i .gone = h.worth (some p) := by
  have hget : h.view.getD i .gone = (h.objects[i]?.map h.worth).getD .gone := by
    rw [view, List.getD_eq_getElem?_getD, List.getElem?_map]
  rw [Live, hget] at hlive
  rw [hget]
  rcases ho : h.objects[i]? with _ | _ | p
  · rw [ho] at hlive
    exact absurd rfl hlive
  · rw [ho] at hlive
    exact absurd rfl hlive
  · refine ⟨p, ?_, rfl, rfl⟩
    rw [pointer, ho]
    rfl

/-- What an object holds can be deleted, and nothing else is. -/
theorem delete_spec (hinv : h.Inv) {i : Nat} {p : Option Nat} (hp : h.objects[i]? = some (some p)) :
    ∃ h', h.delete p = some h' ∧ h'.objects = h.objects ∧
      ∀ a, p ≠ some a → h'.block a = h.block a := by
  cases p with
  | none => exact ⟨h, rfl, rfl, fun _ _ => rfl⟩
  | some a =>
      obtain ⟨b, hb⟩ := hinv.live i a hp
      refine ⟨{ h with blocks := h.blocks.set a none }, ?_, rfl, ?_⟩
      · rw [delete, hb]
        rfl
      · intro a' ha'
        have hne : a ≠ a' := fun heq => ha' (congrArg some heq)
        rw [block, block, List.getElem?_set_ne hne]

theorem worth_congr {h' : Heap β} {o : Option (Option Nat)}
    (hblock : ∀ a, o = some (some a) → h'.block a = h.block a) : h'.worth o = h.worth o := by
  rcases o with _ | _ | a
  · rfl
  · rfl
  · rw [worth, worth, hblock a rfl]

/-- A copy is a new block with the same content. -/
theorem duplicate_spec {p : Option Nat} (hp : h.worth (some p) ≠ .gone)
    (hdup : ∀ b, h.worth (some p) = .held b → dup b = some b) :
    ∃ h' q, h.duplicate dup p = some (h', q) ∧ h'.objects = h.objects ∧
      (∀ a b, h.block a = some b → h'.block a = some b ∧ q ≠ some a) ∧
      h'.worth (some q) = h.worth (some p) ∧ ∀ a, q = some a → ∃ b, h'.block a = some b := by
  cases p with
  | none =>
      refine ⟨h, none, rfl, rfl, fun a b hb => ⟨hb, fun hq => nomatch hq⟩, rfl, ?_⟩
      exact fun a hq => nomatch hq
  | some a =>
      cases hb : h.block a with
      | none =>
          rw [worth, hb] at hp
          exact absurd rfl hp
      | some b =>
          have hworth : h.worth (some (some a)) = .held b := by
            rw [worth, hb, Option.elim_some]
          have hnew : ({ h with blocks := h.blocks ++ [some b] } : Heap β).block h.blocks.length =
              some b := by
            rw [block, List.getElem?_concat_length]
            rfl
          refine ⟨{ h with blocks := h.blocks ++ [some b] }, some h.blocks.length, ?_, rfl, ?_, ?_, ?_⟩
          · rw [duplicate, hb]
            simp only [Option.bind_eq_bind, Option.bind_some, hdup b hworth]
            rfl
          · intro a' b' hb'
            have hlt : a' < h.blocks.length := by
              by_contra hge
              rw [block, List.getElem?_eq_none (Nat.le_of_not_lt hge)] at hb'
              cases hb'
            refine ⟨?_, ?_⟩
            · rw [block, List.getElem?_append_left hlt]
              exact hb'
            · intro hq
              cases hq
              exact Nat.lt_irrefl _ hlt
          · rw [hworth, worth, hnew, Option.elim_some]
          · intro a' ha'
            cases ha'
            exact ⟨b, hnew⟩

/-! ## One object changes -/

theorem view_set {h' : Heap β} {i : Nat} {o : Option (Option Nat)}
    (hobjects : h'.objects = h.objects.set i o)
    (hrest : ∀ j a : Nat, j ≠ i → h.objects[j]? = some (some (some a)) → h'.block a = h.block a) :
    h'.view = h.view.set i (h'.worth o) := by
  apply List.ext_getElem?
  intro j
  rw [view, view, hobjects, List.map_set, List.getElem?_set, List.getElem?_set, List.length_map,
    List.length_map, List.getElem?_map, List.getElem?_map]
  split
  · rfl
  · next hne =>
      cases ho : h.objects[j]? with
      | none => rfl
      | some o' =>
          rw [Option.map_some, Option.map_some]
          refine congrArg some (worth_congr fun a ha => hrest j a (Ne.symm hne) ?_)
          rw [ho, ha]

theorem Inv.set {h' : Heap β} (hinv : h.Inv) {i : Nat} {o : Option (Option Nat)}
    (hobjects : h'.objects = h.objects.set i o)
    (hrest : ∀ j a : Nat, j ≠ i → h.objects[j]? = some (some (some a)) → h'.block a = h.block a)
    (hown : ∀ a, o = some (some a) → (∃ b, h'.block a = some b) ∧
      ∀ j, j ≠ i → h.objects[j]? ≠ some (some (some a))) : h'.Inv := by
  constructor
  · intro j a hj
    rw [hobjects, List.getElem?_set] at hj
    split at hj
    · split at hj
      · exact (hown a (Option.some.inj hj)).1
      · cases hj
    · next hne =>
        obtain ⟨b, hb⟩ := hinv.live j a hj
        exact ⟨b, (hrest j a (Ne.symm hne) hj).trans hb⟩
  · intro j k a hj hk
    rw [hobjects, List.getElem?_set] at hj hk
    by_cases hji : i = j
    · by_cases hki : i = k
      · exact hji.symm.trans hki
      · rw [if_pos hji] at hj
        rw [if_neg hki] at hk
        split at hj
        · exact absurd hk ((hown a (Option.some.inj hj)).2 k (Ne.symm hki))
        · cases hj
    · rw [if_neg hji] at hj
      by_cases hki : i = k
      · rw [if_pos hki] at hk
        split at hk
        · exact absurd hj ((hown a (Option.some.inj hk)).2 j (Ne.symm hji))
        · cases hk
      · rw [if_neg hki] at hk
        exact hinv.alone j k a hj hk

theorem view_add {h' : Heap β} {o : Option (Option Nat)} (hobjects : h'.objects = h.objects ++ [o])
    (hrest : ∀ j a : Nat, h.objects[j]? = some (some (some a)) → h'.block a = h.block a) :
    h'.view = h.view ++ [h'.worth o] := by
  rw [view, view, hobjects, List.map_append, List.map_singleton]
  congr 1
  apply List.map_congr_left
  intro o' ho'
  obtain ⟨j, hj⟩ := List.mem_iff_getElem?.mp ho'
  exact worth_congr fun a ha => hrest j a (hj.trans (congrArg some ha))

theorem Inv.add {h' : Heap β} (hinv : h.Inv) {o : Option (Option Nat)}
    (hobjects : h'.objects = h.objects ++ [o])
    (hrest : ∀ j a : Nat, h.objects[j]? = some (some (some a)) → h'.block a = h.block a)
    (hown : ∀ a, o = some (some a) → (∃ b, h'.block a = some b) ∧
      ∀ j : Nat, h.objects[j]? ≠ some (some (some a))) : h'.Inv := by
  have hcases : ∀ j a : Nat, h'.objects[j]? = some (some (some a)) →
      h.objects[j]? = some (some (some a)) ∨ j = h.objects.length ∧ o = some (some a) := by
    intro j a hj
    rw [hobjects, List.getElem?_append] at hj
    split at hj
    · exact Or.inl hj
    · next hge =>
        rw [List.getElem?_singleton] at hj
        split at hj
        · next hzero => exact Or.inr ⟨by omega, Option.some.inj hj⟩
        · cases hj
  constructor
  · intro j a hj
    rcases hcases j a hj with hold | ⟨-, ho⟩
    · obtain ⟨b, hb⟩ := hinv.live j a hold
      exact ⟨b, (hrest j a hold).trans hb⟩
    · exact (hown a ho).1
  · intro j k a hj hk
    rcases hcases j a hj with hj | ⟨hj, ho⟩
    · rcases hcases k a hk with hk | ⟨-, ho⟩
      · exact hinv.alone j k a hj hk
      · exact absurd hj ((hown a ho).2 j)
    · rcases hcases k a hk with hk | ⟨hk, -⟩
      · exact absurd hk ((hown a ho).2 k)
      · exact hj.trans hk.symm

theorem worth_ne_gone (hinv : h.Inv) {i : Nat} {p : Option Nat}
    (hp : h.objects[i]? = some (some p)) : h.worth (some p) ≠ .gone := by
  cases p with
  | none => exact fun h => nomatch h
  | some a =>
      obtain ⟨b, hb⟩ := hinv.live i a hp
      rw [worth, hb, Option.elim_some]
      exact fun h => nomatch h

/-- The other objects keep their blocks when the block of one is deleted. -/
theorem Inv.spared (hinv : h.Inv) {h' : Heap β} {i : Nat} {p : Option Nat}
    (hp : h.objects[i]? = some (some p)) (hblock : ∀ a, p ≠ some a → h'.block a = h.block a)
    {j a : Nat} (hj : j ≠ i) (ha : h.objects[j]? = some (some (some a))) :
    h'.block a = h.block a := by
  refine hblock a fun heq => hj ?_
  subst heq
  exact hinv.alone j i a ha hp

theorem call_empty (hinv : h.Inv) :
    ∃ h', h.call dup .empty = some h' ∧ h'.Inv ∧ h'.view = step h.view .empty :=
  have hadd : (h.addObject none).objects = h.objects ++ [some none] := rfl
  ⟨h.addObject none, rfl, hinv.add hadd (fun _ _ _ => rfl) (fun _ ha => nomatch ha),
    view_add hadd fun _ _ _ => rfl⟩

theorem call_copy (hinv : h.Inv) {src : Nat} (hsrc : Live h.view src)
    (hdup : ∀ b, h.view.getD src .gone = .held b → dup b = some b) :
    ∃ h', h.call dup (.copy src) = some h' ∧ h'.Inv ∧ h'.view = step h.view (.copy src) := by
  obtain ⟨p, hpointer, hp, hvalue⟩ := pointer_of_live hsrc
  rw [hvalue] at hdup
  obtain ⟨h1, q, hduplicate, hobjects, hkept, hworth, hnew⟩ :=
    duplicate_spec (worth_ne_gone hinv hp) hdup
  have hrest : ∀ j a : Nat, h.objects[j]? = some (some (some a)) → h1.block a = h.block a := by
    intro j a hj
    obtain ⟨b, hb⟩ := hinv.live j a hj
    exact (hkept a b hb).1.trans hb.symm
  have hadd : (h1.addObject q).objects = h.objects ++ [some q] := by
    rw [addObject, hobjects]
  refine ⟨h1.addObject q, ?_, hinv.add hadd hrest ?_, ?_⟩
  · rw [call, hpointer]
    simp only [Option.bind_eq_bind, Option.bind_some, hduplicate]
    rfl
  · intro a ha
    cases ha
    refine ⟨hnew a rfl, fun j hj => ?_⟩
    obtain ⟨b, hb⟩ := hinv.live j a hj
    exact (hkept a b hb).2 rfl
  · rw [view_add hadd hrest, step, hvalue, ← hworth]
    rfl

theorem Inv.taken (hinv : h.Inv) (i : Nat) :
    (h.setPointer i none).Inv ∧ (h.setPointer i none).view = h.view.set i .null := by
  have hset : (h.setPointer i none).objects = h.objects.set i (some none) := rfl
  exact ⟨hinv.set hset (fun _ _ _ _ => rfl) (fun _ ha => nomatch ha),
    view_set hset fun _ _ _ _ => rfl⟩

theorem Inv.free (hinv : h.Inv) {i j a a' : Nat} (hi : h.objects[i]? = some (some (some a)))
    (hj : (h.setPointer i none).objects[j]? = some (some (some a'))) :
    j ≠ i ∧ h.objects[j]? = some (some (some a')) ∧ a' ≠ a := by
  rw [setPointer, List.getElem?_set] at hj
  split at hj
  · split at hj <;> cases hj
  · next hne =>
      refine ⟨Ne.symm hne, hj, ?_⟩
      intro heq
      subst heq
      exact hne (hinv.alone i j a' hi hj)

theorem call_move (hinv : h.Inv) {src : Nat} (hsrc : Live h.view src) :
    ∃ h', h.call dup (.move src) = some h' ∧ h'.Inv ∧ h'.view = step h.view (.move src) := by
  obtain ⟨p, hpointer, hp, hvalue⟩ := pointer_of_live hsrc
  -- first the pointer goes from the source, then the new object has it
  obtain ⟨htaken, hview⟩ := hinv.taken src
  have hadd : ((h.setPointer src none).addObject p).objects =
      (h.setPointer src none).objects ++ [some p] := rfl
  refine ⟨(h.setPointer src none).addObject p, ?_, htaken.add hadd (fun _ _ _ => rfl) ?_, ?_⟩
  · rw [call, hpointer]
    rfl
  · intro a ha
    cases ha
    exact ⟨hinv.live src a hp, fun j hj => (hinv.free hp hj).2.2 rfl⟩
  · rw [view_add hadd fun _ _ _ => rfl, hview, step, hvalue]
    rfl

theorem call_assign (hinv : h.Inv) {dst src : Nat} (hdst : Live h.view dst)
    (hsrc : Live h.view src) (hne : dst ≠ src)
    (hdup : ∀ b, h.view.getD src .gone = .held b → dup b = some b) :
    ∃ h', h.call dup (.assign dst src) = some h' ∧ h'.Inv ∧
      h'.view = step h.view (.assign dst src) := by
  obtain ⟨old, hpointer, hold, -⟩ := pointer_of_live hdst
  obtain ⟨p, hpointer', hp, hvalue⟩ := pointer_of_live hsrc
  obtain ⟨h1, hdelete, hobjects, hblock⟩ := delete_spec hinv hold
  have hspared : ∀ j a : Nat, j ≠ dst → h.objects[j]? = some (some (some a)) →
      h1.block a = h.block a := fun j a hj ha => hinv.spared hold hblock hj ha
  have hsame : h1.worth (some p) = h.worth (some p) :=
    worth_congr fun a ha => hspared src a (Ne.symm hne) (hp.trans (congrArg some ha))
  rw [hvalue, ← hsame] at hdup
  obtain ⟨h2, q, hduplicate, hobjects', hkept, hworth, hnew⟩ :=
    duplicate_spec (by rw [hsame]; exact worth_ne_gone hinv hp) hdup
  have hrest : ∀ j a : Nat, j ≠ dst → h.objects[j]? = some (some (some a)) →
      h2.block a = h.block a := by
    intro j a hj ha
    obtain ⟨b, hb⟩ := hinv.live j a ha
    exact (hkept a b ((hspared j a hj ha).trans hb)).1.trans hb.symm
  have hset : (h2.setPointer dst q).objects = h.objects.set dst (some q) := by
    rw [setPointer, hobjects', hobjects]
  refine ⟨h2.setPointer dst q, ?_, hinv.set hset hrest ?_, ?_⟩
  · have hpointer1 : h1.pointer src = some p := by
      rw [pointer, hobjects]
      exact hpointer'
    rw [call, hpointer]
    simp only [Option.bind_eq_bind, Option.bind_some, hdelete, hpointer1, hduplicate]
    rfl
  · intro a ha
    cases ha
    refine ⟨hnew a rfl, fun j hj hja => ?_⟩
    obtain ⟨b, hb⟩ := hinv.live j a hja
    exact (hkept a b ((hspared j a hj hja).trans hb)).2 rfl
  · rw [view_set hset hrest, step, hvalue, ← hsame, ← hworth]
    rfl

theorem call_moveAssign (hinv : h.Inv) {dst src : Nat} (hdst : Live h.view dst)
    (hsrc : Live h.view src) (hne : dst ≠ src) :
    ∃ h', h.call dup (.moveAssign dst src) = some h' ∧ h'.Inv ∧
      h'.view = step h.view (.moveAssign dst src) := by
  obtain ⟨old, hpointer, hold, -⟩ := pointer_of_live hdst
  obtain ⟨p, hpointer', hp, hvalue⟩ := pointer_of_live hsrc
  obtain ⟨h1, hdelete, hobjects, hblock⟩ := delete_spec hinv hold
  -- as if the pointer went from the source first
  obtain ⟨htaken, hview⟩ := hinv.taken src
  have hset : ((h1.setPointer dst p).setPointer src none).objects =
      (h.setPointer src none).objects.set dst (some p) := by
    rw [setPointer, setPointer, setPointer, hobjects]
    exact List.set_comm _ _ hne
  have hspared : ∀ j a : Nat, j ≠ dst → h.objects[j]? = some (some (some a)) →
      h1.block a = h.block a := fun j a hj ha => hinv.spared hold hblock hj ha
  have hrest : ∀ j a : Nat, j ≠ dst → (h.setPointer src none).objects[j]? = some (some (some a)) →
      h1.block a = h.block a := by
    intro j a hj ha
    rw [setPointer, List.getElem?_set] at ha
    split at ha
    · split at ha <;> cases ha
    · exact hspared j a hj ha
  refine ⟨(h1.setPointer dst p).setPointer src none, ?_, htaken.set hset hrest ?_, ?_⟩
  · have hpointer1 : h1.pointer src = some p := by
      rw [pointer, hobjects]
      exact hpointer'
    rw [call, hpointer]
    simp only [Option.bind_eq_bind, Option.bind_some, hdelete, hpointer1]
    rfl
  · intro a ha
    cases ha
    obtain ⟨b, hb⟩ := hinv.live src a hp
    exact ⟨⟨b, (hspared src a (Ne.symm hne) hp).trans hb⟩,
      fun j _ hj => (hinv.free hp hj).2.2 rfl⟩
  · have hworth : h1.worth (some p) = h.worth (some p) :=
      worth_congr fun a ha => hspared src a (Ne.symm hne) (hp.trans (congrArg some ha))
    rw [view_set hset hrest, hview, step, hvalue, ← hworth]
    exact List.set_comm _ _ (Ne.symm hne)

theorem call_destroy (hinv : h.Inv) {i : Nat} (hi : Live h.view i) :
    ∃ h', h.call dup (.destroy i) = some h' ∧ h'.Inv ∧ h'.view = step h.view (.destroy i) := by
  obtain ⟨old, hpointer, hold, -⟩ := pointer_of_live hi
  obtain ⟨h1, hdelete, hobjects, hblock⟩ := delete_spec hinv hold
  have hrest : ∀ j a : Nat, j ≠ i → h.objects[j]? = some (some (some a)) →
      h1.block a = h.block a := fun j a hj ha => hinv.spared hold hblock hj ha
  have hset : ({ h1 with objects := h1.objects.set i none } : Heap β).objects =
      h.objects.set i none := by
    rw [hobjects]
  refine ⟨{ h1 with objects := h1.objects.set i none }, ?_, hinv.set hset hrest ?_, ?_⟩
  · rw [call, hpointer]
    simp only [Option.bind_eq_bind, Option.bind_some, hdelete]
    rfl
  · exact fun a ha => nomatch ha
  · exact view_set hset hrest

/-- Every content an object holds can be copied. -/
def Copies (dup : β → Option β) (s : List (Slot β)) : Prop := ∀ b, Slot.held b ∈ s → dup b = some b

theorem mem_of_held {s : List (Slot β)} {i : Nat} {b : β} (h : s.getD i .gone = .held b) :
    Slot.held b ∈ s := by
  rw [List.getD_eq_getElem?_getD] at h
  cases hi : s[i]? with
  | none =>
      rw [hi] at h
      cases h
  | some v =>
      rw [hi] at h
      exact h ▸ List.mem_of_getElem? hi

theorem Copies.getD {s : List (Slot β)} (hs : Copies dup s) {i : Nat} {b : β}
    (h : s.getD i .gone = .held b) : dup b = some b := hs b (mem_of_held h)

/-- One call follows the values. -/
theorem call_spec (hinv : h.Inv) (hcopies : Copies dup h.view) {c : Call} (hvalid : Valid h.view c) :
    ∃ h', h.call dup c = some h' ∧ h'.Inv ∧ h'.view = step h.view c := by
  cases c with
  | empty => exact call_empty hinv
  | copy src => exact call_copy hinv hvalid fun _ => hcopies.getD
  | move src => exact call_move hinv hvalid
  | assign dst src =>
      exact call_assign hinv hvalid.1 hvalid.2.1 hvalid.2.2 fun _ => hcopies.getD
  | moveAssign dst src => exact call_moveAssign hinv hvalid.1 hvalid.2.1 hvalid.2.2
  | destroy i => exact call_destroy hinv hvalid

theorem held_of_step {s : List (Slot β)} {c : Call} {b : β} (h : Slot.held b ∈ step s c) :
    Slot.held b ∈ s := by
  cases c with
  | empty =>
      rcases List.mem_append.mp h with h | h
      · exact h
      · cases List.mem_singleton.mp h
  | copy src =>
      rcases List.mem_append.mp h with h | h
      · exact h
      · exact mem_of_held (List.mem_singleton.mp h).symm
  | move src =>
      rcases List.mem_append.mp h with h | h
      · rcases List.mem_or_eq_of_mem_set h with h | h
        · exact h
        · cases h
      · exact mem_of_held (List.mem_singleton.mp h).symm
  | assign dst src =>
      rcases List.mem_or_eq_of_mem_set h with h | h
      · exact h
      · exact mem_of_held h.symm
  | moveAssign dst src =>
      rcases List.mem_or_eq_of_mem_set h with h | h
      · rcases List.mem_or_eq_of_mem_set h with h | h
        · exact h
        · exact mem_of_held h.symm
      · cases h
  | destroy i =>
      rcases List.mem_or_eq_of_mem_set h with h | h
      · exact h
      · cases h

/-- A run of valid calls goes through and follows the values. -/
theorem run_spec (hinv : h.Inv) (hcopies : Copies dup h.view) {cs : List Call}
    (hvalid : Driven.Along step Valid h.view cs) :
    ∃ h', h.run dup cs = some h' ∧ h'.Inv ∧ h'.view = Driven.run step h.view cs := by
  induction cs generalizing h with
  | nil => exact ⟨h, rfl, hinv, rfl⟩
  | cons c cs ih =>
      obtain ⟨h1, hcall, hinv1, hview1⟩ := call_spec hinv hcopies hvalid.1
      have hcopies1 : Copies dup h1.view := fun b hb => hcopies b (held_of_step (hview1 ▸ hb))
      obtain ⟨h2, hrun, hinv2, hview2⟩ := ih hinv1 hcopies1 (hview1 ▸ hvalid.2)
      refine ⟨h2, ?_, hinv2, ?_⟩
      · rw [run, hcall]
        exact hrun
      · rw [hview2, hview1, Driven.run_cons]

theorem start_inv (b : β) : (start b).Inv := by
  have hone : ∀ i a : Nat, (start b).objects[i]? = some (some (some a)) → i = 0 ∧ a = 0 := by
    intro i a hi
    rw [start, List.getElem?_singleton] at hi
    split at hi
    · next hzero =>
        cases hi
        exact ⟨hzero, rfl⟩
    · cases hi
  constructor
  · intro i a hi
    rw [(hone i a hi).2]
    exact ⟨b, rfl⟩
  · intro i j a hi hj
    rw [(hone i a hi).1, (hone j a hj).1]

theorem block_of_view {i : Nat} {b : β} (hi : h.view[i]? = some (.held b)) :
    ∃ a, h.pointer i = some (some a) ∧ h.block a = some b := by
  rw [view, List.getElem?_map, Option.map_eq_some_iff] at hi
  obtain ⟨o, ho, hworth⟩ := hi
  rcases o with _ | _ | a
  · cases hworth
  · cases hworth
  · refine ⟨a, ?_, ?_⟩
    · rw [pointer, ho]
      rfl
    · rw [worth] at hworth
      cases hb : h.block a with
      | none =>
          rw [hb] at hworth
          cases hworth
      | some b' =>
          rw [hb] at hworth
          cases hworth
          rfl

end Heap

end Owned
