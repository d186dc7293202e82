import Handy.Base.MultiBase
import Handy.Base.Wakeup

/-! # AcceptedCon connections and their bases

`TcpServer::handleAccept` gives each descriptor it accepts to the next base of the
vector: on its own base the connection is made at once, on another one by a task that
`safeCall` hands over. The loops of all bases run meanwhile, with tasks and threads of
their own. A descriptor whose names cannot be read is passed over and stays open.
-/

namespace Handy

/-- A task in `tasks_` of a base: `addcon` with what it has captured, or another one. -/
inductive BaseTask (C : Type) where
  | addcon (con : C)
  | other
deriving DecidableEq, Repr

def BaseTask.con? {C : Type} : BaseTask C → Option C
  | .addcon con => some con
  | .other => none

/-- A descriptor `accept` returned, whether `getpeername` and `getsockname` gave its names,
and the base it was given to. -/
structure AcceptedCon (C : Type) where
  con : C
  peer : Bool
  localName : Bool
  base : Option Nat
deriving DecidableEq, Repr

/-- A server on the bases of a `MultiBase`. `owed` is the base whose pipe `safeCall` has yet to
write to; `accepted`, `atOnce` (the connections made in `handleAccept` itself) and `allocated`
(what `allocBase` returned) are bookkeeping. -/
structure AcceptLoop (P C : Type) where
  bases : MultiBase
  base : Nat
  loops : Nat → Wake (Option P) (BaseTask C)
  owed : Option Nat
  fatal : Bool
  accepted : List (AcceptedCon C)
  atOnce : List C
  allocated : List Nat

/-- What happens next: `accept` returns a descriptor and the calls behind it succeed or not,
`safeCall` writes its byte, another server allocates a base, or a loop or a thread at its
queue makes a step of its own. -/
inductive AcceptChoice (P C : Type) where
  | accept (con : C) (peer localName flag : Bool)
  | write
  | alloc
  | loop (b : Nat) (c : WakeChoice P Unit)
deriving Repr

/-- The steps of the others; the thread of `handleAccept` is `none`. -/
def WakeChoice.others {P C : Type} : WakeChoice P Unit → WakeChoice (Option P) (BaseTask C)
  | .push p _ => .push (some p) .other
  | .write p => .write (some p)
  | .wakeup => .wakeup
  | .read n => .read n
  | .pop => .pop
  | .taskPush _ => .taskPush .other
  | .taskWrite => .taskWrite
  | .taskReturn => .taskReturn

namespace AcceptLoop

variable {P C : Type} [DecidableEq P]

omit [DecidableEq P] in
/-- `TcpServer(bases)` on a new `MultiBase(sz)`. -/
def listen (sz : Nat) : AcceptLoop P C where
  bases := (MultiBase.new sz).allocBase.2
  base := (MultiBase.new sz).allocBase.1
  loops _ := .new 0
  owed := none
  fatal := false
  accepted := []
  atOnce := []
  allocated := [(MultiBase.new sz).allocBase.1]

def setLoop (s : AcceptLoop P C) (b : Nat) (w : Wake (Option P) (BaseTask C)) : AcceptLoop P C :=
  { s with loops := fun i => if i = b then w else s.loops i }

/-- `bases_->allocBase()` and what `handleAccept` does with the base. -/
def addCon (s : AcceptLoop P C) (con : C) : AcceptLoop P C :=
  let (b, bases) := s.bases.allocBase
  let s : AcceptLoop P C := { s with
    bases := bases
    allocated := s.allocated ++ [b]
    accepted := s.accepted ++ [⟨con, true, true, some b⟩] }
  if b = s.base then { s with atOnce := s.atOnce ++ [con] }
  else { s.setLoop b ((s.loops b).step (.push none (.addcon con))) with owed := some b }

/-- One step; a choice that is not possible changes nothing. -/
def step (s : AcceptLoop P C) : AcceptChoice P C → AcceptLoop P C
  | .accept con peer localName flag =>
      if s.owed.isSome || s.fatal then s
      else if peer && localName then
        if flag then s.addCon con else { s with fatal := true }
      -- `continue`: the descriptor is not closed
      else { s with accepted := s.accepted ++ [⟨con, peer, localName, none⟩] }
  | .write =>
      match s.owed with
      | none => s
      | some b => { s.setLoop b ((s.loops b).step (.write none)) with owed := none }
  | .alloc =>
      { s with bases := s.bases.allocBase.2, allocated := s.allocated ++ [s.bases.allocBase.1] }
  | .loop b c => s.setLoop b ((s.loops b).step c.others)

/-- The connections of a history given to a base, in the order they came. -/
def givenIn (l : List (AcceptedCon C)) (b : Nat) : List C :=
  l.filterMap fun a => if a.base = some b then some a.con else none

def given (s : AcceptLoop P C) (b : Nat) : List C := givenIn s.accepted b

def attached (s : AcceptLoop P C) (b : Nat) : List C :=
  if b = s.base then s.atOnce else (s.loops b).started.filterMap BaseTask.con?

def waiting (s : AcceptLoop P C) (b : Nat) : List C :=
  (s.loops b).tasks.items.filterMap BaseTask.con?

/-! ## What every step keeps -/

/-- Each loop is woken, and its queue was handed the connections given to its base. -/
structure Inv (s : AcceptLoop P C) : Prop where
  loops : ∀ b, (s.loops b).Inv
  called : ∀ b, (s.loops b).called.filterMap BaseTask.con? = if b = s.base then [] else s.given b
  atOnce : s.atOnce = s.given s.base
  mid : ∀ b, (s.loops b).midCall none = true → s.owed = some b
  named : ∀ a ∈ s.accepted, a.base = none ↔ ¬ (a.peer = true ∧ a.localName = true)

omit [DecidableEq P] in
theorem inv_listen (sz : Nat) : (listen sz : AcceptLoop P C).Inv where
  loops _ := .new
  called b := by
    show ([] : List C) = _
    split <;> rfl
  atOnce := rfl
  mid _ h := absurd h Bool.false_ne_true
  named := nofun

/-- Steps of the others leave the connections and the thread of `handleAccept` alone. -/
theorem others_frame (w : Wake (Option P) (BaseTask C)) (c : WakeChoice P Unit) :
    (w.step c.others).called.filterMap BaseTask.con? = w.called.filterMap BaseTask.con? ∧
      (w.step c.others).midCall none = w.midCall none := by
  have hpush : ∀ l : List (BaseTask C),
      (l ++ [BaseTask.other]).filterMap BaseTask.con? = l.filterMap BaseTask.con? := by
    intro l
    rw [List.filterMap_append]
    exact List.append_nil _
  have hmid : ∀ (w : Wake (Option P) (BaseTask C)) (p : P) (mid : Bool),
      (w.setMid (some p) mid).midCall none = w.midCall none := by
    intro w p mid
    simp [Wake.setMid]
  cases c with
  | push p t =>
      rw [WakeChoice.others, Wake.step]
      split
      · exact ⟨rfl, rfl⟩
      · exact ⟨hpush _, hmid _ _ _⟩
  | write p =>
      rw [WakeChoice.others, Wake.step]
      split
      · exact ⟨rfl, hmid _ _ _⟩
      · exact ⟨rfl, rfl⟩
  | wakeup => exact ⟨rfl, rfl⟩
  | read n =>
      rw [WakeChoice.others, Wake.step]
      split <;> exact ⟨rfl, rfl⟩
  | pop =>
      rw [WakeChoice.others, Wake.step]
      split
      · split <;> exact ⟨rfl, rfl⟩
      · exact ⟨rfl, rfl⟩
  | taskPush t =>
      rw [WakeChoice.others, Wake.step]
      split
      · exact ⟨hpush _, rfl⟩
      · exact ⟨rfl, rfl⟩
  | taskWrite =>
      rw [WakeChoice.others, Wake.step]
      split <;> exact ⟨rfl, rfl⟩
  | taskReturn =>
      rw [WakeChoice.others, Wake.step]
      split <;> exact ⟨rfl, rfl⟩

omit [DecidableEq P] in
theorem Inv.setLoop {s : AcceptLoop P C} (h : s.Inv) {b : Nat} {w : Wake (Option P) (BaseTask C)}
    (hw : w.Inv)
    (hcalled : w.called.filterMap BaseTask.con? = (s.loops b).called.filterMap BaseTask.con?)
    {owed : Option Nat} (hmid : ∀ i, (if i = b then w else s.loops i).midCall none = true →
      owed = some i) : Inv { s.setLoop b w with owed := owed } where
  loops i := by
    show (if i = b then w else s.loops i).Inv
    split
    · exact hw
    · exact h.loops i
  called i := by
    show ((if i = b then w else s.loops i).called.filterMap BaseTask.con?) = _
    split
    · next heq =>
        rw [hcalled, heq]
        exact h.called b
    · exact h.called i
  atOnce := h.atOnce
  mid := hmid
  named := h.named

omit [DecidableEq P] in
theorem givenIn_concat (l : List (AcceptedCon C)) (a : AcceptedCon C) (b : Nat) :
    givenIn (l ++ [a]) b = givenIn l b ++ if a.base = some b then [a.con] else [] := by
  unfold givenIn
  rw [List.filterMap_append]
  by_cases h : a.base = some b
  · simp [h]
  · simp [h]

theorem addCon_at {s : AcceptLoop P C} (con : C) (h : s.bases.allocBase.1 = s.base) :
    s.addCon con =
      { s with
        bases := s.bases.allocBase.2
        allocated := s.allocated ++ [s.base]
        accepted := s.accepted ++ [⟨con, true, true, some s.base⟩]
        atOnce := s.atOnce ++ [con] } := by
  unfold AcceptLoop.addCon
  simp only [h, if_true]

theorem addCon_elsewhere {s : AcceptLoop P C} (con : C) (h : s.bases.allocBase.1 ≠ s.base) :
    s.addCon con =
      let b := s.bases.allocBase.1
      { s.setLoop b ((s.loops b).step (.push none (.addcon con))) with
        bases := s.bases.allocBase.2
        allocated := s.allocated ++ [b]
        accepted := s.accepted ++ [⟨con, true, true, some b⟩]
        owed := some b } := by
  unfold AcceptLoop.addCon
  simp only [if_neg h]
  rfl

theorem named_concat {l : List (AcceptedCon C)} {a : AcceptedCon C}
    (h : ∀ a ∈ l, a.base = none ↔ ¬ (a.peer = true ∧ a.localName = true))
    (ha : a.base = none ↔ ¬ (a.peer = true ∧ a.localName = true)) :
    ∀ a' ∈ l ++ [a], a'.base = none ↔ ¬ (a'.peer = true ∧ a'.localName = true) := by
  intro a' ha'
  rcases List.mem_append.mp ha' with ha' | ha'
  · exact h a' ha'
  · rw [List.mem_singleton.mp ha']
    exact ha

theorem Inv.addCon {s : AcceptLoop P C} (h : s.Inv) (howed : s.owed = none) (con : C) :
    (s.addCon con).Inv := by
  have hidle : ∀ i, (s.loops i).midCall none = false := by
    intro i
    rw [← Bool.not_eq_true]
    intro hmid
    have hone := h.mid i hmid
    rw [howed] at hone
    cases hone
  have hname : ∀ b, (⟨con, true, true, some b⟩ : AcceptedCon C).base = none ↔
      ¬ (true = true ∧ true = true) := by
    intro b
    simp
  by_cases hb : s.bases.allocBase.1 = s.base
  · rw [addCon_at con hb]
    refine ⟨h.loops, fun i => ?_, ?_, fun i hi => ?_, named_concat h.named (hname _)⟩
    · have hcalled := h.called i
      show (s.loops i).called.filterMap BaseTask.con? = if i = s.base then [] else
        givenIn (s.accepted ++ [⟨con, true, true, some s.base⟩]) _
      rw [givenIn_concat]
      by_cases hi : i = s.base
      · rw [if_pos hi] at hcalled ⊢
        exact hcalled
      · rw [if_neg hi] at hcalled ⊢
        have hother : ¬ (some s.base = some i) := fun heq => hi (Option.some.inj heq).symm
        rw [if_neg hother, List.append_nil]
        exact hcalled
    · show s.atOnce ++ [con] = givenIn (s.accepted ++ [⟨con, true, true, some s.base⟩]) _
      rw [givenIn_concat, if_pos rfl, h.atOnce]
      rfl
    · rw [hidle i] at hi
      cases hi
  · rw [addCon_elsewhere con hb]
    generalize s.bases.allocBase.1 = b at hb hname ⊢
    have hpush : (s.loops b).step (.push none (.addcon con)) =
        ((s.loops b).pushTask (.addcon con)).setMid none true := by
      rw [Wake.step, hidle b]
      rfl
    refine ⟨fun i => ?_, fun i => ?_, ?_, fun i hi => ?_, named_concat h.named (hname _)⟩
    · show (if i = b then _ else s.loops i).Inv
      split
      · exact (h.loops b).push none _
      · exact h.loops i
    · have hcalled := h.called i
      show ((if i = b then _ else s.loops i).called.filterMap BaseTask.con?) = if i = s.base then []
        else givenIn (s.accepted ++ [⟨con, true, true, some b⟩]) _
      rw [givenIn_concat]
      by_cases hi : i = b
      · subst hi
        rw [if_neg hb] at hcalled ⊢
        rw [if_pos rfl, if_pos rfl, hpush]
        show ((s.loops i).called ++ [BaseTask.addcon con]).filterMap BaseTask.con? = _
        rw [List.filterMap_append, hcalled]
        rfl
      · have hother : ¬ (some b = some i) := fun heq => hi (Option.some.inj heq).symm
        rw [if_neg hi, if_neg hother, List.append_nil]
        exact hcalled
    · have hother : ¬ (some b = some s.base) := fun heq => hb (Option.some.inj heq)
      show s.atOnce = givenIn (s.accepted ++ [⟨con, true, true, some b⟩]) s.base
      rw [givenIn_concat, if_neg hother, List.append_nil]
      exact h.atOnce
    · by_cases heq : i = b
      · rw [heq]
      · have hsame : (s.loops i).midCall none = true := by
          have hloop : (if i = b then (s.loops b).step (.push none (.addcon con)) else s.loops i) =
              s.loops i := if_neg heq
          rw [← hloop]
          exact hi
        rw [hidle i] at hsame
        cases hsame

theorem Inv.step {s : AcceptLoop P C} (h : s.Inv) (choice : AcceptChoice P C) :
    (s.step choice).Inv := by
  cases choice with
  | accept con peer localName flag =>
      rw [AcceptLoop.step]
      split
      · exact h
      · next hfree =>
          have howed : s.owed = none := by
            cases howed : s.owed with
            | none => rfl
            | some b => simp [howed] at hfree
          split
          · split
            · exact h.addCon howed con
            · exact ⟨h.loops, h.called, h.atOnce, h.mid, h.named⟩
          · next hnames =>
              have hnone : ∀ i, givenIn (s.accepted ++ [⟨con, peer, localName, none⟩]) i =
                  s.given i := by
                intro i
                rw [givenIn_concat, if_neg nofun, List.append_nil]
                rfl
              refine ⟨h.loops, fun i => ?_, h.atOnce.trans (hnone _).symm, h.mid,
                named_concat h.named ?_⟩
              · rw [h.called i]
                split
                · rfl
                · exact (hnone i).symm
              · simpa using hnames
  | write =>
      rw [AcceptLoop.step]
      split
      · exact h
      · next b hb =>
          have hframe : ((s.loops b).step (.write none)).Inv ∧
              ((s.loops b).step (.write none)).called = (s.loops b).called ∧
              ((s.loops b).step (.write none)).midCall none = false := by
            refine ⟨(h.loops b).step _, ?_, ?_⟩
            · rw [Wake.step]
              split <;> rfl
            · rw [Wake.step]
              split
              · simp [Wake.setMid]
              · next hmid => exact Bool.not_eq_true _ ▸ hmid
          refine h.setLoop hframe.1 (congrArg _ hframe.2.1) ?_
          intro i hi
          split at hi
          · rw [hframe.2.2] at hi
            cases hi
          · next hne =>
              have hone := h.mid i hi
              rw [hb] at hone
              exact absurd (Option.some.inj hone).symm hne
  | alloc => exact ⟨h.loops, h.called, h.atOnce, h.mid, h.named⟩
  | loop b c =>
      obtain ⟨hcalled, hmid⟩ := others_frame (s.loops b) c
      refine h.setLoop ((h.loops b).step c.others) hcalled ?_
      intro i hi
      split at hi
      · next heq =>
          rw [hmid] at hi
          rw [heq]
          exact h.mid b hi
      · exact h.mid i hi

omit [DecidableEq P] in
/-- What a base has made and what waits is what it was given. -/
theorem Inv.attached {s : AcceptLoop P C} (h : s.Inv) (b : Nat) :
    s.attached b ++ s.waiting b = s.given b := by
  have hcalled := h.called b
  rw [(h.loops b).order, List.filterMap_append] at hcalled
  unfold AcceptLoop.attached waiting
  by_cases hb : b = s.base
  · rw [if_pos hb] at hcalled ⊢
    obtain ⟨-, hnone⟩ := List.append_eq_nil_iff.mp hcalled
    rw [hnone, List.append_nil, h.atOnce, hb]
  · rw [if_neg hb] at hcalled ⊢
    exact hcalled

/-- The bases are those `allocBase` returns in turn, for this server and the others. -/
structure InTurn (sz : Nat) (s : AcceptLoop P C) : Prop where
  bases : s.bases = ⟨sz, Int32.ofNat s.allocated.length⟩
  allocated : s.allocated = (MultiBase.new sz).allocs s.allocated.length
  sublist : (s.accepted.filterMap AcceptedCon.base).Sublist s.allocated

omit [DecidableEq P] in
theorem InTurn.next {sz : Nat} {s t : AcceptLoop P C} (h : s.InTurn sz)
    (hbases : t.bases = s.bases.allocBase.2)
    (hallocated : t.allocated = s.allocated ++ [s.bases.allocBase.1])
    (hsub : (t.accepted.filterMap AcceptedCon.base).Sublist t.allocated) : t.InTurn sz := by
  have hlen : t.allocated.length = s.allocated.length + 1 := by
    rw [hallocated, List.length_append]
    rfl
  refine ⟨?_, ?_, hsub⟩
  · rw [hlen, hbases, h.bases, Int32.ofNat_add]
    rfl
  · have hall := h.allocated
    rw [MultiBase.allocs_new] at hall
    rw [hlen, hallocated, MultiBase.allocs_new, List.range_succ, List.map_append, ← hall, h.bases]
    rfl

theorem InTurn.addCon {sz : Nat} {s : AcceptLoop P C} (h : s.InTurn sz) (con : C) :
    (s.addCon con).InTurn sz := by
  have hsub : (s.accepted.filterMap AcceptedCon.base ++ [s.bases.allocBase.1]).Sublist
      (s.allocated ++ [s.bases.allocBase.1]) := h.sublist.append (List.Sublist.refl _)
  by_cases hb : s.bases.allocBase.1 = s.base
  · rw [addCon_at con hb, ← hb]
    refine h.next rfl rfl ?_
    rw [List.filterMap_append]
    exact hsub
  · rw [addCon_elsewhere con hb]
    refine h.next rfl rfl ?_
    rw [List.filterMap_append]
    exact hsub

theorem InTurn.step {sz : Nat} {s : AcceptLoop P C} (h : s.InTurn sz) (choice : AcceptChoice P C) :
    (s.step choice).InTurn sz := by
  cases choice with
  | accept con peer localName flag =>
      rw [AcceptLoop.step]
      split
      · exact h
      · split
        · split
          · exact h.addCon con
          · exact ⟨h.bases, h.allocated, h.sublist⟩
        · refine ⟨h.bases, h.allocated, ?_⟩
          rw [List.filterMap_append]
          exact (List.append_nil (s.accepted.filterMap AcceptedCon.base)).symm ▸ h.sublist
  | write =>
      rw [AcceptLoop.step]
      split
      · exact h
      · exact ⟨h.bases, h.allocated, h.sublist⟩
  | alloc => exact h.next rfl rfl (h.sublist.trans (List.sublist_append_left _ _))
  | loop b c => exact ⟨h.bases, h.allocated, h.sublist⟩

omit [DecidableEq P] in
theorem inTurn_listen (sz : Nat) : (listen sz : AcceptLoop P C).InTurn sz :=
  ⟨rfl, rfl, List.nil_sublist _⟩

/-- However the loops of the bases, their tasks and other threads interleave: a descriptor is
passed over exactly when one of its names cannot be read, and every other one is given to the
base of the vector that has its turn; each base has made the connections it was given in the
order they came, each once, up to those that still wait in its queue; and a base with a
connection waiting has a wake-up coming. -/
theorem accepted_attached_once (sz : Nat) (hsz : 0 < sz) (choices : List (AcceptChoice P C)) :
    let s := Driven.run step (listen sz : AcceptLoop P C) choices
    (∀ a ∈ s.accepted, a.base = none ↔ ¬ (a.peer = true ∧ a.localName = true)) ∧
      (s.accepted.filterMap AcceptedCon.base).Sublist s.allocated ∧
      s.allocated = (MultiBase.new sz).allocs s.allocated.length ∧
      (∀ b ∈ s.allocated, b < sz) ∧
      ∀ b, s.attached b ++ s.waiting b = s.given b ∧
        (s.waiting b ≠ [] → 0 < (s.loops b).pipe ∨ (∃ p, (s.loops b).midCall p = true) ∨
          (s.loops b).phase ≠ .waiting) := by
  have hinv : (Driven.run step (listen sz : AcceptLoop P C) choices).Inv :=
    Driven.run_keeps (I := Inv) (fun _ c h => h.step c) (inv_listen sz) choices
  have hturn : (Driven.run step (listen sz : AcceptLoop P C) choices).InTurn sz :=
    Driven.run_keeps (I := InTurn sz) (fun _ c h => h.step c) (inTurn_listen sz) choices
  refine ⟨hinv.named, hturn.sublist, hturn.allocated, ?_, fun b => ⟨hinv.attached b, fun hne => ?_⟩⟩
  · rw [hturn.allocated]
    exact MultiBase.allocs_lt hsz _
  · refine (hinv.loops b).woken fun hnil => hne ?_
    rw [waiting, hnil]
    rfl

/-- Three connections on two bases, the second of them dropped; the task of the other base runs
before the third is accepted. -/
theorem accepted_attached_once_two :
    let s := Driven.run step (listen 2 : AcceptLoop Nat Nat)
      [.accept 7 true true true, .accept 8 true true true, .write, .accept 8 true false true,
        .loop 1 (.read 1), .loop 1 .pop, .accept 9 true true true]
    s.attached 1 = [7] ∧ s.attached 1 ++ s.waiting 1 = s.given 1 :=
  ⟨by decide, ((accepted_attached_once 2 (by decide) _).2.2.2.2 1).1⟩

end AcceptLoop

end Handy
