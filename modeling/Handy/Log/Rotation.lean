import Handy.Http.Text
import Handy.Lib.Run
import Mathlib.Data.Fintype.Defs

/-! # Log rotation by several threads

Every thread that logs calls `Logger::maybeRotate`. It reads the clock, compares with
`lastRotate_`, and lets the exchange on `realRotate_` decide who rotates when several threads
have seen the interval end; the decision reads `lastRotate_` once more. Here each access to one
of the two is a step, and the threads take turns in any order.
-/

namespace Handy

/-- `timezone` and `rotateInterval_`. -/
structure LogClock where
  timezone : Int
  rotateInterval : Int
  positive : 0 < rotateInterval

/-- The number of the interval of a time, `(t - timezone) / rotateInterval_`. -/
def LogClock.slot (k : LogClock) (t : Int) : Int := (t - k.timezone).tdiv k.rotateInterval

theorem LogClock.slot_mono (k : LogClock) {t t' : Int} (h : t ≤ t') : k.slot t ≤ k.slot t' :=
  Int.tdiv_le_tdiv k.positive (by omega)

/-- Where a thread is in `maybeRotate`: not in it, behind `time`, behind the comparison, behind
the store, behind the exchange. -/
inductive RotatePhase where
  | outside
  | timed (now : Int)
  | passed (now : Int)
  | stored (now : Int)
  | exchanged (now old : Int)
deriving DecidableEq, Repr

def RotatePhase.now? : RotatePhase → Option Int
  | .outside => none
  | .timed now => some now
  | .passed now => some now
  | .stored now => some now
  | .exchanged now _ => some now

/-- The clock, the fields of the `Logger`, and the threads. `rotations` are the times read by
those that rotated and `returned` by those that came back, both newest first. -/
structure Rotating (T : Type) where
  clock : Int
  filename : Bytes
  lastRotate : Int
  realRotate : Int
  phase : T → RotatePhase
  rotations : List Int
  returned : List Int

inductive RotateChoice (T : Type) where
  | tick (n : Nat)
  | enter (t : T)
  | go (t : T)
deriving Repr

namespace Rotating

variable {T : Type} [DecidableEq T]

omit [DecidableEq T] in
/-- `Logger::Logger` at the time `t0`, and `setFileName`. -/
def start (filename : Bytes) (t0 : Int) : Rotating T where
  clock := t0
  filename := filename
  lastRotate := t0
  realRotate := t0
  phase _ := .outside
  rotations := []
  returned := []

def setPhase (s : Rotating T) (t : T) (p : RotatePhase) : Rotating T :=
  { s with phase := fun u => if u = t then p else s.phase u }

def leave (s : Rotating T) (t : T) (now : Int) : Rotating T :=
  { s.setPhase t .outside with returned := now :: s.returned }

/-- A thread's next access in `maybeRotate`. -/
def go (k : LogClock) (s : Rotating T) (t : T) : Rotating T :=
  match s.phase t with
  | .outside => s
  | .timed now =>
      if s.filename = [] ∨ k.slot now = k.slot s.lastRotate then s.leave t now
      else s.setPhase t (.passed now)
  | .passed now => { s.setPhase t (.stored now) with lastRotate := now }
  | .stored now => { s.setPhase t (.exchanged now s.realRotate) with realRotate := now }
  | .exchanged now old =>
      if k.slot old = k.slot s.lastRotate then s.leave t now
      else { s.leave t now with rotations := now :: s.rotations }

/-- One step; a choice that is not possible changes nothing. -/
def step (k : LogClock) (s : Rotating T) : RotateChoice T → Rotating T
  | .tick n => { s with clock := s.clock + n }
  | .enter t => if s.phase t = .outside then s.setPhase t (.timed s.clock) else s
  | .go t => s.go k t

omit [DecidableEq T] in
/-- No thread is in `maybeRotate` when an interval ends. -/
def Calm (k : LogClock) (s : Rotating T) : RotateChoice T → Prop
  | .tick n => k.slot (s.clock + n) = k.slot s.clock ∨ ∀ t, s.phase t = .outside
  | _ => True

instance [Fintype T] (k : LogClock) (s : Rotating T) :
    (choice : RotateChoice T) → Decidable (s.Calm k choice)
  | .tick _ => inferInstanceAs (Decidable (_ ∨ _))
  | .enter _ => isTrue trivial
  | .go _ => isTrue trivial

/-! ## What holds between two steps -/

omit [DecidableEq T] in
/-- How far the rotation of the current interval is: no thread has stored its time yet; some
have, and none has exchanged; the first to exchange is about to rotate; it has rotated, or the
interval is the first. -/
inductive Stage (k : LogClock) (t0 : Int) (s : Rotating T) : Prop where
  | fresh (new : k.slot t0 < k.slot s.clock) (last : k.slot s.lastRotate < k.slot s.clock)
      (real : k.slot s.realRotate < k.slot s.clock)
      (early : ∀ t now, s.phase t ≠ .stored now ∧ ∀ old, s.phase t ≠ .exchanged now old)
      (before : ∀ r ∈ s.rotations, k.slot r < k.slot s.clock)
  | seen (new : k.slot t0 < k.slot s.clock) (last : k.slot s.lastRotate = k.slot s.clock)
      (real : k.slot s.realRotate < k.slot s.clock)
      (early : ∀ t now old, s.phase t ≠ .exchanged now old)
      (someone : ∃ t now, s.phase t = .stored now)
      (before : ∀ r ∈ s.rotations, k.slot r < k.slot s.clock)
  | taken (new : k.slot t0 < k.slot s.clock) (last : k.slot s.lastRotate = k.slot s.clock)
      (real : k.slot s.realRotate = k.slot s.clock)
      (w : T) (now old : Int) (first : s.phase w = .exchanged now old)
      (older : k.slot old < k.slot s.clock)
      (others : ∀ t now old, t ≠ w → s.phase t = .exchanged now old → k.slot old = k.slot s.clock)
      (before : ∀ r ∈ s.rotations, k.slot r < k.slot s.clock)
  | done (last : k.slot s.lastRotate = k.slot s.clock) (real : k.slot s.realRotate = k.slot s.clock)
      (others : ∀ t now old, s.phase t = .exchanged now old → k.slot old = k.slot s.clock)
      (rotated : k.slot s.clock = k.slot t0 ∨ k.slot s.clock ∈ s.rotations.map k.slot)

omit [DecidableEq T] in
structure Inv (k : LogClock) (t0 : Int) (s : Rotating T) : Prop where
  named : s.filename ≠ []
  started : t0 ≤ s.clock
  inside : ∀ t now, (s.phase t).now? = some now → k.slot now = k.slot s.clock
  stage : s.Stage k t0
  once : (s.rotations.map k.slot).Pairwise (· > ·)
  later : ∀ r ∈ s.rotations, k.slot t0 < k.slot r ∧ k.slot r ≤ k.slot s.clock
  left : ∀ r ∈ s.rotations, r ∈ s.returned
  past : ∀ now ∈ s.returned, k.slot now < k.slot s.clock →
    k.slot now = k.slot t0 ∨ k.slot now ∈ s.rotations.map k.slot
  present : ∀ now ∈ s.returned, k.slot s.clock ≤ k.slot now →
    k.slot now = k.slot s.clock ∧ k.slot s.lastRotate = k.slot s.clock

variable {k : LogClock} {t0 : Int}

omit [DecidableEq T] in
theorem Inv.start (k : LogClock) {filename : Bytes} (hname : filename ≠ []) (t0 : Int) :
    Inv k t0 (start filename t0 : Rotating T) where
  named := hname
  started := Int.le_refl _
  inside _ _ h := by cases h
  stage := .done rfl rfl (fun _ _ _ h => by cases h) (Or.inl rfl)
  once := List.Pairwise.nil
  later _ h := by cases h
  left _ h := by cases h
  past _ h := by cases h
  present _ h := by cases h

omit [DecidableEq T] in
/-- Threads that come in, compare or go out before the store change nothing of the stage. -/
theorem Stage.quiet {s s' : Rotating T} (h : s.Stage k t0) (hclock : s'.clock = s.clock)
    (hlast : s'.lastRotate = s.lastRotate) (hreal : s'.realRotate = s.realRotate)
    (hrotations : s'.rotations = s.rotations)
    (hphase : ∀ t now, (s'.phase t = .stored now ↔ s.phase t = .stored now) ∧
      ∀ old, s'.phase t = .exchanged now old ↔ s.phase t = .exchanged now old) :
    s'.Stage k t0 := by
  cases h with
  | fresh new last real early before =>
      refine .fresh (by rwa [hclock]) (by rwa [hlast, hclock]) (by rwa [hreal, hclock]) ?_
        (by rwa [hrotations, hclock])
      intro t now
      obtain ⟨hstored, hexchanged⟩ := hphase t now
      exact ⟨fun h => (early t now).1 (hstored.mp h),
        fun old h => (early t now).2 old ((hexchanged old).mp h)⟩
  | seen new last real early someone before =>
      obtain ⟨t, now, ht⟩ := someone
      refine .seen (by rwa [hclock]) (by rwa [hlast, hclock]) (by rwa [hreal, hclock]) ?_
        ⟨t, now, (hphase t now).1.mpr ht⟩ (by rwa [hrotations, hclock])
      exact fun u now' old h => early u now' old (((hphase u now').2 old).mp h)
  | taken new last real w now old first older others before =>
      refine .taken (by rwa [hclock]) (by rwa [hlast, hclock]) (by rwa [hreal, hclock]) w now old
        (((hphase w now).2 old).mpr first) (by rwa [hclock]) ?_ (by rwa [hrotations, hclock])
      intro t now' old' hne h
      rw [hclock]
      exact others t now' old' hne (((hphase t now').2 old').mp h)
  | done last real others rotated =>
      refine .done (by rwa [hlast, hclock]) (by rwa [hreal, hclock]) ?_
        (by rwa [hclock, hrotations])
      intro t now old h
      rw [hclock]
      exact others t now old (((hphase t now).2 old).mp h)

theorem setPhase_phase (s : Rotating T) (t : T) (p : RotatePhase) (u : T) :
    (s.setPhase t p).phase u = if u = t then p else s.phase u := rfl

omit [DecidableEq T] in
theorem Inv.tick_same {s : Rotating T} (h : s.Inv k t0) {n : Nat}
    (hsame : k.slot (s.clock + n) = k.slot s.clock) : Inv k t0 { s with clock := s.clock + n } := by
  refine ⟨h.named, ?_, ?_, ?_, h.once, ?_, h.left, ?_, ?_⟩
  · have hstarted := h.started
    show t0 ≤ s.clock + n
    omega
  · intro t now ht
    show k.slot now = k.slot (s.clock + n)
    rw [hsame]
    exact h.inside t now ht
  · cases h.stage with
    | fresh new last real early before =>
        exact .fresh (by rwa [hsame]) (by rwa [hsame]) (by rwa [hsame]) early
          (by simpa only [hsame] using before)
    | seen new last real early someone before =>
        exact .seen (by rwa [hsame]) (by rwa [hsame]) (by rwa [hsame]) early someone
          (by simpa only [hsame] using before)
    | taken new last real w now old first older others before =>
        exact .taken (by rwa [hsame]) (by rwa [hsame]) (by rwa [hsame]) w now old first
          (by rwa [hsame]) (by simpa only [hsame] using others) (by simpa only [hsame] using before)
    | done last real others rotated =>
        exact .done (by rwa [hsame]) (by rwa [hsame]) (by simpa only [hsame] using others)
          (by rwa [hsame])
  · simpa only [hsame] using h.later
  · simpa only [hsame] using h.past
  · simpa only [hsame] using h.present

omit [DecidableEq T] in
/-- An interval ends with no thread inside: the rotation it wanted is done. -/
theorem Inv.tick_next {s : Rotating T} (h : s.Inv k t0) {n : Nat}
    (houtside : ∀ t, s.phase t = .outside) (hnext : k.slot s.clock < k.slot (s.clock + n)) :
    Inv k t0 { s with clock := s.clock + n } := by
  have hnot : ∀ t now old, s.phase t ≠ .exchanged now old := by
    intro t now old ht
    rw [houtside t] at ht
    cases ht
  have hsettled : k.slot s.lastRotate < k.slot s.clock ∧ k.slot s.realRotate < k.slot s.clock ∨
      k.slot s.lastRotate = k.slot s.clock ∧ k.slot s.realRotate = k.slot s.clock ∧
        (k.slot s.clock = k.slot t0 ∨ k.slot s.clock ∈ s.rotations.map k.slot) := by
    cases h.stage with
    | fresh new last real early before => exact Or.inl ⟨last, real⟩
    | seen new last real early someone before =>
        obtain ⟨t, now, ht⟩ := someone
        rw [houtside t] at ht
        cases ht
    | taken new last real w now old first older others before => exact absurd first (hnot w now old)
    | done last real others rotated => exact Or.inr ⟨last, real, rotated⟩
  refine ⟨h.named, ?_, ?_, ?_, h.once, ?_, h.left, ?_, ?_⟩
  · have hstarted := h.started
    show t0 ≤ s.clock + n
    omega
  · intro t now ht
    change (s.phase t).now? = some now at ht
    rw [houtside t] at ht
    cases ht
  · refine .fresh ?_ ?_ ?_ ?_ ?_
    · show k.slot t0 < k.slot (s.clock + n)
      exact Int.lt_of_le_of_lt (k.slot_mono h.started) hnext
    · show k.slot s.lastRotate < k.slot (s.clock + n)
      rcases hsettled with ⟨hlast, _⟩ | ⟨hlast, _⟩ <;> omega
    · show k.slot s.realRotate < k.slot (s.clock + n)
      rcases hsettled with ⟨_, hreal⟩ | ⟨_, hreal, _⟩ <;> omega
    · intro t now
      refine ⟨fun ht => ?_, fun old ht => hnot t now old ht⟩
      change s.phase t = _ at ht
      rw [houtside t] at ht
      cases ht
    · intro r hr
      show k.slot r < k.slot (s.clock + n)
      have hle := (h.later r hr).2
      omega
  · intro r hr
    show k.slot t0 < k.slot r ∧ k.slot r ≤ k.slot (s.clock + n)
    obtain ⟨hgt, hle⟩ := h.later r hr
    omega
  · intro now hnow _
    by_cases hold : k.slot now < k.slot s.clock
    · exact h.past now hnow hold
    · obtain ⟨heq, hlast⟩ := h.present now hnow (by omega)
      rcases hsettled with ⟨hlt, _⟩ | ⟨_, _, hrotated⟩
      · omega
      · rw [heq]
        exact hrotated
  · intro now hnow hle
    change k.slot (s.clock + n) ≤ k.slot now at hle
    by_cases hold : k.slot s.clock ≤ k.slot now
    · have heq := (h.present now hnow hold).1
      omega
    · omega

theorem Inv.quiet {s : Rotating T} (h : s.Inv k t0) {t : T} {now : Int} {p : RotatePhase}
    (hp : p = .timed now ∨ p = .passed now) (hnow : k.slot now = k.slot s.clock)
    (hwas : ∀ now, s.phase t ≠ .stored now ∧ ∀ old, s.phase t ≠ .exchanged now old) :
    Inv k t0 (s.setPhase t p) := by
  have hnew : ∀ now', p ≠ .stored now' ∧ ∀ old, p ≠ .exchanged now' old := by
    intro now'
    rcases hp with rfl | rfl
    · exact ⟨by simp, by simp⟩
    · exact ⟨by simp, by simp⟩
  have hnow? : p.now? = some now := by
    rcases hp with rfl | rfl <;> rfl
  refine ⟨h.named, h.started, ?_, ?_, h.once, h.later, h.left, h.past, h.present⟩
  · intro u now' hu
    rw [setPhase_phase] at hu
    split at hu
    · rw [hnow?] at hu
      rw [← Option.some.inj hu]
      exact hnow
    · exact h.inside u now' hu
  · refine h.stage.quiet rfl rfl rfl rfl fun u now' => ?_
    rw [setPhase_phase]
    split
    · next heq =>
        rw [heq]
        exact ⟨iff_of_false (hnew now').1 (hwas now').1,
          fun old => iff_of_false ((hnew now').2 old) ((hwas now').2 old)⟩
    · exact ⟨Iff.rfl, fun _ => Iff.rfl⟩

theorem Inv.leave {s : Rotating T} (h : s.Inv k t0) {t : T} {now : Int}
    (hnow : k.slot now = k.slot s.clock) (hlast : k.slot s.lastRotate = k.slot s.clock)
    (hstage : (s.leave t now).Stage k t0) : Inv k t0 (s.leave t now) := by
  refine ⟨h.named, h.started, ?_, hstage, h.once, h.later, ?_, ?_, ?_⟩
  · intro u now' hu
    change ((s.setPhase t .outside).phase u).now? = some now' at hu
    rw [setPhase_phase] at hu
    split at hu
    · cases hu
    · exact h.inside u now' hu
  · exact fun r hr => List.mem_cons_of_mem _ (h.left r hr)
  · intro now' hmem hlt
    rcases List.mem_cons.mp hmem with rfl | hmem
    · change k.slot now' < k.slot s.clock at hlt
      omega
    · exact h.past now' hmem hlt
  · intro now' hmem hle
    rcases List.mem_cons.mp hmem with rfl | hmem
    · exact ⟨hnow, hlast⟩
    · exact h.present now' hmem hle

theorem Inv.store {s : Rotating T} (h : s.Inv k t0) {t : T} {now : Int}
    (ht : s.phase t = .passed now) :
    Inv k t0 { s.setPhase t (.stored now) with lastRotate := now } := by
  have hnow : k.slot now = k.slot s.clock := h.inside t now (by rw [ht]; rfl)
  have hexchanged : ∀ u now' old, (s.setPhase t (.stored now)).phase u = .exchanged now' old →
      u ≠ t ∧ s.phase u = .exchanged now' old := by
    intro u now' old hu
    rw [setPhase_phase] at hu
    split at hu
    · cases hu
    · next hne => exact ⟨hne, hu⟩
  have hsame : (s.setPhase t (.stored now)).phase t = .stored now := if_pos rfl
  refine ⟨h.named, h.started, ?_, ?_, h.once, h.later, h.left, h.past, ?_⟩
  · intro u now' hu
    change ((s.setPhase t (.stored now)).phase u).now? = some now' at hu
    rw [setPhase_phase] at hu
    split at hu
    · cases hu
      exact hnow
    · exact h.inside u now' hu
  · cases h.stage with
    | fresh new last real early before =>
        refine .seen new hnow real ?_ ⟨t, now, hsame⟩ before
        exact fun u now' old hu => (early u now').2 old (hexchanged u now' old hu).2
    | seen new last real early someone before =>
        refine .seen new hnow real ?_ ⟨t, now, hsame⟩ before
        exact fun u now' old hu => early u now' old (hexchanged u now' old hu).2
    | taken new last real w now' old first older others before =>
        have hwt : w ≠ t := by
          rintro rfl
          rw [ht] at first
          cases first
        refine .taken new hnow real w now' old ?_ older ?_ before
        · exact (if_neg hwt).trans first
        · exact fun u a b hne hu => others u a b hne (hexchanged u a b hu).2
    | done last real others rotated =>
        exact .done hnow real (fun u a b hu => others u a b (hexchanged u a b hu).2) rotated
  · intro now' hmem hle
    exact ⟨(h.present now' hmem hle).1, hnow⟩

/-- The exchange: only the first to do it in an interval gets a time of an older one. -/
theorem Inv.exchange {s : Rotating T} (h : s.Inv k t0) {t : T} {now : Int}
    (ht : s.phase t = .stored now) :
    Inv k t0 { s.setPhase t (.exchanged now s.realRotate) with realRotate := now } := by
  have hnow : k.slot now = k.slot s.clock := h.inside t now (by rw [ht]; rfl)
  have hother : ∀ u a b, (s.setPhase t (.exchanged now s.realRotate)).phase u = .exchanged a b →
      u ≠ t → s.phase u = .exchanged a b := by
    intro u a b hu hne
    rwa [setPhase_phase, if_neg hne] at hu
  have hself : ∀ a b, (s.setPhase t (.exchanged now s.realRotate)).phase t = .exchanged a b →
      b = s.realRotate := by
    intro a b hu
    rw [setPhase_phase, if_pos rfl] at hu
    cases hu
    rfl
  refine ⟨h.named, h.started, ?_, ?_, h.once, h.later, h.left, h.past, h.present⟩
  · intro u now' hu
    change ((s.setPhase t (.exchanged now s.realRotate)).phase u).now? = some now' at hu
    rw [setPhase_phase] at hu
    split at hu
    · cases hu
      exact hnow
    · exact h.inside u now' hu
  · cases h.stage with
    | fresh new last real early before => exact absurd ht (early t now).1
    | seen new last real early someone before =>
        refine .taken new last hnow t now s.realRotate (if_pos rfl) real ?_ before
        intro u a b hne hu
        exact absurd (hother u a b hu hne) (early u a b)
    | taken new last real w now' old first older others before =>
        have hwt : w ≠ t := by
          rintro rfl
          rw [ht] at first
          cases first
        refine .taken new last hnow w now' old ((if_neg hwt).trans first) older ?_ before
        intro u a b hne hu
        by_cases hut : u = t
        · subst hut
          rw [hself a b hu]
          exact real
        · exact others u a b hne (hother u a b hu hut)
    | done last real others rotated =>
        refine .done last hnow ?_ rotated
        intro u a b hu
        by_cases hut : u = t
        · subst hut
          rw [hself a b hu]
          exact real
        · exact others u a b (hother u a b hu hut)

theorem Inv.decide {s : Rotating T} (h : s.Inv k t0) {t : T} {now old : Int}
    (ht : s.phase t = .exchanged now old) :
    Inv k t0 (if k.slot old = k.slot s.lastRotate then s.leave t now
      else { s.leave t now with rotations := now :: s.rotations }) := by
  have hnow : k.slot now = k.slot s.clock := h.inside t now (by rw [ht]; rfl)
  have hother : ∀ u a b, (s.leave t now).phase u = .exchanged a b →
      u ≠ t ∧ s.phase u = .exchanged a b := by
    intro u a b hu
    change (s.setPhase t .outside).phase u = _ at hu
    rw [setPhase_phase] at hu
    split at hu
    · cases hu
    · next hne => exact ⟨hne, hu⟩
  cases h.stage with
  | fresh new last real early before => exact absurd ht ((early t now).2 old)
  | seen new last real early someone before => exact absurd ht (early t now old)
  | taken new last real w now' old' first older others before =>
      by_cases htw : t = w
      · subst htw
        rw [ht] at first
        cases first
        rw [if_neg (by omega)]
        have hlater : ∀ r ∈ now :: s.rotations, k.slot t0 < k.slot r ∧ k.slot r ≤ k.slot s.clock := by
          intro r hr
          rcases List.mem_cons.mp hr with rfl | hr
          · omega
          · exact h.later r hr
        have hstage : Stage k t0 { s.leave t now with rotations := now :: s.rotations } := by
          refine .done last real ?_ (Or.inr ?_)
          · intro u a b hu
            obtain ⟨hne, hu'⟩ := hother u a b hu
            exact others u a b hne hu'
          · exact List.mem_map.mpr ⟨now, List.mem_cons_self, hnow⟩
        refine ⟨h.named, h.started, ?_, hstage, ?_, hlater, ?_, ?_, ?_⟩
        · intro u a hu
          change ((s.setPhase t .outside).phase u).now? = some a at hu
          rw [setPhase_phase] at hu
          split at hu
          · cases hu
          · exact h.inside u a hu
        · refine List.pairwise_cons.mpr ⟨?_, h.once⟩
          intro d hd
          obtain ⟨r, hr, rfl⟩ := List.mem_map.mp hd
          have hlt := before r hr
          omega
        · intro r hr
          rcases List.mem_cons.mp hr with rfl | hr
          · exact List.mem_cons_self
          · exact List.mem_cons_of_mem _ (h.left r hr)
        · intro a ha hlt
          change k.slot a < k.slot s.clock at hlt
          rcases List.mem_cons.mp ha with rfl | ha
          · omega
          · exact (h.past a ha hlt).imp_right fun hmem => List.mem_cons_of_mem _ hmem
        · intro a ha hle
          rcases List.mem_cons.mp ha with rfl | ha
          · exact ⟨hnow, last⟩
          · exact h.present a ha hle
      · have hold := others t now old htw ht
        rw [if_pos (by omega)]
        refine h.leave hnow last (.taken new last real w now' old' ?_ older ?_ before)
        · exact (if_neg (Ne.symm htw)).trans first
        · intro u a b hne hu
          exact others u a b hne (hother u a b hu).2
  | done last real others rotated =>
      have hold := others t now old ht
      rw [if_pos (by omega)]
      exact h.leave hnow last (.done last real (fun u a b hu => others u a b (hother u a b hu).2)
        rotated)

theorem Inv.go {s : Rotating T} (h : s.Inv k t0) (t : T) : Inv k t0 (s.go k t) := by
  unfold Rotating.go
  cases ht : s.phase t with
  | outside => exact h
  | timed now =>
      have hnow : k.slot now = k.slot s.clock := h.inside t now (by rw [ht]; rfl)
      have hwas : ∀ now', s.phase t ≠ .stored now' ∧ ∀ old, s.phase t ≠ .exchanged now' old := by
        intro now'
        rw [ht]
        exact ⟨by simp, by simp⟩
      dsimp only
      split
      · next hcase =>
          have hlast : k.slot s.lastRotate = k.slot s.clock := by
            rw [← hcase.resolve_left h.named, hnow]
          refine h.leave hnow hlast (h.stage.quiet rfl rfl rfl rfl fun u now' => ?_)
          change ((s.setPhase t .outside).phase u = _ ↔ _) ∧
            ∀ old, (s.setPhase t .outside).phase u = _ ↔ _
          rw [setPhase_phase]
          split
          · next heq =>
              rw [heq]
              exact ⟨iff_of_false (by simp) (hwas now').1,
                fun old => iff_of_false (by simp) ((hwas now').2 old)⟩
          · exact ⟨Iff.rfl, fun _ => Iff.rfl⟩
      · exact h.quiet (Or.inr rfl) hnow hwas
  | passed now => exact h.store ht
  | stored now => exact h.exchange ht
  | exchanged now old => exact h.decide ht

theorem Inv.step {s : Rotating T} (h : s.Inv k t0) {choice : RotateChoice T}
    (hcalm : s.Calm k choice) : Inv k t0 (s.step k choice) := by
  cases choice with
  | tick n =>
      have hle := k.slot_mono (Int.le_add_of_nonneg_right (Int.natCast_nonneg n) : s.clock ≤ _)
      by_cases hsame : k.slot (s.clock + n) = k.slot s.clock
      · exact h.tick_same hsame
      · exact h.tick_next (hcalm.resolve_left hsame) (by omega)
  | enter t =>
      show Inv k t0 (if s.phase t = .outside then s.setPhase t (.timed s.clock) else s)
      split
      · next ht =>
          refine h.quiet (Or.inl rfl) rfl fun now => ?_
          rw [ht]
          exact ⟨by simp, by simp⟩
      · exact h
  | go t => exact h.go t

end Rotating

namespace Rotating

/-- Intervals of ten seconds. -/
def ten : LogClock := ⟨0, 10, by decide⟩

end Rotating

open Rotating in
/-- A thread that has read the clock before the interval ended goes on behind one that has
rotated: it rotates too, and sets the clock of the logger back, so that the next thread rotates
once more. -/
example : ((Driven.run (step ten) (start [0x6c] 3) ([.tick 6, .enter false, .tick 4, .enter true,
      .go true, .go true, .go true, .go true, .go false, .go false, .go false, .go false,
      .enter true, .go true, .go true, .go true, .go true] : List (RotateChoice Bool))).rotations.map
    ten.slot) = [1, 0, 1] := by decide

end Handy
