import Handy.Base.Timers

/-! # The life of a timer

`On` reads off the history whether a timer is pending or repeating. `Linked` says
that the two maps agree: a node of `timerReps_` has one entry in `timers_`, under
the key it names, and each closure has its node. `Inv` adds that the maps hold
what the history says and that sequence numbers are new. All of it holds between
any two steps, so wherever a task can call back into the store.
-/

namespace Handy

namespace Timers

/-! ## The history -/

/-- Pending or still repeating, as far as the history says. -/
def On (log : List TimerEvent) (id : TimerId) : TimerKind → Prop
  | .oneShot => .returned id .oneShot ∈ log ∧ .started id ∉ log ∧ .cancelled id ∉ log ∧
      .cleared ∉ log
  | .repeating => .returned id .repeating ∈ log ∧ .cancelled id ∉ log ∧ .cleared ∉ log
  | .refused => False

instance (log : List TimerEvent) (id : TimerId) : (kind : TimerKind) → Decidable (On log id kind)
  | .oneShot => inferInstanceAs (Decidable (_ ∧ _ ∧ _ ∧ _))
  | .repeating => inferInstanceAs (Decidable (_ ∧ _ ∧ _))
  | .refused => isFalse not_false

/-- No task of a cancelled timer is started later. -/
def Quiet (log : List TimerEvent) : Prop :=
  log.Pairwise fun later earlier => ∀ id, later = .started id → earlier ≠ .cancelled id

theorem On.returned {log : List TimerEvent} {id : TimerId} {kind : TimerKind}
    (h : On log id kind) : .returned id kind ∈ log := by
  cases kind with
  | oneShot => exact h.1
  | repeating => exact h.1
  | refused => exact h.elim

theorem On.not_cancelled {log : List TimerEvent} {id : TimerId} {kind : TimerKind}
    (h : On log id kind) : .cancelled id ∉ log := by
  cases kind with
  | oneShot => exact h.2.2.1
  | repeating => exact h.2.1
  | refused => exact h.elim

theorem on_started {log : List TimerEvent} {id a : TimerId} {kind : TimerKind} :
    On (.started a :: log) id kind ↔ On log id kind ∧ ¬ (kind = .oneShot ∧ id = a) := by
  cases kind with
  | oneShot => simp [On, and_assoc, and_comm, and_left_comm]
  | repeating => simp [On]
  | refused => simp [On]

theorem on_cancelled {log : List TimerEvent} {id a : TimerId} {kind : TimerKind} :
    On (.cancelled a :: log) id kind ↔ On log id kind ∧ id ≠ a := by
  cases kind with
  | oneShot => simp [On, and_assoc, and_comm, and_left_comm]
  | repeating => simp [On, and_assoc, and_comm, and_left_comm]
  | refused => simp [On]

/-- A new id is on until something happens to it; the others are as before. -/
theorem on_returned {log : List TimerEvent} {id a : TimerId} {kind new : TimerKind}
    (hnew : new ≠ .refused) (hopen : .cleared ∉ log)
    (hfresh : .started a ∉ log ∧ .cancelled a ∉ log) :
    On (.returned a new :: log) id kind ↔ (id = a ∧ kind = new) ∨ On log id kind := by
  cases kind with
  | oneShot =>
      by_cases hid : id = a ∧ .oneShot = new
      · obtain ⟨rfl, rfl⟩ := hid
        simp [On, hopen, hfresh]
      · simp [On, hid]
  | repeating =>
      by_cases hid : id = a ∧ .repeating = new
      · obtain ⟨rfl, rfl⟩ := hid
        simp [On, hopen, hfresh]
      · simp [On, hid]
  | refused => simp [On, hnew.symm]

/-! ## The two maps -/

/-- Each node has its entry, and each closure its node. -/
structure Linked (timers : OrdMap TimerId TimerTask) (reps : OrdMap TimerId TimerRepeatable) :
    Prop where
  armed : ∀ tid r, reps.get? tid = some r → timers.get? r.timerid = some (.repeatable tid)
  owned : ∀ k tid, timers.get? k = some (.repeatable tid) →
    ∃ r, reps.get? tid = some r ∧ r.timerid = k

section Maps

variable {timers : OrdMap TimerId TimerTask} {reps : OrdMap TimerId TimerRepeatable}

theorem Linked.insertUser (h : Linked timers reps) {k : TimerId} (hk : timers.get? k = none) :
    Linked (timers.insert k .user) reps where
  armed tid r hr := by
    have hthere := h.armed tid r hr
    have hne : r.timerid ≠ k := by
      rintro rfl
      rw [hk] at hthere
      cases hthere
    rw [OrdMap.get?_insert_of_ne _ _ hne, hthere]
  owned a tid ha := by
    rw [OrdMap.get?_insert] at ha
    split at ha
    · cases ha
    · exact h.owned a tid ha

theorem Linked.eraseUser (h : Linked timers reps) {k : TimerId}
    (hk : timers.get? k = some .user) : Linked (timers.erase k) reps where
  armed tid r hr := by
    have hthere := h.armed tid r hr
    have hne : r.timerid ≠ k := by
      rintro rfl
      rw [hk] at hthere
      cases hthere
    rw [OrdMap.get?_erase_of_ne _ hne, hthere]
  owned a tid ha := by
    rw [OrdMap.get?_erase] at ha
    split at ha
    · cases ha
    · exact h.owned a tid ha

/-- A node is set, under a key no one has, and nothing else names it. -/
theorem Linked.arm (h : Linked timers reps) {tid : TimerId} {r : TimerRepeatable}
    (hkey : timers.get? r.timerid = none)
    (hnode : ∀ k, timers.get? k ≠ some (.repeatable tid)) :
    Linked (timers.insert r.timerid (.repeatable tid)) (reps.insert tid r) where
  armed a q hq := by
    rw [OrdMap.get?_insert] at hq
    split at hq
    · next ha =>
        cases hq
        rw [ha, OrdMap.get?_insert_self]
    · have hthere := h.armed a q hq
      have hne : q.timerid ≠ r.timerid := by
        intro heq
        rw [heq, hkey] at hthere
        cases hthere
      rw [OrdMap.get?_insert_of_ne _ _ hne, hthere]
  owned a b ha := by
    rw [OrdMap.get?_insert] at ha
    split at ha
    · next heq =>
        cases ha
        exact ⟨r, OrdMap.get?_insert_self _ _ _, heq.symm⟩
    · obtain ⟨q, hq, hkey'⟩ := h.owned a b ha
      have hne : b ≠ tid := by
        rintro rfl
        exact hnode a ha
      exact ⟨q, by rw [OrdMap.get?_insert_of_ne _ _ hne, hq], hkey'⟩

/-- The entry of a node is taken out; no closure of the node is left. -/
theorem Linked.disarm (h : Linked timers reps) {tid : TimerId} {r : TimerRepeatable}
    (hr : reps.get? tid = some r) (k : TimerId) :
    (timers.erase r.timerid).get? k ≠ some (.repeatable tid) := by
  intro hk
  rw [OrdMap.get?_erase] at hk
  split at hk
  · cases hk
  · next hne =>
      obtain ⟨q, hq, hkey⟩ := h.owned k tid hk
      rw [hr] at hq
      cases hq
      exact hne hkey.symm

theorem Linked.remove (h : Linked timers reps) {tid : TimerId} {r : TimerRepeatable}
    (hr : reps.get? tid = some r) :
    Linked (timers.erase r.timerid) (reps.erase tid) where
  armed a q hq := by
    rw [OrdMap.get?_erase] at hq
    split at hq
    · cases hq
    · next hne =>
        have hthere := h.armed a q hq
        have hkey : q.timerid ≠ r.timerid := by
          intro heq
          rw [heq, h.armed tid r hr] at hthere
          cases hthere
          exact hne rfl
        rw [OrdMap.get?_erase_of_ne _ hkey, hthere]
  owned k a hk := by
    have hne : a ≠ tid := by
      rintro rfl
      exact h.disarm hr k hk
    rw [OrdMap.get?_erase] at hk
    split at hk
    · cases hk
    · obtain ⟨q, hq, hkey⟩ := h.owned k a hk
      exact ⟨q, by rw [OrdMap.get?_erase_of_ne _ hne, hq], hkey⟩

theorem Linked.congr (h : Linked timers reps) {reps' : OrdMap TimerId TimerRepeatable}
    (hreps : ∀ a, reps'.get? a = reps.get? a) : Linked timers reps' where
  armed a q hq := h.armed a q (hreps a ▸ hq)
  owned k a hk := by
    obtain ⟨q, hq, hkey⟩ := h.owned k a hk
    exact ⟨q, (hreps a).trans hq, hkey⟩

/-- Firing moves the entry of a node to a key no one has. -/
theorem Linked.rearm (h : Linked timers reps) {tid : TimerId} {r r' : TimerRepeatable}
    (hr : reps.get? tid = some r) (hkey : timers.get? r'.timerid = none) :
    Linked ((timers.erase r.timerid).insert r'.timerid (.repeatable tid))
      (reps.insert tid r') := by
  have hkey' : (timers.erase r.timerid).get? r'.timerid = none := by
    rw [OrdMap.get?_erase, hkey, ite_self]
  apply ((h.remove hr).arm hkey' (h.disarm hr)).congr
  intro a
  rw [OrdMap.get?_insert, OrdMap.get?_insert, OrdMap.get?_erase]
  split
  · rfl
  · rfl

end Maps

/-! ## The invariant -/

structure Inv (s : Timers) : Prop where
  seq : 0 ≤ s.timerSeq
  keys : ∀ k t, s.timers.get? k = some t → 0 < k.second ∧ k.second ≤ s.timerSeq
  hidden : ∀ k tid kind, s.timers.get? k = some (.repeatable tid) → .returned k kind ∉ s.log
  ids : ∀ id kind, .returned id kind ∈ s.log →
    id.second ≤ s.timerSeq ∧ (id.second ≤ 0 ↔ kind = .refused) ∧ (kind = .refused → id.first = 0)
  known : ∀ id, .started id ∈ s.log ∨ .cancelled id ∈ s.log → id.second ≤ s.timerSeq
  kinds : ∀ id kind kind', .returned id kind ∈ s.log → .returned id kind' ∈ s.log → kind = kind'
  linked : Linked s.timers s.timerReps
  pending : ∀ id, s.timers.get? id = some .user ↔ On s.log id .oneShot
  repeats : ∀ id, s.timerReps.get? id ≠ none ↔ On s.log id .repeating
  shut : .cleared ∈ s.log → s.exit = true
  quiet : Quiet s.log

theorem Inv.new : new.Inv where
  seq := Int.le_refl 0
  keys _ _ h := by cases h
  hidden _ _ _ h := by cases h
  ids _ _ h := by cases h
  known _ h := by rcases h with h | h <;> cases h
  kinds _ _ _ h := by cases h
  linked := ⟨fun _ _ h => (by cases h), fun _ _ h => (by cases h)⟩
  pending _ := ⟨fun h => (by cases h), fun h => (by cases h.1)⟩
  repeats _ := ⟨fun h => absurd rfl h, fun h => (by cases h.1)⟩
  shut h := by cases h
  quiet := List.Pairwise.nil

theorem Inv.frame {s : Timers} (h : s.Inv) (next : Int) (exit : Bool) (stack : List TimerFrame)
    (fault : Option TimerFault) (hexit : s.exit = true → exit = true) :
    Inv { s with nextTimeout := next, exit := exit, stack := stack, fault := fault } :=
  ⟨h.seq, h.keys, h.hidden, h.ids, h.known, h.kinds, h.linked, h.pending, h.repeats,
    fun hc => hexit (h.shut hc), h.quiet⟩

theorem Inv.refresh {s : Timers} (h : s.Inv) (clock : Int) : (s.refreshNearest clock).Inv := by
  unfold refreshNearest
  split
  · exact h.frame _ s.exit s.stack s.fault id
  · exact h.frame _ s.exit s.stack s.fault id

section Fresh

variable {s : Timers} (h : s.Inv) {id : TimerId} (hid : s.timerSeq < id.second)

include h hid

theorem Inv.fresh_key : s.timers.get? id = none := by
  cases hget : s.timers.get? id with
  | none => rfl
  | some t =>
      have hle := (h.keys id t hget).2
      omega

theorem Inv.fresh_log : .started id ∉ s.log ∧ .cancelled id ∉ s.log := by
  constructor
  · intro hmem
    have hle := h.known id (Or.inl hmem)
    omega
  · intro hmem
    have hle := h.known id (Or.inr hmem)
    omega

theorem Inv.fresh_id (kind : TimerKind) : .returned id kind ∉ s.log := by
  intro hmem
  have hle := (h.ids id kind hmem).1
  omega

theorem Inv.fresh_on (kind : TimerKind) : ¬ On s.log id kind := fun hon =>
  h.fresh_id hid kind hon.returned

end Fresh

theorem Inv.ids_returned {s : Timers} (h : s.Inv) {a : TimerId} {new : TimerKind} {seq : Int}
    (hseq : s.timerSeq ≤ seq)
    (ha : a.second ≤ seq ∧ (a.second ≤ 0 ↔ new = .refused) ∧ (new = .refused → a.first = 0)) :
    ∀ id kind, .returned id kind ∈ .returned a new :: s.log →
      id.second ≤ seq ∧ (id.second ≤ 0 ↔ kind = .refused) ∧
        (kind = .refused → id.first = 0) := by
  intro id kind hmem
  rcases List.mem_cons.mp hmem with heq | hmem
  · cases heq
    exact ha
  · have hle := h.ids id kind hmem
    exact ⟨Int.le_trans hle.1 hseq, hle.2⟩

theorem Inv.kinds_returned {s : Timers} (h : s.Inv) {a : TimerId} {new : TimerKind}
    (ha : ∀ kind, .returned a kind ∈ s.log → kind = new) :
    ∀ id kind kind', .returned id kind ∈ .returned a new :: s.log →
      .returned id kind' ∈ .returned a new :: s.log → kind = kind' := by
  intro id kind kind' hmem hmem'
  rcases List.mem_cons.mp hmem with heq | hmem
  · cases heq
    rcases List.mem_cons.mp hmem' with heq | hmem'
    · cases heq
      rfl
    · exact (ha kind' hmem').symm
  · rcases List.mem_cons.mp hmem' with heq | hmem'
    · cases heq
      exact ha kind hmem
    · exact h.kinds id kind kind' hmem hmem'

theorem Inv.refuse {s : Timers} (h : s.Inv) :
    Inv { s with log := .returned ⟨0, 0⟩ .refused :: s.log } where
  seq := h.seq
  keys := h.keys
  hidden k tid kind hk hmem := by
    rcases List.mem_cons.mp hmem with heq | hmem
    · cases heq
      exact absurd (h.keys _ _ hk).1 (Int.lt_irrefl 0)
    · exact h.hidden k tid kind hk hmem
  ids := h.ids_returned (Int.le_refl _) ⟨h.seq, by simp, fun _ => rfl⟩
  known id hmem := h.known id (by simpa using hmem)
  kinds := h.kinds_returned fun kind hmem => (h.ids _ _ hmem).2.1.mp (Int.le_refl 0)
  linked := h.linked
  pending id := by simpa [On] using h.pending id
  repeats id := by simpa [On] using h.repeats id
  shut hc := h.shut (by simpa using hc)
  quiet := List.pairwise_cons.mpr ⟨by simp, h.quiet⟩

theorem Inv.keys_insert {s : Timers} (h : s.Inv) {timers : OrdMap TimerId TimerTask}
    (hsub : ∀ k t, timers.get? k = some t → s.timers.get? k = some t) {key : TimerId} {n : Int}
    (hkey : s.timerSeq < key.second) (hn : key.second ≤ n) (task : TimerTask) :
    ∀ k t, (timers.insert key task).get? k = some t → 0 < k.second ∧ k.second ≤ n := by
  intro k t hk
  have hseq := h.seq
  rw [OrdMap.get?_insert] at hk
  split at hk
  · next heq =>
      subst heq
      exact ⟨by omega, hn⟩
  · have hle := h.keys k t (hsub k t hk)
    exact ⟨hle.1, by omega⟩

theorem Inv.give {s : Timers} (h : s.Inv) {id : TimerId} {new : TimerKind} {n : Int}
    {timers : OrdMap TimerId TimerTask} {reps : OrdMap TimerId TimerRepeatable}
    (hid : s.timerSeq < id.second) (hn : id.second ≤ n) (hnew : new ≠ .refused)
    (hexit : s.exit = false) (hgrow : s.timerSeq ≤ n)
    (hkeys : ∀ k t, timers.get? k = some t → 0 < k.second ∧ k.second ≤ n)
    (hhidden : ∀ k tid kind, timers.get? k = some (.repeatable tid) →
      .returned k kind ∉ .returned id new :: s.log)
    (hlinked : Linked timers reps)
    (hpending : ∀ a, timers.get? a = some .user ↔ (a = id ∧ .oneShot = new) ∨ On s.log a .oneShot)
    (hrepeats : ∀ a, reps.get? a ≠ none ↔ (a = id ∧ .repeating = new) ∨ On s.log a .repeating) :
    Inv { s with
      timerSeq := n
      timers := timers
      timerReps := reps
      log := .returned id new :: s.log } := by
  have hseq := h.seq
  have hopen : .cleared ∉ s.log := fun hc => by simp [h.shut hc] at hexit
  have hon : ∀ a kind, On (.returned id new :: s.log) a kind ↔
      (a = id ∧ kind = new) ∨ On s.log a kind :=
    fun a kind => on_returned hnew hopen (h.fresh_log hid)
  refine ⟨Int.le_trans hseq hgrow, hkeys, hhidden, ?_, ?_, ?_, hlinked, fun a => ?_, fun a => ?_,
    ?_, ?_⟩
  · apply h.ids_returned hgrow
    exact ⟨hn, iff_of_false (by omega) hnew, fun hc => absurd hc hnew⟩
  · intro a hmem
    exact Int.le_trans (h.known a (by simpa using hmem)) hgrow
  · exact h.kinds_returned fun kind hmem => absurd hmem (h.fresh_id hid kind)
  · exact (hpending a).trans (hon a .oneShot).symm
  · exact (hrepeats a).trans (hon a .repeating).symm
  · exact fun hc => h.shut (by simpa using hc)
  · exact List.pairwise_cons.mpr ⟨by simp, h.quiet⟩

theorem Inv.addOneShot {s : Timers} (h : s.Inv) (hexit : s.exit = false) {id : TimerId} {n : Int}
    (hid : s.timerSeq < id.second) (hn : id.second ≤ n) :
    Inv { s with
      timerSeq := n
      timers := s.timers.insert id .user
      log := .returned id .oneShot :: s.log } := by
  apply h.give hid hn (by decide) hexit (by omega) (h.keys_insert (fun _ _ hk => hk) hid hn .user)
    ?_ (h.linked.insertUser (h.fresh_key hid)) ?_ ?_
  · intro k tid kind hk hmem
    rw [OrdMap.get?_insert] at hk
    split at hk
    · cases hk
    · next hne =>
        rcases List.mem_cons.mp hmem with heq | hmem
        · cases heq
          exact hne rfl
        · exact h.hidden k tid kind hk hmem
  · intro a
    rw [OrdMap.get?_insert]
    split
    · next heq => exact iff_of_true rfl (Or.inl ⟨heq, rfl⟩)
    · next hne =>
        rw [h.pending a]
        exact ⟨Or.inr, fun ha => ha.resolve_left fun hc => hne hc.1⟩
  · intro a
    rw [h.repeats a]
    exact ⟨Or.inr, fun ha => ha.resolve_left fun hc => absurd hc.2 (by decide)⟩

theorem Inv.addRepeating {s : Timers} (h : s.Inv) (hexit : s.exit = false) {tid : TimerId}
    {r : TimerRepeatable} {n : Int} (htid : s.timerSeq < tid.second)
    (hkey : s.timerSeq < r.timerid.second) (hne : r.timerid ≠ tid)
    (hn : tid.second ≤ n ∧ r.timerid.second ≤ n) :
    Inv { s with
      timerSeq := n
      timerReps := s.timerReps.insert tid r
      timers := s.timers.insert r.timerid (.repeatable tid)
      log := .returned tid .repeating :: s.log } := by
  have hnode : ∀ k, s.timers.get? k ≠ some (.repeatable tid) := by
    intro k hk
    obtain ⟨q, hq, _⟩ := h.linked.owned k tid hk
    have hsome : s.timerReps.get? tid ≠ none := by
      rw [hq]
      exact Option.some_ne_none _
    exact h.fresh_on htid _ ((h.repeats tid).mp hsome)
  apply h.give htid hn.1 (by decide) hexit (by omega)
    (h.keys_insert (fun _ _ hk => hk) hkey hn.2 (.repeatable tid)) ?_
    (h.linked.arm (h.fresh_key hkey) hnode) ?_ ?_
  · intro k a kind hk hmem
    rw [OrdMap.get?_insert] at hk
    split at hk
    · next heq =>
        subst heq
        rcases List.mem_cons.mp hmem with heq | hmem
        · cases heq
          exact hne rfl
        · exact h.fresh_id hkey kind hmem
    · rcases List.mem_cons.mp hmem with heq | hmem
      · cases heq
        rw [h.fresh_key htid] at hk
        cases hk
      · exact h.hidden k a kind hk hmem
  · intro a
    rw [OrdMap.get?_insert]
    split
    · next heq =>
        subst heq
        apply iff_of_false
        · intro hc
          cases hc
        · rintro (⟨heq, _⟩ | hc)
          · exact hne heq
          · exact h.fresh_on hkey _ hc
    · rw [h.pending a]
      exact ⟨Or.inr, fun ha => ha.resolve_left fun hc => absurd hc.2 (by decide)⟩
  · intro a
    rw [OrdMap.get?_insert]
    split
    · next heq => exact iff_of_true (Option.some_ne_none _) (Or.inl ⟨heq, rfl⟩)
    · next hne' =>
        rw [h.repeats a]
        exact ⟨Or.inr, fun ha => ha.resolve_left fun hc => hne' hc.1⟩

theorem Inv.mark {s : Timers} (h : s.Inv) {e : TimerEvent} {id : TimerId} {n : Int}
    {timers : OrdMap TimerId TimerTask} {reps : OrdMap TimerId TimerRepeatable}
    (he : e = .started id ∨ e = .cancelled id) (hid : id.second ≤ s.timerSeq)
    (hgrow : s.timerSeq ≤ n)
    (hkeys : ∀ k t, timers.get? k = some t → 0 < k.second ∧ k.second ≤ n)
    (hhidden : ∀ k tid kind, timers.get? k = some (.repeatable tid) → .returned k kind ∉ s.log)
    (hlinked : Linked timers reps)
    (hpending : ∀ a, timers.get? a = some .user ↔ On (e :: s.log) a .oneShot)
    (hrepeats : ∀ a, reps.get? a ≠ none ↔ On (e :: s.log) a .repeating)
    (hquiet : Quiet (e :: s.log)) :
    Inv { s with
      timerSeq := n
      timers := timers
      timerReps := reps
      log := e :: s.log } := by
  have hreturned : ∀ a kind, .returned a kind ∈ e :: s.log → .returned a kind ∈ s.log := by
    intro a kind hmem
    rcases he with rfl | rfl
    · simpa using hmem
    · simpa using hmem
  refine ⟨Int.le_trans h.seq hgrow, hkeys, fun k tid kind hk hmem => ?_, fun a kind hmem => ?_,
    fun a hmem => ?_, fun a kind kind' hmem hmem' => ?_, hlinked, hpending, hrepeats, ?_, hquiet⟩
  · exact hhidden k tid kind hk (hreturned k kind hmem)
  · have hle := h.ids a kind (hreturned a kind hmem)
    exact ⟨Int.le_trans hle.1 hgrow, hle.2⟩
  · by_cases heq : a = id
    · subst heq
      exact Int.le_trans hid hgrow
    · have hold : .started a ∈ s.log ∨ .cancelled a ∈ s.log := by
        rcases he with rfl | rfl
        · simpa [heq] using hmem
        · simpa [heq] using hmem
      exact Int.le_trans (h.known a hold) hgrow
  · exact h.kinds a kind kind' (hreturned a kind hmem) (hreturned a kind' hmem')
  · intro hc
    apply h.shut
    rcases he with rfl | rfl
    · simpa using hc
    · simpa using hc

theorem Inv.removeOneShot {s : Timers} (h : s.Inv) {id : TimerId}
    (hid : s.timers.get? id = some .user) :
    Inv { s with timers := s.timers.erase id, log := .cancelled id :: s.log } := by
  have hon := (h.pending id).mp hid
  apply h.mark (Or.inr rfl) (h.keys id _ hid).2 (Int.le_refl _)
    (fun k t hk => h.keys k t (OrdMap.get?_of_erase hk).2)
    (fun k tid kind hk => h.hidden k tid kind (OrdMap.get?_of_erase hk).2) (h.linked.eraseUser hid) ?_ ?_
    (List.pairwise_cons.mpr ⟨by simp, h.quiet⟩)
  · intro a
    rw [OrdMap.get?_erase, on_cancelled, ← h.pending a]
    split
    · next heq => exact iff_of_false (fun hc => by cases hc) fun hc => hc.2 heq
    · next hne => exact ⟨fun ha => ⟨ha, hne⟩, fun ha => ha.1⟩
  · intro a
    rw [on_cancelled, h.repeats a]
    refine ⟨fun ha => ⟨ha, ?_⟩, fun ha => ha.1⟩
    rintro rfl
    exact absurd (h.kinds _ _ _ ha.returned hon.returned) (by decide)

theorem Inv.ne_timerid {s : Timers} (h : s.Inv) {tid a : TimerId} {r : TimerRepeatable}
    (hr : s.timerReps.get? tid = some r) (ha : s.timers.get? a = some .user) : a ≠ r.timerid := by
  rintro rfl
  rw [h.linked.armed tid r hr] at ha
  cases ha

theorem Inv.on_repeating {s : Timers} (h : s.Inv) {tid : TimerId} {r : TimerRepeatable}
    (hr : s.timerReps.get? tid = some r) : On s.log tid .repeating := by
  apply (h.repeats tid).mp
  rw [hr]
  exact Option.some_ne_none _

theorem Inv.ne_repeating {s : Timers} (h : s.Inv) {tid a : TimerId} {r : TimerRepeatable}
    (hr : s.timerReps.get? tid = some r) (ha : s.timers.get? a = some .user) : a ≠ tid := by
  rintro rfl
  have hone := (h.pending a).mp ha
  exact absurd (h.kinds _ _ _ hone.returned (h.on_repeating hr).returned) (by decide)

/-- `cancel` of a repeating task that is on takes it out of both maps. -/
theorem Inv.removeRepeating {s : Timers} (h : s.Inv) {tid : TimerId} {r : TimerRepeatable}
    (hr : s.timerReps.get? tid = some r) :
    Inv { s with
      timers := s.timers.erase r.timerid
      timerReps := s.timerReps.erase tid
      log := .cancelled tid :: s.log } := by
  apply h.mark (Or.inr rfl) (h.ids tid _ (h.on_repeating hr).returned).1 (Int.le_refl _)
    (fun k t hk => h.keys k t (OrdMap.get?_of_erase hk).2)
    (fun k a kind hk => h.hidden k a kind (OrdMap.get?_of_erase hk).2) (h.linked.remove hr) ?_ ?_
    (List.pairwise_cons.mpr ⟨by simp, h.quiet⟩)
  · intro a
    rw [on_cancelled, ← h.pending a]
    refine ⟨fun ha => ?_, fun ha => ?_⟩
    · have hold := (OrdMap.get?_of_erase ha).2
      exact ⟨hold, h.ne_repeating hr hold⟩
    · rw [OrdMap.get?_erase_of_ne _ (h.ne_timerid hr ha.1), ha.1]
  · intro a
    rw [OrdMap.get?_erase, on_cancelled, ← h.repeats a]
    split
    · next heq => exact iff_of_false (fun hc => hc rfl) fun hc => hc.2 heq
    · next hne => exact ⟨fun ha => ⟨ha, hne⟩, fun ha => ha.1⟩

theorem Quiet.start {log : List TimerEvent} (h : Quiet log) {id : TimerId} {kind : TimerKind}
    (hon : On log id kind) : Quiet (.started id :: log) := by
  refine List.pairwise_cons.mpr ⟨?_, h⟩
  rintro earlier hmem a heq rfl
  cases heq
  exact hon.not_cancelled hmem

theorem Inv.startOneShot {s : Timers} (h : s.Inv) {id : TimerId}
    (hid : s.timers.get? id = some .user) :
    Inv { s with timers := s.timers.erase id, log := .started id :: s.log } := by
  apply h.mark (Or.inl rfl) (h.keys id _ hid).2 (Int.le_refl _)
    (fun k t hk => h.keys k t (OrdMap.get?_of_erase hk).2)
    (fun k tid kind hk => h.hidden k tid kind (OrdMap.get?_of_erase hk).2) (h.linked.eraseUser hid) ?_ ?_
    (h.quiet.start ((h.pending id).mp hid))
  · intro a
    rw [OrdMap.get?_erase, on_started, ← h.pending a]
    split
    · next heq => exact iff_of_false (fun hc => by cases hc) fun hc => hc.2 ⟨rfl, heq⟩
    · next hne => exact ⟨fun ha => ⟨ha, fun hc => hne hc.2⟩, fun ha => ha.1⟩
  · intro a
    rw [on_started, h.repeats a]
    exact ⟨fun ha => ⟨ha, fun hc => absurd hc.1 (by decide)⟩, fun ha => ha.1⟩

/-- A repeating task that is due moves on to its next key and is started. -/
theorem Inv.startRepeating {s : Timers} (h : s.Inv) {tid : TimerId} {r : TimerRepeatable}
    (r' : TimerRepeatable) {n : Int} (hr : s.timerReps.get? tid = some r)
    (hkey : s.timerSeq < r'.timerid.second) (hn : r'.timerid.second ≤ n) :
    Inv { s with
      timerSeq := n
      timerReps := s.timerReps.insert tid r'
      timers := (s.timers.erase r.timerid).insert r'.timerid (.repeatable tid)
      log := .started tid :: s.log } := by
  have hon := h.on_repeating hr
  apply h.mark (Or.inl rfl) (h.ids tid _ hon.returned).1 (by omega)
    (h.keys_insert (fun _ _ hk => (OrdMap.get?_of_erase hk).2) hkey hn (.repeatable tid)) ?_
    (h.linked.rearm hr (h.fresh_key hkey)) ?_ ?_ (h.quiet.start hon)
  · intro k a kind hk hmem
    rw [OrdMap.get?_insert] at hk
    split at hk
    · next heq =>
        subst heq
        exact h.fresh_id hkey kind hmem
    · exact h.hidden k a kind (OrdMap.get?_of_erase hk).2 hmem
  · intro a
    rw [on_started, ← h.pending a]
    refine ⟨fun ha => ?_, fun ha => ?_⟩
    · rw [OrdMap.get?_insert] at ha
      split at ha
      · cases ha
      · have hold := (OrdMap.get?_of_erase ha).2
        exact ⟨hold, fun hc => h.ne_repeating hr hold hc.2⟩
    · have hne : a ≠ r'.timerid := by
        rintro rfl
        rw [h.fresh_key hkey] at ha
        cases ha.1
      rw [OrdMap.get?_insert_of_ne _ _ hne, OrdMap.get?_erase_of_ne _ (h.ne_timerid hr ha.1), ha.1]
  · intro a
    rw [OrdMap.get?_insert, on_started, ← h.repeats a]
    split
    · next heq =>
        subst heq
        exact iff_of_true (Option.some_ne_none _)
          ⟨(h.repeats a).mpr hon, fun hc => absurd hc.1 (by decide)⟩
    · exact ⟨fun ha => ⟨ha, fun hc => absurd hc.1 (by decide)⟩, fun ha => ha.1⟩

theorem Inv.clear {s : Timers} (h : s.Inv) (hexit : s.exit = true) :
    Inv { s with timers := .empty, timerReps := .empty, log := .cleared :: s.log } where
  seq := h.seq
  keys _ _ hk := by cases hk
  hidden _ _ _ hk := by cases hk
  ids id kind hmem := h.ids id kind (by simpa using hmem)
  known id hmem := h.known id (by simpa using hmem)
  kinds id kind kind' hmem hmem' :=
    h.kinds id kind kind' (by simpa using hmem) (by simpa using hmem')
  linked := ⟨fun _ _ hk => (by cases hk), fun _ _ hk => (by cases hk)⟩
  pending id := iff_of_false (fun hk => (by cases hk)) fun hon => hon.2.2.2 List.mem_cons_self
  repeats id := iff_of_false (fun hk => hk rfl) fun hon => hon.2.2 List.mem_cons_self
  shut _ := hexit
  quiet := List.pairwise_cons.mpr ⟨by simp, h.quiet⟩

/-! ## Calls -/

theorem Inv.runAt {s : Timers} (h : s.Inv) (milli interval clock : Int) :
    (s.runAt milli interval clock).2.Inv := by
  unfold Timers.runAt
  split
  · exact h.refuse
  · next hexit =>
      have hopen : s.exit = false := Bool.eq_false_of_not_eq_true hexit
      split
      · apply Inv.refresh
        apply h.addRepeating hopen
        · exact Int.lt_succ _
        · show s.timerSeq < s.timerSeq + 2
          omega
        · intro heq
          have hsecond := congrArg TimerId.second heq
          change s.timerSeq + 2 = s.timerSeq + 1 at hsecond
          omega
        · exact ⟨by show s.timerSeq + 1 ≤ s.timerSeq + 2; omega, Int.le_refl _⟩
      · apply Inv.refresh
        exact h.addOneShot hopen (Int.lt_succ _) (Int.le_refl _)

/-- What `cancel` does, by what its id was returned for. -/
theorem Inv.cancel_spec {s : Timers} (h : s.Inv) {id : TimerId} {kind : TimerKind}
    (hid : .returned id kind ∈ s.log) :
    (On s.log id kind ∧ kind = .oneShot ∧ 0 ≤ id.first ∧ s.timers.get? id = some .user ∧
      s.cancel id = .ok (true, { s with timers := s.timers.erase id, log := .cancelled id :: s.log })) ∨
    (On s.log id kind ∧ kind = .repeating ∧ id.first < 0 ∧ ∃ r, s.timerReps.get? id = some r ∧
      s.cancel id = .ok (true, { s with
        timers := s.timers.erase r.timerid
        timerReps := s.timerReps.erase id
        log := .cancelled id :: s.log })) ∨
    (0 ≤ id.first ∧ ¬ (kind = .oneShot ∧ On s.log id kind) ∧ s.cancel id = .ok (false, s)) ∨
    (id.first < 0 ∧ ¬ (kind = .repeating ∧ On s.log id kind) ∧ kind ≠ .refused ∧
      s.cancel id = .error .absentEntry) := by
  by_cases hneg : id.first < 0
  · have hkind : kind ≠ .refused := by
      intro heq
      have hzero := (h.ids id kind hid).2.2 heq
      omega
    rw [Timers.cancel, if_pos hneg]
    cases hr : s.timerReps.get? id with
    | none =>
        refine Or.inr (Or.inr (Or.inr ⟨hneg, ?_, hkind, rfl⟩))
        rintro ⟨rfl, hon⟩
        exact (h.repeats id).mpr hon hr
    | some r =>
        have hsome : s.timerReps.get? id ≠ none := by
          rw [hr]
          exact Option.some_ne_none _
        have hon := (h.repeats id).mp hsome
        have heq := h.kinds id kind _ hid hon.returned
        subst heq
        refine Or.inr (Or.inl ⟨hon, rfl, hneg, r, rfl, ?_⟩)
        simp only [h.linked.armed id r hr]
  · have hpos : 0 ≤ id.first := by omega
    rw [Timers.cancel, if_neg hneg]
    cases ht : s.timers.get? id with
    | none =>
        refine Or.inr (Or.inr (Or.inl ⟨hpos, ?_, rfl⟩))
        rintro ⟨rfl, hon⟩
        rw [(h.pending id).mpr hon] at ht
        cases ht
    | some t =>
        cases t with
        | user =>
            have hon := (h.pending id).mp ht
            have heq := h.kinds id kind _ hid hon.returned
            subst heq
            exact Or.inl ⟨hon, rfl, hpos, rfl, rfl⟩
        | repeatable tid => exact absurd hid (h.hidden id tid kind ht)

theorem Inv.cancel {s s' : Timers} (h : s.Inv) {id : TimerId} {kind : TimerKind}
    (hid : .returned id kind ∈ s.log) {answer : Bool} (hc : s.cancel id = .ok (answer, s')) :
    s'.Inv := by
  rcases h.cancel_spec hid with ⟨_, _, _, ht, heq⟩ | ⟨_, _, _, r, hr, heq⟩ | ⟨_, _, heq⟩ |
    ⟨_, _, _, heq⟩
  · rw [heq] at hc
    cases hc
    exact h.removeOneShot ht
  · rw [heq] at hc
    cases hc
    exact h.removeRepeating hr
  · rw [heq] at hc
    cases hc
    exact h
  · rw [heq] at hc
    cases hc

theorem Inv.repeatableTimeout {s : Timers} (h : s.Inv) {key tid : TimerId}
    (hkey : s.timers.get? key = some (.repeatable tid)) (clock : Int) :
    (Timers.repeatableTimeout { s with timers := s.timers.erase key } tid clock).Inv ∧
      (Timers.repeatableTimeout { s with timers := s.timers.erase key } tid clock).fault =
        s.fault := by
  obtain ⟨r, hr, rfl⟩ := h.linked.owned key tid hkey
  rw [Timers.repeatableTimeout]
  simp only [hr]
  constructor
  · apply Inv.refresh
    have hstart := h.startRepeating ⟨wrap64 (r.expiry + r.interval), r.interval,
      ⟨wrap64 (r.expiry + r.interval), s.timerSeq + 1⟩⟩ hr (Int.lt_succ _) (Int.le_refl _)
    exact hstart.frame s.nextTimeout s.exit (.task :: s.stack) s.fault id
  · rw [refreshNearest_fault]

theorem Inv.sweep {s : Timers} (h : s.Inv) (tid : TimerId) (rest : List TimerFrame)
    (clock : Int) : (s.sweep tid rest clock).Inv ∧ (s.sweep tid rest clock).fault = s.fault := by
  have hend : (refreshNearest { s with stack := rest } clock).Inv ∧
      (refreshNearest { s with stack := rest } clock).fault = s.fault :=
    ⟨(h.frame s.nextTimeout s.exit rest s.fault id).refresh clock, refreshNearest_fault _ _⟩
  unfold Timers.sweep
  split
  · next key task hfirst =>
      have hkey := OrdMap.get?_first hfirst
      split
      · cases task with
        | user =>
            have hstart := h.startOneShot hkey
            exact ⟨hstart.frame s.nextTimeout s.exit (.task :: s.stack) s.fault id, rfl⟩
        | repeatable id => exact h.repeatableTimeout hkey clock
      · exact hend
  · exact hend

/-- A call of `cancel` is given an id that `runAt` returned. -/
def FromRunAt (s : Timers) : Choice → Prop
  | .cancel id => ∃ kind, .returned id kind ∈ s.log
  | _ => True

theorem Inv.step {s : Timers} (h : s.Inv) {choice : Choice} (hid : s.FromRunAt choice) :
    (s.step choice).Inv := by
  have hmoved := s.moved_step choice
  generalize s.step choice = t at hmoved ⊢
  cases hmoved with
  | stay => exact h
  | runAt milli interval clock => exact h.runAt milli interval clock
  | cancel hc =>
      obtain ⟨kind, hret⟩ := hid
      exact h.cancel hret hc
  | fault _ => exact h.frame s.nextTimeout s.exit s.stack _ id
  | sweep tid rest clock => exact (h.sweep tid rest clock).1
  | stack stack => exact h.frame s.nextTimeout s.exit stack s.fault id
  | exit => exact h.frame s.nextTimeout true s.stack s.fault fun _ => rfl
  | clear hexit => exact h.clear hexit

theorem Inv.run {choices : List Choice} (hids : Driven.Along Timers.step FromRunAt Timers.new choices) :
    (Driven.run Timers.step Timers.new choices).Inv :=
  Driven.run_invariant (I := Inv) (fun _ _ h hid => h.step hid) Inv.new hids

/-! ## Times that are positive -/

/-- `runAt` is given an `int64_t` time after 0 and no negative interval, `cancel` the
id of a timer that has not expired and was not cancelled. -/
def Orderly (s : Timers) : Choice → Prop
  | .runAt milli interval _ => (0 < milli ∧ milli < 2 ^ 63) ∧ 0 ≤ interval
  | .cancel id => On s.log id .oneShot ∨ On s.log id .repeating
  | _ => True

instance (s : Timers) : (choice : Choice) → Decidable (s.Orderly choice)
  | .runAt _ _ _ => inferInstanceAs (Decidable (_ ∧ _))
  | .cancel _ => inferInstanceAs (Decidable (_ ∨ _))
  | .handleTimeouts _ => isTrue trivial
  | .go _ => isTrue trivial
  | .ret => isTrue trivial
  | .exit => isTrue trivial
  | .clear => isTrue trivial

theorem Orderly.fromRunAt {s : Timers} {choice : Choice} (h : s.Orderly choice) :
    s.FromRunAt choice := by
  cases choice with
  | cancel id => exact h.elim (fun hon => ⟨_, hon.returned⟩) fun hon => ⟨_, hon.returned⟩
  | _ => trivial

/-- The sign of an id says which of the two maps `cancel` has to look in. -/
def Signed (s : Timers) : Prop :=
  ∀ id kind, .returned id kind ∈ s.log →
    (kind = .oneShot → 0 < id.first) ∧ (kind = .repeating → id.first < 0)

/-- The only step that hands out an id is `runAt`. -/
theorem returned_of_sweep {s : Timers} {tid : TimerId} {rest : List TimerFrame} {clock : Int}
    {id : TimerId} {kind : TimerKind} (h : .returned id kind ∈ (s.sweep tid rest clock).log) :
    .returned id kind ∈ s.log := by
  unfold sweep at h
  split at h
  · split at h
    · split at h
      · simpa using h
      · unfold Timers.repeatableTimeout at h
        dsimp only at h
        split at h
        · exact h
        · simpa using h
    · simpa using h
  · simpa using h

theorem wrap64_neg {n : Int} (h : 0 < n ∧ n < 2 ^ 63) : wrap64 (-n) < 0 := by
  rw [wrap64]
  omega

theorem Signed.runAt {s : Timers} (h : s.Signed) {milli interval : Int}
    (hmilli : 0 < milli ∧ milli < 2 ^ 63) (clock : Int) :
    (s.runAt milli interval clock).2.Signed := by
  have hnew : ∀ a new, ((new = .oneShot → 0 < a.first) ∧ (new = .repeating → a.first < 0)) →
      ∀ id kind, .returned id kind ∈ .returned a new :: s.log →
        (kind = .oneShot → 0 < id.first) ∧ (kind = .repeating → id.first < 0) := by
    intro a new ha id kind hmem
    rcases List.mem_cons.mp hmem with heq | hmem
    · cases heq
      exact ha
    · exact h id kind hmem
  unfold Timers.runAt
  intro id kind hmem
  split at hmem
  · exact hnew _ _ (by decide) id kind hmem
  · split at hmem
    · rw [refreshNearest_log] at hmem
      exact hnew _ _ ⟨fun hc => absurd hc (by decide), fun _ => wrap64_neg hmilli⟩ id kind hmem
    · rw [refreshNearest_log] at hmem
      exact hnew _ _ ⟨fun _ => hmilli.1, fun hc => absurd hc (by decide)⟩ id kind hmem

/-- With its sign right, an id of a timer that is on is found and taken out, and
nothing else is touched. -/
theorem Inv.cancel_on {s : Timers} (h : s.Inv) (hsign : s.Signed) {id : TimerId}
    (hon : On s.log id .oneShot ∨ On s.log id .repeating) :
    ∃ s', s.cancel id = .ok (true, s') ∧ s'.log = .cancelled id :: s.log ∧ s'.fault = s.fault ∧
      ((s'.timers = s.timers.erase id ∧ s.timers.get? id = some .user ∧
          s'.timerReps = s.timerReps) ∨
        ∃ r, s.timerReps.get? id = some r ∧ s'.timers = s.timers.erase r.timerid ∧
          s'.timerReps = s.timerReps.erase id) := by
  rcases hon with hon | hon
  · have hpos := (hsign id _ hon.returned).1 rfl
    rcases h.cancel_spec hon.returned with ⟨_, _, _, ht, heq⟩ | ⟨_, hkind, _⟩ | ⟨_, hnot, _⟩ |
      ⟨hneg, _⟩
    · exact ⟨_, heq, rfl, rfl, Or.inl ⟨rfl, ht, rfl⟩⟩
    · exact absurd hkind (by decide)
    · exact absurd ⟨rfl, hon⟩ hnot
    · omega
  · have hneg := (hsign id _ hon.returned).2 rfl
    rcases h.cancel_spec hon.returned with ⟨_, hkind, _⟩ | ⟨_, _, _, r, hr, heq⟩ | ⟨hpos, _⟩ |
      ⟨_, hnot, _⟩
    · exact absurd hkind (by decide)
    · exact ⟨_, heq, rfl, rfl, Or.inr ⟨r, hr, rfl, rfl⟩⟩
    · omega
    · exact absurd ⟨rfl, hon⟩ hnot

theorem runAt_fault (s : Timers) (milli interval clock : Int) :
    (s.runAt milli interval clock).2.fault = s.fault := by
  unfold Timers.runAt
  split
  · rfl
  · split
    · exact refreshNearest_fault _ _
    · exact refreshNearest_fault _ _

structure Calm (s : Timers) : Prop where
  inv : s.Inv
  signed : s.Signed
  alive : s.fault = none

theorem Calm.step {s : Timers} (h : s.Calm) {choice : Choice} (hok : s.Orderly choice) :
    (s.step choice).Calm := by
  have hmoved := s.moved_step choice
  refine ⟨h.inv.step hok.fromRunAt, ?_, ?_⟩
  · generalize s.step choice = t at hmoved ⊢
    cases hmoved with
    | stay => exact h.signed
    | runAt milli interval clock => exact h.signed.runAt hok.1 clock
    | cancel hc =>
        obtain ⟨s', heq, hlog, _⟩ := h.inv.cancel_on h.signed hok
        rw [heq] at hc
        cases hc
        intro id kind hmem
        rw [hlog] at hmem
        exact h.signed id kind (by simpa using hmem)
    | fault _ => exact h.signed
    | sweep tid rest clock => exact fun id kind hmem => h.signed id kind (returned_of_sweep hmem)
    | stack stack => exact h.signed
    | exit => exact h.signed
    | clear hexit => exact fun id kind hmem => h.signed id kind (by simpa using hmem)
  · generalize s.step choice = t at hmoved ⊢
    cases hmoved with
    | stay => exact h.alive
    | runAt milli interval clock => exact (runAt_fault s milli interval clock).trans h.alive
    | cancel hc =>
        obtain ⟨s', heq, _, hfault, _⟩ := h.inv.cancel_on h.signed hok
        rw [heq] at hc
        cases hc
        exact hfault.trans h.alive
    | fault hc =>
        obtain ⟨s', heq, _⟩ := h.inv.cancel_on h.signed hok
        rw [heq] at hc
        cases hc
    | sweep tid rest clock => exact (h.inv.sweep tid rest clock).2.trans h.alive
    | stack stack => exact h.alive
    | exit => exact h.alive
    | clear hexit => exact h.alive

end Timers

open Timers in
/-- While times are positive and only timers that are on are cancelled: no absent
entry is dereferenced; a cancelled task is never started later; cancelling a timer
that is on answers true and leaves every other timer under its key; and each node of
`timerReps_` has exactly one entry in `timers_`, under the key it names, each
closure its node. -/
theorem cancelled_timers_stay_quiet (choices : List Timers.Choice)
    (hok : Driven.Along step Orderly new choices) :
    let s := Driven.run step new choices
    s.fault = none ∧ Quiet s.log ∧
      (∀ id, On s.log id .oneShot ∨ On s.log id .repeating →
        ∃ s', s.cancel id = .ok (true, s') ∧ s'.log = .cancelled id :: s.log ∧
          (∀ key, key ≠ id → s.timers.get? key ≠ some (.repeatable id) →
            s'.timers.get? key = s.timers.get? key) ∧
          ∀ tid, tid ≠ id → s'.timerReps.get? tid = s.timerReps.get? tid) ∧
      (∀ tid r, s.timerReps.get? tid = some r →
        ∀ key, s.timers.get? key = some (.repeatable tid) ↔ key = r.timerid) ∧
      ∀ key tid, s.timers.get? key = some (.repeatable tid) →
        ∃ r, s.timerReps.get? tid = some r := by
  have hcalm : (Driven.run step new choices).Calm :=
    Driven.run_invariant (I := Calm) (fun _ _ h hok => h.step hok)
      ⟨Inv.new, fun _ _ hmem => absurd hmem List.not_mem_nil, rfl⟩ hok
  obtain ⟨hinv, hsign, halive⟩ := hcalm
  refine ⟨halive, hinv.quiet, ?_, ?_, ?_⟩
  · intro id hon
    obtain ⟨s', hc, hlog, _, ⟨htimers, _, hreps⟩ | ⟨r, hr, htimers, hreps⟩⟩ :=
      hinv.cancel_on hsign hon
    · refine ⟨s', hc, hlog, fun key hne _ => ?_, fun tid _ => ?_⟩
      · rw [htimers, OrdMap.get?_erase_of_ne _ hne]
      · rw [hreps]
    · refine ⟨s', hc, hlog, fun key _ hnode => ?_, fun tid hne => ?_⟩
      · have hkey : key ≠ r.timerid := by
          rintro rfl
          exact hnode (hinv.linked.armed id r hr)
        rw [htimers, OrdMap.get?_erase_of_ne _ hkey]
      · rw [hreps, OrdMap.get?_erase_of_ne _ hne]
  · intro tid r hr key
    constructor
    · intro hkey
      obtain ⟨q, hq, heq⟩ := hinv.linked.owned key tid hkey
      rw [hr] at hq
      cases hq
      exact heq.symm
    · rintro rfl
      exact hinv.linked.armed tid r hr
  · intro key tid hkey
    obtain ⟨r, hr, _⟩ := hinv.linked.owned key tid hkey
    exact ⟨r, hr⟩

open Timers in
/-- A task due together with two others cancels one of them and, repeating and last, itself. -/
theorem cancelled_timers_stay_quiet_pass :
    let choices : List Timers.Choice :=
      [.runAt 10 0 0, .runAt 5 7 0, .runAt 6 0 0, .handleTimeouts 12, .go 12, .cancel ⟨10, 1⟩,
        .runAt 30 0 12, .cancel ⟨-5, 2⟩, .ret, .go 12, .ret, .go 12]
    let s := Driven.run step new choices
    s.fault = none ∧ Quiet s.log ∧
      (∀ id, On s.log id .oneShot ∨ On s.log id .repeating →
        ∃ s', s.cancel id = .ok (true, s') ∧ s'.log = .cancelled id :: s.log ∧
          (∀ key, key ≠ id → s.timers.get? key ≠ some (.repeatable id) →
            s'.timers.get? key = s.timers.get? key) ∧
          ∀ tid, tid ≠ id → s'.timerReps.get? tid = s.timerReps.get? tid) ∧
      (∀ tid r, s.timerReps.get? tid = some r →
        ∀ key, s.timers.get? key = some (.repeatable tid) ↔ key = r.timerid) ∧
      ∀ key tid, s.timers.get? key = some (.repeatable tid) →
        ∃ r, s.timerReps.get? tid = some r :=
  cancelled_timers_stay_quiet _ (by decide)

/-! ## Any time, any timer -/

namespace Timers

/-- What the documentation promises of `cancel(id)`: it finds what it looks for,
answers whether the timer was on, and otherwise leaves the store alone. -/
def CancelsSafely (s : Timers) (id : TimerId) (kind : TimerKind) : Prop :=
  ∃ answer s', s.cancel id = .ok (answer, s') ∧ (answer = true ↔ On s.log id kind) ∧
    (answer = false → s' = s)

/-- The sign of the id sends `cancel` to the map that has, or never had, its timer. -/
def SignFits (s : Timers) (id : TimerId) : TimerKind → Prop
  | .oneShot => 0 ≤ id.first
  | .repeating => id.first < 0 ↔ On s.log id .repeating
  | .refused => True

theorem Inv.cancelsSafely_iff {s : Timers} (h : s.Inv) {id : TimerId} {kind : TimerKind}
    (hret : .returned id kind ∈ s.log) : s.CancelsSafely id kind ↔ s.SignFits id kind := by
  rcases h.cancel_spec hret with ⟨hon, rfl, hpos, _, heq⟩ | ⟨hon, rfl, hneg, r, _, heq⟩ |
    ⟨hpos, hoff, heq⟩ | ⟨hneg, hoff, hkind, heq⟩
  · exact iff_of_true ⟨true, _, heq, iff_of_true rfl hon, fun hc => by cases hc⟩ hpos
  · exact iff_of_true ⟨true, _, heq, iff_of_true rfl hon, fun hc => by cases hc⟩
      (iff_of_true hneg hon)
  · have hsafe : s.CancelsSafely id kind ↔ ¬ On s.log id kind := by
      constructor
      · rintro ⟨answer, s', hc, hans, _⟩ hon
        rw [heq] at hc
        cases hc
        exact Bool.false_ne_true (hans.mpr hon)
      · exact fun hon => ⟨false, s, heq, iff_of_false Bool.false_ne_true hon, fun _ => rfl⟩
    rw [hsafe]
    cases kind with
    | oneShot => exact iff_of_true (fun hon => hoff ⟨rfl, hon⟩) hpos
    | repeating => exact ⟨fun hon => iff_of_false (by omega) hon, fun hfit hon => by
        have hneg := hfit.mpr hon
        omega⟩
    | refused => exact iff_of_true (fun hon => hon) trivial
  · apply iff_of_false
    · rintro ⟨answer, s', hc, _⟩
      rw [heq] at hc
      cases hc
    · cases kind with
      | oneShot =>
          intro hpos
          change 0 ≤ id.first at hpos
          omega
      | repeating => exact fun hfit => hoff ⟨rfl, hfit.mp hneg⟩
      | refused => exact absurd rfl hkind

end Timers

open Timers in
/-- After any history, `cancel` of an id that `runAt` returned does what is promised
if and only if the id is that of a one-shot timer with a time not negative, that of a
repeating timer whose first component is negative exactly while the timer is on, or
`TimerId()`. -/
theorem cancel_safe_iff (choices : List Timers.Choice) (id : TimerId) (kind : TimerKind)
    (hids : Driven.Along step FromRunAt new choices)
    (hret : .returned id kind ∈ (Driven.run step new choices).log) :
    (Driven.run step new choices).CancelsSafely id kind ↔
      (Driven.run step new choices).SignFits id kind :=
  (Inv.run hids).cancelsSafely_iff hret

open Timers in
/-- A repeating timer, fired once and then cancelled. -/
theorem cancel_safe_iff_repeating :
    let choices : List Timers.Choice :=
      [.runAt 5 7 0, .runAt 9 0 0, .handleTimeouts 6, .go 6, .cancel ⟨-5, 1⟩, .ret, .go 6]
    (Driven.run step new choices).CancelsSafely ⟨-5, 1⟩ .repeating ↔
      (Driven.run step new choices).SignFits ⟨-5, 1⟩ .repeating := by
  refine cancel_safe_iff _ _ _ ?_ (by decide)
  exact ⟨trivial, trivial, trivial, trivial, ⟨.repeating, by decide⟩, trivial, trivial, trivial⟩

open Timers in
/-- Cancelling a repeating timer twice dereferences `end()`, and so does cancelling a
one-shot timer in the past; a repeating timer that began at 0 cannot be cancelled. -/
theorem cancel_dereferences_end :
    let twice := Driven.run step new [.runAt 100 10 0, .cancel ⟨-100, 1⟩]
    let past := Driven.run step new [.runAt (-5) 0 0]
    let zero := Driven.run step new [.runAt 0 10 0]
    (twice.fault = none ∧ .returned ⟨-100, 1⟩ .repeating ∈ twice.log ∧
        twice.cancel ⟨-100, 1⟩ = .error .absentEntry) ∧
      (.returned ⟨-5, 1⟩ .oneShot ∈ past.log ∧ past.cancel ⟨-5, 1⟩ = .error .absentEntry) ∧
      On zero.log ⟨0, 1⟩ .repeating ∧ zero.cancel ⟨0, 1⟩ = .ok (false, zero) := by
  refine ⟨⟨rfl, by decide, rfl⟩, ⟨by decide, rfl⟩, by decide, rfl⟩

end Handy
