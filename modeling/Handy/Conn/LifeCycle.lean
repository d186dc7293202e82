import Mathlib.Data.List.Nodup
import Handy.Conn.Interest
import Handy.Conn.Turn

/-! # What `statecb_` is told

`cleanup` reports `Failed` or `Closed` by the state it finds, and it is reached
from six places. An attempt is reported once as long as nothing enters `cleanup`
for an attempt that is over: the shutdown of the loop does so for every
connection that waits to reconnect, and a send from `statecb_` to a peer that is
gone does so from inside `cleanup`. No other order of events reports an attempt
twice.
-/

namespace Handy

variable {α : Type}

inductive Course where
  | failed
  | lost
deriving DecidableEq, Repr

/-- What `statecb_` sees of attempt `k` when it is over. -/
def Course.told (k : Nat) : Course → List (Nat × State)
  | .failed => [(k, .failed)]
  | .lost => [(k, .connected), (k, .closed)]

namespace Conn

def allTold (attempts : List (Nat × Course)) : List (Nat × State) :=
  attempts.flatMap fun a => a.2.told a.1

/-- A concatenation of attempts, later ones with higher numbers, of which the last
may be cut short. -/
def LifeCycle (l : List (Nat × State)) : Prop :=
  ∃ (attempts : List (Nat × Course)) (last : List Nat),
    l = allTold attempts ++ last.map (·, .connected) ∧ last.length ≤ 1 ∧
      (attempts.map Prod.fst ++ last).Pairwise (· < ·)

/-- The loop is left and cleans up a connection that waits to reconnect. -/
def reclosed (s : Conn α) (ch : Choice α) : Bool :=
  match s.stack, ch.event with
  | [], .shutdown =>
      s.exited && s.inReconnectConns && (s.state == .closed || s.state == .failed)
  | _, _ => false

/-- `cleanup` is entered when one below has reported or will still report: behind
`statecb_` of that one, or in front of it with a reconnect in between. -/
def tellsAgain (s : Conn α) : Bool :=
  match s.stack with
  | .cleanup :: rest => rest.any fun f => match f with
      | .cleanupEnd | .reconnectEnd => true
      | .cleanupState => decide s.Reconnects
      | _ => false
  | _ => false

/-- A connection with a `statecb_` does not enter `cleanup` for an attempt that is
reported. -/
def TellsOnce (s : Conn α) (ch : Choice α) : Prop :=
  s.statecb = true → s.reclosed ch = false ∧ s.tellsAgain = false

instance (s : Conn α) (ch : Choice α) : Decidable (TellsOnce s ch) :=
  inferInstanceAs (Decidable (s.statecb = true → s.reclosed ch = false ∧ s.tellsAgain = false))

/-! ## Sequences of reports -/

/-- Attempts below `k`, all in full. -/
def Reported (k : Nat) (l : List (Nat × State)) : Prop :=
  ∃ attempts : List (Nat × Course), l = allTold attempts ∧
    (attempts.map Prod.fst).Pairwise (· < ·) ∧ ∀ a ∈ attempts, a.1 < k

theorem Reported.told {k : Nat} {l : List (Nat × State)} (h : Reported k l) (c : Course) :
    Reported (k + 1) (l ++ c.told k) := by
  obtain ⟨attempts, rfl, hsorted, hbelow⟩ := h
  refine ⟨attempts ++ [(k, c)], by simp [allTold], ?_, ?_⟩
  · rw [List.map_append, List.pairwise_append]
    refine ⟨hsorted, by simp, fun i hi j hj => ?_⟩
    obtain ⟨a, ha, rfl⟩ := List.mem_map.mp hi
    obtain rfl : j = k := by simpa using hj
    exact hbelow a ha
  · intro a ha
    rcases List.mem_append.mp ha with ha | ha
    · exact Nat.lt_succ_of_lt (hbelow a ha)
    · rw [List.mem_singleton.mp ha]
      exact Nat.lt_succ_self k

theorem Reported.lifeCycle {k : Nat} {l : List (Nat × State)} (h : Reported k l) :
    LifeCycle l := by
  obtain ⟨attempts, rfl, hsorted, -⟩ := h
  exact ⟨attempts, [], by simp, by simp, by simpa using hsorted⟩

theorem Reported.lifeCycle_connected {k : Nat} {l : List (Nat × State)} (h : Reported k l) :
    LifeCycle (l ++ [(k, .connected)]) := by
  obtain ⟨attempts, rfl, hsorted, hbelow⟩ := h
  refine ⟨attempts, [k], rfl, Nat.le_refl 1, List.pairwise_append.mpr ⟨hsorted, by simp, ?_⟩⟩
  intro i hi j hj
  obtain ⟨a, ha, rfl⟩ := List.mem_map.mp hi
  obtain rfl : j = k := by simpa using hj
  exact hbelow a ha

theorem Course.attempt_of_told {k : Nat} {c : Course} {r : Nat × State} (h : r ∈ c.told k) :
    r.1 = k := by
  cases c with
  | failed => rw [List.mem_singleton.mp h]
  | lost => rcases List.mem_pair.mp h with rfl | rfl <;> rfl

theorem LifeCycle.nodup {l : List (Nat × State)} (h : LifeCycle l) : l.Nodup := by
  obtain ⟨attempts, last, rfl, -, hsorted⟩ := h
  obtain ⟨hattempts, hlast, hbelow⟩ := List.pairwise_append.mp hsorted
  refine List.nodup_append.mpr ⟨?_, ?_, ?_⟩
  · refine List.nodup_flatMap.mpr ⟨fun a _ => ?_, (List.pairwise_map.mp hattempts).imp ?_⟩
    · cases a.2 <;> simp [Course.told]
    · intro a b hab r ha hb
      have hr := Course.attempt_of_told ha
      rw [Course.attempt_of_told hb] at hr
      omega
  · exact (hlast.imp fun h => Nat.ne_of_lt h).map _ fun _ _ hne heq => hne (Prod.mk.inj heq).1
  · rintro r hr r' hr' rfl
    obtain ⟨a, ha, hra⟩ := List.mem_flatMap.mp hr
    obtain ⟨k, hk, rfl⟩ := List.mem_map.mp hr'
    have hlt := hbelow a.1 (List.mem_map_of_mem ha) k hk
    rw [← Course.attempt_of_told hra] at hlt
    exact Nat.lt_irrefl _ hlt

/-! ## The invariant -/

/-- Above every `cleanup` that has not set the state there is one that has. -/
def Covered : List (Frame α) → Prop
  | [] => True
  | .cleanupEnd :: _ => True
  | .cleanupState :: _ => False
  | _ :: rest => Covered rest

def Told (s : Conn α) : Prop :=
  match s.state with
  | .handshaking => Reported s.attempt (reports s.log)
  | .connected => ∃ l, Reported s.attempt l ∧ reports s.log = l ++ [(s.attempt, .connected)]
  | _ => Reported (s.attempt + 1) (reports s.log)

/-- `covered` and `alone` are about a `cleanup` that another one has overtaken: it
comes back to a connection without a `statecb_`. -/
structure Living (s : Conn α) : Prop where
  told : Told s
  live : s.state = .handshaking ∨ s.state = .connected → s.channel ≠ none
  ended : Ending s.stack → s.state = .closed ∨ s.state = .failed
  closing : s.state = .closed ∨ s.state = .failed → s.channel ≠ none → Ending s.stack
  begun : s.state = .invalid →
    s.channel = none ∧ s.inReconnectConns = false ∧ ¬ Cleaning s.stack
  entered : .cleanup ∈ s.stack → (s.state = .handshaking ∨ s.state = .connected) ∨ Ending s.stack
  covered : s.state = .closed ∨ s.state = .failed → Covered s.stack
  alone : s.state = .closed ∨ s.state = .failed → s.Reconnects → .cleanupState ∉ s.stack
  once : s.Reconnects → s.stack.countP Frame.ofCleanup ≤ 1

theorem covered_append {new rest : List (Frame α)} (h : ∀ g ∈ new, g.ofCleanup = false) :
    Covered (new ++ rest) ↔ Covered rest := by
  induction new with
  | nil => rfl
  | cons f new ih =>
      have hf : f.ofCleanup = false := h f List.mem_cons_self
      have hnew := ih fun g hg => h g (List.mem_cons_of_mem f hg)
      rw [List.cons_append, ← hnew]
      cases f <;> first | rfl | cases hf

theorem ending_append {new rest : List (Frame α)} (h : ∀ g ∈ new, g.ofCleanup = false) :
    Ending (new ++ rest) ↔ Ending rest := by
  have hout : ∀ g : Frame α, g.ofCleanup = true → g ∉ new := by
    intro g hg hmem
    rw [h g hmem] at hg
    cases hg
  have hend : Frame.cleanupEnd ∉ new := hout _ rfl
  have hreconnect : Frame.reconnectEnd ∉ new := hout _ rfl
  simp only [Ending, List.mem_append, hend, hreconnect, false_or]

theorem covered_of_notMem {rest : List (Frame α)} (h : .cleanupState ∉ rest) : Covered rest := by
  induction rest with
  | nil => trivial
  | cons f rest ih =>
      rw [List.mem_cons, not_or] at h
      have hrest := ih h.2
      cases f <;> first | exact hrest | exact trivial | exact absurd rfl h.1

theorem ending_under {s : Conn α} {f : Option (Frame α)}
    (hf : ∀ g, f = some g → g.ofCleanup = false) :
    Ending (s.under f).stack ↔ Ending s.stack := by
  cases f with
  | none => rfl
  | some f =>
      have hplain : ∀ g ∈ [f], g.ofCleanup = false := by simpa using hf
      exact ending_append hplain

theorem covered_under {s : Conn α} {f : Option (Frame α)}
    (hf : ∀ g, f = some g → g.ofCleanup = false) :
    Covered (s.under f).stack ↔ Covered s.stack := by
  cases f with
  | none => rfl
  | some f =>
      have hplain : ∀ g ∈ [f], g.ofCleanup = false := by simpa using hf
      exact covered_append hplain

theorem Told.still {s s' : Conn α} (h : Still s s') (hs : Told s) : Told s' := by
  unfold Told at hs ⊢
  rw [h.state, h.attempt, h.reports]
  exact hs

/-- Who calls `cleanup` has a channel, or the loop is left and the connection waits
to reconnect: then it is not over yet. -/
theorem Living.entering {ch : Choice α} {f : Option (Frame α)} {new : List (Frame α)}
    {s s' : Conn α} (hs : Living (s.under f)) (hnone : f = none → s.stack = [])
    (hch : TellsOnce (s.under f) ch) (hcb : s.statecb = true) (swaps : Swaps ch f new s s')
    (hmem : .cleanup ∈ new) :
    (s.state = .handshaking ∨ s.state = .connected) ∨
      (s.state = .closed ∨ s.state = .failed) ∧ Ending s.stack := by
  have hbegun := hs.begun
  have hclosing := hs.closing
  rw [under_toTcpConn, under_toBase] at hbegun
  rw [under_toTcpConn, ending_under fun g hg => (swaps.running g hg).2] at hclosing
  cases hst : s.state with
  | invalid =>
      rcases swaps.calls hmem with h | ⟨-, -, -, hlisted⟩
      · exact absurd (hbegun hst).1 h
      · simp [(hbegun hst).2.1] at hlisted
  | handshaking => exact Or.inl (Or.inl rfl)
  | connected => exact Or.inl (Or.inr rfl)
  | closed =>
      rcases swaps.calls hmem with h | ⟨rfl, hevent, hexit, hlisted⟩
      · exact Or.inr ⟨Or.inl rfl, hclosing (Or.inl hst) h⟩
      · have h := (hch hcb).1
        simp [reclosed, hnone rfl, hevent, hexit, hlisted, hst] at h
  | failed =>
      rcases swaps.calls hmem with h | ⟨rfl, hevent, hexit, hlisted⟩
      · exact Or.inr ⟨Or.inr rfl, hclosing (Or.inr hst) h⟩
      · have h := (hch hcb).1
        simp [reclosed, hnone rfl, hevent, hexit, hlisted, hst] at h

theorem Living.goes {ch : Choice α} {f : Option (Frame α)} {new : List (Frame α)} {s s' : Conn α}
    (hs : Living (s.under f)) (still : Still s s') (swaps : Swaps ch f new s s')
    (hentering : .cleanup ∈ new → (s.state = .handshaking ∨ s.state = .connected) ∨
      (s.state = .closed ∨ s.state = .failed) ∧ Ending s.stack) : Living s' := by
  have hplain : ∀ g, f = some g → g.ofCleanup = false := fun g hg => (swaps.running g hg).2
  have hsub := sublist_under s f
  obtain ⟨told, live, ended, closing, begun, entered, covered, alone, once⟩ := hs
  simp only [Reconnects, under_toTcpConn, under_toBase, ending_under hplain,
    covered_under hplain] at live ended closing begun entered covered alone once
  have hending : Ending s'.stack ↔ Ending s.stack := by
    rw [swaps.stack]
    exact ending_append swaps.plain
  have hcalled : .cleanup ∈ s'.stack → .cleanup ∈ new ∨ .cleanup ∈ (s.under f).stack := by
    rw [swaps.stack, List.mem_append]
    exact Or.imp_right (hsub.subset ·)
  refine ⟨?_, ?_, ?_, ?_, ?_, ?_, ?_, ?_, ?_⟩
  · have hs' : Told s := by
      cases f with
      | none => exact told
      | some f => exact told
    exact hs'.still still
  · rw [still.state]
    exact fun hst h => live hst (still.channel.mp h)
  · rw [hending, still.state]
    exact ended
  · rw [hending, still.state]
    exact fun hst h => closing hst fun h' => h (still.channel.mpr h')
  · rw [still.state]
    intro hst
    obtain ⟨hchan, hlisted, hclean⟩ := begun hst
    refine ⟨still.channel.mpr hchan, still.listed.trans hlisted, ?_⟩
    · rintro (hmem | hmem)
      · rcases hcalled hmem with hnew | hbelow
        · rcases hentering hnew with h | ⟨h, -⟩ <;> simp [hst] at h
        · exact hclean (Or.inl hbelow)
      · exact hclean (Or.inr (hsub.subset (swaps.part rfl hmem)))
  · intro hmem
    rw [still.state, hending]
    rcases hcalled hmem with hnew | hbelow
    · exact (hentering hnew).imp_right And.right
    · exact entered hbelow
  · rw [still.state, swaps.stack, covered_append swaps.plain]
    exact covered
  · rw [still.state]
    exact fun hst hr hmem => alone hst (still.wanted hr) (hsub.subset (swaps.part rfl hmem))
  · intro hr
    rw [swaps.count]
    exact (hsub.countP_le).trans (once (still.wanted hr))

theorem Living.callsRead {ch : Choice α} {s s' : Conn α} (h : CallsRead ch s s')
    (hs : Living s) : Living s' := by
  obtain ⟨new, swaps, hnew⟩ := Swaps.callsRead h
  exact hs.goes (f := none) (.callsRead h) swaps fun h => absurd h hnew

/-! ## Steps -/

theorem tellsAgain_false {s : Conn α} (h : (s.push .cleanup).tellsAgain = false) :
    ¬ Ending s.stack ∧ (s.Reconnects → s.stack.countP Frame.ofCleanup = 0) := by
  simp only [tellsAgain, push_stack, List.any_eq_false] at h
  refine ⟨?_, fun hr => ?_⟩
  · rintro (hmem | hmem)
    · exact h _ hmem rfl
    · exact h _ hmem rfl
  · rw [List.countP_eq_zero]
    intro g hg
    have hg' := h g hg
    have hr' : (s.push .cleanup).Reconnects := hr
    cases g <;> simp_all [Frame.ofCleanup]

theorem Living.attach {s s' : Conn α} (hs : Living s) (hchan : s.channel = none)
    (hstate : s.state ≠ .connected) (hstack' : s'.stack = []) (hchan' : s'.channel ≠ none)
    (hstate' : s'.state = .handshaking) (hattempt : s'.attempt = s.attempt + 1)
    (hreports : reports s'.log = reports s.log) : Living s' := by
  have htold : Reported (s.attempt + 1) (reports s.log) := by
    have h := hs.told
    unfold Told at h
    cases hst : s.state with
    | handshaking => exact absurd hchan (hs.live (Or.inl hst))
    | connected => exact absurd hst hstate
    | invalid => simpa only [hst] using h
    | closed => simpa only [hst] using h
    | failed => simpa only [hst] using h
  refine ⟨?_, fun _ => hchan', ?_, ?_, ?_, ?_, ?_, ?_, ?_⟩
  · unfold Told
    rw [hstate', hattempt, hreports]
    exact htold
  · simp [hstack']
  · simp [hstate']
  · simp [hstate']
  · simp [hstack']
  · simp [hstate']
  · simp [hstate']
  · simp [hstack']

theorem Living.handshake {ch : Choice α} {s s' : Conn α} {f : Option (Frame α)} {c : Channel}
    {next : List (Frame α)} (hs : Living (s.under f)) (hcb : s.statecb = true)
    (hnext : next = [] ∨ next = [.readLoop]) (hstate : s.state = .handshaking)
    (h : CallsState ch { s with
      channel := some c
      state := .connected
      stack := next ++ s.stack } s') : Living s' := by
  have hsub := sublist_under s f
  have htold : Reported s.attempt (reports s.log) := by
    have h := hs.told
    cases f <;> simpa only [Told, under_none, under_some, push, hstate] using h
  have hended : ¬ Ending s.stack := by
    intro hend
    have hover := hs.ended (hend.imp (hsub.subset ·) (hsub.subset ·))
    rw [under_toTcpConn] at hover
    exact not_both (Or.inl hstate) hover
  have honce : s.Reconnects → s.stack.countP Frame.ofCleanup ≤ 1 := by
    intro hr
    have h := hs.once (by simpa [Reconnects] using hr)
    exact (hsub.countP_le).trans h
  cases h with
  | skip statecb =>
      rw [show s.statecb = false from statecb] at hcb
      cases hcb
  | user =>
      refine ⟨⟨_, htold, by simp [reports_append]⟩, fun _ => Option.some_ne_none c, ?_, by simp,
        by simp, fun _ => Or.inl (Or.inr rfl), by simp, by simp, fun hr => ?_⟩
      · rcases hnext with rfl | rfl
        · simpa using hended
        · simpa using hended
      · have hle := honce hr
        rcases hnext with rfl | rfl
        · simpa [Frame.ofCleanup] using hle
        · simpa [Frame.ofCleanup] using hle

theorem Living.cleanup {ch : Choice α} {s s' : Conn α} (hs : Living (s.push .cleanup))
    (hch : TellsOnce (s.push .cleanup) ch) (hcb : s.statecb = true)
    (h : CallsRead ch { s with
      stack := .cleanupState :: s.stack
      log := s.log ++ [.cleanup s.attempt] } s') : Living s' := by
  obtain ⟨hfresh, hfirst⟩ := tellsAgain_false (hch hcb).2
  have hlive : s.state = .handshaking ∨ s.state = .connected := by
    refine (hs.entered List.mem_cons_self).resolve_right fun hend => hfresh ?_
    simpa using hend
  refine Living.callsRead h ?_
  refine ⟨?_, hs.live, ?_, ?_, ?_, fun _ => Or.inl hlive, ?_, ?_, fun hr => ?_⟩
  · have htold : Told s := hs.told
    unfold Told at htold ⊢
    rw [show reports (s.log ++ [Ev.cleanup s.attempt]) = reports s.log by simp [reports_append]]
    exact htold
  · intro hend
    exact absurd (by simpa using hend) hfresh
  · exact fun hover => (not_both (s := s) hlive hover).elim
  · intro hst
    rcases hlive with h | h <;> simp [show s.state = .invalid from hst] at h
  · exact fun hover => (not_both (s := s) hlive hover).elim
  · exact fun hover => (not_both (s := s) hlive hover).elim
  · show (Frame.cleanupState :: s.stack).countP Frame.ofCleanup ≤ 1
    rw [List.countP_cons_of_pos rfl, hfirst hr]

theorem Living.cleanupState {ch : Choice α} {s s' : Conn α} (hs : Living (s.push .cleanupState))
    (hcb : s.statecb = true)
    (h : CallsState ch { s with
      state := if s.state = .handshaking then .failed else .closed
      timeoutPending := false
      stack := .cleanupEnd :: s.stack } s') : Living s' := by
  have hpart : s.Reconnects → s.stack.countP Frame.ofCleanup = 0 := by
    intro hr
    have honce : (Frame.cleanupState :: s.stack).countP Frame.ofCleanup ≤ 1 := hs.once hr
    rw [List.countP_cons_of_pos rfl] at honce
    omega
  have hover : ∀ st : State, st = .closed ∨ st = .failed →
      (∃ l, reports s.log ++ [(s.attempt, st)] = l ∧ Reported (s.attempt + 1) l) →
      Living { s with
        state := st
        timeoutPending := false
        stack := .user ch.body :: .cleanupEnd :: s.stack
        log := s.log ++ [.report s.attempt st] } := by
    rintro st hst ⟨l, hl, htold⟩
    refine ⟨?_, fun hl => (not_both hl hst).elim, fun _ => hst, by simp, ?_, by simp,
      fun _ => trivial, fun _ hr => ?_, fun hr => ?_⟩
    · rcases hst with rfl | rfl
      · simpa [Told, reports_append, hl] using htold
      · simpa [Told, reports_append, hl] using htold
    · rintro rfl
      simp at hst
    · have hnone := List.countP_eq_zero.mp (hpart hr)
      have hnot : Frame.cleanupState ∉ s.stack := fun hmem => hnone _ hmem rfl
      simpa using hnot
    · show (Frame.user ch.body :: .cleanupEnd :: s.stack).countP Frame.ofCleanup ≤ 1
      rw [List.countP_cons_of_neg (by simp [Frame.ofCleanup]), List.countP_cons_of_pos rfl,
        hpart hr]
  have htold : Told s := hs.told
  unfold Told at htold
  cases h with
  | skip statecb =>
      rw [show s.statecb = false from statecb] at hcb
      cases hcb
  | user =>
      cases hst : s.state with
      | invalid => exact absurd (Or.inr List.mem_cons_self) (hs.begun hst).2.2
      | handshaking =>
          rw [hst] at htold
          exact hover .failed (Or.inr rfl) ⟨_, rfl, htold.told .failed⟩
      | connected =>
          rw [hst] at htold
          obtain ⟨l, hl, hreports⟩ := htold
          refine hover .closed (Or.inl rfl) ⟨_, rfl, ?_⟩
          rw [hreports, List.append_assoc]
          exact hl.told .lost
      | closed => exact (hs.covered (Or.inl hst)).elim
      | failed => exact (hs.covered (Or.inr hst)).elim

theorem Living.reconnect {s : Conn α} {c : Channel} {closing : List (Frame α)}
    (hs : Living (s.push .cleanupEnd)) (wanted : s.Reconnects)
    (close : closing = [.handleRead] ∨ closing = []) :
    Living { s with
      inReconnectConns := true
      reconnectTimers := s.reconnectTimers + 1
      channel := some c
      stack := closing ++ .reconnectEnd :: s.stack } := by
  have hover : s.state = .closed ∨ s.state = .failed := hs.ended (Or.inl List.mem_cons_self)
  have hplain : ∀ g ∈ closing, g.ofCleanup = false := by
    rcases close with rfl | rfl <;> simp [Frame.ofCleanup]
  have halone : Frame.cleanupState ∉ s.stack :=
    fun hmem => hs.alone hover wanted (List.mem_cons_of_mem _ hmem)
  have hend : Ending (closing ++ .reconnectEnd :: s.stack) :=
    (ending_append hplain).mpr (Or.inr List.mem_cons_self)
  have honce : (Frame.cleanupEnd :: s.stack).countP Frame.ofCleanup ≤ 1 := hs.once wanted
  rw [List.countP_cons_of_pos rfl] at honce
  refine ⟨hs.told, fun hl => (not_both (s := s) hl hover).elim, fun _ => hover, fun _ _ => hend,
    fun hst => ?_, fun _ => Or.inr hend, fun _ => ?_, fun _ _ => ?_, fun _ => ?_⟩
  · rcases hover with h | h <;> simp [h] at hst
  · exact (covered_append hplain).mpr (covered_of_notMem (by simpa using halone))
  · have hnot : Frame.cleanupState ∉ closing := by
      intro hmem
      have h := hplain _ hmem
      cases h
    simpa [hnot] using halone
  · have hzero : closing.countP Frame.ofCleanup = 0 :=
      List.countP_eq_zero.mpr fun g hg => by simp [hplain g hg]
    rw [List.countP_append, hzero, List.countP_cons_of_pos rfl]
    omega

theorem Living.reconnectEnd {s : Conn α} (hs : Living (s.push .reconnectEnd))
    (hstacked : Stacked (s.push .reconnectEnd).stack) :
    Living { s with channel := none, ended := s.attempt } := by
  have hover : s.state = .closed ∨ s.state = .failed := hs.ended (Or.inr List.mem_cons_self)
  refine ⟨hs.told, fun hl => (not_both (s := s) hl hover).elim, fun _ => hover,
    fun _ h => absurd rfl h, fun hst => ?_, fun hmem => absurd hmem hstacked.cleanup_top,
    fun _ => hs.covered hover, fun _ hr hmem => ?_, fun hr => ?_⟩
  · rcases hover with h | h <;> simp [h] at hst
  · exact hs.alone hover hr (List.mem_cons_of_mem _ hmem)
  · have honce : (Frame.reconnectEnd :: s.stack).countP Frame.ofCleanup ≤ 1 := hs.once hr
    rw [List.countP_cons_of_pos rfl] at honce
    show s.stack.countP Frame.ofCleanup ≤ 1
    omega

/-- A callback set between two attempts: nothing runs, and what was told stays. -/
theorem living_of_over {s : Conn α} (hchan : s.channel = none) (hstack : s.stack = [])
    (hover : s.state = .closed ∨ s.state = .failed)
    (htold : Reported (s.attempt + 1) (reports s.log)) : Living s := by
  refine ⟨?_, fun hl => (not_both hl hover).elim, ?_, fun _ h => absurd hchan h, ?_, ?_, ?_, ?_, ?_⟩
  · unfold Told
    rcases hover with hst | hst
    · simpa only [hst] using htold
    · simpa only [hst] using htold
  · simp [hstack]
  · intro hst
    rcases hover with h | h <;> simp [h] at hst
  · simp [hstack]
  · simp [hstack, Covered]
  · simp [hstack]
  · simp [hstack]

/-- Of an attempt that is over everything is told. -/
theorem Living.told_over {s : Conn α} (hs : Living s) (hover : s.state = .closed ∨ s.state = .failed) :
    Reported (s.attempt + 1) (reports s.log) := by
  have h := hs.told
  unfold Told at h
  rcases hover with hst | hst
  · simpa only [hst] using h
  · simpa only [hst] using h

theorem Reported.mono {k m : Nat} {l : List (Nat × State)} (h : Reported k l) (hle : k ≤ m) :
    Reported m l := by
  obtain ⟨attempts, hl, hsorted, hbelow⟩ := h
  exact ⟨attempts, hl, hsorted, fun a ha => Nat.lt_of_lt_of_le (hbelow a ha) hle⟩

theorem Living.turn {ch : Choice α} {f : Option (Frame α)} {s s' : Conn α}
    (hs : Living (s.under f)) (hstacked : Stacked (s.under f).stack)
    (hnone : f = none → s.stack = []) (hch : TellsOnce (s.under f) ch) (hcb : s.statecb = true)
    (h : Turn ch f s s') (hcb' : s'.statecb = true) : Living s' := by
  cases h with
  | goes new still swaps => exact hs.goes still swaps (hs.entering hnone hch hcb swaps)
  | attach _ _ _ _ _ hchan hstate =>
      exact Living.attach hs hchan hstate (hnone rfl) (Option.some_ne_none _) rfl rfl
        (by simp [reports_append])
  | sets _ _ _ hchan state =>
      exact living_of_over hchan (hnone rfl) state (hs.told_over state)
  | handshake from' hstate _ statecb =>
      exact hs.handshake hcb (by tauto) hstate statecb
  | cleanup readcb => exact Living.cleanup hs hch hcb readcb
  | cleanupState statecb => exact Living.cleanupState hs hcb statecb
  | reconnect closing wanted close => exact Living.reconnect hs wanted close
  | release => cases hcb'
  | reconnectEnd => exact Living.reconnectEnd hs hstacked

/-- Without a `statecb_`, and in the step that takes it away, nothing is told. -/
theorem silent_turn {ch : Choice α} {f : Option (Frame α)} {s s' : Conn α} (h : Turn ch f s s')
    (hcb : s.statecb = false ∨ s'.statecb = false) :
    reports s'.log = reports s.log ∧ s.attempt ≤ s'.attempt := by
  cases h with
  | goes new still => exact ⟨still.reports, Nat.le_of_eq still.attempt.symm⟩
  | attach => exact ⟨by simp [reports_append], Nat.le_succ _⟩
  | sets => exact ⟨rfl, Nat.le_refl _⟩
  | handshake _ _ _ statecb =>
      cases statecb with
      | skip => exact ⟨rfl, Nat.le_refl _⟩
      | user statecb =>
          have hcb' : s.statecb = false := by simpa using hcb
          exact absurd (hcb'.symm.trans statecb) Bool.false_ne_true
  | cleanup readcb =>
      have hstill := Still.callsRead readcb
      refine ⟨?_, Nat.le_of_eq hstill.attempt.symm⟩
      rw [hstill.reports]
      simp [reports_append]
  | cleanupState statecb =>
      cases statecb with
      | skip => exact ⟨rfl, Nat.le_refl _⟩
      | user statecb =>
          have hcb' : s.statecb = false := by simpa using hcb
          exact absurd (hcb'.symm.trans statecb) Bool.false_ne_true
  | reconnect => exact ⟨rfl, Nat.le_refl _⟩
  | release => exact ⟨by rw [reports_append, reports_unregisters, List.append_nil], Nat.le_refl _⟩
  | reconnectEnd => exact ⟨rfl, Nat.le_refl _⟩

theorem statecb_of_callsState {ch : Choice α} {s s' : Conn α} (h : CallsState ch s s') :
    s'.statecb = s.statecb := by
  cases h <;> rfl

/-- A `statecb_` comes between two attempts only. -/
theorem living_of_set {ch : Choice α} {f : Option (Frame α)} {s s' : Conn α} (h : Turn ch f s s')
    (hnone : f = none → s.stack = []) (hcb : s.statecb = false) (hcb' : s'.statecb = true)
    (htold : Reported (s.attempt + 1) (reports s.log)) : Living s' := by
  cases h with
  | goes new still => simp [still.statecb, hcb] at hcb'
  | attach => simp [hcb] at hcb'
  | sets _ _ _ hchan state => exact living_of_over hchan (hnone rfl) state htold
  | handshake _ _ _ statecb => simp [statecb_of_callsState statecb, hcb] at hcb'
  | cleanup readcb => simp [(Still.callsRead readcb).statecb, hcb] at hcb'
  | cleanupState statecb => simp [statecb_of_callsState statecb, hcb] at hcb'
  | reconnect => simp [hcb] at hcb'
  | release => cases hcb'
  | reconnectEnd => simp [hcb] at hcb'

/-- A `statecb_` goes when everything is told. -/
theorem Living.told_release {ch : Choice α} {f : Option (Frame α)} {s s' : Conn α}
    (hs : Living (s.under f)) (h : Turn ch f s s') (hcb : s.statecb = true)
    (hcb' : s'.statecb = false) : Reported (s'.attempt + 1) (reports s.log) := by
  cases h with
  | goes new still => simp [still.statecb, hcb] at hcb'
  | attach => simp [hcb] at hcb'
  | sets _ _ _ _ _ statecb => simp [statecb hcb] at hcb'
  | handshake _ _ _ statecb => simp [statecb_of_callsState statecb, hcb] at hcb'
  | cleanup readcb => simp [(Still.callsRead readcb).statecb, hcb] at hcb'
  | cleanupState statecb => simp [statecb_of_callsState statecb, hcb] at hcb'
  | reconnect => simp [hcb] at hcb'
  | release => exact hs.told_over (hs.ended (Or.inl List.mem_cons_self))
  | reconnectEnd => simp [hcb] at hcb'

theorem reports_of_fault {codec : Codec α} {ch : Choice α} {f : Option (Frame α)} {s s' : Conn α}
    (h : Move codec ch f s s') (hf : s.fault = none) (hf' : s'.fault ≠ none) :
    reports s'.log = reports s.log := by
  cases h with
  | faults _ _ log => rw [log]
  | call _ h => exact (Still.performs h).reports
  | perform h => exact (Still.performs h).reports
  | decodeNull => simp [reports_append]
  | overrun => simp [reports_append]
  | handshake _ _ _ _ _ statecb => cases statecb <;> exact absurd hf hf'
  | readAll _ _ _ _ readcb => cases readcb <;> exact absurd hf hf'
  | cleanup readcb => cases readcb <;> exact absurd hf hf'
  | cleanupState statecb => cases statecb <;> exact absurd hf hf'
  | _ => exact absurd hf hf'

theorem Living.lifeCycle {s : Conn α} (hs : Living s) : LifeCycle (reports s.log) := by
  have h := hs.told
  unfold Told at h
  cases hst : s.state with
  | invalid => exact Reported.lifeCycle (by simpa only [hst] using h)
  | handshaking => exact Reported.lifeCycle (by simpa only [hst] using h)
  | connected =>
      rw [hst] at h
      obtain ⟨l, hl, hreports⟩ := h
      rw [hreports]
      exact hl.lifeCycle_connected
  | closed => exact Reported.lifeCycle (by simpa only [hst] using h)
  | failed => exact Reported.lifeCycle (by simpa only [hst] using h)

/-- What holds in every state: of a live process, more. -/
structure Legal (s : Conn α) : Prop where
  lifeCycle : LifeCycle (reports s.log)
  stacked : s.fault = none → Stacked s.stack
  living : s.fault = none → s.statecb = true → Living s
  silent : s.fault = none → s.statecb = false → Reported (s.attempt + 1) (reports s.log)

theorem Legal.move {codec : Codec α} {ch : Choice α} {f : Option (Frame α)} {s s' : Conn α}
    (hs : Legal (s.under f)) (hf : s.fault = none) (hnone : f = none → s.stack = [])
    (hch : TellsOnce (s.under f) ch) (h : Move codec ch f s s') : Legal s' := by
  have hfault : (s.under f).fault = none := by
    cases f <;> exact hf
  have hlife : LifeCycle (reports s.log) := by
    have h := hs.lifeCycle
    cases f <;> exact h
  by_cases hf' : s'.fault = none
  · have hstacked := hs.stacked hfault
    have hturn := h.turn hf'
    have hstacked' := hstacked.move hnone h hf'
    cases hcb : s.statecb with
    | true =>
        have hliving : Living (s.under f) := hs.living hfault (by simpa using hcb)
        cases hcb' : s'.statecb with
        | true =>
            have hliving' := hliving.turn hstacked hnone hch hcb hturn hcb'
            exact ⟨hliving'.lifeCycle, fun _ => hstacked', fun _ _ => hliving',
              fun _ h => by simp [hcb'] at h⟩
        | false =>
            have htold := hliving.told_release hturn hcb hcb'
            rw [← (silent_turn hturn (Or.inr hcb')).1] at htold hlife
            exact ⟨hlife, fun _ => hstacked', fun _ h => by simp [hcb'] at h, fun _ _ => htold⟩
    | false =>
        have htold : Reported (s.attempt + 1) (reports s.log) := by
          have h := hs.silent hfault (by simpa using hcb)
          cases f <;> exact h
        obtain ⟨hsame, hle⟩ := silent_turn hturn (Or.inl hcb)
        refine ⟨hsame ▸ hlife, fun _ => hstacked', fun _ hcb' => ?_, fun _ _ => ?_⟩
        · exact living_of_set hturn hnone hcb hcb' htold
        · rw [hsame]
          exact htold.mono (Nat.succ_le_succ hle)
  · exact ⟨reports_of_fault h hf hf' ▸ hlife, fun h => absurd h hf', fun h => absurd h hf',
      fun h => absurd h hf'⟩

theorem legal_fresh (readcb : ReadCb) (writablecb statecb : Bool) (interval : Int) :
    Legal (fresh readcb writablecb statecb interval : Conn α) := by
  have hnothing : Reported 1 ([] : List (Nat × State)) := ⟨[], rfl, by simp, by simp⟩
  refine ⟨hnothing.lifeCycle, fun _ => stacked_nil, fun _ _ => ?_, fun _ _ => hnothing⟩
  constructor <;> simp [fresh, Told, hnothing]

/-- In every run from a new connection whose steps meet the condition, what
`statecb_` is told is a legal life cycle. -/
theorem reports_form_life_cycle [Inhabited α] (codec : Codec α) (readcb : ReadCb)
    (writablecb statecb : Bool) (interval : Int) (cs : List (Choice α))
    (hcs : Driven.Along (step codec) TellsOnce (fresh readcb writablecb statecb interval) cs) :
    LifeCycle
      (reports (Driven.run (step codec) (fresh readcb writablecb statecb interval) cs).log) := by
  have hend := run_of_moves codec (I := Legal)
    (fun s s' ch hf hstack hi hp hm => Legal.move (f := none) hi hf (fun _ => hstack) hp hm)
    (fun s s' ch f hf hi hp hm => Legal.move (f := some f) hi hf nofun hp hm)
    (legal_fresh readcb writablecb statecb interval) hcs
  exact hend.lifeCycle

/-- An attempt that is lost and one that fails, each followed by a reconnect, and
one that is closed when the poller goes. -/
def threeAttempts : List (Choice UInt8) :=
  [{ event := .connect 80 false },
    { event := .writable [] },
    .go,
    { event := .readable },
    .go,
    { read := .eof }] ++ .replicate 7 .go ++
  [{ event := .reconnectTimer },
    { event := .writable [], pollout := false }] ++ .replicate 7 .go ++
  [{ event := .reconnectTimer },
    { event := .writable [] },
    .go,
    { event := .call .exit },
    { event := .shutdown },
    { event := .destroyPoller }] ++ .replicate 7 .go

theorem reports_form_life_cycle_three :
    LifeCycle (reports
      (Driven.run (step LineCodec.codec) (fresh .none false true 0) threeAttempts).log) :=
  reports_form_life_cycle LineCodec.codec .none false true 0 threeAttempts (by decide +kernel)

/-- An accepted connection reconnects too, to the port its `-1` is cast to. -/
example :
    let t := Driven.run (step LineCodec.codec) (fresh .none false true 0)
      ([{ event := .attach },
        { event := .writable [] },
        .go,
        { event := .readable },
        .go,
        { read := .eof }] ++ .replicate 7 .go ++ [{ event := .reconnectTimer }])
    t.destPort = 65535 ∧ t.attempt = 2 ∧ t.fault = none := by
  decide +kernel

/-- The peer closes, and the loop is left before the reconnect. -/
def leftWaiting : List (Choice UInt8) :=
  [{ event := .connect 80 false },
    { event := .writable [] },
    .go,
    { event := .readable },
    .go,
    { read := .eof }] ++ .replicate 7 .go ++
  [{ event := .call .exit },
    { event := .shutdown }] ++ .replicate 5 .go

/-- `statecb_` sends when it is told `Closed`, to a peer that is gone. -/
def repliesToClosed : List (Choice UInt8) :=
  [{ event := .connect 80 false },
    { event := .writable [] },
    .go,
    { event := .readable },
    .go,
    { read := .eof },
    .go,
    { body := [.sendStr [0x61] [.reset]] }] ++ .replicate 9 .go

/-- Both runs report `Closed` twice for one attempt. -/
theorem closed_reported_twice :
    ¬ LifeCycle (reports
        (Driven.run (step LineCodec.codec) (fresh .none false true 0) leftWaiting).log) ∧
      ¬ LifeCycle (reports
        (Driven.run (step LineCodec.codec) (fresh .none false true (-1)) repliesToClosed).log) := by
  constructor
  · intro h
    exact absurd h.nodup (by decide +kernel)
  · intro h
    exact absurd h.nodup (by decide +kernel)

end Conn

end Handy
