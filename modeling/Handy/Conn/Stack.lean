import Mathlib.Data.List.Chain
import Handy.Conn.Calculus

/-! # What stands above what

A call pushes its frame on top, so what may stand above a frame says which calls
its code makes. `cleanup` runs in the step after its call, and `handleWrite`
calls nothing but `writablecb_`. The order holds in every state a new connection
reaches.
-/

namespace Handy

namespace Conn

variable {α : Type}

def Above (f g : Frame α) : Prop :=
  g ≠ .cleanup ∧ (g = .writeEnd → ∃ todo, f = .user todo)

def Stacked (stack : List (Frame α)) : Prop := stack.IsChain Above

@[simp] theorem stacked_nil : Stacked ([] : List (Frame α)) := .nil

theorem stacked_cons {f : Frame α} {stack : List (Frame α)} :
    Stacked (f :: stack) ↔ (∀ g ∈ stack.head?, Above f g) ∧ Stacked stack :=
  List.isChain_cons

theorem above_user {todo : List (Action α)} {g : Frame α} (h : g ≠ .cleanup) :
    Above (.user todo) g :=
  ⟨h, fun _ => ⟨todo, rfl⟩⟩

theorem Stacked.below {f : Frame α} {rest : List (Frame α)} (h : Stacked (f :: rest)) :
    Stacked rest :=
  (stacked_cons.mp h).2

/-- A waiting `cleanup` is the topmost frame. -/
theorem Stacked.cleanup_top {f : Frame α} {rest : List (Frame α)} (h : Stacked (f :: rest)) :
    .cleanup ∉ rest := by
  induction rest generalizing f with
  | nil => simp
  | cons g rest ih =>
      have hg : Above f g := (stacked_cons.mp h).1 g rfl
      rw [List.mem_cons, not_or]
      exact ⟨hg.1.symm, ih h.below⟩

/-- Only `writablecb_` returns to `handleWrite`. -/
theorem Stacked.writeEnd_user {f : Frame α} {rest : List (Frame α)}
    (h : Stacked (f :: .writeEnd :: rest)) : ∃ todo, f = .user todo :=
  ((stacked_cons.mp h).1 _ rfl).2 rfl

/-- What any other frame pushes for itself. -/
theorem Stacked.onto {f : Frame α} {rest new : List (Frame α)} (h : Stacked (f :: rest))
    (hf : ∀ todo, f ≠ .user todo) (hnew : Stacked new) : Stacked (new ++ rest) := by
  refine List.isChain_append.mpr ⟨hnew, h.below, fun x _ y hy => ?_⟩
  obtain ⟨hclean, hwrite⟩ := (stacked_cons.mp h).1 y hy
  refine ⟨hclean, fun hy => ?_⟩
  obtain ⟨todo, rfl⟩ := hwrite hy
  exact absurd rfl (hf todo)

theorem stacked_two {f g : Frame α} (h : Above f g) : Stacked [f, g] :=
  stacked_cons.mpr ⟨by simpa using h, .singleton g⟩

/-- The rest of a callback stays where the callback was. -/
theorem Stacked.performs {codec : Codec α} {s s' : Conn α} {act : Action α}
    {todo : List (Action α)} (h : Stacked (.user (act :: todo) :: s.stack))
    (hp : Performs codec (s.push (.user todo)) act s') : Stacked s'.stack := by
  have hrest : Stacked (.user todo :: s.stack) :=
    stacked_cons.mpr ⟨fun g hg => above_user ((stacked_cons.mp h).1 g hg).1, h.below⟩
  have hnew : ∀ f : Frame α, Stacked (f :: .user todo :: s.stack) := by
    intro f
    exact stacked_cons.mpr ⟨by simp [Above], hrest⟩
  rcases stack_of_performs hp with hs | ⟨hs, -⟩ | ⟨hs, -⟩ <;> rw [hs]
  · exact hrest
  · exact hnew _
  · exact hnew _

theorem stacked_callsRead {ch : Choice α} {s s' : Conn α} (h : CallsRead ch s s')
    (hs : Stacked s.stack) (hu : ∀ todo, Stacked (.user todo :: s.stack))
    (hd : Stacked (.decodeLoop :: s.stack)) : Stacked s'.stack := by
  cases h with
  | skip => exact hs
  | user => exact hu ch.body
  | onMsg => exact hd

theorem stacked_callsState {ch : Choice α} {s s' : Conn α} (h : CallsState ch s s')
    (hs : Stacked s.stack) (hu : ∀ todo, Stacked (.user todo :: s.stack)) :
    Stacked s'.stack := by
  cases h with
  | skip => exact hs
  | user => exact hu ch.body

theorem stacked_event {codec : Codec α} {ch : Choice α} {s s' : Conn α} (hstack : s.stack = [])
    (h : Move codec ch none s s') (hf : s'.fault = none) : Stacked s'.stack := by
  have hone : ∀ f : Frame α, Stacked (f :: s.stack) := by
    intro f
    rw [hstack]
    exact .singleton f
  have hnone : Stacked s.stack := by simp [hstack]
  cases h with
  | faults fault => exact absurd hf fault
  | chore => exact hnone
  | call _ h =>
      rcases stack_of_performs h with hs | ⟨hs, -⟩ | ⟨hs, -⟩ <;> rw [hs]
      · exact hnone
      · exact hone _
      · exact hone _
  | shut => exact hone _
  | shutdown => exact hone _
  | attach => exact hnone
  | sets => exact hnone
  | readable => exact hone _
  | flushReset => exact hone _
  | flush callback _ _ _ _ _ _ writablecb =>
      rcases writablecb with rfl | ⟨rfl, -⟩
      · exact hone _
      · show Stacked (.user ch.body :: .writeEnd :: s.stack)
        rw [hstack]
        exact stacked_two (above_user (by simp))
  | handshake from' _ _ _ _ statecb =>
      obtain ⟨rfl, -⟩ : _ = [] ∧ ∃ ws, ch.event = .writable ws := by simpa using from'
      exact stacked_callsState statecb hnone fun _ => hone _
  | refused => exact hone _

theorem Stacked.frame {codec : Codec α} {ch : Choice α} {s s' : Conn α} {f : Frame α}
    (hs : Stacked (f :: s.stack)) (h : Move codec ch (some f) s s') (hf : s'.fault = none) :
    Stacked s'.stack := by
  have hone : (∀ todo, f ≠ .user todo) → ∀ g, Stacked (g :: s.stack) :=
    fun hfr g => hs.onto hfr (.singleton g)
  have htwo : (∀ todo, f ≠ .user todo) → ∀ g e, Above g e → Stacked (g :: e :: s.stack) :=
    fun hfr g e hge => hs.onto hfr (stacked_two hge)
  cases h with
  | faults fault => exact absurd hf fault
  | handshake from' _ _ _ _ statecb =>
      obtain ⟨rfl, rfl⟩ : f = .handleRead ∧ _ = [Frame.readLoop] := by simpa using from'
      exact stacked_callsState statecb (hone nofun _)
        fun _ => htwo nofun _ _ (above_user (by simp))
  | refused from' =>
      obtain rfl : f = .handleRead := by simpa using from'
      exact hone nofun _
  | finish => exact hs.below
  | perform h => exact hs.performs h
  | handleRead => exact hone nofun _
  | readEnd => exact hone nofun _
  | readRetry => exact hone nofun _
  | readAll _ _ _ _ readcb =>
      exact stacked_callsRead readcb hs.below (fun _ => hone nofun _) (hone nofun _)
  | readData => exact hone nofun _
  | writeOff => exact hs.below
  | cleanup readcb =>
      exact stacked_callsRead readcb (hone nofun _)
        (fun _ => htwo nofun _ _ (above_user (by simp))) (htwo nofun _ _ (by simp [Above]))
  | cleanupState statecb =>
      exact stacked_callsState statecb (hone nofun _)
        fun _ => htwo nofun _ _ (above_user (by simp))
  | reconnect closing _ _ close =>
      rcases close with rfl | ⟨rfl, -⟩
      · exact htwo nofun _ _ (by simp [Above])
      · exact hone nofun _
  | release closing _ close =>
      rcases close with rfl | rfl
      · exact hone nofun _
      · exact hs.below
  | reconnectEnd => exact hs.below
  | decodeNull => simp at hf
  | decodeShut => exact hone nofun _
  | decodeWait => exact hs.below
  | decodeFrame => exact htwo nofun _ _ (above_user (by simp))
  | consume => exact hone nofun _
  | overrun => simp at hf

end Conn

end Handy
