import Mathlib.Data.List.Basic

/-! # Decoders that are called again

A decoder that keeps its place is called on everything that has arrived, and
called again with more behind it until a call settles the matter. `feed k s xs`
is one call with an option `k`; what it leaves in the buffer is what the next
call finds there. `inTurn_spec` turns what one call does on the stream so far
into what a sequence of calls does, and for a decoder that is `Resumable`,
`inTurn_once` says that the calls come to one call on what they were given
together.
-/

namespace Resume

variable {κ σ α ρ : Type*}

/-- What a call leaves: the decoder's state, the buffer, and the result. -/
structure Call (σ α ρ : Type*) where
  state : σ
  left : List α
  result : ρ

/-- Calls in turn, each with an option and what has arrived since the last one,
until one stops. -/
def inTurn (feed : κ → σ → List α → Call σ α ρ) (stop : ρ → Bool) (s : σ) (held : List α) :
    κ × List α → List (κ × List α) → Call σ α ρ
  | (k, new), [] => feed k s (held ++ new)
  | (k, new), next :: later =>
      let c := feed k s (held ++ new)
      if stop c.result then c else inTurn feed stop c.state c.left next later

def stream (first : κ × List α) (later : List (κ × List α)) : List α :=
  first.2 ++ (later.map Prod.snd).flatten

/-- `At` is what holds between two calls, of the stream so far, the state and the
buffer; `Spec` is what a call comes to on the stream so far. Both are asked only
of streams `Ok` admits. -/
structure Rule (feed : κ → σ → List α → Call σ α ρ) (stop : ρ → Bool) (Ok : List α → Prop)
    (At : List α → σ → List α → Prop) (Spec : κ → List α → Call σ α ρ → Prop) : Prop where
  shorter : ∀ xs ys, Ok (xs ++ ys) → Ok xs
  spec : ∀ k xs s held new, Ok (xs ++ new) → At xs s held →
    Spec k (xs ++ new) (feed k s (held ++ new))
  goes : ∀ k xs s held new, Ok (xs ++ new) → At xs s held →
    stop (feed k s (held ++ new)).result = false →
    At (xs ++ new) (feed k s (held ++ new)).state (feed k s (held ++ new)).left

variable {feed : κ → σ → List α → Call σ α ρ} {stop : ρ → Bool} {Ok : List α → Prop}

/-- The last call made meets its specification on what had arrived by then, which
is everything unless the call stops. -/
theorem inTurn_spec {At : List α → σ → List α → Prop} {Spec : κ → List α → Call σ α ρ → Prop}
    (rule : Rule feed stop Ok At Spec) {xs : List α} {s : σ} {held : List α} (h : At xs s held)
    (first : κ × List α) (later : List (κ × List α)) (hok : Ok (xs ++ stream first later)) :
    ∃ k seen rest, xs ++ stream first later = seen ++ rest ∧
      (k = first.1 ∨ k ∈ later.map Prod.fst) ∧
      Spec k seen (inTurn feed stop s held first later) ∧
      (stop (inTurn feed stop s held first later).result = false → rest = []) := by
  have hok' : Ok (xs ++ first.2) := by
    refine rule.shorter _ (later.map Prod.snd).flatten ?_
    rwa [List.append_assoc]
  induction later generalizing xs s held first with
  | nil =>
      exact ⟨first.1, xs ++ first.2, [], by simp [stream], Or.inl rfl, rule.spec _ _ _ _ _ hok' h,
        fun _ => rfl⟩
  | cons next later ih =>
      have hsplit : xs ++ stream first (next :: later) =
          (xs ++ first.2) ++ stream next later := by
        simp [stream]
      cases hstop : stop (feed first.1 s (held ++ first.2)).result with
      | true =>
          refine ⟨first.1, xs ++ first.2, stream next later, hsplit, Or.inl rfl, ?_⟩
          simp only [inTurn, hstop, if_true]
          exact ⟨rule.spec _ _ _ _ _ hok' h, nofun⟩
      | false =>
          have hnext : Ok ((xs ++ first.2) ++ next.2) := by
            refine rule.shorter _ (later.map Prod.snd).flatten ?_
            rw [List.append_assoc]
            exact hsplit ▸ hok
          obtain ⟨k, seen, rest, hseen, hk, hspec, hrest⟩ :=
            ih (rule.goes _ _ _ _ _ hok' h hstop) next (hsplit ▸ hok) hnext
          refine ⟨k, seen, rest, hsplit.trans hseen, Or.inr (List.mem_cons.mpr hk), ?_⟩
          simp only [inTurn, hstop, Bool.false_eq_true, if_false]
          exact ⟨hspec, hrest⟩

/-- A call that does not stop loses nothing: the next one does what it would have
done as the first. -/
structure Resumable (feed : κ → σ → List α → Call σ α ρ) (stop : ρ → Bool) (Ok : List α → Prop)
    (s₀ : σ) : Prop where
  shorter : ∀ xs ys, Ok (xs ++ ys) → Ok xs
  start : ∃ k, (feed k s₀ []).state = s₀ ∧ (feed k s₀ []).left = [] ∧
    stop (feed k s₀ []).result = false
  resumes : ∀ k k' xs new, Ok (xs ++ new) → stop (feed k s₀ xs).result = false →
    feed k' (feed k s₀ xs).state ((feed k s₀ xs).left ++ new) = feed k' s₀ (xs ++ new)

/-- Where a decoder is after calls that did not stop. -/
def Paused (feed : κ → σ → List α → Call σ α ρ) (stop : ρ → Bool) (s₀ : σ) (xs : List α) (s : σ)
    (held : List α) : Prop :=
  ∃ k, s = (feed k s₀ xs).state ∧ held = (feed k s₀ xs).left ∧ stop (feed k s₀ xs).result = false

variable {s₀ : σ}

theorem Resumable.paused_nil (h : Resumable feed stop Ok s₀) : Paused feed stop s₀ [] s₀ [] := by
  obtain ⟨k, hstate, hleft, hstop⟩ := h.start
  exact ⟨k, hstate.symm, hleft.symm, hstop⟩

/-- A call after calls that did not stop is a call on the whole stream. -/
theorem Resumable.feed_eq (h : Resumable feed stop Ok s₀) {xs : List α} {s : σ} {held : List α}
    (hp : Paused feed stop s₀ xs s held) (k : κ) {new : List α} (hok : Ok (xs ++ new)) :
    feed k s (held ++ new) = feed k s₀ (xs ++ new) := by
  obtain ⟨k', rfl, rfl, hstop⟩ := hp
  exact h.resumes k' k xs new hok hstop

theorem Resumable.rule (h : Resumable feed stop Ok s₀) :
    Rule feed stop Ok (Paused feed stop s₀) fun k xs c => c = feed k s₀ xs where
  shorter := h.shorter
  spec k _ _ _ _ hok hp := h.feed_eq hp k hok
  goes k _ _ _ _ hok hp hstop := by
    rw [h.feed_eq hp k hok] at hstop ⊢
    exact ⟨k, rfl, rfl, hstop⟩

/-- The calls in turn come to one call on what had arrived when the last of them
was made. -/
theorem inTurn_once (h : Resumable feed stop Ok s₀) (first : κ × List α)
    (later : List (κ × List α)) (hok : Ok (stream first later)) :
    ∃ k seen rest, stream first later = seen ++ rest ∧
      (k = first.1 ∨ k ∈ later.map Prod.fst) ∧
      inTurn feed stop s₀ [] first later = feed k s₀ seen ∧
      (stop (feed k s₀ seen).result = false → rest = []) := by
  obtain ⟨k, seen, rest, hseen, hk, hcall, hrest⟩ := inTurn_spec h.rule h.paused_nil first later hok
  exact ⟨k, seen, rest, hseen, hk, hcall, by rwa [hcall] at hrest⟩

end Resume
