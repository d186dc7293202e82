import Mathlib.Algebra.GroupWithZero.Nat
import Mathlib.Data.List.Infix
import Mathlib.Data.List.TakeDrop

/-! # Framed streams

A framing turns a message into a non-empty block of symbols and decodes one
message from the front of what has arrived. `drain` is the receiver's loop on
one buffer, `feed` the receiver over a whole sequence of arrivals. `Lawful`
lists what the two halves owe each other; from it the receiver delivers exactly
the messages sent however the stream was cut (`feed_frames`).

The laws are asked only of buffers a predicate `Fits` admits, so a decoder whose
arithmetic is bounded still has an instance. `LawfulUpTo` asks besides only that
the decoder waits on the partial frames `Cut` admits, for a decoder that takes
some cuts for a message.
-/

namespace Framing

variable {A M : Type*}

/-- What one decoding attempt says about the symbols present. -/
inductive Verdict (M : Type*) where
  | more
  | bad
  | frame (msg : M) (len : Nat)

/-- What the receiver's loop leaves: the messages in order, the undecoded rest,
and whether the loop ended on a refused frame. -/
structure Drained (A M : Type*) where
  msgs : List M
  rest : List A
  bad : Bool

/-- Decode until no frame is left. The fuel bounds the number of attempts. -/
def drain (decode : List A → Verdict M) : Nat → List A → Drained A M
  | 0, xs => ⟨[], xs, false⟩
  | fuel + 1, xs =>
      match decode xs with
      | .more => ⟨[], xs, false⟩
      | .bad => ⟨[], xs, true⟩
      | .frame m n =>
          let d := drain decode fuel (xs.drop n)
          ⟨m :: d.msgs, d.rest, d.bad⟩

/-- Run the loop after each arrival, keeping the undecoded rest. -/
def feed (decode : List A → Verdict M) (pending : List A) : List (List A) → Drained A M
  | [] => ⟨[], pending, false⟩
  | chunk :: chunks =>
      let here := drain decode ((pending ++ chunk).length + 1) (pending ++ chunk)
      if here.bad then here
      else
        let later := feed decode here.rest chunks
        ⟨here.msgs ++ later.msgs, later.rest, later.bad⟩

/-- Every buffer the receiver decodes from satisfies `Fits`. -/
def FeedFits (decode : List A → Verdict M) (Fits : List A → Prop) (pending : List A) :
    List (List A) → Prop
  | [] => True
  | chunk :: chunks =>
      Fits (pending ++ chunk) ∧
        FeedFits decode Fits
          (drain decode ((pending ++ chunk).length + 1) (pending ++ chunk)).rest chunks

theorem feedFits_of_all {decode : List A → Verdict M} {Fits : List A → Prop}
    (h : ∀ xs, Fits xs) (chunks : List (List A)) (pending : List A) :
    FeedFits decode Fits pending chunks := by
  induction chunks generalizing pending with
  | nil => trivial
  | cons chunk chunks ih => exact ⟨h _, ih _⟩

/-- What encoder and decoder owe each other on the messages `Ok` admits. -/
structure Lawful (encode : M → List A) (decode : List A → Verdict M) (Ok : M → Prop)
    (Fits : List A → Prop) : Prop where
  nonempty : ∀ m, Ok m → encode m ≠ []
  whole : ∀ m rest, Ok m → Fits (encode m ++ rest) →
    decode (encode m ++ rest) = .frame m (encode m).length
  short : ∀ m p, Ok m → p <+: encode m → p.length < (encode m).length → decode p = .more
  drop : ∀ xs n, Fits xs → Fits (xs.drop n)

/-- The same for a decoder that waits on the partial frames `Cut` admits. -/
structure LawfulUpTo (encode : M → List A) (decode : List A → Verdict M) (Ok : M → Prop)
    (Fits Cut : List A → Prop) : Prop where
  nonempty : ∀ m, Ok m → encode m ≠ []
  whole : ∀ m rest, Ok m → Fits (encode m ++ rest) →
    decode (encode m ++ rest) = .frame m (encode m).length
  short : ∀ m p, Ok m → p <+: encode m → p.length < (encode m).length → Cut p →
    decode p = .more
  drop : ∀ xs n, Fits xs → Fits (xs.drop n)

variable {encode : M → List A} {decode : List A → Verdict M} {Ok : M → Prop}
  {Fits Cut : List A → Prop}

theorem Lawful.upTo (law : Lawful encode decode Ok Fits) :
    LawfulUpTo encode decode Ok Fits fun _ => True where
  nonempty := law.nonempty
  whole := law.whole
  short m p hm hp hlt _ := law.short m p hm hp hlt
  drop := law.drop

/-- A proper prefix of the frame that comes next, or nothing. -/
def Partial (encode : M → List A) (ms : List M) (p : List A) : Prop :=
  p = [] ∨ ∃ m rest, ms = m :: rest ∧ p <+: encode m ∧ p.length < (encode m).length

/-- Each cut of the stream leaves a partial frame `Cut` admits. -/
def CutsFit (encode : M → List A) (Cut : List A → Prop) (ms : List M) (pending : List A)
    (chunks : List (List A)) : Prop :=
  ∀ pre post now later p, chunks = pre ++ post → ms = now ++ later →
    pending ++ pre.flatten = now.flatMap encode ++ p → Partial encode later p → Cut p

/-- A loop that decodes each frame in front of the ones behind it delivers them
all and stops in front of what it waits on. -/
theorem drain_whole {ms : List M} {p : List A} (hwhole : ∀ pre m post, ms = pre ++ m :: post →
      decode (encode m ++ (post.flatMap encode ++ p)) = .frame m (encode m).length)
    (hmore : decode p = .more) (fuel : Nat) (hfuel : ms.length < fuel) :
    drain decode fuel (ms.flatMap encode ++ p) = ⟨ms, p, false⟩ := by
  induction ms generalizing fuel with
  | nil =>
      obtain ⟨fuel, rfl⟩ : ∃ k, fuel = k + 1 := ⟨fuel - 1, by omega⟩
      simp only [List.flatMap_nil, List.nil_append, drain, hmore]
  | cons m ms ih =>
      obtain ⟨fuel, rfl⟩ : ∃ k, fuel = k + 1 := ⟨fuel - 1, by omega⟩
      have hrest : (encode m ++ (ms.flatMap encode ++ p)).drop (encode m).length =
          ms.flatMap encode ++ p := List.drop_left
      have hrec := ih (fun pre m' post h => hwhole (m :: pre) m' post (by rw [h]; rfl)) fuel
        (by simp only [List.length_cons] at hfuel; omega)
      rw [List.flatMap_cons, List.append_assoc]
      simp only [drain, hwhole [] m ms rfl, hrest, hrec]

theorem partial_waits (law : LawfulUpTo encode decode Ok Fits Cut) {ms : List M}
    (hok : ∀ m ∈ ms, Ok m) {p : List A} (hp : Partial encode ms p) (hcut : Cut p)
    (hnil : decode [] = .more) : decode p = .more := by
  rcases hp with rfl | ⟨m, rest, rfl, hpre, hlen⟩
  · exact hnil
  · exact law.short m p (hok m (by simp)) hpre hlen hcut

/-- On whole frames followed by a partial one the loop delivers the frames and
stops in front of the rest. -/
theorem drain_frames (law : LawfulUpTo encode decode Ok Fits Cut) (hnil : decode [] = .more)
    {ms later : List M} (hms : ∀ m ∈ ms, Ok m) (hlater : ∀ m ∈ later, Ok m) {p : List A}
    (hp : Partial encode later p) (hcut : Cut p) (fuel : Nat) (hfuel : ms.length < fuel)
    (hfits : Fits (ms.flatMap encode ++ p)) :
    drain decode fuel (ms.flatMap encode ++ p) = ⟨ms, p, false⟩ := by
  refine drain_whole ?_ (partial_waits law hlater hp hcut hnil) fuel hfuel
  rintro pre m post rfl
  have hfits' : Fits (encode m ++ (post.flatMap encode ++ p)) := by
    have hdrop := law.drop _ (pre.flatMap encode).length hfits
    rw [List.flatMap_append, List.append_assoc, List.drop_left, List.flatMap_cons,
      List.append_assoc] at hdrop
    exact hdrop
  exact law.whole m _ (hms m (by simp)) hfits'

theorem length_le_flatMap {ms : List M} (hne : ∀ m ∈ ms, encode m ≠ []) :
    ms.length ≤ (ms.flatMap encode).length := by
  induction ms with
  | nil => simp
  | cons m ms ih =>
      have hm := List.length_pos_of_ne_nil (hne m (by simp))
      have ht := ih (fun x hx => hne x (by simp [hx]))
      simp only [List.flatMap_cons, List.length_append, List.length_cons]
      omega

/-- Any prefix of a stream of frames is some whole frames and a partial one. -/
theorem split_prefix (ms : List M) (xs : List A) (h : xs <+: ms.flatMap encode) :
    ∃ now later p, ms = now ++ later ∧ xs = now.flatMap encode ++ p ∧ Partial encode later p := by
  induction ms generalizing xs with
  | nil =>
      have hx : xs = [] := by simpa using h
      exact ⟨[], [], [], rfl, by simp [hx], Or.inl rfl⟩
  | cons m ms ih =>
      rw [List.flatMap_cons] at h
      by_cases hlen : xs.length < (encode m).length
      · have hpre : xs <+: encode m :=
          List.prefix_of_prefix_length_le h (List.prefix_append _ _) (Nat.le_of_lt hlen)
        exact ⟨[], m :: ms, xs, rfl, rfl, Or.inr ⟨m, ms, rfl, hpre, hlen⟩⟩
      · have hpre : encode m <+: xs :=
          List.prefix_of_prefix_length_le (List.prefix_append _ _) h (by omega)
        obtain ⟨ys, rfl⟩ := hpre
        obtain ⟨now, later, p, hms, hys, hp⟩ := ih ys ((List.prefix_append_right_inj _).mp h)
        exact ⟨m :: now, later, p, by rw [hms]; rfl, by rw [hys]; simp, hp⟩

/-- The receiver's invariant: what is pending is a partial frame, and what is
pending followed by what is still to arrive is the undelivered stream. -/
theorem feed_frames_from (law : LawfulUpTo encode decode Ok Fits Cut) (hnil : decode [] = .more)
    (chunks : List (List A)) {ms : List M} (hms : ∀ m ∈ ms, Ok m) {pending : List A}
    (hp : Partial encode ms pending) (hstream : pending ++ chunks.flatten = ms.flatMap encode)
    (hfits : FeedFits decode Fits pending chunks) (hcuts : CutsFit encode Cut ms pending chunks) :
    feed decode pending chunks = ⟨ms, [], false⟩ := by
  induction chunks generalizing ms pending with
  | nil =>
      simp only [List.flatten_nil, List.append_nil] at hstream
      rcases hp with rfl | ⟨m, rest, rfl, _, hlen⟩
      · cases ms with
        | nil => rfl
        | cons m ms =>
            have hne := law.nonempty m (hms m (by simp))
            simp only [List.flatMap_cons] at hstream
            exact absurd (List.append_eq_nil_iff.mp hstream.symm).1 hne
      · rw [hstream, List.flatMap_cons, List.length_append] at hlen
        omega
  | cons chunk chunks ih =>
      rw [List.flatten_cons, ← List.append_assoc] at hstream
      obtain ⟨now, later, p, rfl, hnow, hpart⟩ :=
        split_prefix ms (pending ++ chunk) ⟨_, hstream⟩
      have hokNow : ∀ m ∈ now, Ok m := fun m hm => hms m (by simp [hm])
      have hokLater : ∀ m ∈ later, Ok m := fun m hm => hms m (by simp [hm])
      have hcount := length_le_flatMap fun m hm => law.nonempty m (hokNow m hm)
      have hcut : Cut p := hcuts [chunk] chunks now later p rfl rfl (by simpa using hnow) hpart
      have hcuts' : CutsFit encode Cut later p chunks := by
        rintro pre post now' later' q rfl rfl hq hq'
        refine hcuts (chunk :: pre) post (now ++ now') later' q rfl (List.append_assoc _ _ _).symm
          ?_ hq'
        rw [List.flatten_cons, ← List.append_assoc, hnow, List.append_assoc, hq,
          List.flatMap_append, List.append_assoc]
      have hdrain : drain decode ((pending ++ chunk).length + 1) (pending ++ chunk) =
          ⟨now, p, false⟩ := by
        have hlen : now.length < (pending ++ chunk).length + 1 := by
          rw [hnow, List.length_append]
          omega
        have hfit := hnow ▸ hfits.1
        rw [hnow] at hlen ⊢
        exact drain_frames law hnil hokNow hokLater hpart hcut _ hlen hfit
      have hlater : p ++ chunks.flatten = later.flatMap encode := by
        rw [hnow, List.append_assoc, List.flatMap_append] at hstream
        exact List.append_cancel_left hstream
      have hfits' := hfits.2
      rw [hdrain] at hfits'
      simp only [feed, hdrain, ih hokLater hpart hlater hfits' hcuts', Bool.false_eq_true, if_false]

/-- However the stream is cut, as far as `Cut` admits it, the receiver delivers the
messages in order and ends with nothing pending. -/
theorem feed_frames_upTo (law : LawfulUpTo encode decode Ok Fits Cut) (hnil : decode [] = .more)
    (chunks : List (List A)) {ms : List M} (hms : ∀ m ∈ ms, Ok m)
    (hstream : chunks.flatten = ms.flatMap encode) (hfits : FeedFits decode Fits [] chunks)
    (hcuts : CutsFit encode Cut ms [] chunks) : feed decode [] chunks = ⟨ms, [], false⟩ :=
  feed_frames_from law hnil chunks hms (Or.inl rfl) (by simpa using hstream) hfits hcuts

/-- However the stream is cut, the receiver delivers the messages in order and
ends with nothing pending. -/
theorem feed_frames (law : Lawful encode decode Ok Fits) (hnil : decode [] = .more)
    (chunks : List (List A)) {ms : List M} (hms : ∀ m ∈ ms, Ok m)
    (hstream : chunks.flatten = ms.flatMap encode) (hfits : FeedFits decode Fits [] chunks) :
    feed decode [] chunks = ⟨ms, [], false⟩ :=
  feed_frames_upTo law.upTo hnil chunks hms hstream hfits fun _ _ _ _ _ _ _ _ _ => trivial

/-! ## What exact delivery says about the cuts -/

/-- A decoded frame takes some symbols, none that are not there, and at most
what its message may cost. -/
structure Costs (decode : List A → Verdict M) (cost : M → Nat) : Prop where
  pos : ∀ xs m n, decode xs = .frame m n → 0 < n
  there : ∀ xs m n, decode xs = .frame m n → n ≤ xs.length
  le : ∀ xs m n, decode xs = .frame m n → n ≤ cost m

variable {cost : M → Nat}

theorem drain_takes (h : Costs decode cost) (fuel : Nat) (xs : List A) :
    ∃ k, k ≤ ((drain decode fuel xs).msgs.map cost).sum ∧ k ≤ xs.length ∧
      (drain decode fuel xs).rest = xs.drop k := by
  induction fuel generalizing xs with
  | zero => exact ⟨0, Nat.zero_le _, Nat.zero_le _, rfl⟩
  | succ fuel ih =>
      cases hd : decode xs with
      | more => exact ⟨0, Nat.zero_le _, Nat.zero_le _, by simp only [drain, hd, List.drop_zero]⟩
      | bad => exact ⟨0, Nat.zero_le _, Nat.zero_le _, by simp only [drain, hd, List.drop_zero]⟩
      | frame m n =>
          have hthere := h.there xs m n hd
          have hcost := h.le xs m n hd
          obtain ⟨k, hk, hle, hrest⟩ := ih (xs.drop n)
          rw [List.length_drop] at hle
          refine ⟨n + k, ?_, by omega, ?_⟩
          · simp only [drain, hd, List.map_cons, List.sum_cons]
            omega
          · simp only [drain, hd]
            rw [hrest, List.drop_drop]

theorem drain_ends (h : Costs decode cost) (fuel : Nat) (xs : List A) (hfuel : xs.length < fuel) :
    decode (drain decode fuel xs).rest = if (drain decode fuel xs).bad then .bad else .more := by
  induction fuel generalizing xs with
  | zero => omega
  | succ fuel ih =>
      cases hd : decode xs with
      | more => simp only [drain, hd, Bool.false_eq_true, if_false]
      | bad => simp only [drain, hd, if_true]
      | frame m n =>
          have hpos := h.pos xs m n hd
          have hthere := h.there xs m n hd
          have hshort : (xs.drop n).length < fuel := by
            rw [List.length_drop]
            omega
          simp only [drain, hd]
          exact ih (xs.drop n) hshort

theorem feed_takes (h : Costs decode cost) (chunks : List (List A)) (pending : List A)
    (hgood : (feed decode pending chunks).bad = false) :
    ∃ k, k ≤ ((feed decode pending chunks).msgs.map cost).sum ∧
      k ≤ (pending ++ chunks.flatten).length ∧
      (feed decode pending chunks).rest = (pending ++ chunks.flatten).drop k := by
  induction chunks generalizing pending with
  | nil => exact ⟨0, Nat.zero_le _, Nat.zero_le _, by simp only [feed, List.flatten_nil,
      List.append_nil, List.drop_zero]⟩
  | cons chunk chunks ih =>
      obtain ⟨j, hj, hjle, hrest⟩ := drain_takes h ((pending ++ chunk).length + 1) (pending ++ chunk)
      simp only [feed] at hgood ⊢
      split at hgood
      · next hbad => rw [hbad] at hgood; cases hgood
      · next hbad =>
          obtain ⟨k, hk, hkle, hlast⟩ := ih _ hgood
          rw [if_neg hbad, List.flatten_cons, ← List.append_assoc, List.map_append, List.sum_append]
          rw [hrest, List.length_append, List.length_drop] at hkle
          rw [@List.length_append _ (pending ++ chunk)]
          refine ⟨j + k, by omega, by omega, ?_⟩
          simp only [hlast]
          rw [hrest, ← List.drop_drop, List.drop_append_of_le_length hjle]

theorem feed_ends (h : Costs decode cost) (chunks : List (List A)) (pending : List A)
    (hne : chunks ≠ [] ∨ decode pending = .more) :
    decode (feed decode pending chunks).rest =
      if (feed decode pending chunks).bad then .bad else .more := by
  induction chunks generalizing pending with
  | nil =>
      have hmore : decode pending = .more := hne.resolve_left fun hnil => hnil rfl
      simpa only [feed, Bool.false_eq_true, if_false] using hmore
  | cons chunk chunks ih =>
      have hend := drain_ends h ((pending ++ chunk).length + 1) (pending ++ chunk)
        (Nat.lt_succ_self _)
      simp only [feed]
      split
      · next hbad => simpa only [if_pos hbad] using hend
      · next hbad => exact ih _ (Or.inr (by simpa only [if_neg hbad] using hend))

theorem feed_append (pre post : List (List A)) (pending : List A)
    (hgood : (feed decode pending (pre ++ post)).bad = false) :
    (feed decode pending pre).bad = false ∧
      feed decode pending (pre ++ post) =
        ⟨(feed decode pending pre).msgs ++ (feed decode (feed decode pending pre).rest post).msgs,
          (feed decode (feed decode pending pre).rest post).rest,
          (feed decode (feed decode pending pre).rest post).bad⟩ := by
  induction pre generalizing pending with
  | nil => exact ⟨rfl, rfl⟩
  | cons chunk pre ih =>
      simp only [List.cons_append, feed] at hgood ⊢
      split at hgood
      · next hbad => rw [hbad] at hgood; cases hgood
      · next hbad =>
          obtain ⟨hpre, heq⟩ := ih _ hgood
          simp only [if_neg hbad]
          refine ⟨hpre, ?_⟩
          rw [heq, List.append_assoc]

theorem sum_cost_le (ms : List M) (h : ∀ m, cost m ≤ (encode m).length) :
    (ms.map cost).sum ≤ (ms.flatMap encode).length := by
  induction ms with
  | nil => exact Nat.zero_le _
  | cons m ms ih =>
      have hm := h m
      simp only [List.map_cons, List.sum_cons, List.flatMap_cons, List.length_append]
      omega

theorem cost_eq_of_sum {ms : List M} (h : ∀ m, cost m ≤ (encode m).length)
    (hsum : (ms.flatMap encode).length ≤ (ms.map cost).sum) :
    ∀ m ∈ ms, cost m = (encode m).length := by
  induction ms with
  | nil => exact fun m hm => absurd hm (List.not_mem_nil)
  | cons m ms ih =>
      have hm := h m
      have hms := sum_cost_le ms h
      simp only [List.map_cons, List.sum_cons, List.flatMap_cons, List.length_append] at hsum
      intro x hx
      rcases List.mem_cons.mp hx with rfl | hx
      · omega
      · exact ih (by omega) x hx

/-- A loop that delivers the whole stream pays for every frame in full. -/
theorem drain_exact (h : Costs decode cost) (hcost : ∀ m, cost m ≤ (encode m).length) (fuel : Nat)
    {ms : List M} (hms : (drain decode fuel (ms.flatMap encode)).msgs = ms)
    (hrest : (drain decode fuel (ms.flatMap encode)).rest = []) :
    ∀ m ∈ ms, cost m = (encode m).length := by
  obtain ⟨k, hk, _, hkept⟩ := drain_takes h fuel (ms.flatMap encode)
  rw [hms] at hk
  have hall := List.drop_eq_nil_iff.mp (hkept.symm.trans hrest)
  exact cost_eq_of_sum hcost (Nat.le_trans hall hk)

/-- A receiver that delivers the whole stream pays for every frame in full, and
what it keeps back at a cut is what the decoder waits on. -/
theorem feed_exact (h : Costs decode cost) (hcost : ∀ m, cost m ≤ (encode m).length)
    {chunks : List (List A)} {ms : List M} (hstream : chunks.flatten = ms.flatMap encode)
    (hfeed : feed decode [] chunks = ⟨ms, [], false⟩) :
    (∀ m ∈ ms, cost m = (encode m).length) ∧
      ∀ pre post, chunks = pre ++ post → pre ≠ [] →
        ∃ now later p, ms = now ++ later ∧ pre.flatten = now.flatMap encode ++ p ∧
          decode p = .more := by
  have hgood : (feed decode [] chunks).bad = false := by rw [hfeed]
  constructor
  · obtain ⟨k, hk, hle, hrest⟩ := feed_takes h chunks [] hgood
    rw [hfeed] at hk hrest
    have hall := List.drop_eq_nil_iff.mp hrest.symm
    rw [List.nil_append, hstream] at hall
    exact cost_eq_of_sum hcost (Nat.le_trans hall hk)
  · rintro pre post rfl hne
    obtain ⟨hpre, heq⟩ := feed_append pre post [] hgood
    rw [hfeed] at heq
    obtain ⟨hms, hnil, hbad⟩ := Drained.mk.inj heq
    obtain ⟨j, hj, hjle, hkept⟩ := feed_takes h pre [] hpre
    obtain ⟨k, hk, hkle, hlast⟩ := feed_takes h post (feed decode [] pre).rest hbad.symm
    have hwait := feed_ends h pre [] (Or.inl hne)
    rw [hpre, if_neg Bool.false_ne_true] at hwait
    rw [List.nil_append] at hjle hkept
    have hall := List.drop_eq_nil_iff.mp (hlast.symm.trans hnil.symm)
    -- both halves pay at most their own frames, so each pays exactly that
    have hnow := sum_cost_le (feed decode [] pre).msgs hcost
    have hlater := sum_cost_le (feed decode (feed decode [] pre).rest post).msgs hcost
    have hlen := congrArg List.length hstream
    rw [hms, List.flatMap_append, List.flatten_append, List.length_append, List.length_append] at hlen
    rw [List.length_append, hkept, List.length_drop] at hall
    have hj' : j = ((feed decode [] pre).msgs.flatMap encode).length := by
      omega
    have hfront : (feed decode [] pre).msgs.flatMap encode <+: pre.flatten := by
      have hpaid : (feed decode [] pre).msgs.flatMap encode <+: ms.flatMap encode := by
        rw [hms, List.flatMap_append]
        exact List.prefix_append _ _
      have hsent : pre.flatten <+: ms.flatMap encode := by
        rw [← hstream, List.flatten_append]
        exact List.prefix_append _ _
      exact List.prefix_of_prefix_length_le hpaid hsent (by omega)
    obtain ⟨p, hp⟩ := hfront
    refine ⟨_, _, p, hms, hp.symm, ?_⟩
    rw [hkept, hj', ← hp, List.drop_left] at hwait
    exact hwait

end Framing
