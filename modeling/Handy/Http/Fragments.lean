import Handy.Http.Decode
import Handy.Lib.Resume

/-! # Requests that arrive in pieces

`handleRead` calls `tryDecode` on everything that has arrived, and again when
there is more. A call that is not the last one loses nothing, so the calls come
to one call on the whole stream, and what a call has settled stays settled
however the stream goes on. Sizes are below `2 ^ 63`, the largest a buffer can
have.
-/

namespace Handy

namespace HttpMsg

/-- A call after which the message needs no other. -/
def settled : Outcome → Bool
  | .returned .notComplete | .returned .continue100 => false
  | _ => true

theorem Head.never_of_neg {b block : Bytes} (h : headerBlock b = some block)
    (hneg : (parseHead block).declared < 0)
    (hshort : b.length < ((parseHead block).msg.contentLen + (parseHead block).msg.scanned) % 2 ^ 64) :
    2 ^ 63 ≤ ((parseHead block).msg.contentLen + (parseHead block).msg.scanned) % 2 ^ 64 := by
  have hle := (Head.scanned_msg h).2
  have hrange := (atoi_range ((parseHead block).headers.getValue contentLength)).1
  have hrange' : -2 ^ 31 ≤ (parseHead block).declared := hrange
  have hlen := (Head.contentLen_of_neg hneg).1
  omega

theorem takeBody_append {m : HttpMsg} {buf : Bytes} {copyBody : Bool}
    (h : (m.takeBody buf copyBody).outcome ≠ .returned .notComplete)
    (hfit : copyBody = true → m.contentLen ≤ maxSize → m.scanned + m.contentLen ≤ buf.length)
    (t : Bytes) :
    m.takeBody (buf ++ t) copyBody = { m.takeBody buf copyBody with memory := buf ++ t } := by
  unfold takeBody at h ⊢
  simp only at h ⊢
  split at h
  · next henough =>
      have henough' : (m.contentLen + m.scanned) % 2 ^ 64 ≤ (buf ++ t).length := by
        rw [List.length_append]
        omega
      rw [if_pos henough', if_pos henough]
      cases copyBody with
      | true =>
          simp only [if_true]
          split
          · rfl
          · next hsmall =>
              have hle := hfit rfl (Nat.le_of_not_lt hsmall)
              have htake : ((buf ++ t).drop m.scanned).take m.contentLen =
                  (buf.drop m.scanned).take m.contentLen := by
                rw [List.drop_append_of_le_length (by omega), List.take_append_of_le_length]
                rw [List.length_drop]
                omega
              rw [htake]
      | false => rfl
  · exact absurd rfl h

end HttpMsg

namespace HttpRequest

open HttpMsg

/-- One call, as a decoder that is called again. With `inPlace` the next call
finds the buffer as this one leaves it, otherwise as it arrived. -/
def call (inPlace copyBody : Bool) (req : HttpRequest) (buf : Bytes) :
    Resume.Call HttpRequest UInt8 Outcome :=
  let d := req.tryDecode buf copyBody
  ⟨d.msg, if inPlace then d.memory else buf, d.outcome⟩

/-- The sizes a buffer can have. -/
def Sized (xs : Bytes) : Prop := xs.length < 2 ^ 63

/-- No body length a message in the buffer declares wraps around to one that fits. -/
def Readable (xs : Bytes) : Prop :=
  Sized xs ∨ ∀ block, headerBlock xs = some block → 0 ≤ (parseHead block).declared

theorem Sized.shorter {xs ys : Bytes} (h : Sized (xs ++ ys)) : Sized xs := by
  unfold Sized at h ⊢
  rw [List.length_append] at h
  omega

theorem Readable.shorter {xs ys : Bytes} (h : Readable (xs ++ ys)) : Readable xs := by
  rcases h with hsized | hnonneg
  · exact Or.inl hsized.shorter
  · exact Or.inr fun block hblock => hnonneg block (headerBlock_append hblock ys)

/-- What a call that leaves a parsed header block behind comes to. -/
theorem tryDecode_of_unsettled {b block : Bytes} {copyBody : Bool}
    (h : headerBlock b = some block)
    (hgoes : settled (cleared.tryDecode b copyBody).outcome = false) :
    let m := (parseHead block).msg
    (parseHead block).ok = true ∧ (started (parseHead block).line1).2 = true ∧
      b.length < (m.contentLen + m.scanned) % 2 ^ 64 ∧
      cleared.tryDecode b copyBody =
        ⟨withLine (parseHead block).line1 m, .returned .notComplete, rewritten b block, none⟩ := by
  intro m
  cases hok : (parseHead block).ok with
  | false =>
      rw [(tryDecode_bad h hok copyBody).1] at hgoes
      cases hgoes
  | true =>
      have hcall := tryDecode_some h hok copyBody
      have hversion : m.version = HttpMsg.cleared.version := rfl
      rcases takeBody_cases m (rewritten b block) copyBody with
        ⟨hshort, hbody⟩ | ⟨-, ⟨-, -, hbody⟩ | ⟨-, hbody⟩⟩
      · rw [hbody, finish_returned rfl hversion] at hcall
        rw [length_rewritten h] at hshort
        have hstarted : (started (parseHead block).line1).2 = true := by
          by_contra hrefused
          rw [hcall, if_neg hrefused] at hgoes
          cases hgoes
        rw [hstarted, if_pos rfl] at hcall
        exact ⟨rfl, hstarted, hshort, hcall⟩
      · rw [hbody] at hcall
        rw [hcall] at hgoes
        cases hgoes
      · rw [hbody, finish_returned rfl hversion] at hcall
        have hout : settled (.returned
            (if (started (parseHead block).line1).2 then .complete else .error)) = false := by
          rw [hcall] at hgoes
          exact hgoes
        split at hout <;> cases hout

theorem returned_of_short {xs block : Bytes} (h : headerBlock xs = some block)
    (hshort : xs.length < ((parseHead block).msg.contentLen + (parseHead block).msg.scanned) % 2 ^ 64)
    {new : Bytes} (hread : Readable (xs ++ new)) (copyBody : Bool) :
    ∃ r, ((parseHead block).msg.takeBody (rewritten xs block ++ new) copyBody).outcome =
      .returned r := by
  rcases takeBody_cases (parseHead block).msg (rewritten xs block ++ new) copyBody with
    ⟨-, hbody⟩ | ⟨henough, ⟨-, hbig, -⟩ | ⟨-, hbody⟩⟩
  · exact ⟨_, congrArg Decoded.outcome hbody⟩
  · exfalso
    have hneg : (parseHead block).declared < 0 := by
      by_contra hnonneg
      have hsmall := (Head.contentLen_of_nonneg (Int.not_lt.mp hnonneg)).2
      omega
    have hfar := Head.never_of_neg h hneg hshort
    rcases hread with hsized | hnonneg
    · unfold Sized at hsized
      rw [List.length_append, length_rewritten h, ← List.length_append] at henough
      omega
    · have hdeclared := hnonneg block (headerBlock_append h new)
      omega
  · exact ⟨_, congrArg Decoded.outcome hbody⟩

theorem resumable (inPlace : Bool) :
    Resume.Resumable (call inPlace) settled Readable cleared where
  shorter _ _ h := h.shorter
  start := ⟨true, by cases inPlace <;> decide +kernel⟩
  resumes k k' xs new hread hgoes := by
    have hgoes' : settled (cleared.tryDecode xs k).outcome = false := hgoes
    cases hblock : headerBlock xs with
    | none =>
        have hcall : call inPlace k cleared xs =
            ⟨{ cleared with scanned := (findBlank xs 0).1 }, xs, .returned .notComplete⟩ := by
          unfold call
          rw [tryDecode_none hblock]
          cases inPlace <;> rfl
        rw [hcall]
        unfold call
        simp only [tryDecode_searching hblock]
    | some block =>
        obtain ⟨hok, hstarted, hshort, hcall⟩ := tryDecode_of_unsettled hblock hgoes'
        have hscanned := (Head.scanned_msg hblock).1
        have hlenBlock := (headerBlock_eq_some hblock).2.1
        have honce := tryDecode_some (headerBlock_append hblock new) hok k'
        rw [rewritten_append hblock] at honce
        -- what is in the buffer agrees with the rewritten stream from the body on
        have hleft : ∀ left : Bytes, left.length = xs.length →
            left.drop block.length = xs.drop block.length →
            (parseHead block).msg.takeBody (left ++ new) k' =
              { (parseHead block).msg.takeBody (rewritten xs block ++ new) k' with
                memory := left ++ new } := by
          intro left hlen hdrop
          have hrew := length_rewritten hblock
          refine takeBody_of_drop _ (by simp [hlen, hrew]) ?_ k'
          have hsplit : ∀ ys : Bytes, ys.length = xs.length →
              (ys ++ new).drop (parseHead block).msg.scanned =
                (ys.drop block.length).drop 4 ++ new := by
            intro ys hys
            rw [hscanned, List.drop_append_of_le_length (by omega), List.drop_drop]
          rw [hsplit left hlen, hsplit _ hrew, hdrop, drop_rewritten xs block (Nat.le_refl _)]
        obtain ⟨r, hr⟩ := returned_of_short hblock hshort hread k'
        rw [finish_returned hr (takeBody_keeps_version _ _ _), hstarted, if_pos rfl,
          takeBody_memory] at honce
        have hne := Head.contentLen_ne_zero hblock hshort
        unfold call
        simp only [hcall, honce]
        cases inPlace with
        | true =>
            rw [if_pos rfl, tryDecode_waiting _ rfl hne]
            simp [hr]
        | false =>
            rw [if_neg Bool.false_ne_true, tryDecode_waiting _ rfl hne, hleft xs rfl rfl]
            simp [hr]

theorem finish_memory (req : HttpRequest) (d : Decoded HttpMsg) (ln1 memory : Bytes) :
    req.finish { d with memory := memory } ln1 = { req.finish d ln1 with memory := memory } := by
  unfold finish
  simp only
  cases d.outcome with
  | lengthError => rfl
  | returned r =>
      simp only
      split <;> rfl

theorem fits_of_enough {b block : Bytes} (h : headerBlock b = some block) (hsized : Sized b)
    (hsmall : (parseHead block).msg.contentLen ≤ maxSize)
    (henough : ((parseHead block).msg.contentLen + (parseHead block).msg.scanned) % 2 ^ 64 ≤
      b.length) :
    (parseHead block).msg.scanned + (parseHead block).msg.contentLen ≤ b.length := by
  have hle := (Head.scanned_msg h).2
  have hnonneg : 0 ≤ (parseHead block).declared := by
    by_contra hneg
    have hbig := (Head.contentLen_of_neg (Int.not_le.mp hneg)).2
    omega
  have hlen := (Head.contentLen_of_nonneg hnonneg).1
  have hrange := (atoi_range ((parseHead block).headers.getValue contentLength)).2
  have hrange' : (parseHead block).declared < 2 ^ 31 := hrange
  unfold Sized at hsized
  omega

/-- A call whose body is there, or whose length no string can have, comes to the
same with more bytes behind. -/
theorem tryDecode_append {xs block : Bytes} (h : headerBlock xs = some block) (hsized : Sized xs)
    (hok : (parseHead block).ok = true) {copyBody : Bool}
    (hbody : ((parseHead block).msg.takeBody (rewritten xs block) copyBody).outcome ≠
      .returned .notComplete) (t : Bytes) :
    cleared.tryDecode (xs ++ t) copyBody =
      { cleared.tryDecode xs copyBody with memory := rewritten xs block ++ t } := by
  have hfit : copyBody = true → (parseHead block).msg.contentLen ≤ maxSize →
      (parseHead block).msg.scanned + (parseHead block).msg.contentLen ≤
        (rewritten xs block).length := by
    intro _ hsmall
    rw [length_rewritten h]
    rcases takeBody_cases (parseHead block).msg (rewritten xs block) copyBody with
      ⟨-, hshort⟩ | ⟨henough, -⟩
    · exact absurd (congrArg Decoded.outcome hshort) hbody
    · rw [length_rewritten h] at henough
      exact fits_of_enough h hsized hsmall henough
  rw [tryDecode_some (headerBlock_append h t) hok, tryDecode_some h hok, rewritten_append h,
    takeBody_append hbody hfit, finish_memory]

/-- A call that has settled the message has settled it for every longer buffer. -/
theorem settled_append {xs t : Bytes} (hsized : Sized (xs ++ t)) {copyBody : Bool}
    (h : settled (cleared.tryDecode xs copyBody).outcome = true) :
    (cleared.tryDecode (xs ++ t) copyBody).outcome = (cleared.tryDecode xs copyBody).outcome ∧
      ((cleared.tryDecode xs copyBody).outcome = .returned .complete →
        (cleared.tryDecode (xs ++ t) copyBody).msg = (cleared.tryDecode xs copyBody).msg) := by
  cases hblock : headerBlock xs with
  | none =>
      rw [tryDecode_none hblock] at h
      cases h
  | some block =>
      have hblock' := headerBlock_append hblock t
      cases hok : (parseHead block).ok with
      | false =>
          rw [(tryDecode_bad hblock hok copyBody).1, (tryDecode_bad hblock' hok copyBody).1]
          exact ⟨rfl, nofun⟩
      | true =>
          by_cases hbody : ((parseHead block).msg.takeBody (rewritten xs block) copyBody).outcome =
              .returned .notComplete
          · have hcall := tryDecode_some hblock hok copyBody
            rw [finish_returned hbody (takeBody_keeps_version _ _ _)] at hcall
            have hrefused : (started (parseHead block).line1).2 = false := by
              by_contra haccepted
              rw [Bool.not_eq_false] at haccepted
              rw [hcall, haccepted] at h
              cases h
            obtain ⟨r, hr⟩ := returned_of_short hblock (short_of_notComplete hblock hbody)
              (Or.inl hsized) copyBody
            rw [hcall, tryDecode_some hblock' hok, rewritten_append hblock,
              finish_returned hr (takeBody_keeps_version _ _ _), hrefused]
            exact ⟨rfl, nofun⟩
          · rw [tryDecode_append hblock hsized.shorter hok hbody t]
            exact ⟨rfl, fun _ => rfl⟩

/-- The parser takes the lines of a header block, and a body can have the length it
declares. -/
structure Accepted (block : Bytes) : Prop where
  lines : (parseHead block).ok = true
  line1 : (started (parseHead block).line1).2 = true
  declared : 0 ≤ (parseHead block).declared

theorem complete_of_accepted {b block : Bytes} (h : headerBlock b = some block)
    (hblock : Accepted block)
    (hlen : (block.length : Int) + 4 + (parseHead block).declared ≤ b.length) :
    (cleared.tryDecode b true).outcome = .returned .complete := by
  have hscanned := Head.scanned_msg h
  obtain ⟨hsize, hsmall⟩ := Head.contentLen_of_nonneg hblock.declared
  have hrange := (atoi_range ((parseHead block).headers.getValue contentLength)).2
  have hrange' : (parseHead block).declared < 2 ^ 31 := hrange
  rw [tryDecode_some h hblock.lines]
  rcases takeBody_cases (parseHead block).msg (rewritten b block) true with
    ⟨hshort, -⟩ | ⟨-, ⟨-, hbig, -⟩ | ⟨-, hbody⟩⟩
  · have hle := Nat.mod_le ((parseHead block).msg.contentLen + (parseHead block).msg.scanned) (2 ^ 64)
    rw [length_rewritten h] at hshort
    omega
  · omega
  · rw [hbody, finish_returned rfl rfl, hblock.line1]
    rfl

/-- What a complete call leaves: the end of the message, which is in the buffer,
and the buffer with the header names in lower case. -/
theorem tryDecode_complete {b : Bytes} (hsized : Sized b)
    (h : (cleared.tryDecode b true).outcome = .returned .complete) :
    ∃ block, headerBlock b = some block ∧ Accepted block ∧
      (cleared.tryDecode b true).msg.complete = true ∧
      (cleared.tryDecode b true).msg.scanned =
        (block.length : Int) + 4 + (parseHead block).declared ∧
      (cleared.tryDecode b true).msg.scanned ≤ b.length ∧
      ∀ t, cleared.tryDecode (b ++ t) true =
        { cleared.tryDecode b true with memory := rewritten b block ++ t } := by
  cases hblock : headerBlock b with
  | none =>
      rw [tryDecode_none hblock] at h
      cases h
  | some block =>
      cases hok : (parseHead block).ok with
      | false =>
          rw [(tryDecode_bad hblock hok true).1] at h
          cases h
      | true =>
          have hcall := tryDecode_some hblock hok true
          have hscanned := Head.scanned_msg hblock
          rcases takeBody_cases (parseHead block).msg (rewritten b block) true with
            ⟨-, hbody⟩ | ⟨henough, ⟨-, -, hbody⟩ | ⟨hsmall, hbody⟩⟩
          · rw [hbody, finish_returned rfl rfl] at hcall
            rw [hcall] at h
            simp only at h
            split at h <;> cases h
          · rw [hbody] at hcall
            rw [hcall] at h
            cases h
          · rw [length_rewritten hblock] at henough
            have hfits := fits_of_enough hblock hsized (hsmall rfl) henough
            have hnonneg : 0 ≤ (parseHead block).declared := by
              by_contra hneg
              have hbig := (Head.contentLen_of_neg (Int.not_le.mp hneg)).2
              have hsmall' := hsmall rfl
              omega
            have htaken : ((parseHead block).msg.takeBody (rewritten b block) true).outcome ≠
                .returned .notComplete := by
              rw [hbody]
              simp
            have hmore := fun t => tryDecode_append hblock hsized hok htaken t
            rw [hbody, finish_returned rfl rfl] at hcall
            have hend : (cleared.tryDecode b true).msg.scanned =
                (parseHead block).msg.scanned + (parseHead block).msg.contentLen := by
              rw [hcall]
              show ((parseHead block).msg.scanned + (parseHead block).msg.contentLen) % 2 ^ 64 = _
              unfold Sized at hsized
              omega
            have hstarted : (started (parseHead block).line1).2 = true := by
              by_contra hrefused
              rw [hcall, if_neg hrefused] at h
              cases h
            have hlen := (Head.contentLen_of_nonneg hnonneg).1
            refine ⟨block, rfl, ⟨hok, hstarted, hnonneg⟩, ?_, by omega, by omega, hmore⟩
            rw [hcall]
            rfl

/-- However a stream is cut, the calls in turn on a new request end as one call on
the whole stream does, with the same request when it is complete or still
waiting; and a request that is complete is the same with more behind it. -/
theorem decode_ignores_fragmentation (inPlace : Bool) (first : Bytes) (later : List Bytes)
    (hsized : (first ++ later.flatten).length < 2 ^ 63) :
    let s := first ++ later.flatten
    let c := Resume.inTurn (call inPlace) settled cleared [] (true, first) (later.map (true, ·))
    let d := cleared.tryDecode s true
    c.result = d.outcome ∧
      (d.outcome = .returned .complete ∨ d.outcome = .returned .notComplete → c.state = d.msg) ∧
      (d.outcome = .returned .complete → ∀ t,
        (cleared.tryDecode (s ++ t) true).outcome = .returned .complete ∧
          (cleared.tryDecode (s ++ t) true).msg = d.msg) := by
  intro s c d
  have hstream : Resume.stream (true, first) (later.map (true, ·)) = s := by
    simp [Resume.stream, Function.comp_def, s]
  obtain ⟨k, seen, rest, hsplit, hk, hcall, hrest⟩ :=
    Resume.inTurn_once (resumable inPlace) (true, first) (later.map (true, ·)) (hstream ▸ Or.inl hsized)
  have htrue : k = true := by
    rcases hk with hk | hk
    · exact hk
    · obtain ⟨p, -, hp⟩ := List.mem_map.mp (List.map_map ▸ hk)
      exact hp.symm
  rw [htrue] at hcall hrest
  rw [hstream] at hsplit
  have hresult : c.result = (cleared.tryDecode seen true).outcome := congrArg (·.result) hcall
  have hstate : c.state = (cleared.tryDecode seen true).msg := congrArg (·.state) hcall
  have hcomplete : d.outcome = .returned .complete → ∀ t,
      (cleared.tryDecode (s ++ t) true).outcome = .returned .complete ∧
        (cleared.tryDecode (s ++ t) true).msg = d.msg := by
    intro hd t
    obtain ⟨_, -, -, -, -, -, hmore⟩ := tryDecode_complete hsized hd
    rw [hmore t]
    exact ⟨hd, rfl⟩
  have hd : d = cleared.tryDecode (seen ++ rest) true := congrArg (cleared.tryDecode · true) hsplit
  cases hset : settled (cleared.tryDecode seen true).outcome with
  | true =>
      have hsized' : Sized s := hsized
      obtain ⟨hsame, hmsg⟩ := settled_append (hsplit ▸ hsized') hset
      rw [← hd] at hsame hmsg
      refine ⟨hresult.trans hsame.symm, fun hout => ?_, hcomplete⟩
      rcases hout with hout | hout
      · exact hstate.trans (hmsg (hsame ▸ hout)).symm
      · rw [← hsame, hout] at hset
        cases hset
  | false =>
      rw [hrest hset, List.append_nil] at hd
      exact ⟨hresult.trans (hd ▸ rfl), fun _ => hstate.trans (hd ▸ rfl), hcomplete⟩

/-- A request cut inside its blank line and inside its body. -/
def cutRequest : List Bytes :=
  [[0x0d, 0x0a, 0x63, 0x6f, 0x6e, 0x74, 0x65, 0x6e, 0x74, 0x2d, 0x4c, 0x65, 0x6e, 0x67, 0x74, 0x68,
      0x3a, 0x20, 0x32, 0x0d, 0x0a, 0x0d],
    [0x0a, 0x61], [0x62]]

theorem decode_ignores_fragmentation_cut :
    (Resume.inTurn (call true) settled cleared [] (true, [0x47, 0x20, 0x2f])
      (cutRequest.map (true, ·))).result = .returned .complete ∧
      (Resume.inTurn (call true) settled cleared [] (true, [0x47, 0x20, 0x2f])
        (cutRequest.map (true, ·))).state =
        (cleared.tryDecode ([0x47, 0x20, 0x2f] ++ cutRequest.flatten) true).msg := by
  have h := decode_ignores_fragmentation true [0x47, 0x20, 0x2f] cutRequest (by decide)
  have hone : (cleared.tryDecode ([0x47, 0x20, 0x2f] ++ cutRequest.flatten) true).outcome =
      .returned .complete := by
    decide +kernel
  exact ⟨h.1.trans hone, h.2.1 (Or.inl hone)⟩

end HttpRequest

end Handy
