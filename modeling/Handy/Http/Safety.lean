import Handy.Http.Decode

/-! # `tryDecode` on untrusted bytes

The declared length comes from the peer as an `int` and is added to the size of
the header block as a `size_t`. A negative one that does not reach back behind
the block wraps around to a sum the buffer has: `assign` throws, and a slice ends
before it begins. The second way to go wrong is `getByte`, which returns the end
of a message as an `int`. `Fits` says that neither happens, and nothing else does.
-/

namespace Handy

open HttpMsg

/-- The body is the bytes of `b` that end at `getByte()`. -/
def BodyAt (b : Bytes) (m : HttpMsg) : Prop :=
  m.getByte ≤ b.length ∧
    match m.getBody with
    | .copied bytes =>
        (bytes.length : Int) ≤ m.getByte ∧
          (Slice.mk (m.getByte - bytes.length) m.getByte).read b = bytes
    | .inBuffer s => s.Within b.length ∧ s.pe = m.getByte

/-- A call on `b` returns, makes a body of nothing outside `b`, and when it is
complete the body is where `getByte()` says. -/
structure SafeCall (b : Bytes) (outcome : Outcome) (range : Option Slice) (m : HttpMsg) : Prop where
  returns : outcome ≠ .lengthError
  inside : ∀ r, range = some r → r.Within b.length
  exact : outcome = .returned .complete → BodyAt b m

def SafeRequest (b : Bytes) (copyBody : Bool) : Prop :=
  let d := HttpRequest.cleared.tryDecode b copyBody
  SafeCall b d.outcome d.range d.msg.toHttpMsg

def SafeResponse (b behind : Bytes) (copyBody : Bool) : Prop :=
  let d := HttpResponse.cleared.tryDecode b behind copyBody
  SafeCall b d.outcome d.range d.msg.toHttpMsg

/-- If the sum of the header block's size and the declared length, as a `size_t`,
is within `b`, then the length is not negative, the message is within `b`, and if
it is accepted it ends where an `int` can say; with no body it is enough that
`getByte()` is not negative. -/
def Fits (b : Bytes) (accepts : Bytes → Bool) : Prop :=
  ∀ block, headerBlock b = some block → (parseHead block).ok = true →
    let size : Int := block.length + 4
    let len := (parseHead block).declared
    (size + len) % 2 ^ 64 ≤ b.length →
      0 ≤ len ∧ size + len ≤ b.length ∧ (accepts (parseHead block).line1 = true →
        size + len < 2 ^ 31 ∨ len = 0 ∧ 0 ≤ toInt32 (block.length + 4))

/-- What a start line that is refused makes of the outcome. -/
def refuse (accepted : Bool) : Outcome → Outcome
  | .lengthError => .lengthError
  | .returned r => .returned (if accepted then r else .error)

theorem BodyAt.congr {b : Bytes} {m m' : HttpMsg} (hbody : m'.body = m.body)
    (hbody2 : m'.body2 = m.body2) (hscanned : m'.scanned = m.scanned) :
    BodyAt b m' ↔ BodyAt b m := by
  unfold BodyAt getBody getByte
  rw [hbody, hbody2, hscanned]

/-! ## A parsed header block -/

variable {b block : Bytes}

theorem need_eq (h : headerBlock b = some block) :
    (((parseHead block).msg.contentLen + (parseHead block).msg.scanned) % 2 ^ 64 : Nat) =
      ((block.length : Int) + 4 + (parseHead block).declared) % 2 ^ 64 := by
  have hscanned := (Head.scanned_msg h).1
  rw [hscanned]
  by_cases hneg : (parseHead block).declared < 0
  · have hlen := (Head.contentLen_of_neg hneg).1
    omega
  · have hlen := (Head.contentLen_of_nonneg (Int.not_lt.mp hneg)).1
    omega

/-- A negative length within the buffer: one kind of body throws. -/
theorem unsafe_of_neg (h : headerBlock b = some block) (hneg : (parseHead block).declared < 0)
    (henough : ((parseHead block).msg.contentLen + (parseHead block).msg.scanned) % 2 ^ 64 ≤
      b.length) (accepted : Bool) :
    refuse accepted ((parseHead block).msg.takeBody (rewritten b block) true).outcome =
      .lengthError := by
  have hbig := (Head.contentLen_of_neg hneg).2
  rcases takeBody_cases (parseHead block).msg (rewritten b block) true with
    ⟨hshort, -⟩ | ⟨-, ⟨-, -, hbody⟩ | ⟨hsmall, -⟩⟩
  · rw [length_rewritten h] at hshort
    omega
  · rw [hbody]
    rfl
  · have hle := hsmall rfl
    omega

theorem toInt32_mod (n : Nat) : toInt32 (n % 2 ^ 64) = toInt32 n := by
  unfold toInt32
  rw [Nat.mod_mod_of_dvd n (by decide)]

/-- The body taken when the length is one a string can have. -/
theorem takeBody_of_small {m : HttpMsg} {buf : Bytes} (hlen : buf.length = b.length)
    (hdrop : buf.drop m.scanned = b.drop m.scanned) (hcopy : m.body = []) (hbody2 : m.body2 = .unset)
    (hsmall : m.contentLen ≤ maxSize) (henough : (m.contentLen + m.scanned) % 2 ^ 64 ≤ b.length)
    (copyBody : Bool) :
    let range : Slice := ⟨m.scanned, m.scanned + m.contentLen⟩
    let d := m.takeBody buf copyBody
    d.outcome = .returned .complete ∧ d.range = some range ∧
      d.msg.getByte = toInt32 (m.scanned + m.contentLen) ∧
      d.msg.getBody =
        if copyBody ∨ m.contentLen = 0 then .copied ((b.drop m.scanned).take m.contentLen)
        else .inBuffer range := by
  intro range d
  have hdiff : toDiff m.contentLen = m.contentLen := by
    unfold maxSize at hsmall
    unfold toDiff
    rw [if_pos (by omega)]
  have hrange : Slice.ofLen m.scanned (toDiff m.contentLen) = range := by
    rw [hdiff]
    rfl
  rcases takeBody_cases m buf copyBody with ⟨hshort, -⟩ | ⟨-, ⟨-, hbig, -⟩ | ⟨-, hbody⟩⟩
  · omega
  · omega
  · have hd : d = _ := hbody
    rw [hd]
    refine ⟨rfl, congrArg some hrange, toInt32_mod _, ?_⟩
    unfold getBody
    cases copyBody with
    | true => simp [hbody2, Slice.unset, hdrop]
    | false =>
        by_cases hzero : m.contentLen = 0
        · simp [toDiff, Slice.ofLen, hzero, hcopy]
        · have hne : (m.scanned : Int) + m.contentLen ≠ m.scanned := by omega
          simp [hdiff, Slice.ofLen, hzero, hne, range]

/-- With a body taken, the call is safe exactly when the message is within `b` and
an accepted one ends where `getByte` can say. -/
theorem safeCall_iff {m : HttpMsg} {buf : Bytes} (hlen : buf.length = b.length)
    (hdrop : buf.drop m.scanned = b.drop m.scanned) (hcopy : m.body = []) (hbody2 : m.body2 = .unset)
    (hsmall : m.contentLen ≤ maxSize) (henough : (m.contentLen + m.scanned) % 2 ^ 64 ≤ b.length)
    (hscanned : m.scanned ≤ b.length) (accepted : Bool) :
    (∀ copyBody, SafeCall b (refuse accepted (m.takeBody buf copyBody).outcome)
        (m.takeBody buf copyBody).range (m.takeBody buf copyBody).msg) ↔
      m.scanned + m.contentLen ≤ b.length ∧ (accepted = true →
        m.scanned + m.contentLen < 2 ^ 31 ∨ m.contentLen = 0 ∧ 0 ≤ toInt32 m.scanned) := by
  have htaken := takeBody_of_small hlen hdrop hcopy hbody2 hsmall henough
  constructor
  · intro hsafe
    obtain ⟨hout, hrange, hbyte, hbody⟩ := htaken false
    have hinside := (hsafe false).inside _ hrange
    refine ⟨?_, fun haccepted => ?_⟩
    · have hpe := hinside.2.2
      simp only at hpe
      omega
    · have hexact := (hsafe false).exact (by rw [hout, haccepted]; rfl)
      unfold BodyAt at hexact
      rw [hbyte, hbody] at hexact
      by_cases hzero : m.contentLen = 0
      · simp [hzero] at hexact
        exact Or.inr ⟨hzero, hexact.2.1⟩
      · simp [hzero] at hexact
        have hlt := toInt32_lt (m.scanned + m.contentLen)
        omega
  · rintro ⟨hwithin, hends⟩ copyBody
    obtain ⟨hout, hrange, hbyte, hbody⟩ := htaken copyBody
    refine ⟨?_, ?_, ?_⟩
    · rw [hout]
      exact nofun
    · rintro r hr
      obtain rfl := Option.some.inj (hrange.symm.trans hr)
      exact ⟨by simp only; omega, by simp only; omega, by simp only; omega⟩
    · intro hcomplete
      have haccepted : accepted = true := by
        rw [hout] at hcomplete
        cases accepted with
        | true => rfl
        | false => cases hcomplete
      unfold BodyAt
      rw [hbyte, hbody]
      rcases hends haccepted with hlt | ⟨hzero, hbyte'⟩
      · rw [toInt32_of_lt hlt]
        refine ⟨by omega, ?_⟩
        split
        · next bytes heq =>
            split at heq
            · have hbytes := Body.copied.inj heq
              have hsize : bytes.length = m.contentLen := by
                rw [← hbytes, List.length_take, List.length_drop]
                omega
              refine ⟨by omega, ?_⟩
              have hpb : ((m.scanned + m.contentLen : Nat) : Int) - m.contentLen = m.scanned := by
                omega
              have hpe : ((m.scanned + m.contentLen : Nat) : Int) - m.scanned = m.contentLen := by
                omega
              rw [hsize, ← hbytes]
              simp only [Slice.read, hpb, hpe, Int.toNat_natCast]
            · cases heq
        · next s heq =>
            split at heq
            · cases heq
            · rw [← Body.inBuffer.inj heq]
              exact ⟨⟨by simp only; omega, by simp only; omega, by simp only; omega⟩, by simp⟩
      · have hle := toInt32_le m.scanned
        simp [hzero, hbyte', Slice.read]
        omega

/-! ## Requests and responses -/

/-- What a call comes to once the header block has been parsed. -/
def SafeBody (b block : Bytes) (accepted copyBody : Bool) : Prop :=
  let d := (parseHead block).msg.takeBody (rewritten b block) copyBody
  SafeCall b (refuse accepted d.outcome) d.range d.msg

theorem safeBody_iff (h : headerBlock b = some block) (accepted : Bool) :
    (∀ copyBody, SafeBody b block accepted copyBody) ↔
      (((block.length : Int) + 4 + (parseHead block).declared) % 2 ^ 64 ≤ b.length →
        0 ≤ (parseHead block).declared ∧
          (block.length : Int) + 4 + (parseHead block).declared ≤ b.length ∧
          (accepted = true → (block.length : Int) + 4 + (parseHead block).declared < 2 ^ 31 ∨
            (parseHead block).declared = 0 ∧ 0 ≤ toInt32 (block.length + 4))) := by
  obtain ⟨hscanned, hle⟩ := Head.scanned_msg h
  have hneed := need_eq h
  have hrew := length_rewritten h
  by_cases henough : ((parseHead block).msg.contentLen + (parseHead block).msg.scanned) % 2 ^ 64 ≤
      b.length
  · have henough' : ((block.length : Int) + 4 + (parseHead block).declared) % 2 ^ 64 ≤ b.length := by
      omega
    by_cases hneg : (parseHead block).declared < 0
    · constructor
      · intro hsafe
        exact absurd (unsafe_of_neg h hneg henough accepted) (hsafe true).returns
      · intro hfits
        have hnonneg := (hfits henough').1
        omega
    · obtain ⟨hlen, hsmall⟩ := Head.contentLen_of_nonneg (Int.not_lt.mp hneg)
      have hiff := safeCall_iff (m := (parseHead block).msg) hrew
        (drop_rewritten b block (by omega)) rfl rfl hsmall henough hle accepted
      refine hiff.trans ⟨fun hsafe _ => ?_, fun hfits => ?_⟩
      · refine ⟨Int.not_lt.mp hneg, by omega, fun haccepted => ?_⟩
        rcases hsafe.2 haccepted with hlt | ⟨hzero, hbyte⟩
        · exact Or.inl (by omega)
        · exact Or.inr ⟨by omega, hscanned ▸ hbyte⟩
      · obtain ⟨-, hwithin, hends⟩ := hfits henough'
        refine ⟨by omega, fun haccepted => ?_⟩
        rcases hends haccepted with hlt | ⟨hzero, hbyte⟩
        · exact Or.inl (by omega)
        · exact Or.inr ⟨by omega, hscanned.symm ▸ hbyte⟩
  · have hshort : ¬ ((block.length : Int) + 4 + (parseHead block).declared) % 2 ^ 64 ≤ b.length := by
      omega
    refine ⟨fun _ hfits => absurd hfits hshort, fun _ copyBody => ?_⟩
    unfold SafeBody
    rcases takeBody_cases (parseHead block).msg (rewritten b block) copyBody with
      ⟨-, hbody⟩ | ⟨hlong, -⟩
    · rw [hbody]
      refine ⟨nofun, nofun, ?_⟩
      cases accepted <;> exact nofun
    · rw [hrew] at hlong
      exact absurd hlong henough

theorem safeCall_quiet {outcome : Outcome} {m : HttpMsg} (hthrow : outcome ≠ .lengthError)
    (hout : outcome ≠ .returned .complete) : SafeCall b outcome none m :=
  ⟨hthrow, nofun, fun h => absurd h hout⟩

theorem fits_of_unparsed {accepts : Bytes → Bool}
    (h : ∀ block, headerBlock b = some block → (parseHead block).ok = false) : Fits b accepts := by
  intro block hblock hok
  rw [h block hblock] at hok
  cases hok

theorem fits_of_parsed {accepts : Bytes → Bool} (h : headerBlock b = some block)
    (hok : (parseHead block).ok = true) :
    Fits b accepts ↔
      ∀ copyBody, SafeBody b block (accepts (parseHead block).line1) copyBody := by
  rw [safeBody_iff h]
  constructor
  · exact fun hfits => hfits block h hok
  · intro hfits block' hblock' _
    obtain rfl := Option.some.inj (h.symm.trans hblock')
    exact hfits

/-- `tryDecode_` on a cleared message, with a caller that refuses some first
lines. -/
def SafeDecode (b : Bytes) (accepts : Bytes → Bool) (copyBody : Bool) : Prop :=
  let d := cleared.tryDecode_ b copyBody
  SafeCall b (refuse (accepts d.2) d.1.outcome) d.1.range d.1.msg

theorem safeDecode_iff (b : Bytes) (accepts : Bytes → Bool) :
    (∀ copyBody, SafeDecode b accepts copyBody) ↔ Fits b accepts := by
  cases hblock : headerBlock b with
  | none =>
      refine iff_of_true (fun copyBody => ?_) (fits_of_unparsed (by simp [hblock]))
      unfold SafeDecode
      rw [tryDecode_none hblock]
      refine safeCall_quiet nofun ?_
      cases accepts [] <;> exact nofun
  | some block =>
      cases hok : (parseHead block).ok with
      | false =>
          refine iff_of_true (fun copyBody => ?_) (fits_of_unparsed ?_)
          · unfold SafeDecode
            rw [tryDecode_some hblock, hok, if_neg Bool.false_ne_true]
            refine safeCall_quiet nofun ?_
            cases accepts (parseHead block).line1 <;> exact nofun
          · intro block' hblock'
            obtain rfl := Option.some.inj (hblock.symm.trans hblock')
            exact hok
      | true =>
          rw [fits_of_parsed hblock hok]
          refine forall_congr' fun copyBody => ?_
          unfold SafeDecode SafeBody
          rw [tryDecode_some hblock, hok, if_pos rfl]

/-- Of what is left of the message only the body and its place count. -/
theorem safeCall_congr {outcome : Outcome} {range : Option Slice} {m m' : HttpMsg}
    (hbody : m'.body = m.body) (hbody2 : m'.body2 = m.body2) (hscanned : m'.scanned = m.scanned) :
    SafeCall b outcome range m' ↔ SafeCall b outcome range m := by
  have hat := BodyAt.congr (b := b) hbody hbody2 hscanned
  exact ⟨fun h => ⟨h.returns, h.inside, fun hout => hat.mp (h.exact hout)⟩,
    fun h => ⟨h.returns, h.inside, fun hout => hat.mpr (h.exact hout)⟩⟩

theorem safeRequest_eq (b : Bytes) (copyBody : Bool) :
    SafeRequest b copyBody ↔
      SafeDecode b (fun line1 => (HttpRequest.started line1).2) copyBody := by
  unfold SafeRequest SafeDecode HttpRequest.tryDecode
  rw [HttpRequest.cleared_toHttpMsg]
  unfold HttpRequest.finish
  cases hout : (cleared.tryDecode_ b copyBody).1.outcome with
  | lengthError =>
      simp only [hout]
      exact safeCall_congr rfl rfl rfl
  | returned r =>
      have hstart := HttpRequest.startLine_msg HttpRequest.cleared
        (cleared.tryDecode_ b copyBody).1.msg (cleared.tryDecode_ b copyBody).2
      simp only [hout]
      split
      · next hline =>
          simp only [hline, HttpRequest.started, if_true, refuse]
      · next hline =>
          simp only [hstart, hline, HttpRequest.started, if_false, refuse]
          exact safeCall_congr rfl rfl rfl

theorem safeResponse_eq (b behind : Bytes) (copyBody : Bool) :
    SafeResponse b behind copyBody ↔ SafeDecode b (fun _ => true) copyBody := by
  have hcleared : HttpResponse.cleared.toHttpMsg = cleared := rfl
  unfold SafeResponse SafeDecode HttpResponse.tryDecode
  rw [hcleared]
  unfold HttpResponse.finish
  cases hout : (cleared.tryDecode_ b copyBody).1.outcome with
  | lengthError =>
      simp only [hout]
      exact safeCall_congr rfl rfl rfl
  | returned r =>
      simp only [hout]
      split
      · exact safeCall_congr rfl rfl rfl
      · exact safeCall_congr rfl rfl rfl

/-- On untrusted bytes requests and responses are decoded safely exactly when the
declared length fits; a request whose start line is refused need not end where
`getByte` can say. -/
theorem untrusted_http_safe_iff (b behind : Bytes) :
    ((∀ copyBody, SafeRequest b copyBody) ↔
      Fits b fun line1 => (HttpRequest.started line1).2) ∧
      ((∀ copyBody, SafeResponse b behind copyBody) ↔ Fits b fun _ => true) := by
  refine ⟨?_, ?_⟩
  · rw [← safeDecode_iff]
    exact forall_congr' (safeRequest_eq b)
  · rw [← safeDecode_iff]
    exact forall_congr' (safeResponse_eq b behind)

/-- `GET / HTTP/1.1` with `Content-Length: -1` and no body. -/
def minusOneRequest : Bytes :=
  [0x47, 0x45, 0x54, 0x20, 0x2f, 0x20, 0x48, 0x54, 0x54, 0x50, 0x2f, 0x31, 0x2e, 0x31, 0x0d, 0x0a,
    0x43, 0x6f, 0x6e, 0x74, 0x65, 0x6e, 0x74, 0x2d, 0x4c, 0x65, 0x6e, 0x67, 0x74, 0x68, 0x3a, 0x20,
    0x2d, 0x31, 0x0d, 0x0a, 0x0d, 0x0a]

/-- On that request a copying decoder throws, and one that does not copy completes
with a body that ends before it begins. -/
theorem minusOneRequest_unsafe :
    (HttpRequest.cleared.tryDecode minusOneRequest true).outcome = .lengthError ∧
      (HttpRequest.cleared.tryDecode minusOneRequest false).outcome = .returned .complete ∧
      (HttpRequest.cleared.tryDecode minusOneRequest false).msg.body2 = ⟨38, 37⟩ ∧
      ¬ ∀ b copyBody, SafeRequest b copyBody := by
  refine ⟨by decide +kernel, by decide +kernel, by decide +kernel, fun h => ?_⟩
  exact (h minusOneRequest true).returns (by decide +kernel)

end Handy
