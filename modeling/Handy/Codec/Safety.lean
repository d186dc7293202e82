import Handy.Codec.Loop

/-! # What the decoders do with untrusted bytes

Every decoder answers at most the bytes it was given, so the loop of `onMsg`
always ends and shrinks its input. The slices of the line and bracket decoders
lie in the bytes they answer for. The length decoder takes its length from the
peer as a signed number and checks it from above only: the seven negative
lengths above `-8` pass every check and leave a slice that ends before it
begins. `NegativeLength` is exactly that header.
-/

namespace Handy

/-- A positive answer is covered by the input, and its slice by the answer. -/
def DecodeSafe (codec : Codec UInt8) (data : Bytes) : Prop :=
  0 < (codec.tryDecode data).1 → (codec.tryDecode data).1 ≤ data.length ∧
    (codec.tryDecode data).2.Within (codec.tryDecode data).1

/-- A complete header whose length field is negative and above `-8`. -/
def NegativeLength (data : Bytes) : Prop :=
  8 ≤ data.length ∧ data.take 4 = LengthCodec.magic ∧ -8 < LengthCodec.lengthField data ∧
    LengthCodec.lengthField data < 0

instance (data : Bytes) : Decidable (NegativeLength data) :=
  inferInstanceAs (Decidable (_ ∧ _ ∧ _ ∧ _))

/-- The input is one the decoder of that kind mishandles. -/
def Malformed (kind : CodecKind) (data : Bytes) : Prop :=
  kind = .length ∧ NegativeLength data

/-! ## The scanners -/

theorem LineCodec.scan_spec (data : Bytes) (i : Nat) (rest : Bytes)
    (hlen : i + rest.length = data.length) :
    scan data i rest = (0, .unset) ∨ ∃ n k, k ≤ n ∧ n ≤ k + 1 ∧ n < data.length ∧
      scan data i rest = (toInt32 (n + 1), .ofLen 0 k) := by
  induction rest generalizing i with
  | nil => exact Or.inl rfl
  | cons c rest ih =>
      simp only [List.length_cons] at hlen
      unfold scan
      split
      · right
        split
        · exact ⟨i, i - 1, by omega, by omega, by omega, rfl⟩
        · exact ⟨i, i, Nat.le_refl _, Nat.le_succ _, by omega, rfl⟩
      · exact ih (i + 1) (by omega)

theorem BracketCodec.scan_spec (i : Nat) (rest : Bytes) :
    scan i rest = (0, .unset) ∨ ∃ n, i ≤ n ∧ n < i + rest.length ∧
      rest[n - i]? = some 0x7d ∧ scan i rest = (toInt32 (n + 1), .ofLen 1 ((n : Int) - 1)) := by
  induction rest generalizing i with
  | nil => exact Or.inl rfl
  | cons c rest ih =>
      unfold scan
      split
      · next hc =>
          right
          refine ⟨i, Nat.le_refl _, by simp, ?_, rfl⟩
          rw [Nat.sub_self, hc]
          rfl
      · rcases ih (i + 1) with h | ⟨n, hle, hlt, hget, heq⟩
        · exact Or.inl h
        · right
          refine ⟨n, by omega, by simp only [List.length_cons]; omega, ?_, heq⟩
          rw [show n - i = (n - (i + 1)) + 1 by omega, List.getElem?_cons_succ]
          exact hget

theorem isEot_iff (data : Bytes) : isEot data = true ↔ data = [0x04] := beq_iff_eq

/-! ## Answers never exceed the input -/

theorem LineCodec.bounded : codec.Bounded := by
  intro data
  change (tryDecode data).1 ≤ data.length
  unfold tryDecode
  split
  · next h => rw [(isEot_iff data).mp h]; decide
  · rcases scan_spec data 0 data (Nat.zero_add _) with h | ⟨n, k, _, _, hn, h⟩
    · rw [h]
      exact Int.natCast_nonneg _
    · rw [h]
      exact Int.le_trans (toInt32_le _) (by omega)

theorem BracketCodec.bounded : codec.Bounded := by
  intro data
  change (tryDecode data).1 ≤ data.length
  unfold tryDecode
  split
  · next h => rw [(isEot_iff data).mp h]; decide
  · split
    · exact Int.natCast_nonneg _
    · split
      · exact Int.natCast_nonneg _
      · rcases scan_spec 0 data with h | ⟨n, _, hn, _, h⟩
        · rw [h]
          exact Int.natCast_nonneg _
        · rw [h]
          exact Int.le_trans (toInt32_le _) (by omega)

/-- The outcomes of the length decoder, each with the checks that led to it. -/
theorem LengthCodec.tryDecode_cases (data : Bytes) :
    (data.length < 8 ∧ tryDecode data = (0, .unset)) ∨
    (8 ≤ data.length ∧ (1024 * 1024 < lengthField data ∨ data.take 4 ≠ magic) ∧
      tryDecode data = (-1, .unset)) ∨
    (8 ≤ data.length ∧ lengthField data ≤ 1024 * 1024 ∧ data.take 4 = magic ∧
      lengthField data + 8 ≤ toInt32 data.length ∧
      tryDecode data = (lengthField data + 8, .ofLen 8 (lengthField data))) ∨
    (8 ≤ data.length ∧ lengthField data ≤ 1024 * 1024 ∧ data.take 4 = magic ∧
      toInt32 data.length < lengthField data + 8 ∧ tryDecode data = (0, .unset)) := by
  by_cases hshort : data.length < 8
  · exact Or.inl ⟨hshort, by rw [tryDecode, if_pos hshort]⟩
  · have hlong : 8 ≤ data.length := by omega
    by_cases hbad : 1024 * 1024 < lengthField data ∨ data.take 4 ≠ magic
    · exact Or.inr (Or.inl ⟨hlong, hbad, by simp only [tryDecode, if_neg hshort, if_pos hbad]⟩)
    · have hgood := hbad
      rw [not_or, Int.not_lt, not_not] at hgood
      by_cases hfull : lengthField data + 8 ≤ toInt32 data.length
      · exact Or.inr (Or.inr (Or.inl ⟨hlong, hgood.1, hgood.2, hfull,
          by simp only [tryDecode, if_neg hshort, if_neg hbad, if_pos hfull]⟩))
      · exact Or.inr (Or.inr (Or.inr ⟨hlong, hgood.1, hgood.2, by omega,
          by simp only [tryDecode, if_neg hshort, if_neg hbad, if_neg hfull]⟩))

theorem LengthCodec.bounded : codec.Bounded := by
  intro data
  change (tryDecode data).1 ≤ data.length
  rcases tryDecode_cases data with ⟨_, h⟩ | ⟨_, _, h⟩ | ⟨_, _, _, hfull, h⟩ | ⟨_, _, _, _, h⟩
  · rw [h]
    exact Int.natCast_nonneg _
  · rw [h]
    have := Int.natCast_nonneg data.length
    omega
  · rw [h]
    exact Int.le_trans hfull (toInt32_le _)
  · rw [h]
    exact Int.natCast_nonneg _

theorem CodecKind.bounded (kind : CodecKind) : kind.codec.Bounded := by
  cases kind
  · exact LineCodec.bounded
  · exact LengthCodec.bounded
  · exact BracketCodec.bounded

/-! ## Slices -/

theorem LineCodec.decodeSafe {data : Bytes} (hsize : data.length < 2 ^ 31) :
    DecodeSafe codec data := by
  intro _
  refine ⟨bounded data, ?_⟩
  change (tryDecode data).2.Within (tryDecode data).1
  unfold tryDecode
  split
  · next h => rw [(isEot_iff data).mp h]; decide
  · rcases scan_spec data 0 data (Nat.zero_add _) with h | ⟨n, k, hk, _, hn, h⟩
    · rw [h]
      decide
    · rw [h, toInt32_of_lt (by omega)]
      exact ⟨Int.le_refl _, by simp only [Slice.ofLen]; omega, by simp only [Slice.ofLen]; omega⟩

theorem BracketCodec.decodeSafe {data : Bytes} (hsize : data.length < 2 ^ 31) :
    DecodeSafe codec data := by
  intro hpos
  refine ⟨bounded data, ?_⟩
  change 0 < (tryDecode data).1 at hpos
  change (tryDecode data).2.Within (tryDecode data).1
  unfold tryDecode at hpos ⊢
  split
  · next h => rw [(isEot_iff data).mp h]; decide
  · split
    · decide
    · split
      · decide
      · next hopen =>
          rcases scan_spec 0 data with h | ⟨n, _, hn, hget, h⟩
          · rw [h]
            decide
          · -- the byte at 0 is the opening bracket, so the loop stopped behind it
            have hn0 : n ≠ 0 := by
              rintro rfl
              rw [not_not] at hopen
              rw [Nat.sub_self, hopen] at hget
              exact absurd hget (by decide)
            rw [h, toInt32_of_lt (by omega)]
            exact ⟨by simp [Slice.ofLen], by simp only [Slice.ofLen]; omega,
              by simp only [Slice.ofLen]; omega⟩

theorem LengthCodec.decodeSafe_iff {data : Bytes} (hsize : data.length < 2 ^ 31) :
    DecodeSafe codec data ↔ ¬ NegativeLength data := by
  have hret : DecodeSafe codec data ↔
      (0 < (tryDecode data).1 → (tryDecode data).2.Within (tryDecode data).1) :=
    ⟨fun h hp => (h hp).2, fun h hp => ⟨bounded data, h hp⟩⟩
  rw [hret]
  rcases tryDecode_cases data with ⟨hlen, h⟩ | ⟨_, hbad, h⟩ | ⟨hlen, hmax, hmagic, _, h⟩ |
    ⟨hlen, hmax, hmagic, hpart, h⟩
  · rw [h]
    refine ⟨fun _ hneg => ?_, fun _ hpos => absurd hpos (by decide)⟩
    have := hneg.1
    omega
  · rw [h]
    refine ⟨fun _ hneg => ?_, fun _ hpos => absurd hpos (by decide)⟩
    rcases hbad with hbig | hmag
    · have := hneg.2.2.2
      omega
    · exact hmag hneg.2.1
  · rw [h]
    simp only [Slice.Within, Slice.ofLen]
    constructor
    · intro hsafe hneg
      have hin := hsafe (by have := hneg.2.2.1; omega)
      have := hneg.2.2.2
      omega
    · intro hneg hpos
      by_contra hout
      exact hneg ⟨hlen, hmagic, by omega, by omega⟩
  · rw [h]
    refine ⟨fun _ hneg => ?_, fun _ hpos => absurd hpos (by decide)⟩
    -- a header with a negative length is never short of bytes
    rw [toInt32_of_lt hsize] at hpart
    have := hneg.2.2.2
    omega

/-- One decoding attempt is safe exactly off the negative lengths. -/
theorem decodeSafe_iff (kind : CodecKind) {data : Bytes} (hsize : data.length < 2 ^ 31) :
    DecodeSafe kind.codec data ↔ ¬ Malformed kind data := by
  cases kind with
  | line =>
      exact ⟨fun _ h => absurd h.1 (by decide), fun _ => LineCodec.decodeSafe hsize⟩
  | length =>
      rw [Malformed, eq_self, true_and]
      exact LengthCodec.decodeSafe_iff hsize
  | bracket =>
      exact ⟨fun _ h => absurd h.1 (by decide), fun _ => BracketCodec.decodeSafe hsize⟩

/-! ## The loop -/

/-- The inputs the loop passes to the codec, the first included. -/
inductive Meets (codec : Codec UInt8) : Bytes → Bytes → Prop where
  | here (data : Bytes) : Meets codec data data
  | next {data d : Bytes} : 0 < (codec.tryDecode data).1 →
      Meets codec (data.drop (codec.tryDecode data).1.toNat) d → Meets codec data d

theorem Meets.length_le {codec : Codec UInt8} {data d : Bytes} (h : Meets codec data d) :
    d.length ≤ data.length := by
  induction h with
  | here => exact Nat.le_refl _
  | next _ _ ih => exact Nat.le_trans ih (by rw [List.length_drop]; omega)

theorem meets_of_stuck {codec : Codec UInt8} {data d : Bytes}
    (h : ¬ 0 < (codec.tryDecode data).1) (hm : Meets codec data d) : d = data := by
  cases hm with
  | here => rfl
  | next hpos _ => exact absurd hpos h

/-- The loop ends, each slice it hands over lies in the bytes its answer covers,
and every iteration leaves a strictly shorter input. -/
def LoopSafe (codec : Codec UInt8) (x : Buffer UInt8) : Prop :=
  let res := onMsgLoop codec (x.size + 1) x
  (res.stop = .waiting ∨ res.stop = .refused) ∧
    (∀ h ∈ res.handed, h.ret ≤ h.data.length ∧ h.msg.Within h.ret) ∧
    (res.handed.map (fun h => h.data.length) ++ [res.input.size]).Pairwise (· > ·)

section Loop

variable {codec : Codec UInt8}

theorem onMsgLoop_stops (hb : codec.Bounded) (fuel : Nat) (x : Buffer UInt8)
    (hfuel : x.size < fuel) :
    (onMsgLoop codec fuel x).stop = .waiting ∨ (onMsgLoop codec fuel x).stop = .refused := by
  refine onMsgLoop_induction (motive := fun _ res => res.stop = .waiting ∨ res.stop = .refused)
    hb ?_ ?_ ?_ fuel x hfuel
  · exact fun _ _ => Or.inr rfl
  · exact fun _ _ => Or.inl rfl
  · exact fun _ _ _ ih => ih

theorem onMsgLoop_shrinks (hb : codec.Bounded) (fuel : Nat) (x : Buffer UInt8)
    (hfuel : x.size < fuel) :
    let lengths := (onMsgLoop codec fuel x).handed.map (fun h => h.data.length) ++
      [(onMsgLoop codec fuel x).input.size]
    lengths.Pairwise (· > ·) ∧ ∀ n ∈ lengths, n ≤ x.size := by
  refine onMsgLoop_induction (motive := fun x res =>
    let lengths := res.handed.map (fun h => h.data.length) ++ [res.input.size]
    lengths.Pairwise (· > ·) ∧ ∀ n ∈ lengths, n ≤ x.size) hb ?_ ?_ ?_ fuel x hfuel
  · exact fun x _ => ⟨List.pairwise_singleton _ _, by simp⟩
  · exact fun x _ => ⟨List.pairwise_singleton _ _, by simp⟩
  · intro x rest hpos ⟨hdec, hmax⟩
    have hle := hb.le_size x
    have hshort : (x.consume (codec.tryDecode x.contents).1.toNat hle).size < x.size := by
      rw [← Buffer.contents_length, Buffer.contents_consume, List.length_drop,
        Buffer.contents_length]
      omega
    simp only [List.map_cons, List.cons_append, List.pairwise_cons, List.mem_cons,
      Buffer.contents_length]
    refine ⟨⟨fun n hn => Nat.lt_of_le_of_lt (hmax n hn) hshort, hdec⟩, ?_⟩
    rintro n (rfl | hn)
    · exact Nat.le_refl _
    · exact Nat.le_of_lt (Nat.lt_of_le_of_lt (hmax n hn) hshort)

/-- The slices of the whole loop are good exactly when every attempt it makes is. -/
theorem onMsgLoop_within_iff (hb : codec.Bounded) (fuel : Nat) (x : Buffer UInt8)
    (hfuel : x.size < fuel) :
    (∀ h ∈ (onMsgLoop codec fuel x).handed, h.ret ≤ h.data.length ∧ h.msg.Within h.ret) ↔
      ∀ d, Meets codec x.contents d → DecodeSafe codec d := by
  have stuck : ∀ x : Buffer UInt8, ¬ 0 < (codec.tryDecode x.contents).1 →
      ∀ d, Meets codec x.contents d → DecodeSafe codec d := by
    intro x h d hm
    rw [meets_of_stuck h hm]
    exact fun hpos => absurd hpos h
  refine onMsgLoop_induction (motive := fun x res =>
    (∀ h ∈ res.handed, h.ret ≤ h.data.length ∧ h.msg.Within h.ret) ↔
      ∀ d, Meets codec x.contents d → DecodeSafe codec d) hb ?_ ?_ ?_ fuel x hfuel
  · exact fun x h => ⟨fun _ => stuck x (by omega), fun _ _ hm => absurd hm List.not_mem_nil⟩
  · exact fun x h => ⟨fun _ => stuck x (by omega), fun _ _ hm => absurd hm List.not_mem_nil⟩
  · intro x rest hpos ih
    rw [Buffer.contents_consume] at ih
    simp only [List.mem_cons, forall_eq_or_imp, ih]
    constructor
    · rintro ⟨hhead, htail⟩ d (_ | ⟨_, hm⟩)
      · exact fun _ => hhead
      · exact htail d hm
    · intro hall
      exact ⟨hall _ (.here _) hpos, fun d hm => hall d (.next hpos hm)⟩

theorem loopSafe_iff (hb : codec.Bounded) (x : Buffer UInt8) :
    LoopSafe codec x ↔ ∀ d, Meets codec x.contents d → DecodeSafe codec d := by
  have hfuel := Nat.lt_succ_self x.size
  constructor
  · exact fun h => (onMsgLoop_within_iff hb _ x hfuel).mp h.2.1
  · exact fun h => ⟨onMsgLoop_stops hb _ x hfuel, (onMsgLoop_within_iff hb _ x hfuel).mpr h,
      (onMsgLoop_shrinks hb _ x hfuel).1⟩

end Loop

/-- Decoding untrusted bytes is safe, one attempt or the whole loop, exactly when
no attempt meets a complete length header with a negative length above `-8`. -/
theorem untrusted_decode_safe_iff (kind : CodecKind) (data : Bytes) (hsize : data.length < 2 ^ 31) :
    (DecodeSafe kind.codec data ↔ ¬ Malformed kind data) ∧
      ∀ x : Buffer UInt8, x.contents = data →
        (LoopSafe kind.codec x ↔ ∀ d, Meets kind.codec data d → ¬ Malformed kind d) := by
  refine ⟨decodeSafe_iff kind hsize, ?_⟩
  rintro x rfl
  rw [loopSafe_iff kind.bounded]
  exact forall_congr' fun d => imp_congr_right fun hm =>
    decodeSafe_iff kind (Nat.lt_of_le_of_lt hm.length_le hsize)

def minusOneHeader : Bytes := LengthCodec.magic ++ [0xff, 0xff, 0xff, 0xff]

theorem untrusted_decode_safe_iff_minusOne :
    minusOneHeader.length < 2 ^ 31 ∧
      (DecodeSafe CodecKind.length.codec minusOneHeader ↔ ¬ Malformed .length minusOneHeader) :=
  ⟨by decide, (untrusted_decode_safe_iff .length minusOneHeader (by decide)).1⟩

/-- On that header the length decoder answers `7` with a slice that ends before
it begins. -/
theorem minusOneHeader_unsafe :
    ¬ ∀ (kind : CodecKind) (data : Bytes), data.length < 2 ^ 31 → DecodeSafe kind.codec data := by
  intro h
  have hsafe := h .length minusOneHeader (by decide) (by decide)
  exact absurd hsafe.2 (by decide)

end Handy
