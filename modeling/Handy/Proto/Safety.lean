import Handy.Proto.Codec

/-! # What `decode` reads of untrusted bytes

The checks compare each of the two words with the size of the buffer, the name
length as `4 + namelen` and modulo `2 ^ 32`, and never with each other. So a
frame can be shorter than its name, which is then read from the bytes behind the
frame or behind the buffer, and the payload's length wraps around. It is also
converted to `int`, which makes one of `2 ^ 31` bytes or more negative.
-/

namespace Handy

namespace ProtoMsgCodec

/-- A range that does not end before it begins and has no byte outside the first
`n`. -/
structure InFrame (n : Nat) (r : Slice) : Prop where
  forward : r.pb ≤ r.pe
  inside : ∀ i, r.pb ≤ i → i < r.pe → 0 ≤ i ∧ i < n

/-- One call keeps to the frame: what it reads lies in the first `msglen` bytes,
which are there; it takes these or nothing. -/
structure KeepsToFrame {Msg Desc : Type} (pb : Protobuf Msg Desc) (buf : Buffer UInt8)
    (behind : Bytes) : Prop where
  reads : ∀ r ∈ (decode pb buf behind).reads, InFrame (msglen buf.contents) r
  whole : (decode pb buf behind).reads ≠ [] → msglen buf.contents ≤ buf.contents.length
  null : (decode pb buf behind).msg = none → (decode pb buf behind).buf = buf
  message : (decode pb buf behind).msg ≠ none → 8 ≤ msglen buf.contents ∧
    (decode pb buf behind).buf.contents = buf.contents.drop (msglen buf.contents)

/-- The type the frame names, read inside the frame. -/
def namedType {Msg Desc : Type} (pb : Protobuf Msg Desc) (s : Bytes) : Option Desc :=
  pb.create ((nameRange s).read s)

/-- The words of the frame fit together: the size checks refuse it, or the name
ends in the frame (or is empty) and so does the payload, with a length an `int`
can hold, if the name is that of a type. -/
def WellFramed {Msg Desc : Type} (pb : Protobuf Msg Desc) (s : Bytes) : Prop :=
  Refused s ∨ (8 + namelen s ≤ msglen s ∨ namelen s = 0) ∧
    (namedType pb s = none ∨ 8 + namelen s ≤ msglen s ∧ msglen s < 8 + namelen s + 2 ^ 31)

/-! ## The two ranges -/

theorem loadWord_lt (s : Bytes) : loadWord s < 2 ^ 32 := by
  unfold loadWord
  split
  · next a b c d _ =>
      have ha := a.toNat_lt
      have hb := b.toNat_lt
      have hc := c.toNat_lt
      have hd := d.toNat_lt
      omega
  · decide

theorem inFrame_nameRange_iff (s : Bytes) (n : Nat) :
    InFrame n (nameRange s) ↔ 8 + namelen s ≤ n ∨ namelen s = 0 := by
  simp only [nameRange, Slice.ofLen]
  constructor
  · intro h
    by_cases hzero : namelen s = 0
    · exact Or.inr hzero
    · have hlast := (h.inside (8 + namelen s - 1) (by simp only; omega) (by simp only; omega)).2
      exact Or.inl (by omega)
  · rintro (hfits | hzero)
    · refine ⟨by simp only; omega, fun i hlo hhi => ?_⟩
      simp only at hlo hhi
      exact ⟨by omega, by omega⟩
    · exact ⟨by simp only; omega, fun i hlo hhi => by simp only at hlo hhi; omega⟩

theorem payload_size {s : Bytes} (h : 8 + namelen s ≤ msglen s) :
    sub32 (sub32 (msglen s) 8) (namelen s) = msglen s - 8 - namelen s := by
  have hlt := loadWord_lt s
  unfold sub32
  unfold msglen at h ⊢
  omega

theorem payload_forward_iff {s : Bytes} (hname : 8 + namelen s ≤ msglen s ∨ namelen s = 0) :
    (payloadRange s).pb ≤ (payloadRange s).pe ↔
      8 + namelen s ≤ msglen s ∧ msglen s < 8 + namelen s + 2 ^ 31 := by
  have hlt : msglen s < 2 ^ 32 := loadWord_lt s
  have hsign : ∀ n, n < 2 ^ 32 → (0 ≤ toInt32 n ↔ n < 2 ^ 31) := by
    intro n hn
    unfold toInt32
    rw [Nat.mod_eq_of_lt hn]
    split <;> omega
  have hforward : (payloadRange s).pb ≤ (payloadRange s).pe ↔
      0 ≤ toInt32 (sub32 (sub32 (msglen s) 8) (namelen s)) := by
    simp only [payloadRange, Slice.ofLen]
    omega
  have hwrap : sub32 (sub32 (msglen s) 8) (namelen s) < 2 ^ 32 := Nat.mod_lt _ (by decide)
  rw [hforward, hsign _ hwrap]
  by_cases hfits : 8 + namelen s ≤ msglen s
  · rw [payload_size hfits]
    omega
  · -- a frame of less than eight bytes with an empty name: the length wraps around
    have hzero := hname.resolve_left hfits
    simp only [sub32, hzero]
    omega

theorem inFrame_payloadRange {s : Bytes} (h : 8 + namelen s ≤ msglen s)
    (hint : msglen s < 8 + namelen s + 2 ^ 31) : InFrame (msglen s) (payloadRange s) := by
  refine ⟨(payload_forward_iff (Or.inl h)).mpr ⟨h, hint⟩, fun i hlo hhi => ?_⟩
  have hsize : toInt32 (sub32 (sub32 (msglen s) 8) (namelen s)) = (msglen s - 8 - namelen s : Nat) := by
    rw [payload_size h, toInt32_of_lt (by omega)]
  simp only [payloadRange, Slice.ofLen, hsize] at hlo hhi
  omega

/-- A name that is inside the frame is not read from behind the buffer. -/
theorem read_nameRange {s : Bytes} (hlen : msglen s ≤ s.length)
    (h : 8 + namelen s ≤ msglen s ∨ namelen s = 0) (behind : Bytes) :
    (nameRange s).read (s ++ behind) = (nameRange s).read s := by
  have hsize : ((8 : Int) + namelen s - 8).toNat = namelen s := by omega
  simp only [nameRange, Slice.ofLen, Slice.read, hsize]
  rcases h with h | h
  · rw [show (8 : Int).toNat = 8 from rfl, List.drop_append_of_le_length (by omega),
      List.take_append_of_le_length (by rw [List.length_drop]; omega)]
  · rw [h, List.take_zero, List.take_zero]

/-! ## The call -/

section Call

variable {Msg Desc : Type} {pb : Protobuf Msg Desc} {buf : Buffer UInt8} {behind : Bytes}

theorem whole_of_not_refused {s : Bytes} (h : ¬ Refused s) : msglen s ≤ s.length :=
  Nat.le_of_not_lt fun hlt => h (Or.inr (Or.inl hlt))

/-- The name is read whenever the size checks pass, the payload when it names a
type. -/
theorem reads_decode (h : ¬ Refused buf.contents) :
    (decode pb buf behind).reads = nameRange buf.contents ::
      if pb.create ((nameRange buf.contents).read (buf.contents ++ behind)) = none then []
      else [payloadRange buf.contents] := by
  cases hname : pb.create ((nameRange buf.contents).read (buf.contents ++ behind)) with
  | none => rw [decode_unknown h hname, if_pos rfl]
  | some des =>
      rw [if_neg (Option.some_ne_none des)]
      cases hparse : parsed pb buf.contents behind des with
      | none => rw [decode_bad h hname hparse]
      | some msg => rw [decode_message h hname hparse]

/-- A call that returns nothing changes nothing; one that returns a message takes
`msglen` bytes. -/
theorem buf_decode : ((decode pb buf behind).msg = none → (decode pb buf behind).buf = buf) ∧
    ((decode pb buf behind).msg ≠ none →
      (decode pb buf behind).buf.contents = buf.contents.drop (msglen buf.contents)) := by
  by_cases h : Refused buf.contents
  · rw [decode_refused h]
    exact ⟨fun _ => rfl, fun hne => absurd rfl hne⟩
  · cases hname : pb.create ((nameRange buf.contents).read (buf.contents ++ behind)) with
    | none =>
        rw [decode_unknown h hname]
        exact ⟨fun _ => rfl, fun hne => absurd rfl hne⟩
    | some des =>
        cases hparse : parsed pb buf.contents behind des with
        | none =>
            rw [decode_bad h hname hparse]
            exact ⟨fun _ => rfl, fun hne => absurd rfl hne⟩
        | some msg =>
            rw [decode_message h hname hparse]
            exact ⟨fun hnone => absurd hnone (Option.some_ne_none msg),
              fun _ => Buffer.contents_consume _ _ (msglen_le h)⟩

theorem wellFramed_of_keepsToFrame (h : KeepsToFrame pb buf behind) : WellFramed pb buf.contents := by
  by_cases hr : Refused buf.contents
  · exact Or.inl hr
  · have hreads := h.reads
    rw [reads_decode hr] at hreads
    have hname := (inFrame_nameRange_iff _ _).mp (hreads _ List.mem_cons_self)
    refine Or.inr ⟨hname, ?_⟩
    by_cases hnone : namedType pb buf.contents = none
    · exact Or.inl hnone
    · unfold namedType at hnone
      rw [← read_nameRange (whole_of_not_refused hr) hname behind] at hnone
      rw [if_neg hnone] at hreads
      have hpayload := hreads (payloadRange buf.contents) (by simp)
      exact Or.inr ((payload_forward_iff hname).mp hpayload.forward)

theorem keepsToFrame_of_refused (h : Refused buf.contents) : KeepsToFrame pb buf behind := by
  have hnone : (decode pb buf behind).msg = none := by rw [decode_refused h]
  have hreads : (decode pb buf behind).reads = [] := by rw [decode_refused h]
  refine ⟨?_, fun hne => absurd hreads hne, buf_decode.1, fun hne => absurd hnone hne⟩
  rw [hreads]
  exact fun r hmem => absurd hmem List.not_mem_nil

theorem keepsToFrame_of_wellFramed (h : WellFramed pb buf.contents) : KeepsToFrame pb buf behind := by
  by_cases hr : Refused buf.contents
  · exact keepsToFrame_of_refused hr
  · obtain ⟨hname, htype⟩ := h.resolve_left hr
    have hwhole := whole_of_not_refused hr
    have hread := read_nameRange hwhole hname behind
    have hrange : InFrame (msglen buf.contents) (nameRange buf.contents) :=
      (inFrame_nameRange_iff _ _).mpr hname
    refine ⟨?_, fun _ => hwhole, buf_decode.1, fun hmsg => ⟨?_, buf_decode.2 hmsg⟩⟩
    · rw [reads_decode hr, hread]
      intro r hmem
      rcases List.mem_cons.mp hmem with rfl | hmem
      · exact hrange
      · split at hmem
        · exact absurd hmem List.not_mem_nil
        · next htyped =>
            obtain ⟨hfits, hint⟩ := htype.resolve_left htyped
            rw [List.mem_singleton.mp hmem]
            exact inFrame_payloadRange hfits hint
    · rcases htype with hnone | ⟨hfits, -⟩
      · rw [namedType, ← hread] at hnone
        rw [decode_unknown hr hnone] at hmsg
        exact absurd rfl hmsg
      · omega

end Call

/-- Whatever the library and the bytes, a call of `decode` keeps to the frame exactly
when the two words fit together. -/
theorem keeps_to_frame_iff {Msg Desc : Type} (pb : Protobuf Msg Desc) (buf : Buffer UInt8)
    (behind : Bytes) : KeepsToFrame pb buf behind ↔ WellFramed pb buf.contents :=
  ⟨wellFramed_of_keepsToFrame, keepsToFrame_of_wellFramed⟩

def noTypes : Protobuf Unit Unit where
  descriptor _ := ()
  fullName _ := []
  findMessageTypeByName _ := none
  getPrototype _ := false
  serialize _ := []
  parseFromArray _ _ _ := none

/-- A whole frame of eight bytes that announces a name of four: the name is what
stands behind the buffer. -/
theorem name_behind_buffer : ¬ ∀ (pb : Protobuf Unit Unit) (buf : Buffer UInt8) (behind : Bytes),
    KeepsToFrame pb buf behind := by
  intro h
  have hread := (h noTypes (Buffer.new.append [8, 0, 0, 0, 4, 0, 0, 0]) []).reads ⟨8, 12⟩ (by decide)
  exact absurd (hread.inside 8 (by decide) (by decide)).2 (by decide)

end ProtoMsgCodec

end Handy
