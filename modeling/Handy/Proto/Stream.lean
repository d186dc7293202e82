import Handy.Proto.Safety
import Handy.Lib.Framing

/-! # Protobuf frames one after the other

`encode` appends a frame that begins with its own length, so `msgComplete` waits
for exactly the frame's bytes and `decode` takes exactly these. With what the
library promises about its own round trip the reader's loop is the loop of the
framing library on a lawful framing.
-/

namespace Handy

namespace ProtoMsgCodec

variable {Msg Desc : Type}

def encodeEach (pb : Protobuf Msg Desc) (msgs : List Msg) (buf : Buffer UInt8) : Buffer UInt8 :=
  msgs.foldl (fun buf msg => encode pb msg buf) buf

/-- `decode` while `msgComplete` holds, ended by a null pointer: the messages, the
buffer left, and whether it was a null pointer. The fuel bounds the iterations. -/
def decodeEach (pb : Protobuf Msg Desc) (behind : Bytes) :
    Nat → Buffer UInt8 → List Msg × Buffer UInt8 × Bool
  | 0, buf => ([], buf, false)
  | fuel + 1, buf =>
      if msgComplete buf then
        let d := decode pb buf behind
        match d.msg with
        | none => ([], d.buf, true)
        | some msg =>
            let rest := decodeEach pb behind fuel d.buf
            (msg :: rest.1, rest.2)
      else ([], buf, false)

/-- The type of the message can be found by its name and made. -/
def Registered (pb : Protobuf Msg Desc) (msg : Msg) : Prop :=
  pb.create (pb.fullName (pb.descriptor msg)) = some (pb.descriptor msg)

/-- What `SerializeToArray` wrote `ParseFromArray` reads. -/
def ParsesBack (pb : Protobuf Msg Desc) : Prop := ∀ msg, Registered pb msg →
  pb.parseFromArray (pb.descriptor msg) (pb.serialize msg) (pb.serialize msg).length = some msg

/-- A frame whose length, and whatever is in it, an `int` can hold. -/
def Sized (pb : Protobuf Msg Desc) (msg : Msg) : Prop := (frame pb msg).length < 2 ^ 31

/-! ## One frame -/

section Frame

variable {pb : Protobuf Msg Desc} {msg : Msg} {t : Bytes}

theorem loadWord_frame (h : (frame pb msg).length < 2 ^ 32) (t : Bytes) :
    msglen (frame pb msg ++ t) = (frame pb msg).length := by
  rw [length_frame] at h
  have hmod := Nat.mod_eq_of_lt h
  rw [msglen, length_frame]
  unfold frame
  simp only [List.append_assoc]
  rw [loadWord_wordBytes_append _ (by omega), hmod]

theorem namelen_frame (h : (frame pb msg).length < 2 ^ 32) (t : Bytes) :
    namelen (frame pb msg ++ t) = (pb.fullName (pb.descriptor msg)).length := by
  rw [length_frame] at h
  have hdrop : (frame pb msg ++ t).drop 4 =
      wordBytes ((pb.fullName (pb.descriptor msg)).length % 2 ^ 32) ++
        (pb.fullName (pb.descriptor msg) ++ (pb.serialize msg ++ t)) := by
    unfold frame
    simp only [List.append_assoc]
    exact List.drop_left' rfl
  rw [namelen, hdrop, loadWord_wordBytes_append _ (by omega), Nat.mod_eq_of_lt (by omega)]

/-- The first byte of the name. -/
theorem drop_eight_frame (t : Bytes) : (frame pb msg ++ t).drop 8 =
    pb.fullName (pb.descriptor msg) ++ (pb.serialize msg ++ t) := by
  unfold frame
  simp only [List.append_assoc]
  rw [← List.append_assoc (wordBytes _)]
  exact List.drop_left' rfl

theorem msgComplete_iff (buf : Buffer UInt8) :
    msgComplete buf = true ↔ 4 ≤ buf.contents.length ∧ msglen buf.contents ≤ buf.contents.length := by
  simp only [msgComplete, Bool.and_eq_true, decide_eq_true_eq, Buffer.contents_length, msglen]

/-- Part of a frame is not complete. -/
theorem msgComplete_short (h : (frame pb msg).length < 2 ^ 32) {buf : Buffer UInt8}
    (hpart : buf.contents <+: frame pb msg) (hlt : buf.contents.length < (frame pb msg).length) :
    msgComplete buf = false := by
  rw [Bool.eq_false_iff, ne_eq, msgComplete_iff]
  rintro ⟨hfour, hlen⟩
  obtain ⟨t, ht⟩ := hpart
  have hword : msglen buf.contents = (frame pb msg).length := by
    have hfull := loadWord_frame h []
    rw [List.append_nil, ← ht] at hfull
    rw [← ht, ← hfull]
    exact (loadWord_append hfour t).symm
  omega

/-! ## The frame in front -/

theorem not_refused_frame (h : Sized pb msg) (t : Bytes) : ¬ Refused (frame pb msg ++ t) := by
  have hlen := length_frame pb msg
  have hlt : (frame pb msg).length < 2 ^ 32 := Nat.lt_trans h (by decide)
  rintro (hshort | hshort | hshort)
  · rw [List.length_append] at hshort
    omega
  · rw [loadWord_frame hlt, List.length_append] at hshort
    omega
  · rw [namelen_frame hlt, List.length_append, add32, Nat.mod_eq_of_lt (by omega)] at hshort
    omega

theorem read_name_frame (h : Sized pb msg) (t : Bytes) :
    (nameRange (frame pb msg ++ t)).read (frame pb msg ++ t) = pb.fullName (pb.descriptor msg) := by
  have hlt : (frame pb msg).length < 2 ^ 32 := Nat.lt_trans h (by decide)
  have hread := Slice.read_ofLen 8 (pb.fullName (pb.descriptor msg)).length (frame pb msg ++ t)
  rw [drop_eight_frame, List.take_left] at hread
  rw [nameRange, namelen_frame hlt]
  exact hread

theorem read_payload_frame (h : Sized pb msg) (t : Bytes) :
    toInt32 (sub32 (sub32 (msglen (frame pb msg ++ t)) 8) (namelen (frame pb msg ++ t))) =
        (pb.serialize msg).length ∧
      (payloadRange (frame pb msg ++ t)).read (frame pb msg ++ t) = pb.serialize msg := by
  have hlen := length_frame pb msg
  have hlt : (frame pb msg).length < 2 ^ 32 := Nat.lt_trans h (by decide)
  have hword := loadWord_frame hlt t
  have hname := namelen_frame hlt t
  have hsize : toInt32 (sub32 (sub32 (msglen (frame pb msg ++ t)) 8)
      (namelen (frame pb msg ++ t))) = (pb.serialize msg).length := by
    rw [payload_size (by omega), hword, hname, toInt32_of_lt (by unfold Sized at h; omega)]
    omega
  refine ⟨hsize, ?_⟩
  have hstart : (8 : Int) + (pb.fullName (pb.descriptor msg)).length =
      (8 + (pb.fullName (pb.descriptor msg)).length : Nat) := by omega
  rw [payloadRange, hsize, hname, hstart, Slice.read_ofLen, ← List.drop_drop, drop_eight_frame,
    List.drop_left, List.take_left]

end Frame

/-! ## The loop -/

/-- What `decode` makes of these bytes, apart from what it does to the buffer. -/
def decodeMsg (pb : Protobuf Msg Desc) (s behind : Bytes) : Option Msg :=
  if Refused s then none
  else (pb.create ((nameRange s).read (s ++ behind))).bind (parsed pb s behind)

theorem msg_decode (pb : Protobuf Msg Desc) (buf : Buffer UInt8) (behind : Bytes) :
    (decode pb buf behind).msg = decodeMsg pb buf.contents behind := by
  unfold decodeMsg
  by_cases h : Refused buf.contents
  · rw [decode_refused h, if_pos h]
  · rw [if_neg h]
    cases hname : pb.create ((nameRange buf.contents).read (buf.contents ++ behind)) with
    | none => rw [decode_unknown h hname, Option.bind_none]
    | some des =>
        rw [Option.bind_some]
        cases hparse : parsed pb buf.contents behind des with
        | none => rw [decode_bad h hname hparse]
        | some msg => rw [decode_message h hname hparse]

/-- One round of the reader's loop, as a decoding attempt. -/
def verdict (pb : Protobuf Msg Desc) (behind s : Bytes) : Framing.Verdict Msg :=
  if 4 ≤ s.length ∧ msglen s ≤ s.length then
    match decodeMsg pb s behind with
    | none => .bad
    | some msg => .frame msg (msglen s)
  else .more

/-- The reader's loop is the loop of the library. -/
theorem decodeEach_eq_drain (pb : Protobuf Msg Desc) (behind : Bytes) (fuel : Nat)
    (buf : Buffer UInt8) :
    (decodeEach pb behind fuel buf).1 = (Framing.drain (verdict pb behind) fuel buf.contents).msgs ∧
      (decodeEach pb behind fuel buf).2.1.contents =
        (Framing.drain (verdict pb behind) fuel buf.contents).rest ∧
      (decodeEach pb behind fuel buf).2.2 =
        (Framing.drain (verdict pb behind) fuel buf.contents).bad := by
  induction fuel generalizing buf with
  | zero => exact ⟨rfl, rfl, rfl⟩
  | succ fuel ih =>
      have hmsg := msg_decode pb buf behind
      by_cases hwhole : 4 ≤ buf.contents.length ∧ msglen buf.contents ≤ buf.contents.length
      · have hcomplete := (msgComplete_iff buf).mpr hwhole
        cases hdecode : decodeMsg pb buf.contents behind with
        | none =>
            rw [hdecode] at hmsg
            have hbuf := buf_decode.1 hmsg
            simp only [decodeEach, Framing.drain, verdict, hcomplete, hwhole, hmsg, hdecode, hbuf,
              and_self, if_true]
        | some msg =>
            rw [hdecode] at hmsg
            have hrest := buf_decode.2 (by rw [hmsg]; exact Option.some_ne_none msg)
            have hlater := ih (decode pb buf behind).buf
            rw [hrest] at hlater
            simp only [decodeEach, Framing.drain, verdict, hcomplete, hwhole, hmsg, hdecode,
              and_self, if_true]
            exact ⟨congrArg (msg :: ·) hlater.1, hlater.2⟩
      · have hcomplete : msgComplete buf = false :=
          Bool.eq_false_iff.mpr fun h => hwhole ((msgComplete_iff buf).mp h)
        simp only [decodeEach, Framing.drain, verdict, hcomplete, hwhole, Bool.false_eq_true, if_false,
          and_self]

theorem verdict_frame {pb : Protobuf Msg Desc} (hback : ParsesBack pb) (behind : Bytes) {msg : Msg}
    (hok : Registered pb msg ∧ Sized pb msg) (t : Bytes) :
    verdict pb behind (frame pb msg ++ t) = .frame msg (frame pb msg).length := by
  obtain ⟨hreg, hsize⟩ := hok
  have hlt : (frame pb msg).length < 2 ^ 32 := Nat.lt_trans hsize (by decide)
  have hword := loadWord_frame hlt t
  have hlen := length_frame pb msg
  have hassoc : frame pb msg ++ t ++ behind = frame pb msg ++ (t ++ behind) := List.append_assoc _ _ _
  have hname : (nameRange (frame pb msg ++ t)).read (frame pb msg ++ t ++ behind) =
      pb.fullName (pb.descriptor msg) := by
    have hsame : nameRange (frame pb msg ++ t) = nameRange (frame pb msg ++ (t ++ behind)) := by
      rw [nameRange, nameRange, namelen_frame hlt, namelen_frame hlt]
    rw [hsame, hassoc, read_name_frame hsize]
  have hparsed : parsed pb (frame pb msg ++ t) behind (pb.descriptor msg) = some msg := by
    have hsame : payloadRange (frame pb msg ++ t) = payloadRange (frame pb msg ++ (t ++ behind)) := by
      rw [payloadRange, payloadRange, namelen_frame hlt, namelen_frame hlt, hword, loadWord_frame hlt]
    rw [parsed, (read_payload_frame hsize t).1, hsame, hassoc, (read_payload_frame hsize _).2]
    exact hback msg hreg
  have hdecode : decodeMsg pb (frame pb msg ++ t) behind = some msg := by
    unfold Registered at hreg
    rw [decodeMsg, if_neg (not_refused_frame hsize t), hname, hreg, Option.bind_some, hparsed]
  have hwhole : 4 ≤ (frame pb msg ++ t).length ∧
      msglen (frame pb msg ++ t) ≤ (frame pb msg ++ t).length := by
    rw [hword, List.length_append]
    omega
  rw [verdict, if_pos hwhole, hdecode, hword]

theorem verdict_short {pb : Protobuf Msg Desc} (behind : Bytes) {msg : Msg} (hsize : Sized pb msg)
    {p : Bytes} (hp : p <+: frame pb msg) (hlt : p.length < (frame pb msg).length) :
    verdict pb behind p = .more := by
  have hcontents : (Buffer.new.append p).contents = p := by
    rw [Buffer.contents_append, Buffer.contents_new, List.nil_append]
  have hword : msgComplete (Buffer.new.append p) = false :=
    msgComplete_short (Nat.lt_trans hsize (by decide)) (by rwa [hcontents]) (by rwa [hcontents])
  rw [Bool.eq_false_iff, ne_eq, msgComplete_iff, hcontents] at hword
  rw [verdict, if_neg hword]

theorem frames_lawful {pb : Protobuf Msg Desc} (hback : ParsesBack pb) (behind : Bytes) :
    Framing.Lawful (frame pb) (verdict pb behind) (fun msg => Registered pb msg ∧ Sized pb msg)
      fun _ => True where
  nonempty msg _ h := by
    have hlen := length_frame pb msg
    rw [h, List.length_nil] at hlen
    omega
  whole _ t hok _ := verdict_frame hback behind hok t
  short _ _ hok hp hlt := verdict_short behind hok.2 hp hlt
  drop _ _ _ := trivial

theorem contents_encodeEach (pb : Protobuf Msg Desc) (msgs : List Msg) (buf : Buffer UInt8) :
    (encodeEach pb msgs buf).contents = buf.contents ++ msgs.flatMap (frame pb) := by
  induction msgs generalizing buf with
  | nil => simp [encodeEach]
  | cons msg msgs ih =>
      rw [encodeEach, List.foldl_cons, ← encodeEach, ih, contents_encode, List.flatMap_cons,
        List.append_assoc]

/-- Encoding appends frames and touches nothing before them; frames of messages whose
types are known come back as these messages, all of them and in order, and leave the
buffer empty; and part of a frame is waited for. -/
theorem frames_round_trip (pb : Protobuf Msg Desc) (hback : ParsesBack pb) :
    (∀ msgs buf, (encodeEach pb msgs buf).contents = buf.contents ++ msgs.flatMap (frame pb)) ∧
      (∀ msgs, (∀ msg ∈ msgs, Registered pb msg ∧ Sized pb msg) →
        ∀ buf : Buffer UInt8, buf.contents = [] → ∀ behind fuel, msgs.length < fuel →
          ∃ rest, decodeEach pb behind fuel (encodeEach pb msgs buf) = (msgs, rest, false) ∧
            rest.contents = [] ∧ msgComplete rest = false) ∧
      (∀ msg, (frame pb msg).length < 2 ^ 32 → ∀ buf : Buffer UInt8, buf.contents <+: frame pb msg →
        buf.contents ≠ frame pb msg → msgComplete buf = false) := by
  refine ⟨contents_encodeEach pb, ?_, ?_⟩
  · intro msgs hmsgs buf hempty behind fuel hfuel
    have hcontents := contents_encodeEach pb msgs buf
    rw [hempty, List.nil_append] at hcontents
    have hlater : ∀ msg ∈ ([] : List Msg), Registered pb msg ∧ Sized pb msg :=
      fun _ hmem => absurd hmem List.not_mem_nil
    have hnone : Framing.Partial (frame pb) [] [] := Or.inl rfl
    have hdrain := Framing.drain_frames (frames_lawful hback behind).upTo rfl hmsgs hlater hnone
      trivial fuel hfuel trivial
    rw [List.append_nil] at hdrain
    obtain ⟨hout, hrest, hbad⟩ := decodeEach_eq_drain pb behind fuel (encodeEach pb msgs buf)
    rw [hcontents, hdrain] at hout hrest hbad
    refine ⟨(decodeEach pb behind fuel (encodeEach pb msgs buf)).2.1, ?_, hrest, ?_⟩
    · exact Prod.ext hout (Prod.ext rfl hbad)
    · rw [Bool.eq_false_iff, ne_eq, msgComplete_iff, hrest]
      rintro ⟨hfour, -⟩
      simp at hfour
  · intro msg hlt buf hpart hne
    have hle := hpart.length_le
    have hlen : buf.contents.length ≠ (frame pb msg).length := fun h => hne (hpart.eq_of_length h)
    exact msgComplete_short hlt hpart (by omega)

/-- `handy.Query` with an empty name and an id below 128, as the library writes and
reads it. -/
def queryLib : Protobuf (Fin 128) Unit where
  descriptor _ := ()
  fullName _ := [0x68, 0x61, 0x6e, 0x64, 0x79, 0x2e, 0x51, 0x75, 0x65, 0x72, 0x79]
  findMessageTypeByName name :=
    if name = [0x68, 0x61, 0x6e, 0x64, 0x79, 0x2e, 0x51, 0x75, 0x65, 0x72, 0x79] then some () else none
  getPrototype _ := true
  serialize id := [0x0a, 0x00, 0x10, UInt8.ofNat id.val]
  parseFromArray _ bytes _ :=
    match bytes with
    | [0x0a, 0x00, 0x10, v] => if h : v.toNat < 128 then some ⟨v.toNat, h⟩ else none
    | _ => none

theorem queryLib_parsesBack : ParsesBack queryLib := by
  have hall : ∀ id : Fin 128, queryLib.parseFromArray () (queryLib.serialize id) 4 = some id := by
    decide
  exact fun id _ => hall id

theorem queryLib_fits (id : Fin 128) : Registered queryLib id ∧ Sized queryLib id := by
  have hlen : (frame queryLib id).length = 8 + 11 + 4 := length_frame queryLib id
  refine ⟨rfl, ?_⟩
  rw [Sized, hlen]
  decide

theorem frames_round_trip_queries :
    ∃ rest, decodeEach queryLib [] 3 (encodeEach queryLib [5, 7] .new) = ([5, 7], rest, false) ∧
      rest.contents = [] ∧ msgComplete rest = false :=
  (frames_round_trip queryLib queryLib_parsesBack).2.1 [5, 7] (fun id _ => queryLib_fits id) .new rfl
    [] 3 (by decide)

end ProtoMsgCodec

end Handy
