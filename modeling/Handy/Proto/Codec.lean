import Handy.Codec.Model

/-! # Protobuf frames

`ProtoMsgCodec`: a total length, a name length, the name of the message's type
and its serialised bytes. The length word is written last, through an offset
that is good whatever the appends before it did to the block. The protobuf
library is a parameter; of its own the decoder only does the arithmetic on the
two words, in `uint32_t`.
-/

namespace Handy

/-- What the codec calls of the protobuf library. -/
structure Protobuf (Msg Desc : Type) where
  descriptor : Msg → Desc
  fullName : Desc → Bytes
  findMessageTypeByName : Bytes → Option Desc
  /-- whether `GetPrototype` has one -/
  getPrototype : Desc → Bool
  /-- the `ByteSize()` bytes `SerializeToArray` writes -/
  serialize : Msg → Bytes
  /-- `New()` and `ParseFromArray`, with the bytes of the range and the `int` -/
  parseFromArray : Desc → Bytes → Int → Option Msg

/-- The type `decode` makes a message of. -/
def Protobuf.create {Msg Desc : Type} (pb : Protobuf Msg Desc) (name : Bytes) : Option Desc :=
  (pb.findMessageTypeByName name).filter pb.getPrototype

/-- A store through `begin() + offset`. -/
def Buffer.storeAt {α : Type} (x : Buffer α) (offset : Nat) (p : List α)
    (_ : offset + p.length ≤ x.size) : Buffer α :=
  { x with
    buf := x.buf.take (x.b + offset) ++ p ++ x.buf.drop (x.b + offset + p.length)
    e_le_cap := by
      have he := x.e_le_cap
      simp only [List.length_append, List.length_take, List.length_drop]
      omega }

@[simp] theorem Buffer.contents_storeAt {α : Type} (x : Buffer α) (offset : Nat) (p : List α)
    (h : offset + p.length ≤ x.size) : (x.storeAt offset p h).contents =
      x.contents.take offset ++ p ++ x.contents.drop (offset + p.length) := by
  have hb := x.b_le_e
  have he := x.e_le_cap
  have hcap : x.b + offset ≤ x.buf.length := by
    simp only [size] at h
    omega
  have hstart : (x.buf.take (x.b + offset)).drop x.b = x.contents.take offset := by
    rw [List.drop_take, Nat.add_sub_cancel_left, contents, List.take_take, Nat.min_eq_left (by omega)]
  have hlen : (x.contents.take offset ++ p).length = offset + p.length := by
    rw [List.length_append, List.length_take, contents_length]
    omega
  have hrest : x.buf.drop (x.b + offset + p.length) = (x.buf.drop x.b).drop (offset + p.length) := by
    rw [List.drop_drop, Nat.add_assoc]
  have hfit : x.b ≤ (x.buf.take (x.b + offset)).length := by
    rw [List.length_take]
    omega
  change ((x.buf.take (x.b + offset) ++ p ++ x.buf.drop (x.b + offset + p.length)).drop x.b).take
    x.size = _
  rw [List.append_assoc, List.drop_append_of_le_length hfit, hstart, ← List.append_assoc, hrest,
    List.take_append, hlen, List.take_of_length_le (by omega), contents, List.drop_take]

namespace ProtoMsgCodec

variable {Msg Desc : Type}

/-- A sum and a difference of `uint32_t`. -/
def add32 (m n : Nat) : Nat := (m + n) % 2 ^ 32

def sub32 (m n : Nat) : Nat := (2 ^ 32 + m - n) % 2 ^ 32

/-- The appends of `encode`: a frame whose length word is still 0. -/
def appendParts (pb : Protobuf Msg Desc) (msg : Msg) (buf : Buffer UInt8) : Buffer UInt8 :=
  let typeName := pb.fullName (pb.descriptor msg)
  let buf := buf.append (wordBytes 0)
  let buf := buf.append (wordBytes (typeName.length % 2 ^ 32))
  let buf := buf.append typeName
  -- `SerializeToArray` into `allocRoom(ByteSize())`
  buf.append (pb.serialize msg)

theorem contents_appendParts (pb : Protobuf Msg Desc) (msg : Msg) (buf : Buffer UInt8) :
    (appendParts pb msg buf).contents = buf.contents ++
      (wordBytes 0 ++ (wordBytes ((pb.fullName (pb.descriptor msg)).length % 2 ^ 32) ++
        (pb.fullName (pb.descriptor msg) ++ pb.serialize msg))) := by
  simp only [appendParts, Buffer.contents_append, List.append_assoc]

theorem length_wordBytes (v : Nat) : (wordBytes v).length = 4 := rfl

theorem size_appendParts (pb : Protobuf Msg Desc) (msg : Msg) (buf : Buffer UInt8) :
    (appendParts pb msg buf).size = buf.size +
      (8 + (pb.fullName (pb.descriptor msg)).length + (pb.serialize msg).length) := by
  rw [← Buffer.contents_length, contents_appendParts]
  simp only [List.length_append, length_wordBytes, Buffer.contents_length]
  omega

/-- `ProtoMsgCodec::encode`. -/
def encode (pb : Protobuf Msg Desc) (msg : Msg) (buf : Buffer UInt8) : Buffer UInt8 :=
  let offset := buf.size
  let x := appendParts pb msg buf
  x.storeAt offset (wordBytes ((x.size - offset) % 2 ^ 32)) (by
    have hsize : x.size = _ := size_appendParts pb msg buf
    have hword := length_wordBytes ((x.size - offset) % 2 ^ 32)
    omega)

/-- `msglen` and `namelen`. -/
def msglen (s : Bytes) : Nat := loadWord s

def namelen (s : Bytes) : Nat := loadWord (s.drop 4)

/-- The type name, as offsets from `begin()`. -/
def nameRange (s : Bytes) : Slice := .ofLen 8 (namelen s)

/-- What is passed to `ParseFromArray`. -/
def payloadRange (s : Bytes) : Slice :=
  .ofLen (8 + namelen s) (toInt32 (sub32 (sub32 (msglen s) 8) (namelen s)))

/-- The size checks of `decode`. -/
def Refused (s : Bytes) : Prop :=
  s.length < 8 ∨ s.length < msglen s ∨ s.length < add32 4 (namelen s)

instance (s : Bytes) : Decidable (Refused s) := inferInstanceAs (Decidable (_ ∨ _ ∨ _))

/-- What a call of `decode` returns and leaves, and as bookkeeping the ranges it
read behind the two words. -/
structure Decoded (Msg : Type) where
  msg : Option Msg
  buf : Buffer UInt8
  reads : List Slice

/-- `ProtoMsgCodec::decode`; `behind` is what the memory behind the buffer holds. -/
def decode (pb : Protobuf Msg Desc) (buf : Buffer UInt8) (behind : Bytes) : Decoded Msg :=
  let s := buf.contents
  if hr : Refused s then ⟨none, buf, []⟩
  else
    let memory := s ++ behind
    match pb.create ((nameRange s).read memory) with
    | none => ⟨none, buf, [nameRange s]⟩
    | some des =>
        let size := toInt32 (sub32 (sub32 (msglen s) 8) (namelen s))
        match pb.parseFromArray des ((payloadRange s).read memory) size with
        | none => ⟨none, buf, [nameRange s, payloadRange s]⟩
        | some msg =>
            ⟨some msg, buf.consume (msglen s) (by
              have hlen : s.length = buf.size := Buffer.contents_length buf
              have hle : ¬ s.length < msglen s := fun h => hr (Or.inr (Or.inl h))
              omega), [nameRange s, payloadRange s]⟩

/-- `ProtoMsgCodec::msgComplete`. -/
def msgComplete (buf : Buffer UInt8) : Bool :=
  decide (4 ≤ buf.size) && decide (loadWord buf.contents ≤ buf.size)

/-! ## Frames -/

/-- What `encode` appends. -/
def frame (pb : Protobuf Msg Desc) (msg : Msg) : Bytes :=
  let name := pb.fullName (pb.descriptor msg)
  let bytes := pb.serialize msg
  wordBytes ((8 + name.length + bytes.length) % 2 ^ 32) ++ wordBytes (name.length % 2 ^ 32) ++ name ++
    bytes

theorem length_frame (pb : Protobuf Msg Desc) (msg : Msg) : (frame pb msg).length =
    8 + (pb.fullName (pb.descriptor msg)).length + (pb.serialize msg).length := by
  simp only [frame, length_wordBytes, List.length_append]

/-- The length word lands on the four bytes that were appended for it. -/
theorem contents_encode (pb : Protobuf Msg Desc) (msg : Msg) (buf : Buffer UInt8) :
    (encode pb msg buf).contents = buf.contents ++ frame pb msg := by
  have hlen : (appendParts pb msg buf).size - buf.size =
      8 + (pb.fullName (pb.descriptor msg)).length + (pb.serialize msg).length := by
    rw [size_appendParts, Nat.add_sub_cancel_left]
  have hrest : ∀ t : Bytes, (buf.contents ++ (wordBytes 0 ++ t)).drop (buf.size + 4) = t := by
    intro t
    rw [← Buffer.contents_length, ← List.drop_drop, List.drop_left]
    exact List.drop_left' rfl
  unfold encode
  simp only [Buffer.contents_storeAt, contents_appendParts, hlen, length_wordBytes, hrest]
  rw [← Buffer.contents_length buf, List.take_left]
  simp only [frame, List.append_assoc]

/-! ## One call of `decode` -/

section Decode

variable {pb : Protobuf Msg Desc} {buf : Buffer UInt8} {behind : Bytes}

theorem decode_refused (h : Refused buf.contents) : decode pb buf behind = ⟨none, buf, []⟩ :=
  dif_pos h

theorem decode_unknown (h : ¬ Refused buf.contents)
    (hname : pb.create ((nameRange buf.contents).read (buf.contents ++ behind)) = none) :
    decode pb buf behind = ⟨none, buf, [nameRange buf.contents]⟩ := by
  unfold decode
  rw [dif_neg h]
  simp only [hname]

/-- What the library is handed for the payload, and what it says. -/
def parsed (pb : Protobuf Msg Desc) (s behind : Bytes) (des : Desc) : Option Msg :=
  pb.parseFromArray des ((payloadRange s).read (s ++ behind))
    (toInt32 (sub32 (sub32 (msglen s) 8) (namelen s)))

theorem decode_bad {des : Desc} (h : ¬ Refused buf.contents)
    (hname : pb.create ((nameRange buf.contents).read (buf.contents ++ behind)) = some des)
    (hparse : parsed pb buf.contents behind des = none) :
    decode pb buf behind =
      ⟨none, buf, [nameRange buf.contents, payloadRange buf.contents]⟩ := by
  unfold parsed at hparse
  unfold decode
  rw [dif_neg h]
  simp only [hname, hparse]

theorem msglen_le (h : ¬ Refused buf.contents) : msglen buf.contents ≤ buf.size := by
  have hle : ¬ buf.contents.length < msglen buf.contents := fun hlt => h (Or.inr (Or.inl hlt))
  rw [Buffer.contents_length] at hle
  omega

theorem decode_message {des : Desc} {msg : Msg} (h : ¬ Refused buf.contents)
    (hname : pb.create ((nameRange buf.contents).read (buf.contents ++ behind)) = some des)
    (hparse : parsed pb buf.contents behind des = some msg) :
    decode pb buf behind = ⟨some msg, buf.consume (msglen buf.contents) (msglen_le h),
      [nameRange buf.contents, payloadRange buf.contents]⟩ := by
  unfold parsed at hparse
  unfold decode
  rw [dif_neg h]
  simp only [hname, hparse]

end Decode

end ProtoMsgCodec

end Handy
