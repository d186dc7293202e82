import Handy.Codec.Safety

/-! # Length-framed streams

The length codec is lawful for the framing receiver on messages of at most
`1024 * 1024` bytes and buffers below `2^31`: the big-endian length it writes is
the one it reads back, a whole frame decodes whatever follows it, and every
proper prefix of a frame is answered by `0`.
-/

namespace Handy

namespace LengthCodec

theorem frame_eq (msg : Bytes) :
    codec.frame msg = magic ++ (wordBytes (htobe (msg.length % 2 ^ 32)) ++ msg) :=
  List.append_assoc _ _ _

theorem length_frame (msg : Bytes) : (codec.frame msg).length = msg.length + 8 := by
  rw [frame_eq]
  simp only [magic, wordBytes, List.length_append, List.length_cons, List.length_nil]
  omega

theorem take_four_frame (msg rest : Bytes) : (codec.frame msg ++ rest).take 4 = magic := by
  rw [frame_eq, List.append_assoc]
  exact List.take_left' rfl

/-- The length a message is framed with is the length the decoder reads. -/
theorem lengthField_frame {msg : Bytes} (hmsg : msg.length < 2 ^ 31) (rest : Bytes) :
    lengthField (codec.frame msg ++ rest) = msg.length := by
  have hdrop : (codec.frame msg ++ rest).drop 4 =
      wordBytes (htobe (msg.length % 2 ^ 32)) ++ (msg ++ rest) := by
    rw [frame_eq, List.append_assoc, List.append_assoc]
    exact List.drop_left' rfl
  have hmod : msg.length % 2 ^ 32 = msg.length := Nat.mod_eq_of_lt (by omega)
  rw [lengthField, hdrop, loadWord_wordBytes_append _ (htobe_lt _), hmod,
    htobe_htobe _ (by omega), toInt32_of_lt hmsg]

theorem read_frame (msg rest : Bytes) :
    (Slice.ofLen 8 msg.length).read (codec.frame msg ++ rest) = msg := by
  have hdrop : (codec.frame msg ++ rest).drop 8 = msg ++ rest := by
    rw [frame_eq, ← List.append_assoc, List.append_assoc (magic ++ _)]
    exact List.drop_left' rfl
  have hread := Slice.read_ofLen 8 msg.length (codec.frame msg ++ rest)
  rw [hdrop, List.take_left] at hread
  exact hread

/-- The messages and buffers the stream laws are about. -/
abbrev Ok (msg : Bytes) : Prop := msg.length ≤ 1024 * 1024

abbrev Fits (data : Bytes) : Prop := data.length < 2 ^ 31

theorem verdict_frame (msg rest : Bytes) (hmsg : Ok msg) (hfits : Fits (codec.frame msg ++ rest)) :
    codec.verdict (codec.frame msg ++ rest) = .frame msg (codec.frame msg).length := by
  have hlen : lengthField (codec.frame msg ++ rest) = msg.length :=
    lengthField_frame (by omega) rest
  have hsize : (codec.frame msg ++ rest).length = msg.length + 8 + rest.length := by
    rw [List.length_append, length_frame]
  have hanswer : tryDecode (codec.frame msg ++ rest) =
      ((msg.length : Int) + 8, .ofLen 8 msg.length) := by
    have hshort : ¬ (codec.frame msg ++ rest).length < 8 := by omega
    have hbad : ¬ (1024 * 1024 < lengthField (codec.frame msg ++ rest) ∨
        (codec.frame msg ++ rest).take 4 ≠ magic) := by
      rw [hlen, take_four_frame]
      simp only [not_or, not_not, and_true]
      omega
    have hfull : lengthField (codec.frame msg ++ rest) + 8 ≤
        toInt32 (codec.frame msg ++ rest).length := by
      rw [toInt32_of_lt hfits, hlen, hsize]
      omega
    simp only [tryDecode, if_neg hshort, if_neg hbad, if_pos hfull]
    rw [hlen]
  have hret : codec.tryDecode (codec.frame msg ++ rest) =
      (((msg.length + 8 : Nat) : Int), .ofLen 8 msg.length) := hanswer
  rw [Codec.verdict_of_answer (Nat.succ_pos _) hret, read_frame, length_frame]

/-- A cut inside the magic, the length or the body: the decoder waits. -/
theorem verdict_short (msg p : Bytes) (hmsg : Ok msg) (hp : p <+: codec.frame msg)
    (hlt : p.length < (codec.frame msg).length) : codec.verdict p = .more := by
  have hanswer : tryDecode p = (0, .unset) := by
    by_cases hshort : p.length < 8
    · rw [tryDecode, if_pos hshort]
    · obtain ⟨tail, htail⟩ := hp
      rw [length_frame] at hlt
      have hmagic : p.take 4 = magic := by
        have h := take_four_frame msg []
        rwa [List.append_nil, ← htail, List.take_append_of_le_length (by omega)] at h
      have hlen : lengthField p = msg.length := by
        have h := lengthField_frame (show msg.length < 2 ^ 31 by omega) []
        have hword : loadWord (p.drop 4) = loadWord ((codec.frame msg).drop 4) := by
          have hfour : 4 ≤ (p.drop 4).length := by
            rw [List.length_drop]
            omega
          rw [← htail, List.drop_append_of_le_length (by omega), loadWord_append hfour]
        rw [List.append_nil] at h
        rw [← h, lengthField, lengthField, hword]
      have hbad : ¬ (1024 * 1024 < lengthField p ∨ p.take 4 ≠ magic) := by
        rw [hlen, hmagic]
        simp only [not_or, not_not, and_true]
        omega
      have hpart : ¬ lengthField p + 8 ≤ toInt32 p.length := by
        rw [toInt32_of_lt (by omega), hlen]
        omega
      simp only [tryDecode, if_neg hshort, if_neg hbad, if_neg hpart]
  exact Codec.verdict_of_zero (congrArg Prod.fst hanswer)

theorem lawful : Framing.Lawful codec.frame codec.verdict Ok Fits where
  nonempty m _ h := by
    have := length_frame m
    rw [h] at this
    simp at this
  whole := verdict_frame
  short := verdict_short
  drop xs n h := Nat.lt_of_le_of_lt (by rw [List.length_drop]; omega) h

end LengthCodec

/-- Messages of at most `1024 * 1024` bytes, encoded one after the other and cut
anywhere, reach the callback in order and once each; no attempt refuses a frame
and the input ends empty. -/
theorem length_messages_survive_fragmentation (msgs chunks : List Bytes) (x : Buffer UInt8)
    (hmsgs : ∀ m ∈ msgs, m.length ≤ 1024 * 1024) (hx : x.contents = [])
    (hstream : chunks.flatten = (encodeAll LengthCodec.codec msgs Buffer.new).contents)
    (hbelow : InputBelow LengthCodec.codec (2 ^ 31) x chunks) :
    (receive LengthCodec.codec x chunks).handed.map Handed.bytes = msgs ∧
      (receive LengthCodec.codec x chunks).stop = .waiting ∧
      (receive LengthCodec.codec x chunks).input.contents = [] := by
  rw [contents_encodeAll, Buffer.contents_new, List.nil_append] at hstream
  exact receive_frames LengthCodec.bounded LengthCodec.lawful rfl hmsgs hx hstream hbelow

/-- Two messages, the first cut inside its length, the second arriving whole. -/
theorem length_messages_survive_fragmentation_cut :
    let msgs : List Bytes := [[7], []]
    let chunks : List Bytes := [[0x6d, 0x42, 0x64, 0x54, 0], [],
      [0, 0, 1, 7, 0x6d, 0x42, 0x64, 0x54, 0, 0, 0, 0]]
    let x : Buffer UInt8 := Buffer.new.setSuggestSize 4
    (receive LengthCodec.codec x chunks).handed.map Handed.bytes = msgs ∧
      (receive LengthCodec.codec x chunks).stop = .waiting ∧
      (receive LengthCodec.codec x chunks).input.contents = [] := by
  refine length_messages_survive_fragmentation _ _ _ (by decide) rfl ?_ ?_
  · rw [contents_encodeAll]
    decide
  · exact ⟨by decide, by decide, by decide, trivial⟩

end Handy
