import Handy.Codec.BracketStream
import Handy.Codec.LineStream

/-! # Inputs no continuation decodes

An answer of `0` asks for more bytes. For most inputs some continuation is then
decoded or refused; `DeadEnd` lists the ones for which none ever is. The bracket
decoder answers `0` to a wrong first byte where the length decoder answers `-1`.
The length decoder takes a length of `-8` for a frame of no bytes, and an answer
that `int` cuts to zero reads as a partial message to every caller.
-/

namespace Handy

/-- No continuation of the input gets an answer. -/
def Stuck (codec : Codec UInt8) (data : Bytes) : Prop :=
  ∀ ext, (codec.tryDecode (data ++ ext)).1 = 0

theorem not_stuck_iff {codec : Codec UInt8} {data : Bytes} :
    ¬ Stuck codec data ↔
      ((codec.tryDecode data).1 = 0 → ∃ ext, (codec.tryDecode (data ++ ext)).1 ≠ 0) := by
  rw [Stuck, not_forall]
  constructor
  · exact fun h _ => h
  · intro h
    by_cases hzero : (codec.tryDecode data).1 = 0
    · exact h hzero
    · exact ⟨[], by rwa [List.append_nil]⟩

theorem toInt32_eq_zero_iff (n : Nat) : toInt32 n = 0 ↔ 2 ^ 32 ∣ n := by
  rw [Nat.dvd_iff_mod_eq_zero, toInt32]
  split <;> omega

/-- One of two padded lengths in a row is no multiple of `2 ^ 32`. -/
theorem pad_counts (n : Nat) :
    ∃ pad : Bytes, (∀ c ∈ pad, c = 0x61) ∧ toInt32 (n + pad.length) ≠ 0 := by
  by_cases h : toInt32 n = 0
  · refine ⟨[0x61], fun c hc => List.mem_singleton.mp hc, ?_⟩
    rw [toInt32_eq_zero_iff] at h
    rw [ne_eq, toInt32_eq_zero_iff, List.length_singleton]
    omega
  · exact ⟨[], fun c hc => absurd hc List.not_mem_nil, h⟩

/-! ## Lines -/

namespace LineCodec

/-- The first line is so long that the bytes of its frame count to zero. -/
def DeadEnd (data : Bytes) : Prop :=
  ∃ line rest, data = line ++ 0x0a :: rest ∧ 0x0a ∉ line ∧ 2 ^ 32 ∣ line.length + 1

theorem answer_line {line : Bytes} (hclean : 0x0a ∉ line) (rest : Bytes) :
    (tryDecode (line ++ 0x0a :: rest)).1 = toInt32 (line.length + 1) := by
  have heot : ¬ isEot (line ++ 0x0a :: rest) = true := by
    intro h
    have hmem : (0x0a : UInt8) ∈ line ++ 0x0a :: rest := by simp
    rw [(isEot_iff _).mp h] at hmem
    exact absurd hmem (by decide)
  rw [tryDecode, if_neg heot, scan_line _ _ hclean, scan, if_pos rfl, Nat.zero_add]
  split
  · rfl
  · rfl

theorem stuck_iff (data : Bytes) : Stuck codec data ↔ DeadEnd data := by
  constructor
  · intro hstuck
    by_cases hmem : 0x0a ∈ data
    · obtain ⟨line, rest, rfl, hclean⟩ := List.eq_append_cons_of_mem hmem
      have hzero : (tryDecode (line ++ 0x0a :: rest ++ [])).1 = 0 := hstuck []
      rw [List.append_nil, answer_line hclean, toInt32_eq_zero_iff] at hzero
      exact ⟨line, rest, rfl, hclean, hzero⟩
    · exfalso
      obtain ⟨pad, hpad, hne⟩ := pad_counts (data.length + 1)
      have hclean : (0x0a : UInt8) ∉ data ++ pad := by
        intro h
        rcases List.mem_append.mp h with h | h
        · exact hmem h
        · exact absurd (hpad _ h) (by decide)
      have hzero : (tryDecode (data ++ (pad ++ [0x0a]))).1 = 0 := hstuck (pad ++ [0x0a])
      rw [← List.append_assoc, answer_line hclean, List.length_append] at hzero
      rw [Nat.add_right_comm] at hne
      exact hne hzero
  · rintro ⟨line, rest, rfl, hclean, hdvd⟩ ext
    change (tryDecode (line ++ 0x0a :: rest ++ ext)).1 = 0
    rw [List.append_assoc, List.cons_append, answer_line hclean, toInt32_eq_zero_iff]
    exact hdvd

end LineCodec

/-! ## Brackets -/

namespace BracketCodec

/-- The input begins with anything but an opening bracket and is no lone `0x04`,
or the bytes of its first frame count to zero. -/
def DeadEnd (data : Bytes) : Prop :=
  (data ≠ [] ∧ data ≠ [0x04] ∧ data.head? ≠ some 0x7b) ∨
    ∃ body rest, data = 0x7b :: (body ++ 0x7d :: rest) ∧ 0x7d ∉ body ∧ 2 ^ 32 ∣ body.length + 2

theorem answer_other {data : Bytes} (heot : data ≠ [0x04]) (hopen : data.head? ≠ some 0x7b) :
    (tryDecode data).1 = 0 := by
  rw [tryDecode, if_neg fun h => heot ((isEot_iff _).mp h)]
  split
  · rfl
  · rw [if_pos]
    rwa [← List.head?_eq_getElem?]

theorem stuck_of_deadEnd {data : Bytes} (h : DeadEnd data) : Stuck codec data := by
  intro ext
  change (tryDecode (data ++ ext)).1 = 0
  rcases h with ⟨hne, heot, hopen⟩ | ⟨body, rest, rfl, hclean, hdvd⟩
  · apply answer_other
    · intro h
      cases data with
      | nil => exact hne rfl
      | cons c data =>
          obtain ⟨hc, hnil⟩ := List.cons.inj h
          rw [hc, (List.append_eq_nil_iff.mp hnil).1] at heot
          exact heot rfl
    · rwa [List.head?_append_of_ne_nil _ hne]
  · have hlong : body ≠ [] := by
      rintro rfl
      exact absurd hdvd (by decide)
    rw [List.cons_append, List.append_assoc, List.cons_append, tryDecode_body hclean (Or.inl hlong)]
    exact (toInt32_eq_zero_iff _).mpr hdvd

/-- Behind an opening bracket a closing one is found, or can still be sent. -/
theorem deadEnd_of_stuck_open {rest : Bytes} (hstuck : Stuck codec (0x7b :: rest)) :
    DeadEnd (0x7b :: rest) := by
  by_cases hmem : 0x7d ∈ rest
  · obtain ⟨body, rest, rfl, hclean⟩ := List.eq_append_cons_of_mem hmem
    have hzero : (tryDecode (0x7b :: (body ++ 0x7d :: (rest ++ [0x61])))).1 = 0 := by
      have h := hstuck [0x61]
      rwa [List.cons_append, List.append_assoc] at h
    rw [tryDecode_body hclean (Or.inr (List.append_ne_nil_of_right_ne_nil _ (List.cons_ne_nil _ _))),
      toInt32_eq_zero_iff] at hzero
    exact Or.inr ⟨body, rest, rfl, hclean, hzero⟩
  · exfalso
    obtain ⟨pad, hpad, hne⟩ := pad_counts (rest.length + 1 + 2)
    have hclean : (0x7d : UInt8) ∉ rest ++ 0x61 :: pad := by
      intro h
      rcases List.mem_append.mp h with h | h
      · exact hmem h
      · rcases List.mem_cons.mp h with h | h
        · exact absurd h (by decide)
        · exact absurd (hpad _ h) (by decide)
    have hzero : (tryDecode (0x7b :: (rest ++ 0x61 :: pad ++ 0x7d :: []))).1 = 0 := by
      have h := hstuck (0x61 :: pad ++ [0x7d])
      rwa [List.cons_append, ← List.append_assoc] at h
    have hlong : rest ++ 0x61 :: pad ≠ [] :=
      List.append_ne_nil_of_right_ne_nil _ (List.cons_ne_nil _ _)
    have hlen : (rest ++ 0x61 :: pad).length + 2 = rest.length + 1 + 2 + pad.length := by
      rw [List.length_append, List.length_cons]
      omega
    rw [tryDecode_body hclean (Or.inl hlong), hlen] at hzero
    exact hne hzero

theorem stuck_iff (data : Bytes) : Stuck codec data ↔ DeadEnd data := by
  constructor
  · intro hstuck
    cases data with
    | nil => exact absurd (hstuck [0x04]) (by decide)
    | cons c rest =>
        by_cases hopen : c = 0x7b
        · subst hopen
          exact deadEnd_of_stuck_open hstuck
        · refine Or.inl ⟨List.cons_ne_nil _ _, ?_, fun h => hopen (Option.some.inj h)⟩
          intro heot
          rw [heot] at hstuck
          exact absurd (hstuck []) (by decide)
  · exact stuck_of_deadEnd

end BracketCodec

/-! ## Length prefix -/

namespace LengthCodec

def minusEightHeader : Bytes := magic ++ [0xff, 0xff, 0xff, 0xf8]

def DeadEnd (data : Bytes) : Prop := minusEightHeader <+: data

theorem lengthField_append {data : Bytes} (h : 8 ≤ data.length) (ext : Bytes) :
    lengthField (data ++ ext) = lengthField data := by
  have hfour : 4 ≤ (data.drop 4).length := by
    rw [List.length_drop]
    omega
  rw [lengthField, lengthField, List.drop_append_of_le_length (by omega), loadWord_append hfour]

theorem lengthField_bytes {p : Bytes} (hp : p.length = 4) (a b c d : UInt8) (rest : Bytes) :
    lengthField (p ++ a :: b :: c :: d :: rest) =
      toInt32 (d.toNat + 2 ^ 8 * c.toNat + 2 ^ 16 * b.toNat + 2 ^ 24 * a.toNat) := by
  rw [lengthField, List.drop_left' hp, loadWord,
    htobe_digits a.toNat_lt b.toNat_lt c.toNat_lt d.toNat_lt]

theorem deadEnd_iff (data : Bytes) :
    DeadEnd data ↔ 8 ≤ data.length ∧ data.take 4 = magic ∧ lengthField data = -8 := by
  constructor
  · rintro ⟨rest, rfl⟩
    have hlen : minusEightHeader.length = 8 := rfl
    refine ⟨?_, rfl, ?_⟩
    · rw [List.length_append]
      omega
    · rw [lengthField_append (by omega)]
      rfl
  · rintro ⟨hlen, hmagic, hfield⟩
    have hsplit := List.take_append_drop 4 data
    rw [hmagic] at hsplit
    have htail : (data.drop 4).length = data.length - 4 := List.length_drop
    generalize data.drop 4 = tail at hsplit htail
    subst hsplit
    rcases tail with _ | ⟨a, _ | ⟨b, _ | ⟨c, _ | ⟨d, rest⟩⟩⟩⟩
    · simp only [List.length_nil] at htail
      omega
    · simp only [List.length_cons, List.length_nil] at htail
      omega
    · simp only [List.length_cons, List.length_nil] at htail
      omega
    · simp only [List.length_cons, List.length_nil] at htail
      omega
    · rw [lengthField_bytes rfl, toInt32] at hfield
      have ha := a.toNat_lt
      have hb := b.toNat_lt
      have hc := c.toNat_lt
      have hd := d.toNat_lt
      have hbytes : a.toNat = 0xff ∧ b.toNat = 0xff ∧ c.toNat = 0xff ∧ d.toNat = 0xf8 := by
        split at hfield <;> omega
      have ha' : a = 0xff := UInt8.toNat_inj.mp hbytes.1
      have hb' : b = 0xff := UInt8.toNat_inj.mp hbytes.2.1
      have hc' : c = 0xff := UInt8.toNat_inj.mp hbytes.2.2.1
      have hd' : d = 0xf8 := UInt8.toNat_inj.mp hbytes.2.2.2
      rw [ha', hb', hc', hd']
      exact ⟨rest, rfl⟩

theorem stuck_of_deadEnd {data : Bytes} (h : DeadEnd data) : Stuck codec data := by
  intro ext
  have hext : DeadEnd (data ++ ext) := h.trans (List.prefix_append _ _)
  obtain ⟨hlen, hmagic, hfield⟩ := (deadEnd_iff _).mp hext
  change (tryDecode (data ++ ext)).1 = 0
  rcases tryDecode_cases (data ++ ext) with ⟨_, h⟩ | ⟨_, hbad, _⟩ | ⟨_, _, _, _, h⟩ | ⟨_, _, _, _, h⟩
  · rw [h]
  · rcases hbad with hbig | hmag
    · omega
    · exact absurd hmagic hmag
  · rw [h, hfield]
    rfl
  · rw [h]

/-- A whole header of any other length is refused, or decoded once its frame has
come; the padding takes the size to the largest `int`. -/
theorem answers_of_header {data : Bytes} (hlen : 8 ≤ data.length) (h : ¬ DeadEnd data) :
    ∃ ext, (tryDecode (data ++ ext)).1 ≠ 0 := by
  rw [deadEnd_iff] at h
  obtain ⟨n, hn⟩ : ∃ n, (data.length + n) % 2 ^ 32 = 2 ^ 31 - 1 :=
    ⟨(2 ^ 31 - 1 + (2 ^ 32 - data.length % 2 ^ 32)) % 2 ^ 32, by omega⟩
  refine ⟨List.replicate n 0x00, ?_⟩
  have hsize : toInt32 (data ++ List.replicate n 0x00).length = 2 ^ 31 - 1 := by
    rw [List.length_append, List.length_replicate, toInt32, hn]
    rfl
  have hfield := lengthField_append hlen (List.replicate n 0x00)
  have hmagic : (data ++ List.replicate n 0x00).take 4 = data.take 4 :=
    List.take_append_of_le_length (by omega)
  rcases tryDecode_cases (data ++ List.replicate n 0x00) with ⟨hshort, _⟩ | ⟨_, _, h'⟩ |
    ⟨_, _, hmag, _, h'⟩ | ⟨_, hmax, _, hpart, _⟩
  · rw [List.length_append] at hshort
    omega
  · rw [h']
    decide
  · rw [h', hfield]
    rw [hmagic] at hmag
    intro hzero
    exact h ⟨hlen, hmag, by omega⟩
  · rw [hsize] at hpart
    omega

/-- An unfinished header can still become one that announces no multiple of 256. -/
theorem header_of_short {data : Bytes} (hshort : data.length < 8) :
    ∃ ext, 8 ≤ (data ++ ext).length ∧ ¬ DeadEnd (data ++ ext) := by
  refine ⟨List.replicate (7 - data.length) 0x00 ++ [0x00], ?_, ?_⟩
  · rw [List.length_append, List.length_append, List.length_replicate, List.length_singleton]
    omega
  · rintro ⟨rest, heq⟩
    rw [← List.append_assoc] at heq
    have hlen : (data ++ List.replicate (7 - data.length) 0x00).length = 7 := by
      rw [List.length_append, List.length_replicate]
      omega
    have hlast : (minusEightHeader ++ rest)[7]? = some 0x00 := by
      rw [heq, List.getElem?_append_right (Nat.le_of_eq hlen), hlen]
      rfl
    exact absurd (Option.some.inj hlast) (by decide)

theorem stuck_iff (data : Bytes) : Stuck codec data ↔ DeadEnd data := by
  constructor
  · intro hstuck
    by_contra h
    have hlong : ∃ pre, 8 ≤ (data ++ pre).length ∧ ¬ DeadEnd (data ++ pre) := by
      by_cases hlen : 8 ≤ data.length
      · exact ⟨[], by rwa [List.append_nil], by rwa [List.append_nil]⟩
      · exact header_of_short (by omega)
    obtain ⟨pre, hlen, hlive⟩ := hlong
    obtain ⟨ext, hne⟩ := answers_of_header hlen hlive
    rw [List.append_assoc] at hne
    exact hne (hstuck (pre ++ ext))
  · exact stuck_of_deadEnd

end LengthCodec

/-- The inputs no continuation is ever decoded or refused for. -/
def DeadEnd : CodecKind → Bytes → Prop
  | .line => LineCodec.DeadEnd
  | .length => LengthCodec.DeadEnd
  | .bracket => BracketCodec.DeadEnd

/-- A partial answer can still be followed by another one exactly off the dead ends. -/
theorem partial_answer_ends_iff (kind : CodecKind) (data : Bytes) :
    ((kind.codec.tryDecode data).1 = 0 → ∃ ext, (kind.codec.tryDecode (data ++ ext)).1 ≠ 0) ↔
      ¬ DeadEnd kind data := by
  rw [← not_stuck_iff]
  apply not_congr
  cases kind with
  | line => exact LineCodec.stuck_iff data
  | length => exact LengthCodec.stuck_iff data
  | bracket => exact BracketCodec.stuck_iff data

/-- The bracket decoder waits for ever behind any byte but the two it knows. -/
theorem wrong_first_byte_waits :
    ¬ ∀ (kind : CodecKind) (data : Bytes), (kind.codec.tryDecode data).1 = 0 →
      ∃ ext, (kind.codec.tryDecode (data ++ ext)).1 ≠ 0 := by
  intro h
  obtain ⟨ext, hne⟩ := h .bracket [0x61] rfl
  have hdead : BracketCodec.DeadEnd [0x61] := Or.inl ⟨by decide, by decide, by decide⟩
  exact hne (BracketCodec.stuck_of_deadEnd hdead ext)

end Handy
