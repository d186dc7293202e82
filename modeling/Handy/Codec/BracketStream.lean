import Handy.Codec.Safety

/-! # Bracket-framed streams

The bracket decoder waits on two bytes or fewer before it looks at them, and
`{}` is a whole frame of two. An empty message is therefore decoded only once
something follows it: of the streams the encoder writes, one whose last message
is empty keeps that frame undecoded, and every other one is delivered exactly,
as far as an `int` can count its frames.
-/

namespace Handy

namespace BracketCodec

theorem frame_eq (msg : Bytes) : codec.frame msg = 0x7b :: (msg ++ [0x7d]) := rfl

theorem length_frame (msg : Bytes) : (codec.frame msg).length = msg.length + 2 := by
  rw [frame_eq, List.length_cons, List.length_append, List.length_singleton]

/-! ## What the scanner finds -/

theorem scan_clean (i : Nat) {rest : Bytes} (h : 0x7d ∉ rest) : scan i rest = (0, .unset) := by
  induction rest generalizing i with
  | nil => rfl
  | cons c rest ih =>
      have hc : c ≠ 0x7d := fun heq => h (heq ▸ List.mem_cons_self)
      rw [scan, if_neg hc]
      exact ih (i + 1) fun hmem => h (List.mem_cons_of_mem c hmem)

theorem scan_body (i : Nat) {body rest : Bytes} (h : 0x7d ∉ body) :
    scan i (body ++ 0x7d :: rest) =
      (toInt32 (i + body.length + 1), .ofLen 1 ((i + body.length : Nat) - 1)) := by
  induction body generalizing i with
  | nil =>
      rw [List.nil_append, scan, if_pos rfl]
      rfl
  | cons c body ih =>
      have hc : c ≠ 0x7d := fun heq => h (heq ▸ List.mem_cons_self)
      have hbody : 0x7d ∉ body := fun hmem => h (List.mem_cons_of_mem c hmem)
      have hi : i + 1 + body.length = i + (c :: body).length := by
        rw [List.length_cons]
        omega
      rw [List.cons_append, scan, if_neg hc, ih (i + 1) hbody, hi]

theorem tryDecode_short {data : Bytes} (hlen : data.length ≤ 2) (heot : data ≠ [0x04]) :
    tryDecode data = (0, .unset) := by
  rw [tryDecode, if_neg fun h => heot ((isEot_iff data).mp h), if_pos hlen]

theorem tryDecode_open {rest : Bytes} (hlen : 2 ≤ rest.length) :
    tryDecode (0x7b :: rest) = scan 1 rest := by
  have heot : ¬ isEot (0x7b :: rest) = true := by
    intro h
    exact absurd (List.cons.inj ((isEot_iff _).mp h)).1 (by decide)
  have hlong : ¬ (0x7b :: rest).length ≤ 2 := by
    rw [List.length_cons]
    omega
  rw [tryDecode, if_neg heot, if_neg hlong, if_neg fun h => h rfl, scan, if_neg (by decide)]

/-- The first closing bracket ends the message, once the input is longer than the
size guard. -/
theorem tryDecode_body {body : Bytes} (hclean : 0x7d ∉ body) {rest : Bytes}
    (hlong : body ≠ [] ∨ rest ≠ []) :
    tryDecode (0x7b :: (body ++ 0x7d :: rest)) =
      (toInt32 (body.length + 2), .ofLen 1 body.length) := by
  have hlen : 2 ≤ (body ++ 0x7d :: rest).length := by
    rw [List.length_append, List.length_cons]
    rcases hlong with h | h
    · have := List.length_pos_of_ne_nil h
      omega
    · have := List.length_pos_of_ne_nil h
      omega
  have hslice : (((1 + body.length : Nat) : Int) - 1) = body.length := by omega
  have hret : 1 + body.length + 1 = body.length + 2 := by omega
  rw [tryDecode_open hlen, scan_body 1 hclean, hslice, hret]

/-! ## The frames of a stream -/

theorem read_frame (msg rest : Bytes) :
    (Slice.ofLen 1 msg.length).read (0x7b :: (msg ++ 0x7d :: rest)) = msg := by
  have hread := Slice.read_ofLen 1 msg.length (0x7b :: (msg ++ 0x7d :: rest))
  rw [List.drop_one, List.tail_cons, List.take_left] at hread
  exact hread

theorem verdict_frame {msg rest : Bytes} (hclean : 0x7d ∉ msg) (hint : msg.length + 2 < 2 ^ 31)
    (hlong : msg ≠ [] ∨ rest ≠ []) :
    codec.verdict (codec.frame msg ++ rest) = .frame msg (codec.frame msg).length := by
  have hdata : codec.frame msg ++ rest = 0x7b :: (msg ++ 0x7d :: rest) := by
    rw [frame_eq, List.cons_append, List.append_assoc]
    rfl
  have hret : codec.tryDecode (0x7b :: (msg ++ 0x7d :: rest)) =
      (((msg.length + 2 : Nat) : Int), .ofLen 1 msg.length) := by
    rw [← toInt32_of_lt hint]
    exact tryDecode_body hclean hlong
  rw [hdata, Codec.verdict_of_answer (Nat.succ_pos _) hret, read_frame, length_frame]

/-- What the size guard waits on although it is whole. -/
theorem verdict_empty_frame : codec.verdict (codec.frame []) = .more := rfl

/-- The most an answer for `msg` counts: its frame, and no more than an `int` holds. -/
abbrev cost (msg : Bytes) : Nat := min (msg.length + 2) (2 ^ 31 - 1)

theorem costs : Framing.Costs codec.verdict cost := by
  apply codec.costs bounded
  intro data hret
  change 0 < (tryDecode data).1 at hret
  change (tryDecode data).1.toNat ≤ cost ((tryDecode data).2.read data)
  by_cases heot : data = [0x04]
  · rw [heot]
    decide
  · by_cases hlen : data.length ≤ 2
    · rw [tryDecode_short hlen heot] at hret
      exact absurd hret (Int.lt_irrefl 0)
    · cases data with
      | nil => exact absurd (Nat.zero_le 2) hlen
      | cons c rest =>
          by_cases hopen : c = 0x7b
          · subst hopen
            rw [List.length_cons] at hlen
            rw [tryDecode_open (by omega)] at hret ⊢
            rcases scan_spec 1 rest with h | ⟨n, hn, hlt, _, h⟩
            · rw [h] at hret
              exact absurd hret (Int.lt_irrefl 0)
            · rw [h]
              have hle := toInt32_le (n + 1)
              have hint := toInt32_lt (n + 1)
              have hread : ((Slice.ofLen 1 ((n : Int) - 1)).read (0x7b :: rest)).length = n - 1 := by
                simp only [Slice.read, Slice.ofLen, List.length_take, List.length_drop,
                  List.length_cons]
                omega
              rw [cost, hread]
              omega
          · exfalso
            have hother : (c :: rest)[0]? ≠ some 0x7b := fun h => hopen (Option.some.inj h)
            rw [tryDecode, if_neg fun h => heot ((isEot_iff _).mp h), if_neg hlen, if_pos hother]
              at hret
            exact Int.lt_irrefl 0 hret

/-- The loop on a stream whose last frame the size guard lets through, or on one
with an empty frame behind it. -/
theorem drain_stream {msgs : List Bytes} (hclean : ∀ m ∈ msgs, 0x7d ∉ m)
    (hint : ∀ m ∈ msgs, m.length + 2 < 2 ^ 31) {p : Bytes} (hmore : codec.verdict p = .more)
    (hlast : p = [] → msgs.getLast? ≠ some []) (fuel : Nat) (hfuel : msgs.length < fuel) :
    Framing.drain codec.verdict fuel (msgs.flatMap codec.frame ++ p) = ⟨msgs, p, false⟩ := by
  apply Framing.drain_whole _ hmore fuel hfuel
  rintro pre m post rfl
  have hmem : m ∈ pre ++ m :: post := List.mem_append_right _ List.mem_cons_self
  apply verdict_frame (hclean m hmem) (hint m hmem)
  by_contra hshort
  rw [not_or, not_not, not_not] at hshort
  have hnil := List.append_eq_nil_iff.mp hshort.2
  -- an empty message with nothing behind it is the last one
  cases post with
  | nil =>
      apply hlast hnil.2
      rw [List.getLast?_append, hshort.1]
      rfl
  | cons m' post =>
      rw [List.flatMap_cons, List.append_eq_nil_iff, frame_eq] at hnil
      exact List.cons_ne_nil _ _ hnil.1.1

end BracketCodec

/-- Messages without a closing bracket, encoded one after the other, reach the
callback exactly and leave nothing behind, if and only if the last one is not
empty and an `int` can count each frame. -/
theorem bracket_messages_survive_iff (msgs : List Bytes) (x : Buffer UInt8)
    (hmsgs : ∀ m ∈ msgs, 0x7d ∉ m)
    (hstream : x.contents = (encodeAll BracketCodec.codec msgs Buffer.new).contents) :
    ((onMsgLoop BracketCodec.codec (x.size + 1) x).handed.map Handed.bytes = msgs ∧
        (onMsgLoop BracketCodec.codec (x.size + 1) x).input.contents = []) ↔
      msgs.getLast? ≠ some [] ∧ ∀ m ∈ msgs, m.length + 2 < 2 ^ 31 := by
  rw [contents_encodeAll, Buffer.contents_new, List.nil_append] at hstream
  have hcount : msgs.length < x.size + 1 := by
    rw [← Buffer.contents_length, hstream]
    have hle : msgs.length ≤ (msgs.flatMap BracketCodec.codec.frame).length :=
      Framing.length_le_flatMap fun m _ => List.cons_ne_nil _ _
    omega
  obtain ⟨hgot, hrest, _⟩ := onMsgLoop_shows BracketCodec.bounded x _ (Nat.lt_succ_self _)
  rw [hstream] at hgot hrest
  rw [hgot, hrest]
  constructor
  · intro ⟨hall, hnone⟩
    have hint : ∀ m ∈ msgs, m.length + 2 < 2 ^ 31 := by
      intro m hm
      have h := Framing.drain_exact BracketCodec.costs
        (fun m => by rw [BracketCodec.length_frame]; exact Nat.min_le_left _ _) _ hall hnone m hm
      rw [BracketCodec.length_frame, BracketCodec.cost] at h
      omega
    refine ⟨?_, hint⟩
    intro hlast
    obtain ⟨pre, rfl⟩ := List.getLast?_eq_some_iff.mp hlast
    have hpre : ∀ m ∈ pre, m ∈ pre ++ [[]] := fun m hm => List.mem_append_left _ hm
    have hsplit : (pre ++ [[]]).flatMap BracketCodec.codec.frame =
        pre.flatMap BracketCodec.codec.frame ++ BracketCodec.codec.frame [] := by
      rw [List.flatMap_append, List.flatMap_singleton]
    rw [List.length_append] at hcount
    rw [hsplit, BracketCodec.drain_stream (fun m hm => hmsgs m (hpre m hm))
      (fun m hm => hint m (hpre m hm)) BracketCodec.verdict_empty_frame
      (fun h => absurd h (List.cons_ne_nil _ _)) _ (by omega)] at hnone
    exact List.cons_ne_nil _ _ hnone
  · intro ⟨hlast, hint⟩
    have hdrain := BracketCodec.drain_stream hmsgs hint (p := []) rfl (fun _ => hlast) _ hcount
    rw [List.append_nil] at hdrain
    rw [hdrain]
    exact ⟨rfl, rfl⟩

/-- An empty message in front of one that holds an opening bracket and a `0x04`. -/
theorem bracket_messages_survive_iff_mixed :
    let msgs : List Bytes := [[], [0x04], [0x7b, 0x04]]
    let x : Buffer UInt8 := encodeAll BracketCodec.codec msgs Buffer.new
    ((onMsgLoop BracketCodec.codec (x.size + 1) x).handed.map Handed.bytes = msgs ∧
        (onMsgLoop BracketCodec.codec (x.size + 1) x).input.contents = []) ↔
      msgs.getLast? ≠ some [] ∧ ∀ m ∈ msgs, m.length + 2 < 2 ^ 31 :=
  bracket_messages_survive_iff _ _ (by decide) rfl

/-- The frame of one empty message stays in the input, and nothing is delivered. -/
theorem empty_bracket_message_kept :
    ¬ ∀ (msgs : List Bytes) (x : Buffer UInt8), (∀ m ∈ msgs, 0x7d ∉ m) →
      x.contents = (encodeAll BracketCodec.codec msgs Buffer.new).contents →
      (onMsgLoop BracketCodec.codec (x.size + 1) x).handed.map Handed.bytes = msgs ∧
        (onMsgLoop BracketCodec.codec (x.size + 1) x).input.contents = [] := by
  intro h
  let x : Buffer UInt8 := (Buffer.new.setSuggestSize 4).append [0x7b, 0x7d]
  have hstream : x.contents = (encodeAll BracketCodec.codec [[]] Buffer.new).contents := by
    rw [contents_encodeAll]
    decide
  have hall := (h [[]] x (by decide) hstream).1
  have hnone : (onMsgLoop BracketCodec.codec (x.size + 1) x).handed.map Handed.bytes = [] := by
    decide
  rw [hnone] at hall
  exact List.cons_ne_nil _ _ hall.symm

end Handy
