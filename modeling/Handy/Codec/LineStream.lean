import Handy.Codec.Safety

/-! # Line-framed streams

The line codec frames any message without a line feed, but its stream is not
self-delimiting: one byte `0x04` alone in the input is a message of its own, so a
cut behind a `0x04` that begins a message splits it. That cut and frames longer
than an `int` are all that goes wrong: the codec is lawful for the framing
receiver up to them, and a receiver that delivers exactly has met neither.
-/

namespace Handy

namespace LineCodec

theorem frame_eq (msg : Bytes) : codec.frame msg = (msg ++ [0x0d]) ++ [0x0a] :=
  (List.append_assoc msg [0x0d] [0x0a]).symm

theorem length_frame (msg : Bytes) : (codec.frame msg).length = msg.length + 2 :=
  List.length_append

/-! ## What the scanner finds -/

theorem scan_clean (data : Bytes) (i : Nat) {rest : Bytes} (h : 0x0a ∉ rest) :
    scan data i rest = (0, .unset) := by
  induction rest generalizing i with
  | nil => rfl
  | cons c rest ih =>
      have hc : c ≠ 0x0a := fun heq => h (heq ▸ List.mem_cons_self)
      rw [scan, if_neg hc]
      exact ih (i + 1) fun hmem => h (List.mem_cons_of_mem c hmem)

theorem scan_line (data : Bytes) (i : Nat) {line rest : Bytes} (h : 0x0a ∉ line) :
    scan data i (line ++ 0x0a :: rest) = scan data (i + line.length) (0x0a :: rest) := by
  induction line generalizing i with
  | nil => rfl
  | cons c line ih =>
      have hc : c ≠ 0x0a := fun heq => h (heq ▸ List.mem_cons_self)
      rw [List.cons_append, scan, if_neg hc, ih (i + 1) fun hmem => h (List.mem_cons_of_mem c hmem),
        List.length_cons]
      congr 1
      omega

theorem tryDecode_clean {data : Bytes} (hclean : 0x0a ∉ data) (heot : data ≠ [0x04]) :
    tryDecode data = (0, .unset) := by
  rw [tryDecode, if_neg fun h => heot ((isEot_iff data).mp h)]
  exact scan_clean data 0 hclean

theorem not_isEot_frame (msg rest : Bytes) : ¬ isEot (codec.frame msg ++ rest) = true := by
  intro h
  have hlen := congrArg List.length ((isEot_iff _).mp h)
  rw [List.length_append, length_frame, List.length_singleton] at hlen
  omega

/-- The carriage return the encoder wrote is the one the decoder strips, whatever
the message ends with. -/
theorem tryDecode_frame {msg : Bytes} (hclean : 0x0a ∉ msg) (rest : Bytes) :
    tryDecode (codec.frame msg ++ rest) = (toInt32 (msg.length + 2), .ofLen 0 msg.length) := by
  have hline : (0x0a : UInt8) ∉ msg ++ [0x0d] := by
    simp only [List.mem_append, List.mem_singleton, hclean, false_or]
    decide
  have hdata : codec.frame msg ++ rest = (msg ++ [0x0d]) ++ 0x0a :: rest := by
    rw [frame_eq, List.append_assoc]
    rfl
  have hlen : 0 + (msg ++ [0x0d]).length = msg.length + 1 := by
    rw [List.length_append, List.length_singleton, Nat.zero_add]
  have hret : (codec.frame msg ++ rest)[msg.length + 1 - 1]? = some 0x0d := by
    rw [hdata, List.append_assoc, Nat.add_sub_cancel, List.getElem?_append_right (Nat.le_refl _),
      Nat.sub_self]
    rfl
  rw [tryDecode, if_neg (not_isEot_frame msg rest)]
  conv_lhs => rw [hdata]
  rw [scan_line _ _ hline, hlen, ← hdata, scan, if_pos rfl, if_pos ⟨Nat.succ_pos _, hret⟩]
  rfl

/-! ## The stream laws -/

/-- What the codec can frame: no line feed, and a frame an `int` can count. -/
abbrev Ok (msg : Bytes) : Prop := 0x0a ∉ msg ∧ msg.length + 2 < 2 ^ 31

abbrev Cut (p : Bytes) : Prop := p ≠ [0x04]

theorem read_frame (msg rest : Bytes) :
    (Slice.ofLen 0 msg.length).read (codec.frame msg ++ rest) = msg := by
  simp only [Slice.read, Slice.ofLen]
  rw [show (0 : Int).toNat = 0 from rfl, List.drop_zero,
    show (0 + (msg.length : Int) - 0).toNat = msg.length by omega]
  show (msg ++ [0x0d, 0x0a] ++ rest).take msg.length = msg
  rw [List.append_assoc, List.take_left]

theorem verdict_frame (msg rest : Bytes) (hmsg : Ok msg) :
    codec.verdict (codec.frame msg ++ rest) = .frame msg (codec.frame msg).length := by
  have hret : codec.tryDecode (codec.frame msg ++ rest) =
      (((msg.length + 2 : Nat) : Int), .ofLen 0 msg.length) := by
    rw [← toInt32_of_lt hmsg.2]
    exact tryDecode_frame hmsg.1 rest
  rw [Codec.verdict_of_answer (Nat.succ_pos _) hret, read_frame, length_frame]

theorem verdict_short (msg p : Bytes) (hmsg : Ok msg) (hp : p <+: codec.frame msg)
    (hlt : p.length < (codec.frame msg).length) (hcut : Cut p) : codec.verdict p = .more := by
  have hpre : p <+: msg ++ [0x0d] := by
    rw [frame_eq] at hp
    apply List.prefix_of_prefix_length_le hp (List.prefix_append _ _)
    rw [length_frame] at hlt
    rw [List.length_append, List.length_singleton]
    omega
  have hclean : (0x0a : UInt8) ∉ p := by
    intro hmem
    rcases List.mem_append.mp (hpre.subset hmem) with h | h
    · exact hmsg.1 h
    · exact absurd (List.mem_singleton.mp h) (by decide)
  exact Codec.verdict_of_zero (congrArg Prod.fst (tryDecode_clean hclean hcut))

theorem lawful : Framing.LawfulUpTo codec.frame codec.verdict Ok (fun _ => True) Cut where
  nonempty m _ h := by
    have := length_frame m
    rw [h] at this
    simp at this
  whole m rest hm _ := verdict_frame m rest hm
  short := verdict_short
  drop _ _ _ := trivial

theorem verdict_eot : codec.verdict [0x04] = .frame [0x04] 1 := rfl

/-- The most an answer for `msg` counts: its frame, and no more than an `int` holds. -/
abbrev cost (msg : Bytes) : Nat := min (msg.length + 2) (2 ^ 31 - 1)

theorem costs : Framing.Costs codec.verdict cost := by
  apply codec.costs bounded
  intro data hret
  change 0 < (tryDecode data).1 at hret
  change (tryDecode data).1.toNat ≤ cost ((tryDecode data).2.read data)
  by_cases heot : data = [0x04]
  · rw [heot]
    decide
  · have hscan : tryDecode data = scan data 0 data := by
      rw [tryDecode, if_neg fun h => heot ((isEot_iff data).mp h)]
    rw [hscan] at hret ⊢
    rcases scan_spec data 0 data (Nat.zero_add _) with h | ⟨n, k, hk, hn, hlt, h⟩
    · rw [h] at hret
      exact absurd hret (Int.lt_irrefl 0)
    · rw [h]
      have hle := toInt32_le (n + 1)
      have hint := toInt32_lt (n + 1)
      have hread : ((Slice.ofLen 0 k).read data).length = k := by
        simp only [Slice.read, Slice.ofLen, List.length_take, List.length_drop]
        omega
      rw [cost, hread]
      omega

/-- The partial frame a cut behind a leading `0x04` leaves. -/
theorem cut_of_partial {later : List Bytes} {p : Bytes}
    (hp : Framing.Partial codec.frame later p) (hlone : p = [0x04]) :
    ∃ m rest, later = (0x04 :: m) :: rest := by
  subst hlone
  rcases hp with h | ⟨m, rest, rfl, hpre, _⟩
  · cases h
  · cases m with
    | nil => exact absurd (List.cons_prefix_cons.mp hpre).1 (by decide)
    | cons c m =>
        have hc : 0x04 = c := (List.cons_prefix_cons.mp hpre).1
        exact ⟨m, rest, by rw [hc]⟩

/-- With whole frames and then a lone `0x04` arrived the decoder does not wait. -/
theorem not_waiting_behind_eot {done now later tail : List Bytes} {p : Bytes}
    (hdone : ∀ m ∈ done, Ok m) (hsplit : now ++ later = done ++ tail)
    (hpre : now.flatMap codec.frame ++ p = done.flatMap codec.frame ++ [0x04]) :
    codec.verdict p ≠ .more := by
  intro hmore
  have hlone : p ≠ [0x04] := by
    rintro rfl
    rw [verdict_eot] at hmore
    cases hmore
  rcases List.append_eq_append_iff.mp hsplit with ⟨more, rfl, _⟩ | ⟨more, rfl, _⟩
  · rw [List.flatMap_append, List.append_assoc] at hpre
    have hp := List.append_cancel_left hpre
    cases more with
    | nil => exact hlone hp
    | cons m more =>
        have hok : Ok m := hdone m (by simp)
        rw [hp, List.flatMap_cons, List.append_assoc, verdict_frame m _ hok] at hmore
        cases hmore
  · rw [List.flatMap_append, List.append_assoc] at hpre
    have hp := List.append_cancel_left hpre
    cases more with
    | nil => exact hlone hp
    | cons m more =>
        have hlen := congrArg List.length hp
        rw [List.flatMap_cons, List.append_assoc, List.length_append, length_frame,
          List.length_singleton] at hlen
        omega

end LineCodec

/-- Some arrival ends right behind a `0x04` that begins a message. -/
def CutBehindEot (msgs chunks : List Bytes) : Prop :=
  ∃ pre post done m rest, chunks = pre ++ post ∧ msgs = done ++ (0x04 :: m) :: rest ∧
    pre.flatten = done.flatMap LineCodec.codec.frame ++ [0x04]

/-- Messages without a line feed, encoded one after the other and cut anywhere,
reach the callback exactly and leave nothing behind, if and only if an `int` can
count each frame and no cut falls behind a `0x04` that begins a message. -/
theorem line_messages_survive_iff (msgs chunks : List Bytes) (x : Buffer UInt8)
    (hmsgs : ∀ m ∈ msgs, 0x0a ∉ m) (hx : x.contents = [])
    (hstream : chunks.flatten = (encodeAll LineCodec.codec msgs Buffer.new).contents) :
    ((receive LineCodec.codec x chunks).handed.map Handed.bytes = msgs ∧
        (receive LineCodec.codec x chunks).input.contents = []) ↔
      (∀ m ∈ msgs, m.length + 2 < 2 ^ 31) ∧ ¬ CutBehindEot msgs chunks := by
  rw [contents_encodeAll, Buffer.contents_new, List.nil_append] at hstream
  constructor
  · rintro ⟨hgot, hrest⟩
    have hfeed := feed_of_receive LineCodec.bounded rfl hx hgot hrest LineCodec.costs
    obtain ⟨hcost, hcuts⟩ := Framing.feed_exact LineCodec.costs
      (fun m => by rw [LineCodec.length_frame]; exact Nat.min_le_left _ _) hstream hfeed
    have hint : ∀ m ∈ msgs, m.length + 2 < 2 ^ 31 := by
      intro m hm
      have h := hcost m hm
      rw [LineCodec.length_frame, LineCodec.cost] at h
      omega
    refine ⟨hint, ?_⟩
    rintro ⟨pre, post, done, m, rest, hchunks, hsplit, hpre⟩
    have hne : pre ≠ [] := by
      rintro rfl
      exact absurd hpre.symm (List.append_ne_nil_of_right_ne_nil _ (List.cons_ne_nil _ _))
    obtain ⟨now, later, p, hnow, hkept, hmore⟩ := hcuts pre post hchunks hne
    have hok : ∀ m ∈ done, LineCodec.Ok m := fun m hm =>
      have hmem : m ∈ msgs := hsplit ▸ List.mem_append_left _ hm
      ⟨hmsgs m hmem, hint m hmem⟩
    exact LineCodec.not_waiting_behind_eot hok (hnow.symm.trans hsplit) (hkept.symm.trans hpre) hmore
  · rintro ⟨hint, hcut⟩
    have hok : ∀ m ∈ msgs, LineCodec.Ok m := fun m hm => ⟨hmsgs m hm, hint m hm⟩
    have hfits : Framing.FeedFits LineCodec.codec.verdict (fun _ => True) [] chunks :=
      Framing.feedFits_of_all (fun _ => trivial) chunks []
    have hcuts : Framing.CutsFit LineCodec.codec.frame LineCodec.Cut msgs [] chunks := by
      rintro pre post now later p hchunks hsplit hpre hp rfl
      obtain ⟨m, rest, rfl⟩ := LineCodec.cut_of_partial hp rfl
      exact hcut ⟨pre, post, now, m, rest, hchunks, hsplit, hpre⟩
    obtain ⟨hgot, _, hrest⟩ := receive_frames_upTo LineCodec.bounded LineCodec.lawful rfl hok hx
      hstream hfits hcuts
    exact ⟨hgot, hrest⟩

/-- A message that begins with `0x04`, cut behind its second byte and inside its end. -/
theorem line_messages_survive_iff_cut :
    let msgs : List Bytes := [[0x04, 0x61], [0x0d]]
    let chunks : List Bytes := [[0x04, 0x61], [0x0d], [0x0a, 0x0d, 0x0d], [], [0x0a]]
    let x : Buffer UInt8 := Buffer.new
    ((receive LineCodec.codec x chunks).handed.map Handed.bytes = msgs ∧
        (receive LineCodec.codec x chunks).input.contents = []) ↔
      (∀ m ∈ msgs, m.length + 2 < 2 ^ 31) ∧ ¬ CutBehindEot msgs chunks := by
  refine line_messages_survive_iff _ _ _ (by decide) rfl ?_
  rw [contents_encodeAll]
  decide

/-- Cut behind its first byte the same message is taken for two. -/
theorem eot_message_torn :
    let msgs : List Bytes := [[0x04, 0x61]]
    let chunks : List Bytes := [[0x04], [0x61, 0x0d, 0x0a]]
    let x : Buffer UInt8 := Buffer.new.setSuggestSize 4
    (∀ m ∈ msgs, 0x0a ∉ m) ∧ x.contents = [] ∧
      chunks.flatten = (encodeAll LineCodec.codec msgs Buffer.new).contents ∧
      (receive LineCodec.codec x chunks).handed.map Handed.bytes = [[0x04], [0x61]] ∧
      (receive LineCodec.codec x chunks).handed.map Handed.bytes ≠ msgs := by
  refine ⟨by decide, rfl, ?_, by decide, by decide⟩
  rw [contents_encodeAll]
  decide

end Handy
