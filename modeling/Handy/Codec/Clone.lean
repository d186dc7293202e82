import Handy.Codec.Safety

/-! # Codecs across a server

`TcpServer::onConnMsg` keeps one codec, and each connection the server accepts
gets its `clone()`. A client speaks to such a connection with a codec of the
kind the server was given, so the two understand each other as far as a clone
frames messages the way the original does. `BracketCodec::clone` makes a
`LineCodec`.
-/

namespace Handy

/-- `CodecBase::clone`, by the codec it makes. -/
def CodecKind.clone : CodecKind → CodecKind
  | line => line
  | length => length
  | bracket => line

/-- The members of `TcpServer` that decide what its connections do with messages. -/
structure TcpServer (Cb : Type) where
  codec : Option CodecKind
  msgcb : Option Cb

namespace TcpServer

variable {Cb : Type}

/-- `TcpServer::onConnMsg`. -/
def onConnMsg (_ : TcpServer Cb) (codec : CodecKind) (cb : Cb) : TcpServer Cb :=
  ⟨some codec, some cb⟩

/-- What `handleAccept` hands to `con->onMsg`, if it calls it. -/
def installed (server : TcpServer Cb) : Option (CodecKind × Cb) :=
  server.msgcb.bind fun cb => server.codec.map fun codec => (codec.clone, cb)

end TcpServer

/-- What the two ends of a connection have to agree on for one message and one
input: the bytes appended, and the answer with its slice. -/
structure SpeakAlike (near far : CodecKind) (msg : Bytes) (buf : Buffer UInt8) (data : Bytes) :
    Prop where
  encode : (near.codec.encode msg buf).contents = (far.codec.encode msg buf).contents
  decode : near.codec.tryDecode data = far.codec.tryDecode data

theorem speakAlike_refl (kind : CodecKind) (msg : Bytes) (buf : Buffer UInt8) (data : Bytes) :
    SpeakAlike kind kind msg buf data := ⟨rfl, rfl⟩

/-! ## Encoders -/

theorem getLast?_flatMap_frame (codec : Codec UInt8) (c : UInt8)
    (hlast : ∀ msg, (codec.frame msg).getLast? = some c) (msgs : List Bytes) (hne : msgs ≠ []) :
    (msgs.flatMap codec.frame).getLast? = some c := by
  obtain ⟨init, msg, rfl⟩ := List.eq_nil_or_concat msgs |>.resolve_left hne
  rw [List.concat_eq_append, List.flatMap_append, List.flatMap_singleton, List.getLast?_append,
    hlast msg]
  rfl

theorem LineCodec.getLast?_frame (msg : Bytes) : (codec.frame msg).getLast? = some 0x0a := by
  change (msg ++ [0x0d, 0x0a]).getLast? = some 0x0a
  simp

theorem BracketCodec.getLast?_frame (msg : Bytes) : (codec.frame msg).getLast? = some 0x7d := by
  change ([0x7b] ++ msg ++ [0x7d]).getLast? = some 0x7d
  rw [List.getLast?_append]
  rfl

/-- No stream of messages leaves both encoders alike. -/
theorem line_ne_bracket {msgs : List Bytes} (hne : msgs ≠ []) (buf : Buffer UInt8) :
    (encodeAll LineCodec.codec msgs buf).contents ≠
      (encodeAll BracketCodec.codec msgs buf).contents := by
  intro h
  rw [contents_encodeAll, contents_encodeAll] at h
  have hlast := congrArg List.getLast? (List.append_cancel_left h)
  rw [getLast?_flatMap_frame _ _ LineCodec.getLast?_frame msgs hne,
    getLast?_flatMap_frame _ _ BracketCodec.getLast?_frame msgs hne] at hlast
  exact absurd hlast (by decide)

/-- A clone writes a stream as the original does, unless the codec is the bracket
one and there is something to write. -/
theorem encodeAll_clone_iff (kind : CodecKind) (msgs : List Bytes) (buf : Buffer UInt8) :
    (encodeAll kind.clone.codec msgs buf).contents = (encodeAll kind.codec msgs buf).contents ↔
      kind ≠ .bracket ∨ msgs = [] := by
  cases kind with
  | line => exact iff_of_true rfl (Or.inl (by decide))
  | length => exact iff_of_true rfl (Or.inl (by decide))
  | bracket =>
      constructor
      · intro h
        by_contra hno
        exact line_ne_bracket (fun hnil => hno (Or.inr hnil)) buf h
      · rintro (h | rfl)
        · exact absurd rfl h
        · rfl

/-! ## Decoders -/

theorem LineCodec.scan_eq_unset_iff (data : Bytes) (i : Nat) (rest : Bytes) :
    scan data i rest = (0, .unset) ↔ 0x0a ∉ rest := by
  induction rest generalizing i with
  | nil => simp [scan]
  | cons c rest ih =>
      unfold scan
      by_cases hc : c = 0x0a
      · have hmem : 0x0a ∈ c :: rest := by rw [hc]; exact List.mem_cons_self
        have hend : ∀ n : Nat, n ≤ i → i ≤ n + 1 →
            (toInt32 (i + 1), Slice.ofLen 0 n) ≠ (0, .unset) := by
          intro n hn hi heq
          -- an empty line ends in the first two bytes, where the answer is not 0
          have hslice := congrArg Slice.pe (congrArg Prod.snd heq)
          simp only [Slice.ofLen, Slice.unset] at hslice
          have hret : toInt32 (i + 1) = 0 := congrArg Prod.fst heq
          rw [toInt32_of_lt (by omega)] at hret
          omega
        rw [if_pos hc]
        split
        · exact iff_of_false (hend (i - 1) (by omega) (by omega)) (not_not_intro hmem)
        · exact iff_of_false (hend i (Nat.le_refl i) (by omega)) (not_not_intro hmem)
      · rw [if_neg hc, ih (i + 1), List.mem_cons, not_or]
        exact ⟨fun h => ⟨fun heq => hc heq.symm, h⟩, fun h => h.2⟩

theorem BracketCodec.scan_eq_unset_iff (i : Nat) (rest : Bytes) :
    scan i rest = (0, .unset) ↔ 0x7d ∉ rest := by
  induction rest generalizing i with
  | nil => simp [scan]
  | cons c rest ih =>
      unfold scan
      by_cases hc : c = 0x7d
      · have hmem : 0x7d ∈ c :: rest := by rw [hc]; exact List.mem_cons_self
        rw [if_pos hc]
        refine iff_of_false (fun heq => ?_) (not_not_intro hmem)
        have hslice := congrArg Slice.pb (congrArg Prod.snd heq)
        simp [Slice.ofLen, Slice.unset] at hslice
      · rw [if_neg hc, ih (i + 1), List.mem_cons, not_or]
        exact ⟨fun h => ⟨fun heq => hc heq.symm, h⟩, fun h => h.2⟩

/-- Neither a line nor a bracketed message: both decoders wait for more. -/
def NoMessage (data : Bytes) : Prop :=
  0x0a ∉ data ∧ (2 < data.length → data[0]? = some 0x7b → 0x7d ∉ data)

/-- Where both find a message they find different ones: a line starts at the first
byte, a bracketed message behind it. -/
theorem tryDecode_line_eq_bracket_iff (data : Bytes) :
    LineCodec.tryDecode data = BracketCodec.tryDecode data ↔ data = [0x04] ∨ NoMessage data := by
  unfold LineCodec.tryDecode BracketCodec.tryDecode
  by_cases heot : isEot data = true
  · rw [if_pos heot, if_pos heot]
    exact iff_of_true rfl (Or.inl ((isEot_iff data).mp heot))
  · rw [if_neg heot, if_neg heot]
    have hne : data ≠ [0x04] := fun h => heot ((isEot_iff data).mpr h)
    rw [or_iff_right hne, NoMessage]
    by_cases hshort : data.length ≤ 2
    · rw [if_pos hshort, LineCodec.scan_eq_unset_iff]
      exact ⟨fun h => ⟨h, fun hlen => absurd hlen (by omega)⟩, fun h => h.1⟩
    · rw [if_neg hshort]
      by_cases hopen : data[0]? = some 0x7b
      · rw [if_neg (not_not_intro hopen)]
        have hboth : LineCodec.scan data 0 data = BracketCodec.scan 0 data →
            LineCodec.scan data 0 data = (0, .unset) := by
          intro heq
          rcases LineCodec.scan_spec data 0 data (Nat.zero_add _) with h | ⟨n, k, _, _, _, h⟩
          · exact h
          · rcases BracketCodec.scan_spec 0 data with h' | ⟨m, _, _, _, h'⟩
            · rw [heq, h']
            · rw [h, h'] at heq
              have hpb := congrArg Slice.pb (congrArg Prod.snd heq)
              simp [Slice.ofLen] at hpb
        constructor
        · intro heq
          have hline := hboth heq
          rw [heq] at hline
          exact ⟨(LineCodec.scan_eq_unset_iff data 0 data).mp (hboth heq),
            fun _ _ => (BracketCodec.scan_eq_unset_iff 0 data).mp hline⟩
        · rintro ⟨hline, hbracket⟩
          rw [(LineCodec.scan_eq_unset_iff data 0 data).mpr hline,
            (BracketCodec.scan_eq_unset_iff 0 data).mpr (hbracket (by omega) hopen)]
      · rw [if_pos hopen, LineCodec.scan_eq_unset_iff]
        exact ⟨fun h => ⟨h, fun _ h' => absurd h' hopen⟩, fun h => h.1⟩

theorem tryDecode_clone_iff (kind : CodecKind) (data : Bytes) :
    kind.clone.codec.tryDecode data = kind.codec.tryDecode data ↔
      kind ≠ .bracket ∨ data = [0x04] ∨ NoMessage data := by
  cases kind with
  | line => exact iff_of_true rfl (Or.inl (by decide))
  | length => exact iff_of_true rfl (Or.inl (by decide))
  | bracket =>
      rw [or_iff_right (not_not_intro rfl)]
      exact tryDecode_line_eq_bracket_iff data

/-! ## The two ends of a connection -/

/-- Whatever is written and read, an accepted connection speaks as the codec the
server was given exactly when that is not the bracket codec; the streams that come
out alike with it are the empty one, and the inputs those with no message in them. -/
theorem accepted_speaks_alike_iff {Cb : Type} (server : TcpServer Cb) (kind : CodecKind) (cb : Cb) :
    ∃ far, (server.onConnMsg kind cb).installed = some (far, cb) ∧
      (∀ msg buf data, SpeakAlike far kind msg buf data ↔ kind ≠ .bracket) ∧
      (∀ msgs buf, (encodeAll far.codec msgs buf).contents =
          (encodeAll kind.codec msgs buf).contents ↔ kind ≠ .bracket ∨ msgs = []) ∧
      (∀ data, far.codec.tryDecode data = kind.codec.tryDecode data ↔
          kind ≠ .bracket ∨ data = [0x04] ∨ NoMessage data) ∧
      (kind ≠ .bracket → ∀ chunks buf, receive far.codec buf chunks =
          receive kind.codec buf chunks) := by
  have hclone : kind ≠ .bracket → kind.clone = kind := by
    cases kind with
    | line => exact fun _ => rfl
    | length => exact fun _ => rfl
    | bracket => exact fun h => absurd rfl h
  refine ⟨kind.clone, rfl, fun msg buf data => ⟨fun h => ?_, fun h => ?_⟩, encodeAll_clone_iff kind,
    tryDecode_clone_iff kind, fun h chunks buf => by rw [hclone h]⟩
  · have hone := (encodeAll_clone_iff kind [msg] buf).mp h.encode
    exact hone.resolve_right (List.cons_ne_nil msg [])
  · rw [hclone h]
    exact speakAlike_refl kind msg buf data

/-- A client that writes `{a}` to a server made with the bracket codec: the
connection waits for the end of a line, and answers `a` with one. -/
theorem bracket_server_answers_lines : ¬ ∀ (server : TcpServer Unit) (kind : CodecKind) (far),
    (server.onConnMsg kind ()).installed = some (far, ()) →
      ∀ msg buf data, SpeakAlike far kind msg buf data := by
  intro h
  have hdecode := (h ⟨none, none⟩ .bracket .line rfl [] Buffer.new [0x7b, 0x61, 0x7d]).decode
  exact absurd hdecode (by decide)

end Handy
