import Handy.Codec.Model
import Handy.Lib.Framing

/-! # The decode loop of `onMsg`

`onMsgLoop` is the loop of the lambda `TcpConn::onMsg` installs, run with a
callback that leaves the connection alone: decode, hand the message over,
consume. `receive` is that loop after each arrival. Both refine the receiver of
the framing library once the codec never answers more than it was given.
-/

namespace Handy

/-- One call `cb(con, msg)`: the input the codec saw, its answer and the slice. -/
structure Handed (α : Type) where
  data : List α
  ret : Int
  msg : Slice

/-- The bytes the callback reads through its slice. -/
def Handed.bytes {α : Type} (h : Handed α) : List α := h.msg.read h.data

/-- How the loop was left: `r == 0`, `r < 0`, `consume(r)` past the end of the
buffer, or not yet. -/
inductive LoopEnd where
  | waiting
  | refused
  | overrun
  | running
deriving DecidableEq, Repr

structure LoopResult (α : Type) where
  handed : List (Handed α)
  input : Buffer α
  stop : LoopEnd

/-- `while (r)`; the fuel bounds the iterations. -/
def onMsgLoop {α : Type} (codec : Codec α) : Nat → Buffer α → LoopResult α
  | 0, x => ⟨[], x, .running⟩
  | fuel + 1, x =>
      let data := x.contents
      let (r, msg) := codec.tryDecode data
      if r < 0 then ⟨[], x, .refused⟩
      else if r = 0 then ⟨[], x, .waiting⟩
      else if h : r.toNat ≤ x.size then
        let rest := onMsgLoop codec fuel (x.consume r.toNat h)
        ⟨⟨data, r, msg⟩ :: rest.handed, rest.input, rest.stop⟩
      else ⟨[⟨data, r, msg⟩], x, .overrun⟩

/-- `input_.append` of each arrival, then the loop; a refused frame closes the
connection. -/
def receive {α : Type} [Inhabited α] (codec : Codec α) (x : Buffer α) :
    List (List α) → LoopResult α
  | [] => ⟨[], x, .waiting⟩
  | chunk :: chunks =>
      let here := onMsgLoop codec ((x.append chunk).size + 1) (x.append chunk)
      match here.stop with
      | .waiting =>
          let later := receive codec here.input chunks
          ⟨here.handed ++ later.handed, later.input, later.stop⟩
      | _ => here

/-- The input stays below `limit` bytes whenever the loop is entered. -/
def InputBelow {α : Type} [Inhabited α] (codec : Codec α) (limit : Nat) (x : Buffer α) :
    List (List α) → Prop
  | [] => True
  | chunk :: chunks =>
      (x.append chunk).size < limit ∧
        InputBelow codec limit (onMsgLoop codec ((x.append chunk).size + 1) (x.append chunk)).input
          chunks

/-- The messages encoded one after the other into one buffer. -/
def encodeAll {α : Type} (codec : Codec α) (msgs : List (List α)) (buf : Buffer α) : Buffer α :=
  msgs.foldl (fun buf msg => codec.encode msg buf) buf

theorem contents_encodeAll {α : Type} (codec : Codec α) (msgs : List (List α)) (buf : Buffer α) :
    (encodeAll codec msgs buf).contents = buf.contents ++ msgs.flatMap codec.frame := by
  induction msgs generalizing buf with
  | nil => simp [encodeAll]
  | cons m ms ih =>
      rw [encodeAll, List.foldl_cons, ← encodeAll, ih, codec.contents_encode]
      simp

section Loop

variable {α : Type} {codec : Codec α}

theorem onMsgLoop_refused {x : Buffer α} (h : (codec.tryDecode x.contents).1 < 0) (fuel : Nat) :
    onMsgLoop codec (fuel + 1) x = ⟨[], x, .refused⟩ := by
  rw [onMsgLoop]
  exact if_pos h

theorem onMsgLoop_waiting {x : Buffer α} (h : (codec.tryDecode x.contents).1 = 0) (fuel : Nat) :
    onMsgLoop codec (fuel + 1) x = ⟨[], x, .waiting⟩ := by
  rw [onMsgLoop]
  simp only [h, Int.lt_irrefl, if_false, if_true]

theorem onMsgLoop_frame {x : Buffer α} (h : 0 < (codec.tryDecode x.contents).1)
    (hb : (codec.tryDecode x.contents).1.toNat ≤ x.size) (fuel : Nat) :
    onMsgLoop codec (fuel + 1) x =
      let rest := onMsgLoop codec fuel (x.consume (codec.tryDecode x.contents).1.toNat hb)
      ⟨⟨x.contents, (codec.tryDecode x.contents).1, (codec.tryDecode x.contents).2⟩ :: rest.handed,
        rest.input, rest.stop⟩ := by
  have hneg : ¬ (codec.tryDecode x.contents).1 < 0 := by omega
  have hzero : (codec.tryDecode x.contents).1 ≠ 0 := by omega
  rw [onMsgLoop]
  simp only [hneg, hzero, if_false, dif_pos hb]

theorem Codec.Bounded.le_size (hb : codec.Bounded) (x : Buffer α) :
    (codec.tryDecode x.contents).1.toNat ≤ x.size := by
  have h := hb x.contents
  rw [Buffer.contents_length] at h
  omega

/-- The three ways an iteration of a bounded codec goes, with the induction
hypothesis at the shorter input for the one that goes on. -/
theorem onMsgLoop_induction (hb : codec.Bounded) {motive : Buffer α → LoopResult α → Prop}
    (refused : ∀ x, (codec.tryDecode x.contents).1 < 0 → motive x ⟨[], x, .refused⟩)
    (waiting : ∀ x, (codec.tryDecode x.contents).1 = 0 → motive x ⟨[], x, .waiting⟩)
    (frame : ∀ (x : Buffer α) (rest : LoopResult α), 0 < (codec.tryDecode x.contents).1 →
      motive (x.consume (codec.tryDecode x.contents).1.toNat (hb.le_size x)) rest →
      motive x ⟨⟨x.contents, (codec.tryDecode x.contents).1, (codec.tryDecode x.contents).2⟩ ::
        rest.handed, rest.input, rest.stop⟩)
    (fuel : Nat) (x : Buffer α) (hfuel : x.size < fuel) : motive x (onMsgLoop codec fuel x) := by
  induction fuel generalizing x with
  | zero => omega
  | succ fuel ih =>
      rcases Int.lt_trichotomy (codec.tryDecode x.contents).1 0 with h | h | h
      · rw [onMsgLoop_refused h]
        exact refused x h
      · rw [onMsgLoop_waiting h]
        exact waiting x h
      · have hle := hb.le_size x
        rw [onMsgLoop_frame h hle]
        refine frame x _ h (ih _ ?_)
        rw [← Buffer.contents_length, Buffer.contents_consume, List.length_drop,
          Buffer.contents_length]
        omega

/-! ## Refinement of the framing receiver -/

/-- The codec's answer in the terms of the framing library. -/
def Codec.verdict (codec : Codec α) (data : List α) : Framing.Verdict (List α) :=
  let (r, msg) := codec.tryDecode data
  if r < 0 then .bad else if r = 0 then .more else .frame (msg.read data) r.toNat

theorem Codec.verdict_of_zero {data : List α} (h : (codec.tryDecode data).1 = 0) :
    codec.verdict data = .more := by
  simp only [Codec.verdict, h, Int.lt_irrefl, if_false, if_true]

theorem Codec.verdict_of_pos {data : List α} (h : 0 < (codec.tryDecode data).1) :
    codec.verdict data =
      .frame ((codec.tryDecode data).2.read data) (codec.tryDecode data).1.toNat := by
  have hneg : ¬ (codec.tryDecode data).1 < 0 := by omega
  have hzero : (codec.tryDecode data).1 ≠ 0 := by omega
  simp only [Codec.verdict, hneg, hzero, if_false]

theorem Codec.verdict_of_answer {data : List α} {n : Nat} {msg : Slice} (hn : 0 < n)
    (h : codec.tryDecode data = ((n : Int), msg)) :
    codec.verdict data = .frame (msg.read data) n := by
  have hpos : 0 < (codec.tryDecode data).1 := by
    rw [h]
    exact Int.natCast_pos.mpr hn
  rw [Codec.verdict_of_pos hpos, h, Int.toNat_natCast]

/-- The answers of a bounded codec cost what the largest positive ones do. -/
theorem Codec.costs (hb : codec.Bounded) {cost : List α → Nat}
    (h : ∀ data, 0 < (codec.tryDecode data).1 →
      (codec.tryDecode data).1.toNat ≤ cost ((codec.tryDecode data).2.read data)) :
    Framing.Costs codec.verdict cost := by
  have hframe : ∀ data msg n, codec.verdict data = .frame msg n →
      0 < n ∧ n ≤ data.length ∧ n ≤ cost msg := by
    intro data msg n hv
    have hle := hb data
    rcases Int.lt_trichotomy (codec.tryDecode data).1 0 with hneg | hzero | hpos
    · have hbad : codec.verdict data = .bad := if_pos hneg
      rw [hbad] at hv
      cases hv
    · rw [Codec.verdict_of_zero hzero] at hv
      cases hv
    · rw [Codec.verdict_of_pos hpos] at hv
      cases hv
      exact ⟨by omega, by omega, h data hpos⟩
  exact ⟨fun data m n h => (hframe data m n h).1, fun data m n h => (hframe data m n h).2.1,
    fun data m n h => (hframe data m n h).2.2⟩

/-- What a loop result shows of the framing receiver's. -/
def LoopResult.Shows (res : LoopResult α) (d : Framing.Drained α (List α)) : Prop :=
  res.handed.map Handed.bytes = d.msgs ∧ res.input.contents = d.rest ∧
    res.stop = if d.bad then .refused else .waiting

theorem onMsgLoop_shows (hb : codec.Bounded) (x : Buffer α) (fuel : Nat) (hfuel : x.size < fuel) :
    (onMsgLoop codec fuel x).Shows (Framing.drain codec.verdict fuel x.contents) := by
  induction fuel generalizing x with
  | zero => omega
  | succ fuel ih =>
      rcases Int.lt_trichotomy (codec.tryDecode x.contents).1 0 with h | h | h
      · have hv : codec.verdict x.contents = .bad := if_pos h
        rw [onMsgLoop_refused h, Framing.drain, hv]
        exact ⟨rfl, rfl, rfl⟩
      · rw [onMsgLoop_waiting h, Framing.drain, Codec.verdict_of_zero h]
        exact ⟨rfl, rfl, rfl⟩
      · have hle := hb.le_size x
        have hshort : (x.consume (codec.tryDecode x.contents).1.toNat hle).size < fuel := by
          rw [← Buffer.contents_length, Buffer.contents_consume, List.length_drop,
            Buffer.contents_length]
          omega
        have hrec := ih _ hshort
        rw [Buffer.contents_consume] at hrec
        obtain ⟨hmsgs, hrest, hstop⟩ := hrec
        rw [onMsgLoop_frame h hle, Framing.drain, Codec.verdict_of_pos h]
        exact ⟨by rw [List.map_cons, hmsgs]; rfl, hrest, hstop⟩

variable [Inhabited α]

theorem receive_shows (hb : codec.Bounded) (chunks : List (List α)) (x : Buffer α) :
    (receive codec x chunks).Shows (Framing.feed codec.verdict x.contents chunks) := by
  induction chunks generalizing x with
  | nil => exact ⟨rfl, rfl, rfl⟩
  | cons chunk chunks ih =>
      have hlen : (x.contents ++ chunk).length = (x.append chunk).size := by
        rw [← Buffer.contents_append, Buffer.contents_length]
      obtain ⟨hmsgs, hrest, hstop⟩ := onMsgLoop_shows hb (x.append chunk) _ (Nat.lt_succ_self _)
      rw [Buffer.contents_append] at hmsgs hrest hstop
      rw [receive, Framing.feed]
      simp only [hlen]
      cases hbad : (Framing.drain codec.verdict ((x.append chunk).size + 1)
          (x.contents ++ chunk)).bad with
      | true =>
          rw [hbad, if_pos rfl] at hstop
          simp only [hstop, if_true]
          exact ⟨hmsgs, hrest, by simp only [hstop, hbad, if_true]⟩
      | false =>
          rw [hbad] at hstop
          simp only [hstop, Bool.false_eq_true, if_false]
          obtain ⟨hm, hr, hs⟩ := ih (onMsgLoop codec ((x.append chunk).size + 1)
            (x.append chunk)).input
          rw [hrest] at hm hr hs
          exact ⟨by simp only [List.map_append, hmsgs, hm], hr, hs⟩

theorem feedFits_of_inputBelow (hb : codec.Bounded) {limit : Nat} (chunks : List (List α))
    (x : Buffer α) (h : InputBelow codec limit x chunks) :
    Framing.FeedFits codec.verdict (fun data => data.length < limit) x.contents chunks := by
  induction chunks generalizing x with
  | nil => trivial
  | cons chunk chunks ih =>
      have hlen : (x.contents ++ chunk).length = (x.append chunk).size := by
        rw [← Buffer.contents_append, Buffer.contents_length]
      have hrest := (onMsgLoop_shows hb (x.append chunk) _ (Nat.lt_succ_self _)).2.1
      rw [Buffer.contents_append] at hrest
      refine ⟨hlen.trans_lt h.1, ?_⟩
      rw [hlen, ← hrest]
      exact ih _ h.2

theorem receive_of_feed (hb : codec.Bounded) {x : Buffer α} (hx : x.contents = [])
    {chunks : List (List α)} {msgs : List (List α)}
    (hfeed : Framing.feed codec.verdict [] chunks = ⟨msgs, [], false⟩) :
    (receive codec x chunks).handed.map Handed.bytes = msgs ∧
      (receive codec x chunks).stop = .waiting ∧ (receive codec x chunks).input.contents = [] := by
  obtain ⟨hm, hr, hs⟩ := receive_shows hb chunks x
  rw [hx, hfeed] at hm hr hs
  exact ⟨hm, hs, hr⟩

/-- A codec lawful for the framing library, as far as `Cut` admits the cuts,
delivers any stream of its frames exactly. -/
theorem receive_frames_upTo (hb : codec.Bounded) {Ok : List α → Prop} {Fits Cut : List α → Prop}
    (law : Framing.LawfulUpTo codec.frame codec.verdict Ok Fits Cut)
    (hnil : codec.verdict [] = .more) {msgs : List (List α)} (hmsgs : ∀ m ∈ msgs, Ok m)
    {x : Buffer α} (hx : x.contents = []) {chunks : List (List α)}
    (hstream : chunks.flatten = msgs.flatMap codec.frame)
    (hfits : Framing.FeedFits codec.verdict Fits [] chunks)
    (hcuts : Framing.CutsFit codec.frame Cut msgs [] chunks) :
    (receive codec x chunks).handed.map Handed.bytes = msgs ∧
      (receive codec x chunks).stop = .waiting ∧ (receive codec x chunks).input.contents = [] :=
  receive_of_feed hb hx (Framing.feed_frames_upTo law hnil chunks hmsgs hstream hfits hcuts)

/-- A codec lawful for the framing library delivers any stream of its frames
exactly, however the stream was cut. -/
theorem receive_frames (hb : codec.Bounded) {Ok : List α → Prop} {limit : Nat}
    (law : Framing.Lawful codec.frame codec.verdict Ok (fun data => data.length < limit))
    (hnil : codec.verdict [] = .more) {msgs : List (List α)} (hmsgs : ∀ m ∈ msgs, Ok m)
    {x : Buffer α} (hx : x.contents = []) {chunks : List (List α)}
    (hstream : chunks.flatten = msgs.flatMap codec.frame) (hbelow : InputBelow codec limit x chunks) :
    (receive codec x chunks).handed.map Handed.bytes = msgs ∧
      (receive codec x chunks).stop = .waiting ∧ (receive codec x chunks).input.contents = [] := by
  have hfits := feedFits_of_inputBelow hb chunks x hbelow
  rw [hx] at hfits
  exact receive_of_feed hb hx (Framing.feed_frames law hnil chunks hmsgs hstream hfits)

theorem feed_of_receive (hb : codec.Bounded) (hnil : codec.verdict [] = .more) {x : Buffer α}
    (hx : x.contents = []) {chunks : List (List α)} {msgs : List (List α)}
    (hmsgs : (receive codec x chunks).handed.map Handed.bytes = msgs)
    (hrest : (receive codec x chunks).input.contents = []) {cost : List α → Nat}
    (hcost : Framing.Costs codec.verdict cost) :
    Framing.feed codec.verdict [] chunks = ⟨msgs, [], false⟩ := by
  obtain ⟨hm, hr, _⟩ := receive_shows hb chunks x
  rw [hmsgs, hx] at hm
  rw [hrest, hx] at hr
  have hend := Framing.feed_ends hcost chunks [] (Or.inr hnil)
  rw [← hr, hnil] at hend
  -- an empty input is never refused
  have hgood : (Framing.feed codec.verdict [] chunks).bad = false := by
    cases hbad : (Framing.feed codec.verdict [] chunks).bad with
    | false => rfl
    | true =>
        rw [hbad, if_pos rfl] at hend
        cases hend
  cases hfeed : Framing.feed codec.verdict [] chunks with
  | mk ms rest bad =>
      rw [hfeed] at hm hr hgood
      rw [hm, hr]
      exact congrArg _ hgood

end Loop

end Handy
