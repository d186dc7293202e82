import Handy.Http.Serve
import Handy.Http.Status

/-! # An HTTP client connection

`HttpConnPtr` on a client connection: `sendRequest` takes the last response out of the
buffer and clears the parser, `handleRead` decodes what has arrived and calls the
user's callback for a complete response. A call of the decoder that is not the last one
loses nothing, unless the first line of the response has no status word: then `atoi`
goes on behind it, into bytes that a later read replaces.
-/

namespace Handy

namespace HttpResponse

open HttpMsg

/-- One call, as a decoder that is called again; `behind` is what the buffer holds behind
what has arrived. -/
def call (behind : Bytes) (resp : HttpResponse) (buf : Bytes) :
    Resume.Call HttpResponse UInt8 Outcome :=
  let d := resp.tryDecode buf behind true
  ⟨d.msg, d.memory, d.outcome⟩

/-- The first line has a status word if it is there at all. -/
def Worded (xs : Bytes) : Prop := (Slice.eatLine xs).1 = [] ∨ secondWord (Slice.eatLine xs).1 ≠ []

instance (xs : Bytes) : Decidable (Worded xs) := inferInstanceAs (Decidable (_ ∨ _))

/-- What a stream has to be for the cuts not to matter. -/
structure Readable (xs : Bytes) : Prop where
  size : HttpRequest.Readable xs
  worded : (headerBlock xs).isSome → Worded xs

theorem eatLine_append {xs block : Bytes} (h : headerBlock xs = some block) (t : Bytes) :
    (Slice.eatLine (xs ++ t)).1 = (Slice.eatLine xs).1 := by
  rw [← line1_eq h, ← line1_eq (headerBlock_append h t)]

theorem Readable.shorter {xs ys : Bytes} (h : Readable (xs ++ ys)) : Readable xs where
  size := h.size.shorter
  worded hsome := by
    obtain ⟨block, hblock⟩ := Option.isSome_iff_exists.mp hsome
    have hworded := h.worded (by rw [headerBlock_append hblock]; rfl)
    unfold Worded at hworded ⊢
    rwa [eatLine_append hblock] at hworded

/-- What a first line with a status word makes of a new response. -/
def started (line1 : Bytes) : HttpResponse :=
  if line1 = [] then cleared
  else { cleared with
    version := (Slice.eatWord line1).1
    status := atoi (secondWord line1)
    statusWord := Slice.trimSpace (Slice.eatWord (Slice.eatWord line1).2).2 }

/-- A response with this message behind this first line. -/
def withLine (line1 : Bytes) (m : HttpMsg) : HttpResponse :=
  let resp := started line1
  { resp with toHttpMsg := { m with version := resp.version } }

@[simp] theorem cleared_toHttpMsg : cleared.toHttpMsg = HttpMsg.cleared := rfl

theorem withLine_nil {m : HttpMsg} (h : m.version = HttpMsg.cleared.version) :
    withLine [] m = { cleared with toHttpMsg := m } := by
  unfold withLine started
  rw [if_pos rfl]
  simp only [cleared, ← h]

/-- With a status word nothing behind the first line matters. -/
theorem startLine_worded (resp : HttpResponse) {line1 : Bytes} (hword : secondWord line1 ≠ [])
    {c : UInt8} (hc : inLine c = false) (t : Bytes) :
    resp.startLine line1 (line1 ++ c :: t) =
      { resp with
        version := (Slice.eatWord line1).1
        status := atoi (secondWord line1)
        statusWord := Slice.trimSpace (Slice.eatWord (Slice.eatWord line1).2).2 } := by
  have hstatus := status_of_secondWord resp hword hc t
  unfold startLine at hstatus ⊢
  simp only at hstatus ⊢
  rw [hstatus]

theorem tryDecode_some {b block : Bytes} (h : headerBlock b = some block)
    (hok : (parseHead block).ok = true) (hword : Worded b) {r : Result}
    (hout : ((parseHead block).msg.takeBody (rewritten b block) true).outcome = .returned r)
    (behind : Bytes) :
    cleared.tryDecode b behind true =
      ⟨withLine (parseHead block).line1 ((parseHead block).msg.takeBody (rewritten b block) true).msg,
        .returned r, rewritten b block,
        ((parseHead block).msg.takeBody (rewritten b block) true).range⟩ := by
  obtain ⟨c, t, hline, hc⟩ := rewritten_line1 h
  have hmemory : rewritten b block ++ behind = (parseHead block).line1 ++ c :: (t ++ behind) := by
    rw [hline, List.append_assoc, List.cons_append]
  have hword' : (parseHead block).line1 = [] ∨ secondWord (parseHead block).line1 ≠ [] := by
    rw [line1_eq h]
    exact hword
  unfold tryDecode
  rw [cleared_toHttpMsg, HttpMsg.tryDecode_some h, hok, if_pos rfl]
  have hversion := takeBody_keeps_version (parseHead block).msg (rewritten b block) true
  unfold finish
  simp only [hout, takeBody_memory]
  rcases hword' with hnil | hword'
  · simp only [hnil, if_true]
    rw [withLine_nil hversion]
  · have hne : (parseHead block).line1 ≠ [] := by
      rintro heq
      rw [heq] at hword'
      exact hword' rfl
    simp only [if_neg hne, hmemory, startLine_worded _ hword' hc]
    rw [withLine, started, if_neg hne]

theorem tryDecode_none {b : Bytes} (h : headerBlock b = none) (behind : Bytes) :
    cleared.tryDecode b behind true =
      ⟨{ cleared with scanned := (findBlank b 0).1 }, .returned .notComplete, b, none⟩ := by
  unfold tryDecode
  rw [cleared_toHttpMsg, HttpMsg.tryDecode_none h]
  rfl

/-- A search broken off in `p` goes on as the first search would. -/
theorem tryDecode_searching {p : Bytes} (h : headerBlock p = none) (t behind : Bytes) :
    { cleared with scanned := (findBlank p 0).1 }.tryDecode (p ++ t) behind true =
      cleared.tryDecode (p ++ t) behind true := by
  have hagain := tryDecode_resume h t true
  unfold tryDecode
  simp only [cleared_toHttpMsg, hagain]
  rfl

theorem tryDecode_behind {b : Bytes} (hword : (headerBlock b).isSome → Worded b)
    (behind behind' : Bytes) : cleared.tryDecode b behind true = cleared.tryDecode b behind' true := by
  cases hblock : headerBlock b with
  | none => rw [tryDecode_none hblock, tryDecode_none hblock]
  | some block =>
      have hword' := hword (by rw [hblock]; rfl)
      obtain ⟨c, t, hline, hc⟩ := rewritten_line1 hblock
      have hmemory : (HttpMsg.cleared.tryDecode_ b true).1.memory = rewritten b block := by
        rw [HttpMsg.tryDecode_some hblock]
        split
        · exact takeBody_memory _ _ _
        · rfl
      have hline1 : (HttpMsg.cleared.tryDecode_ b true).2 = (parseHead block).line1 := by
        rw [HttpMsg.tryDecode_some hblock]
        split <;> rfl
      have hall : ∀ k : Bytes, rewritten b block ++ k = (parseHead block).line1 ++ c :: (t ++ k) := by
        intro k
        rw [hline, List.append_assoc, List.cons_append]
      unfold tryDecode
      simp only [cleared_toHttpMsg]
      unfold finish
      simp only [hmemory, hline1]
      cases (HttpMsg.cleared.tryDecode_ b true).1.outcome with
      | lengthError => rfl
      | returned r =>
          simp only
          by_cases hnil : (parseHead block).line1 = []
          · rw [if_pos hnil, if_pos hnil]
          · have hsecond : secondWord (parseHead block).line1 ≠ [] := by
              rw [line1_eq hblock] at hnil ⊢
              exact hword'.resolve_left hnil
            rw [if_neg hnil, if_neg hnil, hall, hall, startLine_worded _ hsecond hc,
              startLine_worded _ hsecond hc]

theorem outcome_some {b block : Bytes} (h : headerBlock b = some block) (behind : Bytes) :
    (cleared.tryDecode b behind true).outcome =
      if (parseHead block).ok then
        ((parseHead block).msg.takeBody (rewritten b block) true).outcome
      else .returned .error := by
  unfold tryDecode
  rw [cleared_toHttpMsg, HttpMsg.tryDecode_some h]
  cases (parseHead block).ok with
  | false =>
      unfold finish
      simp only [Bool.false_eq_true, if_false]
      split <;> rfl
  | true =>
      unfold finish
      simp only [if_true]
      cases hout : ((parseHead block).msg.takeBody (rewritten b block) true).outcome with
      | lengthError => rfl
      | returned r =>
          simp only
          split <;> rfl

/-- What a call that leaves a parsed header block behind comes to. -/
theorem tryDecode_of_unsettled {b block behind : Bytes} (h : headerBlock b = some block)
    (hword : Worded b) (hgoes : settled (cleared.tryDecode b behind true).outcome = false) :
    let m := (parseHead block).msg
    (parseHead block).ok = true ∧ b.length < (m.contentLen + m.scanned) % 2 ^ 64 ∧
      cleared.tryDecode b behind true =
        ⟨withLine (parseHead block).line1 m, .returned .notComplete, rewritten b block, none⟩ := by
  intro m
  rw [outcome_some h] at hgoes
  cases hok : (parseHead block).ok with
  | false =>
      rw [hok] at hgoes
      cases hgoes
  | true =>
      rw [hok, if_pos rfl] at hgoes
      rcases takeBody_cases m (rewritten b block) true with
        ⟨hshort, hbody⟩ | ⟨-, ⟨-, -, hbody⟩ | ⟨-, hbody⟩⟩
      · rw [length_rewritten h] at hshort
        have hcall := tryDecode_some h hok hword (congrArg Decoded.outcome hbody) behind
        rw [hbody] at hcall
        exact ⟨rfl, hshort, hcall⟩
      · rw [hbody] at hgoes
        cases hgoes
      · rw [hbody] at hgoes
        cases hgoes

theorem tryDecode_waiting (line1 : Bytes) {m : HttpMsg} (hcomplete : m.complete = false)
    (hne : m.contentLen ≠ 0) (buf behind : Bytes) {r : Result}
    (hr : (m.takeBody buf true).outcome = .returned r) :
    (withLine line1 m).tryDecode buf behind true =
      ⟨withLine line1 (m.takeBody buf true).msg, .returned r, buf, (m.takeBody buf true).range⟩ := by
  have hbody : (withLine line1 m).toHttpMsg.tryDecode_ buf true =
      ((withLine line1 m).toHttpMsg.takeBody buf true, []) := by
    have hcomplete' : (withLine line1 m).complete = false := hcomplete
    have hlen' : (withLine line1 m).contentLen ≠ 0 := hne
    unfold tryDecode_
    rw [hcomplete', if_neg Bool.false_ne_true, if_neg hlen']
  have hversion : (withLine line1 m).toHttpMsg.takeBody buf true = _ :=
    takeBody_version m (started line1).version buf true
  unfold tryDecode
  rw [hbody, hversion]
  unfold finish
  simp only [takeBody_memory, hr, if_true]
  rfl

/-- A call that does not settle the response loses nothing. -/
theorem resumable : Resume.Resumable call settled Readable cleared where
  shorter _ _ h := h.shorter
  start := ⟨[], by decide +kernel⟩
  resumes k k' xs new hread hgoes := by
    have hgoes' : settled (cleared.tryDecode xs k true).outcome = false := hgoes
    cases hblock : headerBlock xs with
    | none =>
        have hcall : call k cleared xs =
            ⟨{ cleared with scanned := (findBlank xs 0).1 }, xs, .returned .notComplete⟩ := by
          unfold call
          rw [tryDecode_none hblock]
        rw [hcall]
        unfold call
        simp only [tryDecode_searching hblock]
    | some block =>
        have hworded : Worded xs := hread.shorter.worded (by rw [hblock]; rfl)
        have hworded' : Worded (xs ++ new) :=
          hread.worded (by rw [headerBlock_append hblock]; rfl)
        obtain ⟨hok, hshort, hcall⟩ := tryDecode_of_unsettled hblock hworded hgoes'
        obtain ⟨r, hr⟩ := HttpRequest.returned_of_short hblock hshort hread.size true
        have hr' := hr
        rw [← rewritten_append hblock] at hr'
        have honce := tryDecode_some (headerBlock_append hblock new) hok hworded' hr' k'
        have hne := Head.contentLen_ne_zero hblock hshort
        unfold call
        simp only [hcall, honce, tryDecode_waiting _ rfl hne _ _ hr, rewritten_append hblock]

/-- A call that has settled the response has settled it for every longer buffer, whatever is
behind. -/
theorem settled_append {xs t : Bytes} (hsized : HttpRequest.Sized (xs ++ t))
    (hread : Readable (xs ++ t)) (behind behind' : Bytes)
    (h : settled (cleared.tryDecode xs behind true).outcome = true) :
    (cleared.tryDecode (xs ++ t) behind' true).outcome =
        (cleared.tryDecode xs behind true).outcome ∧
      ((cleared.tryDecode xs behind true).outcome = .returned .complete →
        (cleared.tryDecode (xs ++ t) behind' true).msg = (cleared.tryDecode xs behind true).msg) := by
  cases hblock : headerBlock xs with
  | none =>
      rw [tryDecode_none hblock] at h
      cases h
  | some block =>
      have hblock' := headerBlock_append hblock t
      have hworded : Worded xs := hread.shorter.worded (by rw [hblock]; rfl)
      have hworded' : Worded (xs ++ t) := hread.worded (by rw [hblock']; rfl)
      rw [outcome_some hblock] at h ⊢
      rw [outcome_some hblock']
      cases hok : (parseHead block).ok with
      | false =>
          simp only [Bool.false_eq_true, if_false, true_and]
          exact nofun
      | true =>
          rw [hok, if_pos rfl] at h
          have hbody : ((parseHead block).msg.takeBody (rewritten xs block) true).outcome ≠
              .returned .notComplete := by
            intro hwaits
            rw [hwaits] at h
            cases h
          have hfit : true = true → (parseHead block).msg.contentLen ≤ maxSize →
              (parseHead block).msg.scanned + (parseHead block).msg.contentLen ≤
                (rewritten xs block).length := by
            intro _ hsmall
            rw [length_rewritten hblock]
            rcases takeBody_cases (parseHead block).msg (rewritten xs block) true with
              ⟨-, hshort⟩ | ⟨henough, -⟩
            · exact absurd (congrArg Decoded.outcome hshort) hbody
            · rw [length_rewritten hblock] at henough
              exact HttpRequest.fits_of_enough hblock hsized.shorter hsmall henough
          have hmore := takeBody_append hbody hfit t
          simp only [if_true]
          rw [rewritten_append hblock, hmore]
          refine ⟨rfl, fun hdone => ?_⟩
          rw [tryDecode_some hblock hok hworded hdone, tryDecode_some hblock' hok hworded'
            (r := .complete) (by rw [rewritten_append hblock, hmore]; exact hdone),
            rewritten_append hblock, hmore]

/-- However a response is cut, and whatever the buffer holds behind what has arrived, the calls
in turn end as one call on the whole stream does, with the same response when it is complete or
still waiting, and a complete response stays as it is; all this if the first line, once it is
there, is empty or has a status word. -/
theorem response_ignores_fragmentation (first : Bytes × Bytes) (later : List (Bytes × Bytes))
    (behind : Bytes) (hsized : (Resume.stream first later).length < 2 ^ 63)
    (hworded : (headerBlock (Resume.stream first later)).isSome →
      Worded (Resume.stream first later)) :
    let s := Resume.stream first later
    let c := Resume.inTurn call settled cleared [] first later
    let d := cleared.tryDecode s behind true
    c.result = d.outcome ∧
      (d.outcome = .returned .complete ∨ d.outcome = .returned .notComplete → c.state = d.msg) ∧
      (d.outcome = .returned .complete → ∀ t behind', (s ++ t).length < 2 ^ 63 →
        (cleared.tryDecode (s ++ t) behind' true).outcome = .returned .complete ∧
          (cleared.tryDecode (s ++ t) behind' true).msg = d.msg) := by
  intro s c d
  have hsized' : HttpRequest.Sized s := hsized
  have hread : Readable s := ⟨Or.inl hsized, hworded⟩
  obtain ⟨k, seen, rest, hsplit, -, hcall, hrest⟩ := Resume.inTurn_once resumable first later hread
  have hresult : c.result = (cleared.tryDecode seen k true).outcome := congrArg (·.result) hcall
  have hstate : c.state = (cleared.tryDecode seen k true).msg := congrArg (·.state) hcall
  have hsplit' : s = seen ++ rest := hsplit
  have hsame : (cleared.tryDecode seen k true).outcome = d.outcome ∧
      (d.outcome = .returned .complete ∨ d.outcome = .returned .notComplete →
        (cleared.tryDecode seen k true).msg = d.msg) := by
    cases hset : settled (cleared.tryDecode seen k true).outcome with
    | true =>
        obtain ⟨hout, hmsg⟩ :=
          settled_append (hsplit' ▸ hsized') (hsplit' ▸ hread) k behind hset
        rw [← hsplit'] at hout hmsg
        refine ⟨hout.symm, fun hd => ?_⟩
        rcases hd with hd | hd
        · exact (hmsg (hout.symm.trans hd)).symm
        · have hwaits : (cleared.tryDecode seen k true).outcome = .returned .notComplete :=
            hout.symm.trans hd
          rw [hwaits] at hset
          cases hset
    | false =>
        have hseen : s = seen := by
          rw [hsplit', hrest hset, List.append_nil]
        have hsame := tryDecode_behind hread.worded behind k
        rw [hseen] at hsame
        rw [show d = cleared.tryDecode seen k true from hseen ▸ hsame]
        exact ⟨rfl, fun _ => rfl⟩
  refine ⟨hresult.trans hsame.1, fun hd => hstate.trans (hsame.2 hd), fun hd t behind' hsize => ?_⟩
  have hread' : Readable (s ++ t) := by
    refine ⟨Or.inl hsize, fun _ => ?_⟩
    cases hblock : headerBlock s with
    | none =>
        have hnone : d.outcome = .returned .notComplete :=
          congrArg Decoded.outcome (tryDecode_none hblock behind)
        rw [hnone] at hd
        cases hd
    | some block =>
        have hworded' : Worded s := hworded (by rw [hblock]; rfl)
        unfold Worded at hworded' ⊢
        rwa [eatLine_append hblock]
  have hset : settled (cleared.tryDecode s behind true).outcome = true := by
    have hdone : (cleared.tryDecode s behind true).outcome = .returned .complete := hd
    rw [hdone]
    rfl
  obtain ⟨hout, hmsg⟩ := settled_append hsize hread' behind behind' hset
  exact ⟨hout.trans hd, hmsg hd⟩

/-- `V 404 N`, a header, and the body `hi`. -/
def cutResponse : List (Bytes × Bytes) :=
  [([0x37], [0x30, 0x34, 0x20, 0x4e, 0x0d, 0x0a, 0x63, 0x6f, 0x6e, 0x74, 0x65, 0x6e, 0x74, 0x2d,
      0x4c, 0x65, 0x6e, 0x67, 0x74, 0x68, 0x3a, 0x20, 0x32, 0x0d, 0x0a, 0x0d, 0x0a]),
    ([], [0x68, 0x69])]

theorem response_ignores_fragmentation_cut :
    (Resume.inTurn call settled cleared [] ([0x39], [0x56, 0x20, 0x34]) cutResponse).state.status =
        404 ∧
      (Resume.inTurn call settled cleared [] ([0x39], [0x56, 0x20, 0x34]) cutResponse).state.body =
        [0x68, 0x69] := by
  have h := response_ignores_fragmentation ([0x39], [0x56, 0x20, 0x34]) cutResponse []
    (by decide) (fun _ => by decide +kernel)
  rw [h.2.1 (Or.inl (by decide +kernel))]
  decide +kernel

/-! ## Whole responses -/

/-- One response: the parser takes all of it and nothing else. -/
structure Whole (g : Bytes) : Prop where
  outcome : (cleared.tryDecode g [] true).outcome = .returned .complete
  byte : (cleared.tryDecode g [] true).msg.getByte = g.length
  worded : Worded g

theorem finish_memory (resp : HttpResponse) (d : Decoded HttpMsg) (ln1 behind : Bytes) :
    (resp.finish d ln1 behind).memory = d.memory := by
  unfold finish
  simp only
  cases d.outcome with
  | lengthError => rfl
  | returned r =>
      simp only
      split <;> rfl

theorem length_memory (b behind : Bytes) :
    (cleared.tryDecode b behind true).memory.length = b.length := by
  cases hblock : headerBlock b with
  | none => rw [tryDecode_none hblock]
  | some block =>
      have hmemory : (HttpMsg.cleared.tryDecode_ b true).1.memory = rewritten b block := by
        rw [HttpMsg.tryDecode_some hblock]
        split
        · exact takeBody_memory _ _ _
        · rfl
      rw [tryDecode, cleared_toHttpMsg]
      simp only [finish_memory, hmemory, length_rewritten hblock]

theorem scanned_le_of_complete {b behind : Bytes} (hword : (headerBlock b).isSome → Worded b)
    (h : (cleared.tryDecode b behind true).outcome = .returned .complete) :
    (cleared.tryDecode b behind true).msg.scanned ≤ b.length := by
  cases hblock : headerBlock b with
  | none =>
      rw [tryDecode_none hblock] at h
      cases h
  | some block =>
      have hword' := hword (by rw [hblock]; rfl)
      have hout := outcome_some hblock behind
      rw [h] at hout
      cases hok : (parseHead block).ok with
      | false =>
          rw [hok] at hout
          cases hout
      | true =>
          rw [hok, if_pos rfl] at hout
          rw [tryDecode_some hblock hok hword' hout.symm]
          rcases takeBody_cases (parseHead block).msg (rewritten b block) true with
            ⟨-, hbody⟩ | ⟨henough, ⟨-, -, hbody⟩ | ⟨-, hbody⟩⟩
          · rw [hbody] at hout
            cases hout
          · rw [hbody] at hout
            cases hout
          · rw [length_rewritten hblock, Nat.add_comm] at henough
            rw [hbody]
            exact henough

theorem Whole.length_lt {g : Bytes} (h : Whole g) : g.length < 2 ^ 31 := by
  have hlt := toInt32_lt (cleared.tryDecode g [] true).msg.scanned
  have hbyte : toInt32 (cleared.tryDecode g [] true).msg.scanned = g.length := h.byte
  omega

theorem Whole.readable {g : Bytes} (h : Whole g) : Readable g := by
  refine ⟨Or.inl ?_, fun _ => h.worded⟩
  have hlt := h.length_lt
  unfold HttpRequest.Sized
  omega

theorem Whole.waits {p q : Bytes} (h : Whole (p ++ q)) (hq : q ≠ []) (behind : Bytes) :
    settled (cleared.tryDecode p behind true).outcome = false := by
  by_contra hset
  rw [Bool.not_eq_false] at hset
  have hsized : HttpRequest.Sized (p ++ q) := by
    have hlt := h.length_lt
    unfold HttpRequest.Sized
    omega
  obtain ⟨hout, hmsg⟩ := settled_append hsized h.readable behind [] hset
  have hdone : (cleared.tryDecode p behind true).outcome = .returned .complete :=
    hout.symm.trans h.outcome
  have hle := scanned_le_of_complete h.readable.shorter.worded hdone
  have hdown := toInt32_le (cleared.tryDecode (p ++ q) [] true).msg.scanned
  have hbyte : toInt32 (cleared.tryDecode (p ++ q) [] true).msg.scanned = (p ++ q).length := h.byte
  have hpos := List.length_pos_of_ne_nil hq
  rw [← hmsg hdone] at hle
  rw [List.length_append] at hbyte
  omega

end HttpResponse

/-- What an `HttpConnPtr` of a client points to: `input_` and what was given to `output_` of the
connection, the response of its `HttpContext`, and whether `close()` was called. `fault` says
that an exception left the loop or `consume` went past the end, `got` what the callback was
called with. -/
structure HttpClient where
  input : Bytes
  output : Bytes
  resp : HttpResponse
  closing : Bool
  fault : Bool
  got : List HttpResponse
deriving DecidableEq

namespace HttpClient

open HttpMsg hiding cleared tryDecode_none tryDecode_some
open HttpResponse

def fresh : HttpClient where
  input := []
  output := []
  resp := HttpResponse.cleared
  closing := false
  fault := false
  got := []

/-- `input_.consume`, which asks for no more than there is. -/
def consume (c : HttpClient) (len : Int) : HttpClient :=
  if 0 ≤ len ∧ len ≤ c.input.length then { c with input := c.input.drop len.toNat }
  else { c with fault := true }

/-- `HttpConnPtr::clearData` on a client. -/
def clearData (c : HttpClient) : HttpClient :=
  { c.consume c.resp.getByte with resp := HttpResponse.cleared }

/-- `HttpConnPtr::sendRequest`; `req` is what `encode` makes of the request. -/
def sendRequest (c : HttpClient) (req : Bytes) : HttpClient :=
  { c with output := c.output ++ req }.clearData

/-- The user's callback, with the request it sends. -/
def callback (c : HttpClient) (next : Option Bytes) : HttpClient :=
  let c := { c with got := c.got ++ [c.resp] }
  match next with
  | some req => c.sendRequest req
  | none => c

/-- `HttpConnPtr::handleRead` on a client. -/
def handleRead (c : HttpClient) (behind : Bytes) (next : Option Bytes) : HttpClient :=
  let d := c.resp.tryDecode c.input behind true
  let c := { c with resp := d.msg, input := d.memory }
  match d.outcome with
  | .lengthError => { c with fault := true }
  | .returned .error => { c with closing := true }
  | .returned .complete => c.callback next
  | .returned .notComplete | .returned .continue100 => c

/-- `TcpConn::handleRead` once it has read all there is. -/
def readAll (c : HttpClient) (new behind : Bytes) (next : Option Bytes) : HttpClient :=
  let c := { c with input := c.input ++ new }
  if c.input = [] then c else c.handleRead behind next

/-- No request is out: what is in the buffer is the last response. -/
structure Rested (c : HttpClient) : Prop where
  fault : c.fault = false
  closing : c.closing = false
  held : c.resp.getByte = c.input.length

/-- A response is awaited, `b` of it has arrived. -/
structure Awaiting (c : HttpClient) (b : Bytes) : Prop where
  fault : c.fault = false
  closing : c.closing = false
  paused : Resume.Paused call settled HttpResponse.cleared b c.resp c.input

theorem Rested.sendRequest {c : HttpClient} (h : c.Rested) (req : Bytes) :
    (c.sendRequest req).Awaiting [] ∧ (c.sendRequest req).got = c.got ∧
      (c.sendRequest req).output = c.output ++ req := by
  have hheld := h.held
  have hfits : 0 ≤ c.resp.getByte ∧ c.resp.getByte ≤ c.input.length := by omega
  have hdrop : c.input.drop c.resp.getByte.toNat = [] := by
    rw [hheld, Int.toNat_natCast, List.drop_length]
  have hsent : c.sendRequest req =
      { c with output := c.output ++ req, input := [], resp := HttpResponse.cleared } := by
    unfold HttpClient.sendRequest clearData consume
    simp only [if_pos hfits, hdrop]
  rw [hsent]
  exact ⟨⟨h.fault, h.closing, resumable.paused_nil⟩, rfl, rfl⟩

theorem Awaiting.length {c : HttpClient} {b : Bytes} (h : c.Awaiting b) :
    c.input.length = b.length := by
  obtain ⟨k, -, hleft, -⟩ := h.paused
  rw [hleft]
  exact length_memory b k

/-- A read event that brings a part of the response. -/
theorem Awaiting.waits {c : HttpClient} {b new later : Bytes} (h : c.Awaiting b)
    (hg : Whole (b ++ new ++ later)) (hlater : later ≠ []) (behind : Bytes) (next : Option Bytes) :
    (c.readAll new behind next).Awaiting (b ++ new) ∧ (c.readAll new behind next).got = c.got ∧
      (c.readAll new behind next).output = c.output := by
  have hgoes := hg.waits hlater behind
  have hcall := resumable.feed_eq h.paused behind hg.readable.shorter
  have hmsg : (c.resp.tryDecode (c.input ++ new) behind true).msg =
      (HttpResponse.cleared.tryDecode (b ++ new) behind true).msg := congrArg (·.state) hcall
  have hmemory : (c.resp.tryDecode (c.input ++ new) behind true).memory =
      (HttpResponse.cleared.tryDecode (b ++ new) behind true).memory := congrArg (·.left) hcall
  have hout : (c.resp.tryDecode (c.input ++ new) behind true).outcome =
      (HttpResponse.cleared.tryDecode (b ++ new) behind true).outcome := congrArg (·.result) hcall
  by_cases hnil : c.input ++ new = []
  · obtain ⟨hinput, hnew⟩ := List.append_eq_nil_iff.mp hnil
    have hkeep : c.readAll new behind next = c := by
      unfold readAll
      simp only [hnil, if_true]
      rw [← hinput]
    rw [hkeep, hnew, List.append_nil]
    exact ⟨h, rfl, rfl⟩
  · have hread : c.readAll new behind next =
        { c with input := c.input ++ new }.handleRead behind next := if_neg hnil
    rw [hread]
    unfold handleRead
    simp only [hout, hmsg, hmemory]
    have hpaused : Resume.Paused call settled HttpResponse.cleared (b ++ new)
        (HttpResponse.cleared.tryDecode (b ++ new) behind true).msg
        (HttpResponse.cleared.tryDecode (b ++ new) behind true).memory := ⟨behind, rfl, rfl, hgoes⟩
    generalize (HttpResponse.cleared.tryDecode (b ++ new) behind true).outcome = out at hgoes
    cases out with
    | lengthError => cases hgoes
    | returned r =>
        cases r with
        | error => cases hgoes
        | complete => cases hgoes
        | notComplete => exact ⟨⟨h.fault, h.closing, hpaused⟩, rfl, rfl⟩
        | continue100 => exact ⟨⟨h.fault, h.closing, hpaused⟩, rfl, rfl⟩

/-- A read event that brings the rest of the response calls the callback with it. -/
theorem Awaiting.completes {c : HttpClient} {b new : Bytes} (h : c.Awaiting b)
    (hg : Whole (b ++ new)) (behind : Bytes) (next : Option Bytes) :
    ∃ c' : HttpClient, c.readAll new behind next = c'.callback next ∧ c'.Rested ∧
      c'.got = c.got ∧ c'.output = c.output ∧
      c'.resp = (HttpResponse.cleared.tryDecode (b ++ new) [] true).msg := by
  have hcall := resumable.feed_eq h.paused behind hg.readable
  have hbehind := tryDecode_behind hg.readable.worded behind []
  have hmsg : (c.resp.tryDecode (c.input ++ new) behind true).msg =
      (HttpResponse.cleared.tryDecode (b ++ new) [] true).msg :=
    (congrArg (·.state) hcall).trans (congrArg Decoded.msg hbehind)
  have hmemory : (c.resp.tryDecode (c.input ++ new) behind true).memory =
      (HttpResponse.cleared.tryDecode (b ++ new) [] true).memory :=
    (congrArg (·.left) hcall).trans (congrArg Decoded.memory hbehind)
  have hout : (c.resp.tryDecode (c.input ++ new) behind true).outcome = .returned .complete :=
    ((congrArg (·.result) hcall).trans (congrArg Decoded.outcome hbehind)).trans hg.outcome
  have hne : c.input ++ new ≠ [] := by
    intro hnil
    have hlen := congrArg List.length hnil
    rw [List.length_append, h.length, ← List.length_append, List.length_nil] at hlen
    rw [List.length_eq_zero_iff.mp hlen] at hg
    exact absurd hg.outcome (by decide +kernel)
  refine ⟨{ c with
    input := (HttpResponse.cleared.tryDecode (b ++ new) [] true).memory
    resp := (HttpResponse.cleared.tryDecode (b ++ new) [] true).msg }, ?_,
    ⟨h.fault, h.closing, ?_⟩, rfl, rfl, rfl⟩
  · unfold readAll handleRead
    simp only [if_neg hne, hout, hmsg, hmemory]
  · simp only [length_memory]
    exact hg.byte

end HttpClient

end Handy
