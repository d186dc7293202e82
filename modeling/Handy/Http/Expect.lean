import Handy.Http.HeaderLines
import Handy.Http.Serve

/-! # A request that waits to be told to go on

A client that sends `Expect` may hold its body back until it has seen an interim
response. `tryDecode_` looks the header up as `Expect`, but has put every name in
lower case, so it never finds one and no call answers `Continue100`. The read
events of a request are therefore answered as they should be exactly when the one
that completes the header block completes the body as well.
-/

namespace Handy

namespace HttpConn

open HttpMsg hiding cleared tryDecode_none
open HttpRequest

/-- A request that asks for an interim response: a start line with a path, header
lines with an `Expect` among them, and a body that is not empty. -/
structure ExpectRequest (line : Bytes) (lines : List (Bytes × Bytes)) (body : Bytes) : Prop where
  start : line ≠ [] ∧ ∀ c ∈ line, inLine c = true
  path : PathFirst line
  each : ∀ l ∈ lines, IsLine l
  expects : ∃ l ∈ lines, l.1.map tolower = expect.map tolower
  declares : Declares lines body
  positive : body ≠ []

/-- What the read events of a request should be answered, `n` bytes of it being
there: `Continue100` by the one that completes the header block and not the body. -/
def honoured (head total n : Nat) : List Bytes → List Outcome
  | [] => []
  | new :: later =>
      if total ≤ n + new.length then [.returned .complete]
      else if n < head ∧ head ≤ n + new.length then
        .returned .continue100 :: honoured head total (n + new.length) later
      else .returned .notComplete :: honoured head total (n + new.length) later

/-- Some event completes the header block, but not the body. -/
def BodyLate (head total n : Nat) : List Bytes → Prop
  | [] => False
  | new :: later =>
      (n < head ∧ head ≤ n + new.length ∧ n + new.length < total) ∨
        BodyLate head total (n + new.length) later

/-- What `tryDecode` answers in the read events of a server connection, up to the
one that settles the request. -/
def answers (c : HttpConn) : List Bytes → List Outcome
  | [] => []
  | new :: later =>
      let out := (c.req.tryDecode (c.input ++ new) true).outcome
      out :: if settled out then [] else answers (c.readAll new none) later

/-! ## What should be answered -/

theorem not_late_of_full {head total n : Nat} (hfull : total ≤ n) (chunks : List Bytes) :
    ¬ BodyLate head total n chunks := by
  induction chunks generalizing n with
  | nil => exact fun hlate => hlate
  | cons new later ih =>
      intro hlate
      rcases hlate with ⟨_, _, hpart⟩ | hlate
      · omega
      · exact ih (Nat.le_add_right_of_le hfull) hlate

theorem honoured_late {head total n : Nat} {chunks : List Bytes}
    (h : BodyLate head total n chunks) :
    .returned .continue100 ∈ honoured head total n chunks := by
  induction chunks generalizing n with
  | nil => cases h
  | cons new later ih =>
      unfold honoured
      split
      · next hfull =>
          rcases h with ⟨_, _, hpart⟩ | h
          · omega
          · exact absurd h (not_late_of_full hfull later)
      · next hpart =>
          rcases h with ⟨hbefore, hthere, _⟩ | h
          · rw [if_pos ⟨hbefore, hthere⟩]
            exact List.mem_cons_self
          · split
            · exact List.mem_cons_of_mem _ (ih h)
            · exact List.mem_cons_of_mem _ (ih h)

/-! ## What is answered -/

theorem takeBody_ne_continue (m : HttpMsg) (buf : Bytes) (copyBody : Bool) :
    (m.takeBody buf copyBody).outcome ≠ .returned .continue100 := by
  rcases takeBody_cases m buf copyBody with ⟨_, h⟩ | ⟨_, ⟨_, _, h⟩ | ⟨_, h⟩⟩
  · rw [h]
    simp
  · rw [h]
    simp
  · rw [h]
    simp

/-- No call asks for an interim response. -/
theorem tryDecode_ne_continue (b : Bytes) :
    (cleared.tryDecode b true).outcome ≠ .returned .continue100 := by
  cases hblock : headerBlock b with
  | none =>
      rw [tryDecode_none hblock]
      simp
  | some block =>
      cases hok : (parseHead block).ok with
      | false =>
          rw [(tryDecode_bad hblock hok true).1]
          simp
      | true =>
          have hbody := takeBody_ne_continue (parseHead block).msg (rewritten b block) true
          rw [tryDecode_some hblock hok]
          cases hout : ((parseHead block).msg.takeBody (rewritten b block) true).outcome with
          | lengthError =>
              unfold finish
              rw [hout]
              simp
          | returned r =>
              rw [finish_returned hout (takeBody_keeps_version _ _ _)]
              rw [hout] at hbody
              split
              · exact hbody
              · simp

section Answers

variable {c : HttpConn} {b : Bytes} {chunks : List Bytes}

theorem answers_ne_continue (h : Waiting c b) (hsized : Sized (b ++ chunks.flatten)) :
    .returned .continue100 ∉ c.answers chunks := by
  induction chunks generalizing c b with
  | nil => exact List.not_mem_nil
  | cons new later ih =>
      rw [List.flatten_cons, ← List.append_assoc] at hsized
      have hcall := h.decodes (Or.inl hsized.shorter)
      have hout : (c.req.tryDecode (c.input ++ new) true).outcome =
          (cleared.tryDecode (b ++ new) true).outcome := congrArg (·.result) hcall
      unfold answers
      simp only [hout]
      intro hmem
      rcases List.mem_cons.mp hmem with heq | hmem
      · exact tryDecode_ne_continue (b ++ new) heq.symm
      · cases hset : settled (cleared.tryDecode (b ++ new) true).outcome with
        | true =>
            rw [hset, if_pos rfl] at hmem
            exact List.not_mem_nil hmem
        | false =>
            rw [hset, if_neg Bool.false_ne_true] at hmem
            exact ih (h.waits (Or.inl hsized.shorter) hset none).1 hsized hmem

/-- A request that is accepted is waited for up to its last byte. -/
theorem tryDecode_prefix {f block : Bytes} (hblock : headerBlock f = some block)
    (haccepted : Accepted block)
    (hlen : (f.length : Int) = block.length + 4 + (parseHead block).declared) (hsized : Sized f)
    {p q : Bytes} (hsplit : p ++ q = f) (hq : q ≠ []) :
    (cleared.tryDecode p true).outcome = .returned .notComplete := by
  cases hhead : headerBlock p with
  | none => rw [tryDecode_none hhead]
  | some block' =>
      have hsame : block' = block := by
        have happ := headerBlock_append hhead q
        rw [hsplit, hblock] at happ
        exact (Option.some.inj happ).symm
      rw [hsame] at hhead
      rw [tryDecode_some hhead haccepted.lines]
      rcases takeBody_cases (parseHead block).msg (rewritten p block) true with
        ⟨_, hbody⟩ | ⟨henough, _⟩
      · rw [hbody, finish_returned rfl rfl, haccepted.line1]
        rfl
      · exfalso
        have hsize := (Head.contentLen_of_nonneg haccepted.declared).1
        have hscanned := (Head.scanned_msg hhead).1
        have hshort : p.length < f.length := by
          have hpos := List.length_pos_of_ne_nil hq
          rw [← hsplit, List.length_append]
          omega
        rw [length_rewritten hhead] at henough
        unfold Sized at hsized
        omega

/-- The read events of such a request are answered as they should be when none of
them is owed an interim response. -/
theorem answers_accepted {f block : Bytes} (hblock : headerBlock f = some block)
    (haccepted : Accepted block)
    (hlen : (f.length : Int) = block.length + 4 + (parseHead block).declared) (hsized : Sized f)
    {head : Nat} (h : Waiting c b) (hstream : b ++ chunks.flatten = f)
    (hearly : ¬ BodyLate head f.length b.length chunks) :
    c.answers chunks = honoured head f.length b.length chunks := by
  induction chunks generalizing c b with
  | nil => rfl
  | cons new later ih =>
      rw [List.flatten_cons, ← List.append_assoc] at hstream
      have hfits : Sized (b ++ new) := (hstream ▸ hsized : Sized (b ++ new ++ later.flatten)).shorter
      have hout : (c.req.tryDecode (c.input ++ new) true).outcome =
          (cleared.tryDecode (b ++ new) true).outcome :=
        congrArg (·.result) (h.decodes (Or.inl hfits))
      have hlater := congrArg List.length hstream
      rw [List.length_append, List.length_append] at hlater
      rw [BodyLate, not_or] at hearly
      unfold answers honoured
      simp only [hout]
      by_cases hfull : f.length ≤ b.length + new.length
      · have hnil : later.flatten = [] := List.length_eq_zero_iff.mp (by omega)
        rw [hnil, List.append_nil] at hstream
        rw [hstream, complete_of_accepted hblock haccepted (Int.le_of_eq hlen.symm), if_pos hfull]
        rfl
      · have hne : later.flatten ≠ [] := by
          intro hnil
          rw [hnil, List.length_nil] at hlater
          omega
        have hwait := tryDecode_prefix hblock haccepted hlen hsized hstream hne
        have hgoes : settled (cleared.tryDecode (b ++ new) true).outcome = false := by
          rw [hwait]
          rfl
        rw [← List.length_append] at hearly hfull
        have hrest := ih (h.waits (Or.inl hfits) hgoes none).1 hstream hearly.2
        have hother : ¬ (b.length < head ∧ head ≤ (b ++ new).length) :=
          fun hhere => hearly.1 ⟨hhere.1, hhere.2, Nat.lt_of_not_le hfull⟩
        rw [hwait, ← List.length_append, if_neg hfull, if_neg hother, ← hrest]
        rfl

end Answers

/-! ## Requests with `Expect` -/

/-- The header block of a request whose lines the decoder can read is accepted. -/
theorem ExpectRequest.accepted {line : Bytes} {lines : List (Bytes × Bytes)} {body : Bytes}
    (h : ExpectRequest line lines body) (hlegible : Legible lines) :
    let block := line ++ linesText (lines.map lineText)
    headerBlock (messageText line lines body) = some block ∧ Accepted block ∧
      ((messageText line lines body).length : Int) =
        block.length + 4 + (parseHead block).declared := by
  intro block
  have htext : messageText line lines body = block ++ (blank ++ body) :=
    messageText_eq line lines body
  have hblank : blank.length = 4 := rfl
  have hline1 := (parseHead_lines h.start.2 lines).1
  obtain ⟨hgood, hholds⟩ := hlegible.parsed h.start.2 h.each
  have hdeclared : (parseHead block).declared = body.length :=
    (declared_of_holds hholds h.declares).1
  have hstarted : (started (parseHead block).line1).2 = true := by
    rw [hline1, started, if_neg h.start.1]
    exact (startLine_ok cleared line).mpr h.path
  refine ⟨?_, ⟨hgood, hstarted, by omega⟩, ?_⟩
  · rw [htext]
    exact headerBlock_linesText h.start.1 h.start.2 (lineText_ok h.each) body
  · have hbehind : (blank ++ body).length = 4 + body.length := by
      rw [List.length_append, hblank]
    rw [htext, @List.length_append _ block, hbehind, hdeclared]
    omega

theorem waiting_fresh : Waiting fresh [] := waiting_clear rfl rfl rfl

/-- A request with `Expect`, cut anyhow into read events: an event that completes the
header block and not the body is never answered as it should be. Where the decoder
can read the lines, all events are, exactly when there is no such event. -/
theorem expect_honoured_iff (line : Bytes) (lines : List (Bytes × Bytes)) (body : Bytes)
    (h : ExpectRequest line lines body) (chunks : List Bytes)
    (hstream : chunks.flatten = messageText line lines body)
    (hsized : Sized (messageText line lines body)) :
    let head := (messageText line lines []).length
    let total := (messageText line lines body).length
    ((BodyLate head total 0 chunks → fresh.answers chunks = honoured head total 0 chunks) ↔
        ¬ BodyLate head total 0 chunks) ∧
      (Legible lines →
        (fresh.answers chunks = honoured head total 0 chunks ↔ ¬ BodyLate head total 0 chunks)) := by
  intro head total
  have hfits : Sized ([] ++ chunks.flatten) := by
    rw [List.nil_append, hstream]
    exact hsized
  have hnever : fresh.answers chunks = honoured head total 0 chunks →
      ¬ BodyLate head total 0 chunks := by
    intro heq hlate
    apply answers_ne_continue waiting_fresh hfits
    rw [heq]
    exact honoured_late hlate
  constructor
  · constructor
    · intro hkept hlate
      exact hnever (hkept hlate) hlate
    · exact fun hearly hlate => absurd hlate hearly
  · intro hlegible
    obtain ⟨hblock, haccepted, hlen⟩ := h.accepted hlegible
    constructor
    · exact hnever
    · intro hearly
      exact answers_accepted hblock haccepted hlen hsized waiting_fresh hstream hearly

/-- `EXPECT: 1`, and a `content-length` of two. -/
def expectLines : List (Bytes × Bytes) :=
  [([0x45, 0x58, 0x50, 0x45, 0x43, 0x54], [0x20, 0x31]), (contentLength, [0x20, 0x32])]

theorem expectRequest : ExpectRequest getLine expectLines [0x68, 0x69] where
  start := ⟨by decide, by decide +kernel⟩
  path := by
    unfold PathFirst
    decide
  each := by
    intro l hl
    simp only [expectLines, List.mem_cons, List.not_mem_nil, or_false] at hl
    rcases hl with rfl | rfl
    · exact ⟨by decide, by decide +kernel, by decide +kernel⟩
    · exact ⟨by decide, by decide +kernel, by decide +kernel⟩
  expects := ⟨_, List.mem_cons_self, by decide⟩
  declares := ⟨by decide, by decide, by decide +kernel, by decide⟩
  positive := List.cons_ne_nil _ _

/-- Its header block in one event, its body in the next. -/
def expectChunks : List Bytes := [messageText getLine expectLines [], [0x68, 0x69]]

theorem expect_honoured_iff_late :
    let head := (messageText getLine expectLines []).length
    let total := (messageText getLine expectLines [0x68, 0x69]).length
    ((BodyLate head total 0 expectChunks →
          fresh.answers expectChunks = honoured head total 0 expectChunks) ↔
        ¬ BodyLate head total 0 expectChunks) ∧
      (Legible expectLines →
        (fresh.answers expectChunks = honoured head total 0 expectChunks ↔
          ¬ BodyLate head total 0 expectChunks)) :=
  expect_honoured_iff getLine expectLines [0x68, 0x69] expectRequest expectChunks (by decide)
    (by unfold Sized; decide)

/-- The event that ought to be answered `Continue100` is answered `NotComplete`. -/
theorem expect_unanswered :
    ¬ ∀ (line : Bytes) (lines : List (Bytes × Bytes)) (body : Bytes),
      ExpectRequest line lines body → ∀ chunks : List Bytes,
      chunks.flatten = messageText line lines body → Sized (messageText line lines body) →
      let head := (messageText line lines []).length
      let total := (messageText line lines body).length
      BodyLate head total 0 chunks → fresh.answers chunks = honoured head total 0 chunks := by
  intro hall
  have hsized : Sized (messageText getLine expectLines [0x68, 0x69]) := by
    unfold Sized
    decide
  have hstream : expectChunks.flatten = messageText getLine expectLines [0x68, 0x69] := by decide
  have hlate : BodyLate (messageText getLine expectLines []).length
      (messageText getLine expectLines [0x68, 0x69]).length 0 expectChunks :=
    Or.inl ⟨by decide, by decide, by decide⟩
  have hfits : Sized ([] ++ expectChunks.flatten) := by
    rw [List.nil_append, hstream]
    exact hsized
  apply answers_ne_continue waiting_fresh hfits
  rw [hall _ _ _ expectRequest _ hstream hsized hlate]
  exact honoured_late hlate

end HttpConn

end Handy
