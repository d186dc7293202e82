import Handy.Http.Fragments

/-! # The path of a dispatched request

`tryDecode` checks the path only when the first line of the header block is not
empty. A block that begins with a line end has an empty one, so such a request is
complete without a path, and `HttpServer` looks up an empty `uri`. For every other
stream a complete request has a path, whatever calls it took.
-/

namespace Handy

namespace HttpRequest

open HttpMsg

/-- A call after which the message is given up: the connection is closed, or the
process is gone. -/
def ended : Outcome → Bool
  | .returned .error | .lengthError => true
  | _ => false

/-- `query_uri` and `uri` begin with `/`. -/
def ValidPath (req : HttpRequest) : Prop :=
  req.queryUri.head? = some 0x2f ∧ req.uri.head? = some 0x2f

instance (req : HttpRequest) : Decidable (ValidPath req) :=
  inferInstanceAs (Decidable (_ ∧ _))

/-- The path is what this first line gives. -/
structure FromLine (req : HttpRequest) (line1 : Bytes) : Prop where
  accepted : (started line1).2 = true
  queryUri : req.queryUri = (started line1).1.queryUri
  uri : req.uri = (started line1).1.uri

/-- A first line that is accepted gives a path exactly when it is not empty. -/
theorem FromLine.valid_iff {req : HttpRequest} {line1 : Bytes} (h : FromLine req line1) :
    ValidPath req ↔ line1 ≠ [] := by
  unfold ValidPath
  rw [h.queryUri, h.uri]
  by_cases hline : line1 = []
  · simp [hline, started, cleared]
  · have haccepted := h.accepted
    unfold started at haccepted ⊢
    rw [if_neg hline] at haccepted ⊢
    unfold startLine at haccepted ⊢
    simp only at haccepted ⊢
    split at haccepted
    · next hslash =>
        simp only [hslash, if_true]
        split
        · simp [hslash, hline]
        · obtain ⟨rest, hrest⟩ : ∃ rest, (Slice.eatWord (Slice.eatWord line1).2).1 = 0x2f :: rest :=
            List.head?_eq_some_iff.mp hslash
          simp [hrest, hline]
    · cases haccepted

/-- Between two calls the header block is searched for, or has given the path. -/
def Located (xs : Bytes) (req : HttpRequest) (held : Bytes) : Prop :=
  headerBlock xs = none ∧ req = { cleared with scanned := (findBlank xs 0).1 } ∧ held = xs ∨
    ∃ block, headerBlock xs = some block ∧ FromLine req (parseHead block).line1 ∧
      (req.complete = true ∨ req.contentLen ≠ 0)

/-- Once the header block has been parsed no call looks at it again. -/
theorem tryDecode_parsed {req : HttpRequest} (h : req.complete = true ∨ req.contentLen ≠ 0)
    (buf : Bytes) (copyBody : Bool) :
    let d := req.tryDecode buf copyBody
    d.msg.queryUri = req.queryUri ∧ d.msg.uri = req.uri ∧
      (d.msg.complete = true ∨ d.msg.contentLen ≠ 0) := by
  intro d
  by_cases hcomplete : req.complete = true
  · have hcall : req.toHttpMsg.tryDecode_ buf copyBody =
        (⟨req.toHttpMsg, .returned .complete, buf, none⟩, []) := by
      unfold tryDecode_
      rw [if_pos hcomplete]
    have hd : d = ⟨req, .returned .complete, buf, none⟩ := by
      simp only [d, tryDecode, hcall]
      rfl
    rw [hd]
    exact ⟨rfl, rfl, Or.inl hcomplete⟩
  · have hlen := h.resolve_left hcomplete
    have hcall : req.toHttpMsg.tryDecode_ buf copyBody =
        (req.toHttpMsg.takeBody buf copyBody, []) := by
      unfold tryDecode_
      rw [if_neg hcomplete, if_neg hlen]
    have hd : d.msg = { req with toHttpMsg := (req.toHttpMsg.takeBody buf copyBody).msg } := by
      simp only [d, tryDecode, hcall, finish]
      cases (req.toHttpMsg.takeBody buf copyBody).outcome <;> rfl
    rw [hd]
    refine ⟨rfl, rfl, Or.inr ?_⟩
    rcases takeBody_cases req.toHttpMsg buf copyBody with ⟨-, heq⟩ | ⟨-, ⟨-, -, heq⟩ | ⟨-, heq⟩⟩ <;>
      rw [heq] <;> exact hlen

/-- What the first call that finds the header block leaves, unless it ends the
message. -/
theorem fromLine_of_goes {b block : Bytes} (h : headerBlock b = some block) {copyBody : Bool}
    (hgoes : ended (cleared.tryDecode b copyBody).outcome = false) :
    FromLine (cleared.tryDecode b copyBody).msg (parseHead block).line1 ∧
      ((cleared.tryDecode b copyBody).msg.complete = true ∨
        (cleared.tryDecode b copyBody).msg.contentLen ≠ 0) := by
  cases hok : (parseHead block).ok with
  | false =>
      rw [(tryDecode_bad h hok copyBody).1] at hgoes
      cases hgoes
  | true =>
      have hcall := tryDecode_some h hok copyBody
      have hout : ∀ r, ((parseHead block).msg.takeBody (rewritten b block) copyBody).outcome =
          .returned r → FromLine (cleared.tryDecode b copyBody).msg (parseHead block).line1 ∧
            (cleared.tryDecode b copyBody).msg = withLine (parseHead block).line1
              ((parseHead block).msg.takeBody (rewritten b block) copyBody).msg := by
        intro r hr
        rw [finish_returned hr (takeBody_keeps_version _ _ _)] at hcall
        rw [hcall] at hgoes ⊢
        refine ⟨⟨?_, rfl, rfl⟩, rfl⟩
        by_contra hrefused
        rw [if_neg hrefused] at hgoes
        cases hgoes
      rcases takeBody_cases (parseHead block).msg (rewritten b block) copyBody with
        ⟨hshort, hbody⟩ | ⟨-, ⟨-, -, hbody⟩ | ⟨-, hbody⟩⟩
      · obtain ⟨hline, hmsg⟩ := hout _ (congrArg Decoded.outcome hbody)
        rw [length_rewritten h] at hshort
        rw [hbody] at hmsg
        exact ⟨hline, Or.inr (hmsg ▸ Head.contentLen_ne_zero h hshort)⟩
      · rw [hbody] at hcall
        rw [hcall] at hgoes
        cases hgoes
      · obtain ⟨hline, hmsg⟩ := hout _ (congrArg Decoded.outcome hbody)
        rw [hbody] at hmsg
        exact ⟨hline, Or.inl (hmsg ▸ rfl)⟩

/-- What a complete request owes to the stream. -/
def HasPath (xs : Bytes) (c : Resume.Call HttpRequest UInt8 Outcome) : Prop :=
  c.result = .returned .complete →
    ∃ block, headerBlock xs = some block ∧ FromLine c.state (parseHead block).line1

theorem locatedRule (inPlace : Bool) :
    Resume.Rule (call inPlace) ended (fun _ => True) Located fun _ xs c => HasPath xs c where
  shorter _ _ _ := trivial
  spec k xs req held new _ hat := by
    rcases hat with ⟨hblock, rfl, rfl⟩ | ⟨block, hblock, hline, hparsed⟩
    · unfold call
      rw [tryDecode_searching hblock]
      intro hout
      have hout' : (cleared.tryDecode (held ++ new) k).outcome = .returned .complete := hout
      cases hnext : headerBlock (held ++ new) with
      | none =>
          rw [tryDecode_none hnext] at hout'
          cases hout'
      | some block =>
          exact ⟨block, rfl, (fromLine_of_goes hnext (hout' ▸ rfl)).1⟩
    · obtain ⟨hquery, huri, -⟩ := tryDecode_parsed hparsed (held ++ new) k
      exact fun _ => ⟨block, headerBlock_append hblock new,
        ⟨hline.accepted, hquery.trans hline.queryUri, huri.trans hline.uri⟩⟩
  goes k xs req held new _ hat hgoes := by
    rcases hat with ⟨hblock, rfl, rfl⟩ | ⟨block, hblock, hline, hparsed⟩
    · unfold call at hgoes ⊢
      rw [tryDecode_searching hblock] at hgoes ⊢
      cases hnext : headerBlock (held ++ new) with
      | none =>
          rw [tryDecode_none hnext]
          exact Or.inl ⟨hnext, rfl, by cases inPlace <;> rfl⟩
      | some block =>
          exact Or.inr ⟨block, hnext, fromLine_of_goes hnext hgoes⟩
    · obtain ⟨hquery, huri, hnext⟩ := tryDecode_parsed hparsed (held ++ new) k
      exact Or.inr ⟨block, headerBlock_append hblock new,
        ⟨hline.accepted, hquery.trans hline.queryUri, huri.trans hline.uri⟩, hnext⟩

/-- Whatever the calls on a new request, with no error before: when one of them
returns `Complete` the path is there exactly if the stream does not begin with a
line end. -/
theorem complete_path_iff (inPlace : Bool) (first : Bool × Bytes) (later : List (Bool × Bytes)) :
    let c := Resume.inTurn (call inPlace) ended cleared [] first later
    c.result = .returned .complete →
      (ValidPath c.state ↔ ∀ x, (Resume.stream first later).head? = some x → x ≠ 0x0d ∧ x ≠ 0x0a) := by
  intro c hc
  have hstart : Located [] cleared [] := Or.inl ⟨rfl, rfl, rfl⟩
  obtain ⟨k, seen, rest, hsplit, -, hpath, -⟩ :=
    Resume.inTurn_spec (locatedRule inPlace) hstart first later trivial
  obtain ⟨block, hblock, hline⟩ := hpath hc
  obtain ⟨hne, -, -, htake⟩ := headerBlock_eq_some hblock
  obtain ⟨x, tail, rfl⟩ := List.exists_cons_of_ne_nil hne
  have hfirst : (Resume.stream first later).head? = some x := by
    rw [List.nil_append] at hsplit
    rw [hsplit, ← List.take_append_drop (x :: tail).length seen, htake]
    rfl
  have hline1 : (parseHead (x :: tail)).line1 = [] ↔ x = 0x0a ∨ x = 0x0d :=
    Slice.eatLine_eq_nil x tail
  rw [hline.valid_iff, hfirst, ne_eq, hline1, not_or]
  exact ⟨fun h y hy => by cases hy; exact ⟨h.2, h.1⟩, fun h => ⟨(h x rfl).2, (h x rfl).1⟩⟩

theorem complete_path_iff_cut :
    let later := cutRequest.map (true, ·)
    ValidPath (Resume.inTurn (call true) ended cleared [] (true, [0x47, 0x20, 0x2f]) later).state := by
  intro later
  refine (complete_path_iff true (true, [0x47, 0x20, 0x2f]) later (by decide +kernel)).mpr ?_
  intro x hx
  have hx' : x = 0x47 := by
    simpa [Resume.stream] using hx.symm
  rw [hx']
  decide

/-- A line end, a header and the blank line are a complete request without a
path. -/
theorem blank_line_has_no_path :
    let d := cleared.tryDecode [0x0d, 0x0a, 0x61, 0x3a, 0x20, 0x62, 0x0d, 0x0a, 0x0d, 0x0a] true
    d.outcome = .returned .complete ∧ d.msg.uri = [] ∧ d.msg.queryUri = [] ∧ ¬ ValidPath d.msg := by
  decide +kernel

end HttpRequest

end Handy
