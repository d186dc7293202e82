import Handy.Http.Message

/-! # What one call of `tryDecode` does

A call either still looks for the blank line, or has the header block in front
of it, or takes the body. The three parts are told apart by `headerBlock`, which
says where the search from the start of the buffer ends; more bytes behind a
block do not change it, and a search that was broken off goes on where it
stopped.
-/

namespace Handy

namespace HttpMsg

/-! ## The blank line -/

theorem le_findBlank (xs : Bytes) (n : Nat) : n ≤ (findBlank xs n).1 := by
  induction xs generalizing n with
  | nil => exact Nat.le_refl n
  | cons c rest ih =>
      unfold findBlank
      split
      · exact Nat.le_refl n
      · split
        · exact Nat.le_refl n
        · exact Nat.le_trans (Nat.le_succ n) (ih (n + 1))

theorem length_of_findBlank {xs : Bytes} {n : Nat} (h : (findBlank xs n).2 = true) :
    (findBlank xs n).1 + 4 ≤ n + xs.length := by
  induction xs generalizing n with
  | nil => simp [findBlank] at h
  | cons c rest ih =>
      unfold findBlank at h ⊢
      split at h
      · simp at h
      · next hlen =>
          rw [if_neg hlen]
          split at h
          · next hblank =>
              rw [if_pos hblank, List.length_cons]
              omega
          · next hblank =>
              have hrest := ih h
              rw [if_neg hblank, List.length_cons]
              omega

theorem take_four_cons_append (c : UInt8) {xs : Bytes} (t : Bytes) (h : 3 ≤ xs.length) :
    (c :: (xs ++ t)).take 4 = (c :: xs).take 4 := by
  rw [List.take_succ_cons, List.take_succ_cons, List.take_append_of_le_length h]

theorem findBlank_append {xs : Bytes} {n : Nat} (h : (findBlank xs n).2 = true) (t : Bytes) :
    findBlank (xs ++ t) n = findBlank xs n := by
  induction xs generalizing n with
  | nil => simp [findBlank] at h
  | cons c rest ih =>
      unfold findBlank at h
      rw [List.cons_append, findBlank, findBlank]
      split at h
      · simp at h
      · next hlen =>
          have hlen' : ¬ (rest ++ t).length < 3 := by
            rw [List.length_append]
            omega
          have htake : (c :: (rest ++ t)).take 4 = (c :: rest).take 4 :=
            take_four_cons_append c t (by omega)
          rw [if_neg hlen, if_neg hlen', htake]
          split at h
          · next hblank => rw [if_pos hblank, if_pos hblank]
          · next hblank =>
              rw [if_neg hblank, if_neg hblank]
              exact ih h

/-- A search that ran out of bytes goes on from there as if it had not stopped. -/
theorem findBlank_resume {xs : Bytes} {n : Nat} (h : (findBlank xs n).2 = false) (t : Bytes) :
    findBlank ((xs ++ t).drop ((findBlank xs n).1 - n)) (findBlank xs n).1 =
      findBlank (xs ++ t) n := by
  induction xs generalizing n with
  | nil => simp [findBlank]
  | cons c rest ih =>
      unfold findBlank at h
      split at h
      · next hlen => simp [findBlank, hlen]
      · next hlen =>
          split at h
          · simp at h
          · next hblank =>
              have hle := le_findBlank rest (n + 1)
              have hlen' : ¬ (rest ++ t).length < 3 := by
                rw [List.length_append]
                omega
              have htake : (c :: (rest ++ t)).take 4 = (c :: rest).take 4 :=
                take_four_cons_append c t (by omega)
              have hfirst : findBlank (c :: rest) n = findBlank rest (n + 1) := by
                rw [findBlank, if_neg hlen, if_neg hblank]
              have hdrop : (findBlank rest (n + 1)).1 - n = (findBlank rest (n + 1)).1 - (n + 1) + 1 := by
                omega
              rw [hfirst, hdrop, List.cons_append, List.drop_succ_cons, ih h]
              conv_rhs => rw [findBlank, if_neg hlen', htake, if_neg hblank]

/-- The header block at the front of `b`, if it has arrived whole and is not
empty. -/
def headerBlock (b : Bytes) : Option Bytes :=
  let (n, found) := findBlank b 0
  if found ∧ n ≠ 0 then some (b.take n) else none

theorem headerBlock_eq_some {b block : Bytes} (h : headerBlock b = some block) :
    block ≠ [] ∧ block.length + 4 ≤ b.length ∧ (findBlank b 0) = (block.length, true) ∧
      b.take block.length = block := by
  unfold headerBlock at h
  simp only at h
  split at h
  · next hfound =>
      have hlen := length_of_findBlank hfound.1
      have hblock := Option.some.inj h
      have hsize : block.length = (findBlank b 0).1 := by
        rw [← hblock, List.length_take]
        omega
      refine ⟨?_, by omega, ?_, by rw [hsize, hblock]⟩
      · rintro rfl
        exact hfound.2 hsize.symm
      · rw [hsize, ← hfound.1]
  · cases h

theorem headerBlock_append {b block : Bytes} (h : headerBlock b = some block) (t : Bytes) :
    headerBlock (b ++ t) = some block := by
  obtain ⟨hne, hlen, hfind, htake⟩ := headerBlock_eq_some h
  have happ : findBlank (b ++ t) 0 = findBlank b 0 := findBlank_append (by rw [hfind]) t
  have hpos : block.length ≠ 0 := fun hz => hne (List.length_eq_zero_iff.mp hz)
  unfold headerBlock
  rw [happ, hfind]
  simp only [true_and, ne_eq, hpos, not_false_eq_true, if_true, Option.some.injEq]
  rw [List.take_append_of_le_length (by omega), htake]

/-! ## The header lines -/

theorem length_headerLines (hs : Dict) (req : Bytes) :
    (headerLines hs req).2.2.length = req.length := by
  induction hs, req using headerLines.induct with
  | case1 => simp [headerLines]
  | case2 => simp [headerLines]
  | case3 hs c d rest ln k value hword name ih =>
      have hline := congrArg List.length (Slice.eatLine_append rest)
      have hparts := congrArg List.length (Slice.eatWord_append ln.1)
      rw [headerLines]
      simp only [List.length_append] at hline hparts
      simp only [ln, k, value, name] at hword hparts ih ⊢
      simp only [hword, if_true, ne_eq, not_false_eq_true, and_self, List.length_append, List.length_cons,
        List.length_map, ih]
      omega
  | case4 hs c d rest ln k value hword hend =>
      rw [headerLines, if_neg hword, if_pos hend]
  | case5 hs c d rest ln k value hword hend =>
      rw [headerLines, if_neg hword, if_neg hend]

/-- Every name in the map is in lower case. -/
def LowerNames (hs : Dict) : Prop := ∀ k, k ∈ hs → k.map tolower = k

theorem tolower_tolower (c : UInt8) : tolower (tolower c) = tolower c := by
  unfold tolower
  split
  · next h =>
      rw [if_neg]
      rintro ⟨-, hle⟩
      simp only [UInt8.le_iff_toNat_le, UInt8.toNat_add, UInt8.reduceToNat] at h hle
      omega
  · next h => rfl

theorem headerLines_lower {hs : Dict} (h : LowerNames hs) (req : Bytes) :
    LowerNames (headerLines hs req).1 := by
  induction hs, req using headerLines.induct with
  | case1 => simpa [headerLines] using h
  | case2 => simpa [headerLines] using h
  | case3 hs c d rest ln k value hword name ih =>
      rw [headerLines, if_pos hword]
      refine ih fun j hj => ?_
      rcases Std.ExtTreeMap.mem_insert.mp hj with heq | hmem
      · rw [← Std.LawfulEqCmp.eq_of_compare heq, ← List.map_dropLast, List.map_map]
        simp [Function.comp_def, tolower_tolower]
      · exact h j hmem
  | case4 hs c d rest ln k value hword hend =>
      rw [headerLines, if_neg hword, if_pos hend]
      exact h
  | case5 hs c d rest ln k value hword hend =>
      rw [headerLines, if_neg hword, if_neg hend]
      exact h

/-- `Expect` has a capital letter, so no header is found under that name. -/
theorem getValue_expect {hs : Dict} (h : LowerNames hs) : hs.getValue expect = [] := by
  refine Std.ExtTreeMap.getD_eq_fallback fun hmem => ?_
  have hlow := h _ hmem
  revert hlow
  decide

/-! ## One call -/

/-- A header block taken apart: the first line, the headers, whether every line
was a header, and the block as the loop leaves it. -/
structure Head where
  line1 : Bytes
  headers : Dict
  ok : Bool
  text : Bytes

def parseHead (block : Bytes) : Head :=
  let line := Slice.eatLine block
  let lines := headerLines ∅ line.2
  ⟨line.1, lines.1, lines.2.1, line.1 ++ lines.2.2⟩

theorem length_text (block : Bytes) : (parseHead block).text.length = block.length := by
  have h := congrArg List.length (Slice.eatLine_append block)
  rw [List.length_append] at h
  simp only [parseHead, List.length_append, length_headerLines]
  exact h

/-- The body's length as the header declares it. -/
def Head.declared (h : Head) : Int := atoi (h.headers.getValue contentLength)

/-- The message once its header block has been parsed. -/
def Head.msg (h : Head) : HttpMsg :=
  { cleared with
    headers := h.headers
    scanned := h.text.length + 4
    contentLen := toSize h.declared }

/-- The buffer after the header block at its front has been parsed. -/
def rewritten (b block : Bytes) : Bytes := (parseHead block).text ++ b.drop block.length

theorem length_rewritten {b block : Bytes} (h : headerBlock b = some block) :
    (rewritten b block).length = b.length := by
  have hlen := (headerBlock_eq_some h).2.1
  simp only [rewritten, List.length_append, length_text, List.length_drop]
  omega

theorem rewritten_append {b block : Bytes} (h : headerBlock b = some block) (t : Bytes) :
    rewritten (b ++ t) block = rewritten b block ++ t := by
  have hlen := (headerBlock_eq_some h).2.1
  unfold rewritten
  rw [List.drop_append_of_le_length (by omega), List.append_assoc]

theorem drop_rewritten (b block : Bytes) {n : Nat} (h : block.length ≤ n) :
    (rewritten b block).drop n = b.drop n := by
  have hlen := length_text block
  obtain ⟨m, rfl⟩ := Nat.exists_eq_add_of_le h
  rw [rewritten, ← hlen, ← List.drop_drop, List.drop_left, List.drop_drop]

theorem tryDecode_none {b : Bytes} (h : headerBlock b = none) (copyBody : Bool) :
    cleared.tryDecode_ b copyBody =
      (⟨{ cleared with scanned := (findBlank b 0).1 }, .returned .notComplete, b, none⟩, []) := by
  have hreq : (if (findBlank b 0).2 then b.take (findBlank b 0).1 else []) = [] := by
    unfold headerBlock at h
    simp only at h
    split at h
    · cases h
    · next hnot =>
        split
        · next hfound =>
            have hzero : (findBlank b 0).1 = 0 := by
              by_contra hne
              exact hnot ⟨hfound, hne⟩
            rw [hzero, List.take_zero]
        · rfl
  exact if_pos hreq

theorem tryDecode_some {b block : Bytes} (h : headerBlock b = some block) (copyBody : Bool) :
    cleared.tryDecode_ b copyBody =
      if (parseHead block).ok then
        ((parseHead block).msg.takeBody (rewritten b block) copyBody, (parseHead block).line1)
      else
        (⟨{ cleared with scanned := block.length, headers := (parseHead block).headers },
          .returned .error, rewritten b block, none⟩, (parseHead block).line1) := by
  obtain ⟨hne, hlen, hfind, htake⟩ := headerBlock_eq_some h
  have hexpect : (parseHead block).headers.getValue expect = [] :=
    getValue_expect (headerLines_lower (fun k hk => absurd hk Std.ExtTreeMap.not_mem_empty) _)
  have hscan : cleared.tryDecode_ b copyBody =
      cleared.parseHeaders b copyBody (findBlank b 0).1 (findBlank b 0).2 := rfl
  rw [hscan, hfind]
  unfold parseHeaders
  simp only [if_true, htake, hne, if_false]
  split
  · next hok =>
      have hok' : (parseHead block).ok = true := hok
      rw [if_neg fun hwait => hwait.2 hexpect, if_pos hok', Head.msg, length_text]
      rfl
  · next hok =>
      have hok' : ¬ (parseHead block).ok = true := hok
      rw [if_neg hok']
      rfl

/-- A search broken off in `p` goes on in `p ++ t` as the first search there. -/
theorem tryDecode_resume {p : Bytes} (h : headerBlock p = none) (t : Bytes) (copyBody : Bool) :
    { cleared with scanned := (findBlank p 0).1 }.tryDecode_ (p ++ t) copyBody =
      cleared.tryDecode_ (p ++ t) copyBody := by
  have hscan : findBlank ((p ++ t).drop (findBlank p 0).1) (findBlank p 0).1 =
      findBlank ((p ++ t).drop 0) 0 := by
    cases hfound : (findBlank p 0).2 with
    | false => exact findBlank_resume hfound t
    | true =>
        have hzero : (findBlank p 0).1 = 0 := by
          by_contra hne
          simp [headerBlock, hfound, hne] at h
        rw [hzero]
  have hfirst : { cleared with scanned := (findBlank p 0).1 }.tryDecode_ (p ++ t) copyBody =
      cleared.parseHeaders (p ++ t) copyBody
        (findBlank ((p ++ t).drop (findBlank p 0).1) (findBlank p 0).1).1
        (findBlank ((p ++ t).drop (findBlank p 0).1) (findBlank p 0).1).2 := rfl
  rw [hfirst, hscan]
  rfl

/-! ## The body -/

@[simp] theorem takeBody_memory (m : HttpMsg) (buf : Bytes) (copyBody : Bool) :
    (m.takeBody buf copyBody).memory = buf := by
  unfold takeBody
  simp only
  split
  · split
    · split <;> rfl
    · rfl
  · rfl

theorem takeBody_of_drop (m : HttpMsg) {buf buf' : Bytes} (hlen : buf.length = buf'.length)
    (hdrop : buf.drop m.scanned = buf'.drop m.scanned) (copyBody : Bool) :
    m.takeBody buf copyBody = { m.takeBody buf' copyBody with memory := buf } := by
  unfold takeBody
  simp only [hlen, hdrop]
  split
  · split
    · split <;> rfl
    · rfl
  · rfl

theorem takeBody_version (m : HttpMsg) (version buf : Bytes) (copyBody : Bool) :
    { m with version := version }.takeBody buf copyBody =
      { m.takeBody buf copyBody with
        msg := { (m.takeBody buf copyBody).msg with version := version } } := by
  unfold takeBody
  simp only
  split
  · split
    · split <;> rfl
    · rfl
  · rfl

theorem takeBody_keeps_version (m : HttpMsg) (buf : Bytes) (copyBody : Bool) :
    (m.takeBody buf copyBody).msg.version = m.version := by
  unfold takeBody
  simp only
  split
  · split
    · split <;> rfl
    · rfl
  · rfl

/-- With too few bytes for the body nothing happens; otherwise the body is taken,
or `assign` throws. -/
theorem takeBody_cases (m : HttpMsg) (buf : Bytes) (copyBody : Bool) :
    buf.length < (m.contentLen + m.scanned) % 2 ^ 64 ∧
        m.takeBody buf copyBody = ⟨m, .returned .notComplete, buf, none⟩ ∨
      (m.contentLen + m.scanned) % 2 ^ 64 ≤ buf.length ∧
        (copyBody = true ∧ maxSize < m.contentLen ∧
            m.takeBody buf copyBody = ⟨m, .lengthError, buf, none⟩ ∨
          (copyBody = true → m.contentLen ≤ maxSize) ∧
            m.takeBody buf copyBody =
              ⟨{ m with
                  complete := true
                  scanned := (m.scanned + m.contentLen) % 2 ^ 64
                  body := if copyBody then (buf.drop m.scanned).take m.contentLen else m.body
                  body2 := if copyBody then m.body2
                    else .ofLen m.scanned (toDiff m.contentLen) },
                .returned .complete, buf, some (.ofLen m.scanned (toDiff m.contentLen))⟩) := by
  unfold takeBody
  simp only
  split
  · next henough =>
      refine Or.inr ⟨henough, ?_⟩
      cases copyBody with
      | true =>
          simp only [if_true]
          split
          · next hbig => exact Or.inl ⟨trivial, hbig, rfl⟩
          · next hsmall => exact Or.inr ⟨fun _ => Nat.le_of_not_lt hsmall, rfl⟩
      | false => exact Or.inr ⟨nofun, rfl⟩
  · next hshort => exact Or.inl ⟨Nat.lt_of_not_le hshort, rfl⟩

/-! ## The declared length -/

theorem Head.contentLen_of_nonneg {hd : Head} (h : 0 ≤ hd.declared) :
    (hd.msg.contentLen : Int) = hd.declared ∧ hd.msg.contentLen ≤ maxSize := by
  have hlt := (atoi_range (hd.headers.getValue contentLength)).2
  have hsize := toSize_of_nonneg h hlt
  have hrange : hd.declared < 2 ^ 31 := hlt
  refine ⟨hsize, ?_⟩
  have hlen : (hd.msg.contentLen : Int) = hd.declared := hsize
  unfold maxSize
  omega

theorem Head.contentLen_of_neg {hd : Head} (h : hd.declared < 0) :
    (hd.msg.contentLen : Int) = 2 ^ 64 + hd.declared ∧ maxSize < hd.msg.contentLen := by
  have hle := (atoi_range (hd.headers.getValue contentLength)).1
  have hsize := toSize_of_neg h hle
  have hrange : -2 ^ 31 ≤ hd.declared := hle
  refine ⟨hsize, ?_⟩
  have hlen : (hd.msg.contentLen : Int) = 2 ^ 64 + hd.declared := hsize
  unfold maxSize
  omega

theorem Head.scanned_msg {b block : Bytes} (h : headerBlock b = some block) :
    (parseHead block).msg.scanned = block.length + 4 ∧
      (parseHead block).msg.scanned ≤ b.length := by
  have hlen := (headerBlock_eq_some h).2.1
  have hscanned : (parseHead block).msg.scanned = block.length + 4 := by
    rw [Head.msg, length_text]
  exact ⟨hscanned, hscanned ▸ hlen⟩

theorem Head.contentLen_ne_zero {b block : Bytes} (h : headerBlock b = some block)
    (hshort : b.length < ((parseHead block).msg.contentLen + (parseHead block).msg.scanned) % 2 ^ 64) :
    (parseHead block).msg.contentLen ≠ 0 := by
  have hle := (Head.scanned_msg h).2
  intro hzero
  rw [hzero, Nat.zero_add] at hshort
  have hmod := Nat.mod_le (parseHead block).msg.scanned (2 ^ 64)
  omega

theorem short_of_notComplete {b block : Bytes} (h : headerBlock b = some block) {copyBody : Bool}
    (hbody : ((parseHead block).msg.takeBody (rewritten b block) copyBody).outcome =
      .returned .notComplete) :
    b.length < ((parseHead block).msg.contentLen + (parseHead block).msg.scanned) % 2 ^ 64 := by
  rcases takeBody_cases (parseHead block).msg (rewritten b block) copyBody with
    ⟨hshort, -⟩ | ⟨-, ⟨-, -, heq⟩ | ⟨-, heq⟩⟩
  · rwa [length_rewritten h] at hshort
  · rw [heq] at hbody
    cases hbody
  · rw [heq] at hbody
    cases hbody

end HttpMsg

/-! ## One call on a request -/

namespace HttpRequest

open HttpMsg

@[simp] theorem cleared_toHttpMsg : cleared.toHttpMsg = HttpMsg.cleared := rfl

theorem startLine_msg (req : HttpRequest) (m : HttpMsg) (ln1 : Bytes) :
    { req with toHttpMsg := m }.startLine ln1 =
      ({ (req.startLine ln1).1 with
          toHttpMsg := { m with version := (req.startLine ln1).1.version } },
        (req.startLine ln1).2) := by
  unfold startLine
  simp only
  split
  · split <;> rfl
  · rfl

/-- What the first line makes of a new request, and whether it is accepted. An
empty one is not looked at. -/
def started (line1 : Bytes) : HttpRequest × Bool :=
  if line1 = [] then (cleared, true) else cleared.startLine line1

/-- A request with this message behind this first line. -/
def withLine (line1 : Bytes) (m : HttpMsg) : HttpRequest :=
  let req := (started line1).1
  { req with toHttpMsg := { m with version := req.version } }

theorem withLine_nil {m : HttpMsg} (h : m.version = HttpMsg.cleared.version) :
    withLine [] m = { cleared with toHttpMsg := m } := by
  unfold withLine started
  rw [if_pos rfl]
  simp only [cleared, ← h]

theorem finish_returned {d : Decoded HttpMsg} {r : Result} (hd : d.outcome = .returned r)
    (hversion : d.msg.version = HttpMsg.cleared.version) (ln1 : Bytes) :
    cleared.finish d ln1 =
      ⟨withLine ln1 d.msg, .returned (if (started ln1).2 then r else .error), d.memory,
        d.range⟩ := by
  unfold finish
  rw [hd]
  by_cases hline : ln1 = []
  · simp only [hline, if_true]
    rw [withLine_nil hversion, started, if_pos rfl]
    rfl
  · simp only [hline, if_false, startLine_msg cleared d.msg ln1]
    rw [withLine, started, if_neg hline]

/-- A message that is complete is returned as it is. -/
theorem tryDecode_again {req : HttpRequest} (h : req.complete = true) (buf : Bytes)
    (copyBody : Bool) :
    req.tryDecode buf copyBody = ⟨req, .returned .complete, buf, none⟩ := by
  unfold tryDecode tryDecode_
  rw [h]
  rfl

theorem tryDecode_none {b : Bytes} (h : headerBlock b = none) (copyBody : Bool) :
    cleared.tryDecode b copyBody =
      ⟨{ cleared with scanned := (findBlank b 0).1 }, .returned .notComplete, b, none⟩ := by
  unfold tryDecode
  rw [cleared_toHttpMsg, HttpMsg.tryDecode_none h]
  rfl

theorem tryDecode_bad {b block : Bytes} (h : headerBlock b = some block)
    (hok : (parseHead block).ok = false) (copyBody : Bool) :
    (cleared.tryDecode b copyBody).outcome = .returned .error ∧
      (cleared.tryDecode b copyBody).range = none := by
  unfold tryDecode
  rw [cleared_toHttpMsg, HttpMsg.tryDecode_some h, hok, if_neg Bool.false_ne_true]
  simp only
  rw [finish_returned rfl rfl]
  simp

theorem tryDecode_some {b block : Bytes} (h : headerBlock b = some block)
    (hok : (parseHead block).ok = true) (copyBody : Bool) :
    cleared.tryDecode b copyBody =
      cleared.finish ((parseHead block).msg.takeBody (rewritten b block) copyBody)
        (parseHead block).line1 := by
  unfold tryDecode
  rw [cleared_toHttpMsg, HttpMsg.tryDecode_some h, hok, if_pos rfl]

/-- While the search goes on, a call is a call on a new request. -/
theorem tryDecode_searching {p : Bytes} (h : headerBlock p = none) (t : Bytes) (copyBody : Bool) :
    { cleared with scanned := (findBlank p 0).1 }.tryDecode (p ++ t) copyBody =
      cleared.tryDecode (p ++ t) copyBody := by
  have hagain := tryDecode_resume h t copyBody
  unfold tryDecode
  simp only [cleared_toHttpMsg, hagain]
  rfl

/-- A request whose header block has been parsed waits for its body only. -/
theorem tryDecode_waiting (line1 : Bytes) {m : HttpMsg} (hcomplete : m.complete = false)
    (hlen : m.contentLen ≠ 0) (buf : Bytes) (copyBody : Bool) :
    (withLine line1 m).tryDecode buf copyBody =
      ⟨withLine line1 (m.takeBody buf copyBody).msg, (m.takeBody buf copyBody).outcome, buf,
        (m.takeBody buf copyBody).range⟩ := by
  have hbody : (withLine line1 m).toHttpMsg.tryDecode_ buf copyBody =
      ((withLine line1 m).toHttpMsg.takeBody buf copyBody, []) := by
    have hcomplete' : (withLine line1 m).complete = false := hcomplete
    have hlen' : (withLine line1 m).contentLen ≠ 0 := hlen
    unfold tryDecode_
    rw [hcomplete', if_neg Bool.false_ne_true, if_neg hlen']
  have hversion : (withLine line1 m).toHttpMsg.takeBody buf copyBody = _ :=
    takeBody_version m (started line1).1.version buf copyBody
  unfold tryDecode
  rw [hbody, hversion]
  unfold finish
  simp only [takeBody_memory, if_true]
  cases (m.takeBody buf copyBody).outcome with
  | lengthError => rfl
  | returned r => rfl

end HttpRequest

end Handy
