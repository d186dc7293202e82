import Handy.Http.SentBlock

/-! # Header lines as they are received

A header line is a name, a colon and a text; what the text is worth is left of it
without the blanks around it. The decoder splits the line into its first word and
the rest, and wants the colon at the end of that word and a rest that is not
empty. So a text has to begin with a blank and to hold something else: `a:b` and
`a:` are refused, and in `a:b: c` the name is taken to be `a:b`. Every other list
of lines is read as it stands, the last line of a name deciding its value.
-/

namespace Handy

namespace HttpMsg

/-- A space or a tab. -/
def isOws (c : UInt8) : Bool := c == 0x20 || c == 0x09

/-- A field value without the spaces and tabs around it. -/
def fieldValue (text : Bytes) : Bytes := (text.dropWhile isOws).rdropWhile isOws

/-- A name, which holds no blank and no colon, and the text behind its colon. -/
structure IsLine (l : Bytes × Bytes) : Prop where
  nonempty : l.1 ≠ []
  name : ∀ c ∈ l.1, isspace c = false ∧ c ≠ 0x3a
  text : ∀ c ∈ l.2, inLine c = true

def lineText (l : Bytes × Bytes) : Bytes := l.1 ++ 0x3a :: l.2

/-- The last line of a name, by the name in lower case. -/
def lastLine (lines : List (Bytes × Bytes)) (k : Bytes) : Option (Bytes × Bytes) :=
  lines.reverse.find? fun l => l.1.map tolower == k

/-- A text the decoder takes for a value: it begins with a blank and holds another
byte. -/
def Spaced (text : Bytes) : Prop :=
  (∃ c, text.head? = some c ∧ isspace c = true) ∧ ∃ c ∈ text, isspace c = false

/-- No blank the decoder would cut off stands at the ends. -/
def Bare (v : Bytes) : Prop :=
  (∀ c, v.head? = some c → isspace c = false) ∧ ∀ c, v.getLast? = some c → isspace c = false

/-- Header lines the decoder reads for what they are. -/
structure Legible (lines : List (Bytes × Bytes)) : Prop where
  spaced : ∀ l ∈ lines, Spaced l.2
  bare : ∀ k l, lastLine lines k = some l → Bare (fieldValue l.2)

/-- The body has the length the last `content-length` line gives in decimal, or is
empty. -/
def Declares (lines : List (Bytes × Bytes)) (body : Bytes) : Prop :=
  match lastLine lines contentLength with
  | none => body = []
  | some l => body.length < 2 ^ 31 ∧ fieldValue l.2 ≠ [] ∧
      (∀ c ∈ fieldValue l.2, isdigit c = true) ∧ digits (fieldValue l.2) = body.length

/-- A message: its first line, its header lines, and its body. -/
def messageText (line : Bytes) (lines : List (Bytes × Bytes)) (body : Bytes) : Bytes :=
  line ++ crlf ++ lines.flatMap (fun l => lineText l ++ crlf) ++ crlf ++ body

/-- The map holds the value of the last line of each name and nothing else. -/
def Holds (headers : Dict) (lines : List (Bytes × Bytes)) : Prop :=
  ∀ k, headers[k]? = (lastLine lines k).map fun l => fieldValue l.2

/-! ## Trimming -/

theorem isspace_of_isOws {c : UInt8} (h : isOws c = true) : isspace c = true := by
  simp only [isOws, Bool.or_eq_true, beq_iff_eq] at h
  rcases h with rfl | rfl
  · decide
  · decide

/-- Cutting the blanks from both ends leaves what stands between them. -/
theorem trimSpace_split {pre v post : Bytes} (hpre : ∀ c ∈ pre, isspace c = true) (hv : Bare v)
    (hpost : ∀ c ∈ post, isspace c = true) : Slice.trimSpace (pre ++ v ++ post) = v :=
  Cut.trim_split hpre hv.1 hv.2 hpost

theorem fieldValue_split (text : Bytes) : ∃ pre post, text = pre ++ fieldValue text ++ post ∧
    (∀ c ∈ pre, isspace c = true) ∧ ∀ c ∈ post, isspace c = true := by
  obtain ⟨pre, post, hsplit, hpre, hpost⟩ := Cut.exists_trim isOws text
  exact ⟨pre, post, hsplit, fun c hc => isspace_of_isOws (hpre c hc),
    fun c hc => isspace_of_isOws (hpost c hc)⟩

theorem bare_trimSpace (s : Bytes) : Bare (Slice.trimSpace s) :=
  ⟨Cut.ends_trim isspace s, Cut.stops_trim isspace s⟩

/-- The decoder's trimming is the field's value, unless that has blanks at its ends. -/
theorem trimSpace_eq_iff (text : Bytes) :
    Slice.trimSpace text = fieldValue text ↔ Bare (fieldValue text) := by
  constructor
  · intro h
    rw [← h]
    exact bare_trimSpace text
  · intro h
    obtain ⟨pre, post, hsplit, hpre, hpost⟩ := fieldValue_split text
    conv_lhs => rw [hsplit]
    exact trimSpace_split hpre h hpost

theorem trimSpace_ne_nil_iff (s : Bytes) :
    Slice.trimSpace s ≠ [] ↔ ∃ c ∈ s, isspace c = false := by
  constructor
  · intro h
    by_contra hall
    apply h
    have hblank : ∀ c ∈ s, isspace c = true := by
      intro c hc
      by_contra hno
      exact hall ⟨c, hc, Bool.eq_false_iff.mpr hno⟩
    rw [Slice.trimSpace, List.dropWhile_eq_nil_iff.mpr hblank]
    rfl
  · intro ⟨c, hc, hno⟩ hnil
    rw [Slice.trimSpace, List.rdropWhile_eq_nil_iff] at hnil
    -- what is left begins with a byte that is no blank
    cases hleft : s.dropWhile isspace with
    | nil =>
        have hblank := List.dropWhile_eq_nil_iff.mp hleft c hc
        rw [hno] at hblank
        cases hblank
    | cons x rest =>
        have hx : isspace x = false := Cut.ends_dropWhile isspace s x (by rw [hleft]; rfl)
        rw [hnil x (by rw [hleft]; exact List.mem_cons_self)] at hx
        cases hx

/-! ## One line -/

theorem inLine_lineText {l : Bytes × Bytes} (h : IsLine l) : ∀ c ∈ lineText l, inLine c = true := by
  intro c hc
  rcases List.mem_append.mp hc with hc | hc
  · exact inLine_of_not_isspace (h.name c hc).1
  · rcases List.mem_cons.mp hc with rfl | hc
    · decide
    · exact h.text c hc

theorem eatWord_lineText {l : Bytes × Bytes} (h : IsLine l) :
    Slice.eatWord (lineText l) =
      (l.1 ++ 0x3a :: l.2.takeWhile (!isspace ·), l.2.dropWhile (!isspace ·)) := by
  have hword : ∀ c ∈ l.1 ++ [0x3a], (!isspace c) = true := by
    intro c hc
    rcases List.mem_append.mp hc with hc | hc
    · rw [(h.name c hc).1]
      rfl
    · rw [List.mem_singleton.mp hc]
      decide
  have hstart : (lineText l).dropWhile isspace = lineText l := by
    obtain ⟨c, name, hcons⟩ := List.exists_cons_of_ne_nil h.nonempty
    have hc := (h.name c (by rw [hcons]; exact List.mem_cons_self)).1
    rw [lineText, hcons, List.cons_append, List.dropWhile_cons_of_neg (by simp [hc])]
  have hsplit : lineText l = (l.1 ++ [0x3a]) ++ l.2 := by
    rw [List.append_assoc]
    rfl
  unfold Slice.eatWord
  simp only [hstart]
  rw [hsplit, List.takeWhile_append_of_pos hword, List.dropWhile_append_of_pos hword,
    List.append_assoc]
  rfl

section Line

variable (hs : Dict) (c d : UInt8) {l : Bytes × Bytes} {t : Bytes}

theorem headerLines_spaced (h : IsLine l) (hspaced : Spaced l.2) (ht : AtLineEnd t) :
    (headerLines hs (c :: d :: (lineText l ++ t))).1 =
        (headerLines (hs.insert (l.1.map tolower) (Slice.trimSpace l.2)) t).1 ∧
      (headerLines hs (c :: d :: (lineText l ++ t))).2.1 =
        (headerLines (hs.insert (l.1.map tolower) (Slice.trimSpace l.2)) t).2.1 := by
  have hstep := headerLines_line hs c d (fun x hx => (h.name x hx).1) h.text hspaced.1
    ((trimSpace_ne_nil_iff _).mpr hspaced.2) ht
  rw [lineText, hstep]
  exact ⟨rfl, rfl⟩

/-- Any other line is refused, or leaves a name that holds a colon. -/
theorem headerLines_unspaced (h : IsLine l) (hspaced : ¬ Spaced l.2) (ht : AtLineEnd t) :
    (headerLines hs (c :: d :: (lineText l ++ t))).2.1 = false ∨
      ∃ k v, 0x3a ∈ k ∧ (headerLines hs (c :: d :: (lineText l ++ t))).1 =
        (headerLines (hs.insert k v) t).1 := by
  have hline := eatLine_append_line (inLine_lineText h) ht
  rw [headerLines]
  simp only [hline, eatWord_lineText h]
  split
  · next hword =>
      refine Or.inr ⟨_, _, ?_, rfl⟩
      have hne : l.2.takeWhile (!isspace ·) ≠ [] := by
        intro hnil
        apply hspaced
        have hsome := (trimSpace_ne_nil_iff _).mp hword.2.1
        cases htext : l.2 with
        | nil =>
            rw [htext] at hsome
            obtain ⟨x, hx, _⟩ := hsome
            cases hx
        | cons x text =>
            rw [htext] at hnil hsome
            have hx : isspace x = true := by
              by_contra hno
              rw [List.takeWhile_cons_of_pos (by simp [hno])] at hnil
              exact List.cons_ne_nil _ _ hnil
            rw [List.dropWhile_cons_of_neg (by simp [hx])] at hsome
            exact ⟨⟨x, rfl, hx⟩, hsome⟩
      rw [List.map_append, List.map_cons, List.dropLast_append_of_ne_nil (List.cons_ne_nil _ _),
        List.dropLast_cons_of_ne_nil (by simpa using hne)]
      exact List.mem_append_right _ List.mem_cons_self
  · next hword =>
      rw [if_neg (by simp)]
      exact Or.inl rfl

end Line

/-! ## All lines -/

theorem headerLines_keeps {k : Bytes} {hs : Dict} (h : k ∈ hs) (req : Bytes) :
    k ∈ (headerLines hs req).1 := by
  induction hs, req using headerLines.induct with
  | case1 => simpa [headerLines] using h
  | case2 => simpa [headerLines] using h
  | case3 hs c d rest ln w value hword name ih =>
      rw [headerLines, if_pos hword]
      exact ih (Std.ExtTreeMap.mem_insert.mpr (Or.inr h))
  | case4 hs c d rest ln w value hword hend =>
      rw [headerLines, if_neg hword, if_pos hend]
      exact h
  | case5 hs c d rest ln w value hword hend =>
      rw [headerLines, if_neg hword, if_neg hend]
      exact h

theorem headerLines_lines (hs : Dict) {lines : List (Bytes × Bytes)} (h : ∀ l ∈ lines, IsLine l)
    (hspaced : ∀ l ∈ lines, Spaced l.2) :
    (headerLines hs (linesText (lines.map lineText))).1 =
        insertAll hs (lines.map fun l => (l.1, Slice.trimSpace l.2)) ∧
      (headerLines hs (linesText (lines.map lineText))).2.1 = true := by
  induction lines generalizing hs with
  | nil => simp [linesText, insertAll, headerLines]
  | cons l lines ih =>
      have hstep := headerLines_spaced hs 0x0d 0x0a (h l List.mem_cons_self)
        (hspaced l List.mem_cons_self) (atLineEnd_linesText (lines.map lineText))
      have hrest := ih (hs.insert (l.1.map tolower) (Slice.trimSpace l.2))
        (fun x hx => h x (List.mem_cons_of_mem _ hx))
        fun x hx => hspaced x (List.mem_cons_of_mem _ hx)
      rw [List.map_cons, linesText_cons, hstep.1, hstep.2]
      exact hrest

/-- Lines that are all taken and leave no name with a colon have spaced texts. -/
theorem spaced_of_taken (hs : Dict) {lines : List (Bytes × Bytes)} (h : ∀ l ∈ lines, IsLine l)
    (hok : (headerLines hs (linesText (lines.map lineText))).2.1 = true)
    (hcolon : ∀ k, 0x3a ∈ k → k ∉ (headerLines hs (linesText (lines.map lineText))).1) :
    ∀ l ∈ lines, Spaced l.2 := by
  induction lines generalizing hs with
  | nil => exact fun l hl => absurd hl List.not_mem_nil
  | cons l lines ih =>
      have hl := h l List.mem_cons_self
      have hend := atLineEnd_linesText (lines.map lineText)
      rw [List.map_cons, linesText_cons] at hok hcolon
      by_cases hspaced : Spaced l.2
      · have hstep := headerLines_spaced hs 0x0d 0x0a hl hspaced hend
        rw [hstep.1] at hcolon
        rw [hstep.2] at hok
        have hrest := ih _ (fun x hx => h x (List.mem_cons_of_mem _ hx)) hok hcolon
        intro x hx
        rcases List.mem_cons.mp hx with rfl | hx
        · exact hspaced
        · exact hrest x hx
      · exfalso
        rcases headerLines_unspaced hs 0x0d 0x0a hl hspaced hend with hbad | ⟨k, v, hk, heq⟩
        · rw [hok] at hbad
          cases hbad
        · apply hcolon k hk
          rw [heq]
          exact headerLines_keeps Std.ExtTreeMap.mem_insert_self _

/-! ## The map -/

theorem lastLine_some {lines : List (Bytes × Bytes)} {k : Bytes} {l : Bytes × Bytes}
    (h : lastLine lines k = some l) : l ∈ lines ∧ l.1.map tolower = k := by
  constructor
  · exact List.mem_reverse.mp (List.mem_of_find?_eq_some h)
  · have hname := List.find?_some h
    simpa using hname

/-- Each name has the text of its last line, put through `f`. -/
theorem getElem?_insertAll_lines (f : Bytes → Bytes) (lines : List (Bytes × Bytes)) (k : Bytes) :
    (insertAll ∅ (lines.map fun l => (l.1, f l.2)))[k]? = (lastLine lines k).map fun l => f l.2 := by
  induction lines using List.reverseRecOn with
  | nil => exact Std.ExtTreeMap.getElem?_empty
  | append_singleton lines l ih =>
      rw [List.map_append, insertAll_append, List.map_singleton, lastLine, List.reverse_append,
        List.reverse_singleton, List.singleton_append, List.find?_cons]
      simp only [insertAll, List.foldl_cons, List.foldl_nil]
      rw [Std.ExtTreeMap.getElem?_insert]
      by_cases hname : l.1.map tolower = k
      · rw [if_pos (by rw [hname]; exact Std.ReflCmp.compare_self), hname]
        simp
      · rw [if_neg fun heq => hname (Std.LawfulEqCmp.eq_of_compare heq)]
        simp only [beq_eq_false_iff_ne.mpr hname]
        exact ih

theorem holds_insertAll_iff (lines : List (Bytes × Bytes)) :
    Holds (insertAll ∅ (lines.map fun l => (l.1, Slice.trimSpace l.2))) lines ↔
      ∀ k l, lastLine lines k = some l → Bare (fieldValue l.2) := by
  constructor
  · intro h k l hl
    have hk := h k
    rw [getElem?_insertAll_lines, hl] at hk
    exact (trimSpace_eq_iff l.2).mp (Option.some.inj hk)
  · intro h k
    rw [getElem?_insertAll_lines]
    cases hl : lastLine lines k with
    | none => rfl
    | some l => exact congrArg some ((trimSpace_eq_iff l.2).mpr (h k l hl))

theorem Holds.no_colon {headers : Dict} {lines : List (Bytes × Bytes)} (h : Holds headers lines)
    (hlines : ∀ l ∈ lines, IsLine l) {k : Bytes} (hk : 0x3a ∈ k) : k ∉ headers := by
  intro hmem
  have hget := Std.ExtTreeMap.isSome_getElem?_iff_mem.mpr hmem
  rw [h k] at hget
  cases hl : lastLine lines k with
  | none =>
      rw [hl] at hget
      cases hget
  | some l =>
      obtain ⟨hin, hname⟩ := lastLine_some hl
      rw [← hname] at hk
      obtain ⟨c, hc, hcolon⟩ := List.mem_map.mp hk
      have hne := ((hlines l hin).name c hc).2
      unfold tolower at hcolon
      split at hcolon
      · next hupper =>
          simp only [UInt8.le_iff_toNat_le, UInt8.reduceToNat] at hupper
          have hsum := congrArg UInt8.toNat hcolon
          simp only [UInt8.toNat_add, UInt8.reduceToNat] at hsum
          omega
      · exact hne hcolon

/-! ## The message -/

theorem messageText_eq (line : Bytes) (lines : List (Bytes × Bytes)) (body : Bytes) :
    messageText line lines body =
      line ++ linesText (lines.map lineText) ++ (blank ++ body) := by
  have hends : ∀ lines : List (Bytes × Bytes), crlf ++ lines.flatMap (fun l => lineText l ++ crlf) =
      linesText (lines.map lineText) ++ crlf := by
    intro lines
    induction lines with
    | nil => rfl
    | cons l lines ih =>
        rw [List.flatMap_cons, List.map_cons, List.append_assoc, ih, linesText_cons]
        simp [crlf]
  have hblank : (crlf ++ crlf : Bytes) = blank := rfl
  rw [messageText, List.append_assoc line, hends, ← hblank]
  simp only [List.append_assoc]

theorem lineText_ok {lines : List (Bytes × Bytes)} (h : ∀ l ∈ lines, IsLine l) :
    ∀ ln ∈ lines.map lineText, ln ≠ [] ∧ ∀ c ∈ ln, inLine c = true := by
  intro ln hln
  obtain ⟨l, hl, rfl⟩ := List.mem_map.mp hln
  exact ⟨by simp [lineText], inLine_lineText (h l hl)⟩

theorem parseHead_lines {line : Bytes} (hline : ∀ c ∈ line, inLine c = true)
    (lines : List (Bytes × Bytes)) :
    let head := parseHead (line ++ linesText (lines.map lineText))
    let taken := headerLines ∅ (linesText (lines.map lineText))
    head.line1 = line ∧ head.headers = taken.1 ∧ head.ok = taken.2.1 := by
  unfold parseHead
  simp only [eatLine_append_line hline (atLineEnd_linesText _), and_self]

theorem Legible.parsed {line : Bytes} (hline : ∀ c ∈ line, inLine c = true)
    {lines : List (Bytes × Bytes)} (h : Legible lines) (hlines : ∀ l ∈ lines, IsLine l) :
    let head := parseHead (line ++ linesText (lines.map lineText))
    head.ok = true ∧ Holds head.headers lines := by
  obtain ⟨_, hheaders, hok⟩ := parseHead_lines hline lines
  obtain ⟨hmap, hgood⟩ := headerLines_lines ∅ hlines h.spaced
  intro head
  constructor
  · exact hok.trans hgood
  · rw [hheaders, hmap]
    exact (holds_insertAll_iff lines).mpr h.bare

theorem atoi_digits {v : Bytes} (hne : v ≠ []) (hall : ∀ c ∈ v, isdigit c = true)
    (hlt : digits v < 2 ^ 31) : atoi v = digits v := by
  obtain ⟨c, s, rfl⟩ := List.exists_cons_of_ne_nil hne
  rw [atoi, strtol_digit (hall c List.mem_cons_self), Int.min_eq_right (by omega)]
  exact Int.bmod_eq_of_le (by omega) (by omega)

/-- The headers declare the body the lines declare. -/
theorem declared_of_holds {head : Head} {lines : List (Bytes × Bytes)} {body : Bytes}
    (h : Holds head.headers lines) (hdecl : Declares lines body) :
    head.declared = body.length ∧ body.length < 2 ^ 31 := by
  have hget := h contentLength
  unfold Declares at hdecl
  rw [Head.declared, Dict.getValue, Std.ExtTreeMap.getD_eq_getD_getElem?, hget]
  cases hl : lastLine lines contentLength with
  | none =>
      rw [hl] at hdecl
      rw [hdecl]
      exact ⟨by decide, by decide⟩
  | some l =>
      rw [hl] at hdecl
      obtain ⟨hlt, hne, hall, hlen⟩ := hdecl
      have hnum := atoi_digits hne hall (by omega)
      rw [hlen] at hnum
      exact ⟨hnum, hlt⟩

section Message

variable {line : Bytes} {lines : List (Bytes × Bytes)} {body : Bytes}

/-- Legible lines are exactly the ones that leave a message complete with their
values. -/
theorem tryDecode_lines_iff (hne : line ≠ []) (hline : ∀ c ∈ line, inLine c = true)
    (hlines : ∀ l ∈ lines, IsLine l) (hdecl : Declares lines body) (t : Bytes) (copyBody : Bool) :
    let d := cleared.tryDecode_ (messageText line lines body ++ t) copyBody
    d.2 = line ∧ (d.1.outcome = .returned .complete ∧ Holds d.1.msg.headers lines ↔
      Legible lines) := by
  have hblock := headerBlock_linesText hne hline (lineText_ok hlines) (body ++ t)
  obtain ⟨hline1, hheaders, hok⟩ := parseHead_lines hline lines
  have htext : messageText line lines body ++ t =
      line ++ linesText (lines.map lineText) ++ (blank ++ (body ++ t)) := by
    rw [messageText_eq]
    simp only [List.append_assoc]
  intro d
  have hd : d = cleared.tryDecode_ (messageText line lines body ++ t) copyBody := rfl
  rw [htext, tryDecode_some hblock copyBody] at hd
  have htaken : (parseHead (line ++ linesText (lines.map lineText))).ok = true →
      Holds (parseHead (line ++ linesText (lines.map lineText))).headers lines →
      d.1.outcome = .returned .complete ∧ Holds d.1.msg.headers lines := by
    intro hok hholds
    obtain ⟨hlen, hsize⟩ := declared_of_holds hholds hdecl
    obtain ⟨hout, hmap, _⟩ := takeBody_arrived hlen hsize t copyBody
    rw [hd, if_pos hok]
    exact ⟨hout, hmap ▸ hholds⟩
  constructor
  · rw [hd]
    split
    · exact hline1
    · exact hline1
  · constructor
    · intro ⟨hout, hholds⟩
      cases hgood : (parseHead (line ++ linesText (lines.map lineText))).ok with
      | false =>
          rw [hd, hgood, if_neg Bool.false_ne_true] at hout
          cases hout
      | true =>
          rw [hd, hgood, if_pos rfl, takeBody_keeps_headers] at hholds
          have hmap : Holds (headerLines ∅ (linesText (lines.map lineText))).1 lines :=
            hheaders ▸ hholds
          have hspaced := spaced_of_taken ∅ hlines (hok ▸ hgood) fun k hk =>
            hmap.no_colon hlines hk
          rw [(headerLines_lines ∅ hlines hspaced).1] at hmap
          exact ⟨hspaced, (holds_insertAll_iff lines).mp hmap⟩
    · intro hread
      obtain ⟨hgood, hholds⟩ := hread.parsed hline hlines
      exact htaken hgood hholds

end Message

end HttpMsg

namespace HttpRequest

open HttpMsg

/-- The second word of the first line begins with a slash. -/
def PathFirst (line : Bytes) : Prop :=
  (Slice.eatWord (Slice.eatWord line).2).1.head? = some 0x2f

theorem startLine_ok (req : HttpRequest) (line : Bytes) :
    (req.startLine line).2 = true ↔ PathFirst line := by
  unfold startLine PathFirst
  simp only
  split
  · next h =>
      rw [h]
      split
      · simp
      · simp
  · next h =>
      constructor
      · intro hno
        cases hno
      · exact fun hyes => absurd hyes h

/-- The first line decides whether a request that is complete is accepted. -/
theorem finish_complete_iff (req : HttpRequest) (d : Decoded HttpMsg) {ln1 : Bytes} (hne : ln1 ≠ []) :
    (req.finish d ln1).msg.headers = d.msg.headers ∧
      ((req.finish d ln1).outcome = .returned .complete ↔
        d.outcome = .returned .complete ∧ PathFirst ln1) := by
  have hheaders := startLine_msg req d.msg ln1
  have hok := startLine_ok { req with toHttpMsg := d.msg } ln1
  unfold finish
  cases hout : d.outcome with
  | lengthError =>
      simp only [reduceCtorEq, false_and, and_true]
  | returned r =>
      simp only [if_neg hne]
      rw [hheaders] at hok ⊢
      simp only at hok ⊢
      rw [← hok]
      cases (req.startLine ln1).2 with
      | true => simp
      | false => simp

end HttpRequest

namespace HttpResponse

theorem finish_keeps (resp : HttpResponse) (d : Decoded HttpMsg) (ln1 behind : Bytes) :
    (resp.finish d ln1 behind).msg.headers = d.msg.headers ∧
      (resp.finish d ln1 behind).outcome = d.outcome := by
  unfold finish
  cases hout : d.outcome with
  | lengthError => exact ⟨rfl, rfl⟩
  | returned r =>
      simp only
      split
      · exact ⟨rfl, rfl⟩
      · exact ⟨rfl, rfl⟩

end HttpResponse

section Message

open HttpMsg

variable {line : Bytes} {lines : List (Bytes × Bytes)} {body : Bytes}

theorem request_lines_iff (hne : line ≠ []) (hline : ∀ c ∈ line, inLine c = true)
    (hlines : ∀ l ∈ lines, IsLine l) (hdecl : Declares lines body) (t : Bytes) (copyBody : Bool) :
    let req := HttpRequest.cleared.tryDecode (messageText line lines body ++ t) copyBody
    req.outcome = .returned .complete ∧ Holds req.msg.headers lines ↔
      Legible lines ∧ HttpRequest.PathFirst line := by
  obtain ⟨hline1, hiff⟩ := tryDecode_lines_iff hne hline hlines hdecl t copyBody
  intro req
  have hreq : req = HttpRequest.cleared.finish
      (HttpMsg.cleared.tryDecode_ (messageText line lines body ++ t) copyBody).1
      (HttpMsg.cleared.tryDecode_ (messageText line lines body ++ t) copyBody).2 := rfl
  rw [hline1] at hreq
  obtain ⟨hheaders, hout⟩ := HttpRequest.finish_complete_iff HttpRequest.cleared
    (HttpMsg.cleared.tryDecode_ (messageText line lines body ++ t) copyBody).1 hne
  rw [hreq, hheaders, hout, ← hiff]
  exact and_right_comm

theorem response_lines_iff (hne : line ≠ []) (hline : ∀ c ∈ line, inLine c = true)
    (hlines : ∀ l ∈ lines, IsLine l) (hdecl : Declares lines body) (t behind : Bytes)
    (copyBody : Bool) :
    let resp := HttpResponse.cleared.tryDecode (messageText line lines body ++ t) behind copyBody
    resp.outcome = .returned .complete ∧ Holds resp.msg.headers lines ↔ Legible lines := by
  obtain ⟨_, hiff⟩ := tryDecode_lines_iff hne hline hlines hdecl t copyBody
  obtain ⟨hheaders, hout⟩ := HttpResponse.finish_keeps HttpResponse.cleared
    (HttpMsg.cleared.tryDecode_ (messageText line lines body ++ t) copyBody).1
    (HttpMsg.cleared.tryDecode_ (messageText line lines body ++ t) copyBody).2 behind
  intro resp
  have hresp : resp = HttpResponse.cleared.finish
      (HttpMsg.cleared.tryDecode_ (messageText line lines body ++ t) copyBody).1
      (HttpMsg.cleared.tryDecode_ (messageText line lines body ++ t) copyBody).2 behind := rfl
  rw [hresp, hheaders, hout]
  exact hiff

/-- A message of any first line, any header lines and the body they declare is read
complete with the values of the lines, and no others, exactly when the text of each
line begins with a blank and holds another byte, and the value that counts has no
other blank at its ends; a request also needs a path. -/
theorem header_lines_read_iff (line : Bytes) (lines : List (Bytes × Bytes)) (body : Bytes)
    (hne : line ≠ []) (hline : ∀ c ∈ line, inLine c = true) (hlines : ∀ l ∈ lines, IsLine l)
    (hdecl : Declares lines body) (t behind : Bytes) (copyBody : Bool) :
    let text := messageText line lines body ++ t
    let req := HttpRequest.cleared.tryDecode text copyBody
    let resp := HttpResponse.cleared.tryDecode text behind copyBody
    (req.outcome = .returned .complete ∧ Holds req.msg.headers lines ↔
        Legible lines ∧ HttpRequest.PathFirst line) ∧
      (resp.outcome = .returned .complete ∧ Holds resp.msg.headers lines ↔ Legible lines) := by
  constructor
  · exact request_lines_iff hne hline hlines hdecl t copyBody
  · exact response_lines_iff hne hline hlines hdecl t behind copyBody

/-- `GET / HTTP/1.1`. -/
def getLine : Bytes :=
  [0x47, 0x45, 0x54, 0x20, 0x2f, 0x20, 0x48, 0x54, 0x54, 0x50, 0x2f, 0x31, 0x2e, 0x31]

/-- `Host: a:b `, `content-length` with a tab before `2`, and `Host:` with `a`. -/
def hostLines : List (Bytes × Bytes) :=
  [([0x48, 0x6f, 0x73, 0x74], [0x20, 0x61, 0x3a, 0x62, 0x20]), (contentLength, [0x09, 0x32]),
    ([0x68, 0x4f, 0x73, 0x74], [0x61])]

theorem header_lines_read_iff_host :
    let text := messageText getLine hostLines [0x68, 0x69] ++ [0x47]
    let req := HttpRequest.cleared.tryDecode text true
    let resp := HttpResponse.cleared.tryDecode text [] true
    (req.outcome = .returned .complete ∧ Holds req.msg.headers hostLines ↔
        Legible hostLines ∧ HttpRequest.PathFirst getLine) ∧
      (resp.outcome = .returned .complete ∧ Holds resp.msg.headers hostLines ↔
        Legible hostLines) := by
  have hlines : ∀ l ∈ hostLines, IsLine l := by
    intro l hl
    simp only [hostLines, List.mem_cons, List.not_mem_nil, or_false] at hl
    rcases hl with rfl | rfl | rfl
    · exact ⟨by decide, by decide +kernel, by decide +kernel⟩
    · exact ⟨by decide, by decide +kernel, by decide +kernel⟩
    · exact ⟨by decide, by decide +kernel, by decide +kernel⟩
  exact header_lines_read_iff getLine hostLines [0x68, 0x69] (by decide) (by decide +kernel) hlines
    ⟨by decide, by decide, by decide +kernel, by decide⟩ [0x47] [] true

/-- `Host:a` is not read. -/
theorem unspaced_line_refused :
    ¬ ∀ (lines : List (Bytes × Bytes)) (body : Bytes), (∀ l ∈ lines, IsLine l) →
      Declares lines body →
      let req := HttpRequest.cleared.tryDecode (messageText getLine lines body) true
      req.outcome = .returned .complete ∧ Holds req.msg.headers lines := by
  intro hall
  let lines : List (Bytes × Bytes) := [([0x48, 0x6f, 0x73, 0x74], [0x61])]
  have hlines : ∀ l ∈ lines, IsLine l := by
    intro l hl
    rw [List.mem_singleton.mp hl]
    exact ⟨by decide, by decide +kernel, by decide +kernel⟩
  have hdecl : Declares lines [] := rfl
  have hread := hall lines [] hlines hdecl
  have hline : ∀ c ∈ getLine, inLine c = true := by decide +kernel
  have hiff := request_lines_iff (List.cons_ne_nil _ _) hline hlines hdecl [] true
  rw [List.append_nil] at hiff
  obtain ⟨⟨c, hc, hblank⟩, _⟩ := (hiff.mp hread).1.spaced _ List.mem_cons_self
  rw [← Option.some.inj hc] at hblank
  exact absurd hblank (by decide)

end Message

end Handy
