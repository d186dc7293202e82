import Handy.Http.Decode
import Handy.Http.Encode
import Handy.Lib.Cut

/-! # Header blocks as they are sent

The encoder ends every header line and the block with CR LF, the decoder looks
for the first CR LF CR LF and cuts what stands before it into lines. With
headers that hold no line end and whose names hold no blank the two agree, for
any number of headers and whatever follows the message. What is left is the
start line, which each of the two messages formats in its own way.
-/

namespace Handy

/-- A word a start line can be put together from. -/
def IsWord (w : Bytes) : Prop := w ≠ [] ∧ ∀ c ∈ w, isspace c = false ∧ c ≠ 0

namespace HttpMsg

/-- A header that stands on a line of its own. -/
structure HeaderOk (hd : Bytes × Bytes) : Prop where
  name : ∀ c ∈ hd.1, isspace c = false
  value : hd.2 ≠ []
  trimmed : Slice.trimSpace hd.2 = hd.2
  line : ∀ c ∈ hd.2, inLine c = true

/-! ## Cutting a line -/

theorem inLine_of_not_isspace {c : UInt8} (h : isspace c = false) : inLine c = true := by
  have hall : ∀ c, inLine c = false → isspace c = true := by
    intro c hc
    simp only [inLine, Bool.and_eq_false_iff, bne_eq_false_iff_eq] at hc
    rcases hc with rfl | rfl
    · decide
    · decide
  by_contra hline
  rw [hall c (Bool.eq_false_iff.mpr hline)] at h
  cases h

def AtLineEnd (t : Bytes) : Prop := ∀ c, t.head? = some c → inLine c = false

theorem eatLine_append_line {ln t : Bytes} (h : ∀ c ∈ ln, inLine c = true) (ht : AtLineEnd t) :
    Slice.eatLine (ln ++ t) = (ln, t) := by
  rw [Slice.eatLine, Cut.takeWhile_stop h ht, Cut.dropWhile_stop h ht]

theorem eatWord_append_word {w t : Bytes} (hne : w ≠ []) (h : ∀ c ∈ w, isspace c = false)
    (ht : ∀ c, t.head? = some c → isspace c = true) : Slice.eatWord (w ++ t) = (w, t) := by
  have hstart : (w ++ t).dropWhile isspace = w ++ t := by
    obtain ⟨c, s, rfl⟩ := List.exists_cons_of_ne_nil hne
    rw [List.cons_append, List.dropWhile_cons_of_neg (by simp [h c List.mem_cons_self])]
  have hword : ∀ c ∈ w, (!isspace c) = true := fun c hc => by rw [h c hc]; rfl
  have hends : Cut.Ends (!isspace ·) t := fun c hc => by simp only [ht c hc, Bool.not_true]
  unfold Slice.eatWord
  simp only [hstart, Cut.takeWhile_stop hword hends, Cut.dropWhile_stop hword hends]

theorem trimSpace_blank (v : Bytes) : Slice.trimSpace (0x20 :: v) = Slice.trimSpace v := by
  unfold Slice.trimSpace
  rw [List.dropWhile_cons_of_pos (by decide)]

theorem HeaderOk.field_line {hd : Bytes × Bytes} (h : HeaderOk hd) :
    ∀ c ∈ field hd.1 hd.2, inLine c = true := by
  intro c hc
  simp only [field, List.mem_append, List.mem_cons, List.not_mem_nil, or_false] at hc
  rcases hc with (hname | rfl | rfl) | hvalue
  · exact inLine_of_not_isspace (h.name c hname)
  · decide
  · decide
  · exact h.line c hvalue

/-! ## The header lines -/

/-- The headers a loop over these lines leaves. -/
def insertAll (hs : Dict) (headers : List (Bytes × Bytes)) : Dict :=
  headers.foldl (fun hs hd => hs.insert (hd.1.map tolower) hd.2) hs

/-- Header lines, each behind the end of the line before it. -/
def laterLines (headers : List (Bytes × Bytes)) : Bytes :=
  headers.flatMap fun hd => crlf ++ field hd.1 hd.2

theorem atLineEnd_laterLines (headers : List (Bytes × Bytes)) : AtLineEnd (laterLines headers) := by
  cases headers with
  | nil => rintro c ⟨⟩
  | cons hd hds =>
      rintro c ⟨⟩
      decide

/-- A name, its colon, and a text that begins with a blank. -/
theorem headerLines_line (hs : Dict) (c d : UInt8) {name text t : Bytes}
    (hname : ∀ x ∈ name, isspace x = false) (htext : ∀ x ∈ text, inLine x = true)
    (hblank : ∃ b, text.head? = some b ∧ isspace b = true) (hvalue : Slice.trimSpace text ≠ [])
    (ht : AtLineEnd t) :
    headerLines hs (c :: d :: (name ++ 0x3a :: text ++ t)) =
      let next := headerLines (hs.insert (name.map tolower) (Slice.trimSpace text)) t
      (next.1, next.2.1, c :: d :: (name.map tolower ++ 0x3a :: text) ++ next.2.2) := by
  have hkey : ∀ x ∈ name ++ [0x3a], isspace x = false := by
    intro x hx
    rcases List.mem_append.mp hx with hx | hx
    · exact hname x hx
    · rw [List.mem_singleton.mp hx]
      decide
  have hsplit : name ++ 0x3a :: text = (name ++ [0x3a]) ++ text := by
    rw [List.append_assoc]
    rfl
  have hline : Slice.eatLine ((name ++ [0x3a]) ++ text ++ t) = ((name ++ [0x3a]) ++ text, t) := by
    apply eatLine_append_line _ ht
    intro x hx
    rcases List.mem_append.mp hx with hx | hx
    · exact inLine_of_not_isspace (hkey x hx)
    · exact htext x hx
  have hword : Slice.eatWord ((name ++ [0x3a]) ++ text) = (name ++ [0x3a], text) := by
    apply eatWord_append_word (List.append_ne_nil_of_right_ne_nil _ (List.cons_ne_nil _ _)) hkey
    obtain ⟨b, hb, hspace⟩ := hblank
    intro x hx
    rw [hb] at hx
    exact Option.some.inj hx ▸ hspace
  have hstart : ((name ++ [0x3a]) ++ text).takeWhile isspace = [] := by
    cases name with
    | nil => rfl
    | cons x name =>
        have hx := hname x List.mem_cons_self
        rw [List.cons_append, List.cons_append, List.takeWhile_cons_of_neg (by simp [hx])]
  have hlower : (name ++ [0x3a]).map tolower = name.map tolower ++ [0x3a] := by
    rw [List.map_append, List.map_singleton]
    rfl
  rw [hsplit, headerLines]
  simp only [hline, hword, hstart, hlower, List.dropLast_concat]
  rw [if_pos ⟨by simp, hvalue, by simp⟩]
  simp

theorem field_eq (name value : Bytes) : field name value = name ++ 0x3a :: 0x20 :: value := by
  simp [field]

theorem headerLines_field (hs : Dict) (c d : UInt8) {hd : Bytes × Bytes} (h : HeaderOk hd)
    {t : Bytes} (ht : AtLineEnd t) :
    headerLines hs (c :: d :: (field hd.1 hd.2 ++ t)) =
      let next := headerLines (hs.insert (hd.1.map tolower) hd.2) t
      (next.1, next.2.1, c :: d :: (hd.1.map tolower ++ 0x3a :: 0x20 :: hd.2) ++ next.2.2) := by
  have htrim : Slice.trimSpace (0x20 :: hd.2) = hd.2 := (trimSpace_blank hd.2).trans h.trimmed
  have htext : ∀ x ∈ (0x20 : UInt8) :: hd.2, inLine x = true := by
    intro x hx
    rcases List.mem_cons.mp hx with rfl | hx
    · decide
    · exact h.line x hx
  have hvalue : Slice.trimSpace (0x20 :: hd.2) ≠ [] := by
    rw [htrim]
    exact h.value
  have hstep := headerLines_line hs c d h.name htext ⟨0x20, rfl, by decide⟩ hvalue ht
  rw [htrim] at hstep
  rw [field_eq]
  exact hstep

theorem headerLines_laterLines (hs : Dict) (headers : List (Bytes × Bytes))
    (h : ∀ hd ∈ headers, HeaderOk hd) :
    (headerLines hs (laterLines headers)).1 = insertAll hs headers ∧
      (headerLines hs (laterLines headers)).2.1 = true := by
  induction headers generalizing hs with
  | nil => simp [laterLines, insertAll, headerLines]
  | cons hd hds ih =>
      have hfirst : laterLines (hd :: hds) = 0x0d :: 0x0a :: (field hd.1 hd.2 ++ laterLines hds) := by
        simp [laterLines, crlf]
      have hstep := headerLines_field hs 0x0d 0x0a (h hd List.mem_cons_self)
        (atLineEnd_laterLines hds)
      have hrest := ih (hs.insert (hd.1.map tolower) hd.2) fun x hx => h x (List.mem_cons_of_mem _ hx)
      rw [hfirst, hstep]
      exact hrest

/-! ## The blank line -/

/-- Bytes that are no CR are passed over. -/
theorem findBlank_skip {xs : Bytes} (h : ∀ c ∈ xs, c ≠ 0x0d) {ys : Bytes} (hlen : 4 ≤ ys.length)
    (n : Nat) : findBlank (xs ++ ys) n = findBlank ys (n + xs.length) := by
  induction xs generalizing n with
  | nil => rfl
  | cons c xs ih =>
      have hfirst : c ≠ 0x0d := h c List.mem_cons_self
      have hlong : ¬ (xs ++ ys).length < 3 := by
        rw [List.length_append]
        omega
      have hblank : (c :: (xs ++ ys)).take 4 ≠ blank := by
        intro heq
        exact hfirst (List.cons.inj heq).1
      rw [List.cons_append, findBlank, if_neg hlong, if_neg hblank,
        ih fun d hd => h d (List.mem_cons_of_mem _ hd), List.length_cons, Nat.add_assoc,
        Nat.add_comm 1]

theorem findBlank_lineEnd (c : UInt8) {d x : UInt8} (hd : d ≠ 0x0d) (hx : x ≠ 0x0d) {ys : Bytes}
    (hlen : 3 ≤ ys.length) (n : Nat) :
    findBlank (c :: d :: x :: ys) n = findBlank (x :: ys) (n + 2) := by
  have hblank : (c :: d :: x :: ys).take 4 ≠ blank := by
    intro heq
    exact hx (List.cons.inj (List.cons.inj (List.cons.inj heq).2).2).1
  have hone : ∀ y ∈ [d], y ≠ 0x0d := by simpa using hd
  have hlong : 4 ≤ (x :: ys).length := by simpa using hlen
  have hskip := findBlank_skip hone hlong (n + 1)
  rw [findBlank, if_neg (by simp only [List.length_cons]; omega), if_neg hblank]
  exact hskip

theorem findBlank_blank (t : Bytes) (n : Nat) : findBlank (blank ++ t) n = (n, true) := by
  have hlen : ¬ ([0x0a, 0x0d, 0x0a] ++ t : Bytes).length < 3 := by simp
  have htake : (0x0d :: ([0x0a, 0x0d, 0x0a] ++ t) : Bytes).take 4 = blank := by
    rw [List.take_succ_cons, List.take_append_of_le_length (by decide)]
    rfl
  change findBlank (0x0d :: ([0x0a, 0x0d, 0x0a] ++ t)) n = (n, true)
  rw [findBlank, if_neg hlen, if_pos htake]

theorem four_le_blank (xs t : Bytes) : 4 ≤ (xs ++ (blank ++ t)).length := by
  simp only [blank, List.length_append, List.length_cons, List.length_nil]
  omega

/-- The two bytes the decoder takes for a line end, when they cannot begin a blank
line: the second one is no CR. -/
def EndsLine (c d : UInt8) : Prop := inLine c = false ∧ d ≠ 0x0d

theorem EndsLine.atLineEnd {c d : UInt8} (h : EndsLine c d) (t : Bytes) : AtLineEnd (c :: d :: t) := by
  rintro x ⟨⟩
  exact h.1

theorem ne_cr_of_inLine {c : UInt8} (h : inLine c = true) : c ≠ 0x0d := by
  rintro rfl
  exact absurd h (by decide)

/-- No blank line begins in the line end before a line that is not empty, or in the
line. -/
theorem findBlank_line {c d : UInt8} (he : EndsLine c d) {ln : Bytes} (hne : ln ≠ [])
    (hln : ∀ x ∈ ln, inLine x = true) {t : Bytes} (hlen : 4 ≤ t.length) (n : Nat) :
    findBlank (c :: d :: (ln ++ t)) n = findBlank t (n + 2 + ln.length) := by
  have hcr : ∀ x ∈ ln, x ≠ 0x0d := fun x hx => ne_cr_of_inLine (hln x hx)
  obtain ⟨x, xs, hx⟩ := List.exists_cons_of_ne_nil hne
  have hskip := findBlank_skip hcr hlen (n + 2)
  rw [hx, List.cons_append] at hskip
  rw [hx, List.cons_append, findBlank_lineEnd c he.2 (hcr x (by rw [hx]; exact List.mem_cons_self))
    (by rw [List.length_append]; omega), hskip]

/-- Lines, each behind the end of the line before it. -/
def linesText (lns : List Bytes) : Bytes := lns.flatMap fun ln => crlf ++ ln

theorem linesText_cons (ln : Bytes) (lns : List Bytes) :
    linesText (ln :: lns) = 0x0d :: 0x0a :: (ln ++ linesText lns) := rfl

theorem atLineEnd_linesText (lns : List Bytes) : AtLineEnd (linesText lns) := by
  cases lns with
  | nil => rintro c ⟨⟩
  | cons ln lns =>
      rintro c ⟨⟩
      decide

theorem findBlank_linesText {lns : List Bytes}
    (h : ∀ ln ∈ lns, ln ≠ [] ∧ ∀ x ∈ ln, inLine x = true) (t : Bytes) (n : Nat) :
    findBlank (linesText lns ++ (blank ++ t)) n = (n + (linesText lns).length, true) := by
  induction lns generalizing n with
  | nil => exact findBlank_blank t n
  | cons ln lns ih =>
      have hlen : 4 ≤ (linesText lns ++ (blank ++ t)).length := four_le_blank _ t
      have hln := h ln List.mem_cons_self
      rw [linesText_cons, List.cons_append, List.cons_append, List.append_assoc,
        findBlank_line ⟨by decide, by decide⟩ hln.1 hln.2 hlen,
        ih fun x hx => h x (List.mem_cons_of_mem _ hx)]
      simp only [List.length_cons, List.length_append, Prod.mk.injEq, and_true]
      omega

theorem headerBlock_of_findBlank {block : Bytes} (hne : block ≠ []) {t : Bytes}
    (hfind : findBlank (block ++ (blank ++ t)) 0 = (block.length, true)) :
    headerBlock (block ++ (blank ++ t)) = some block := by
  have hpos : block.length ≠ 0 := fun hzero => hne (List.length_eq_zero_iff.mp hzero)
  unfold headerBlock
  simp only [hfind, true_and, ne_eq, hpos, not_false_eq_true, if_true]
  rw [List.take_left' rfl]

/-- A first line and the lines behind it are one header block. -/
theorem headerBlock_linesText {line : Bytes} (hne : line ≠ [])
    (hline : ∀ x ∈ line, inLine x = true) {lns : List Bytes}
    (h : ∀ ln ∈ lns, ln ≠ [] ∧ ∀ x ∈ ln, inLine x = true) (t : Bytes) :
    headerBlock (line ++ linesText lns ++ (blank ++ t)) = some (line ++ linesText lns) := by
  have hlen : 4 ≤ (linesText lns ++ (blank ++ t)).length := four_le_blank _ t
  have hfind : findBlank (line ++ linesText lns ++ (blank ++ t)) 0 =
      ((line ++ linesText lns).length, true) := by
    rw [List.append_assoc, findBlank_skip (fun x hx => ne_cr_of_inLine (hline x hx)) hlen,
      findBlank_linesText h, List.length_append]
    simp only [Nat.zero_add]
  exact headerBlock_of_findBlank (List.append_ne_nil_of_left_ne_nil hne _) hfind

/-! ## The header block -/

theorem laterLines_eq (headers : List (Bytes × Bytes)) :
    laterLines headers = linesText (headers.map fun hd => field hd.1 hd.2) := by
  rw [laterLines, linesText, List.flatMap_map]

/-- A header block: its first line, the two bytes behind it, and the headers. -/
def blockOf (line : Bytes) (c d : UInt8) (hd : Bytes × Bytes) (hds : List (Bytes × Bytes)) : Bytes :=
  line ++ c :: d :: (field hd.1 hd.2 ++ laterLines hds)

theorem headerText_cons (hd : Bytes × Bytes) (hds : List (Bytes × Bytes)) :
    headerText (hd :: hds) ++ crlf = field hd.1 hd.2 ++ laterLines hds ++ blank := by
  induction hds generalizing hd with
  | nil => simp [headerText, laterLines, crlf, blank]
  | cons hd' hds ih =>
      have hrest := ih hd'
      have htext : headerText (hd :: hd' :: hds) =
          field hd.1 hd.2 ++ crlf ++ headerText (hd' :: hds) := by
        simp [headerText]
      have hlines : laterLines (hd' :: hds) = crlf ++ field hd'.1 hd'.2 ++ laterLines hds := by
        simp [laterLines]
      rw [htext, List.append_assoc, hrest, hlines]
      simp only [List.append_assoc]

section Block

variable {line : Bytes} {c d : UInt8} {hd : Bytes × Bytes} {hds : List (Bytes × Bytes)}

theorem headerBlock_blockOf (hline : ∀ x ∈ line, inLine x = true) (he : EndsLine c d)
    (hok : ∀ x ∈ hd :: hds, HeaderOk x) (t : Bytes) :
    headerBlock (blockOf line c d hd hds ++ (blank ++ t)) = some (blockOf line c d hd hds) := by
  have hfields : ∀ x ∈ hd :: hds, field x.1 x.2 ≠ [] ∧ ∀ y ∈ field x.1 x.2, inLine y = true :=
    fun x hx => ⟨by simp [field], (hok x hx).field_line⟩
  have hlater : ∀ ln ∈ hds.map (fun hd => field hd.1 hd.2), ln ≠ [] ∧ ∀ y ∈ ln, inLine y = true := by
    intro ln hln
    obtain ⟨x, hx, rfl⟩ := List.mem_map.mp hln
    exact hfields x (List.mem_cons_of_mem _ hx)
  have hlen : 4 ≤ (laterLines hds ++ (blank ++ t)).length := four_le_blank _ t
  have hfind : findBlank (blockOf line c d hd hds ++ (blank ++ t)) 0 =
      ((blockOf line c d hd hds).length, true) := by
    have hsplit : blockOf line c d hd hds ++ (blank ++ t) =
        line ++ c :: d :: (field hd.1 hd.2 ++ (laterLines hds ++ (blank ++ t))) := by
      simp [blockOf]
    have hhead := hfields hd List.mem_cons_self
    rw [hsplit, findBlank_skip (fun x hx => ne_cr_of_inLine (hline x hx))
        (by simp only [List.length_cons, List.length_append] at hlen ⊢; omega),
      findBlank_line he hhead.1 hhead.2 hlen, laterLines_eq, findBlank_linesText hlater,
      ← laterLines_eq]
    simp only [blockOf, List.length_append, List.length_cons, Prod.mk.injEq, and_true]
    omega
  exact headerBlock_of_findBlank (by simp [blockOf]) hfind

theorem parseHead_blockOf (hline : ∀ x ∈ line, inLine x = true) (he : EndsLine c d)
    (hok : ∀ x ∈ hd :: hds, HeaderOk x) :
    (parseHead (blockOf line c d hd hds)).line1 = line ∧
      (parseHead (blockOf line c d hd hds)).headers = insertAll ∅ (hd :: hds) ∧
      (parseHead (blockOf line c d hd hds)).ok = true := by
  have hcut : Slice.eatLine (blockOf line c d hd hds) =
      (line, c :: d :: (field hd.1 hd.2 ++ laterLines hds)) :=
    eatLine_append_line hline (he.atLineEnd _)
  have hfirst := headerLines_field ∅ c d (hok hd List.mem_cons_self) (atLineEnd_laterLines hds)
  have hrest := headerLines_laterLines (Std.ExtTreeMap.insert ∅ (hd.1.map tolower) hd.2) hds
    fun x hx => hok x (List.mem_cons_of_mem _ hx)
  unfold parseHead
  simp only [hcut]
  rw [hfirst]
  exact ⟨trivial, hrest⟩

end Block

/-! ## The headers as a map -/

theorem insertAll_absent {headers : List (Bytes × Bytes)} {k : Bytes}
    (h : ∀ hd ∈ headers, hd.1.map tolower ≠ k) (hs : Dict) : (insertAll hs headers)[k]? = hs[k]? := by
  induction headers generalizing hs with
  | nil => rfl
  | cons hd hds ih =>
      have hne := h hd List.mem_cons_self
      rw [insertAll, List.foldl_cons, ← insertAll,
        ih (fun x hx => h x (List.mem_cons_of_mem _ hx)), Std.ExtTreeMap.getElem?_insert, if_neg]
      exact fun heq => hne (Std.LawfulEqCmp.eq_of_compare heq)

theorem insertAll_present {headers : List (Bytes × Bytes)}
    (hdistinct : headers.Pairwise fun a b => a.1.map tolower ≠ b.1.map tolower)
    {hd : Bytes × Bytes} (hmem : hd ∈ headers) (hs : Dict) :
    (insertAll hs headers)[hd.1.map tolower]? = some hd.2 := by
  induction headers generalizing hs with
  | nil => cases hmem
  | cons hd' hds ih =>
      obtain ⟨hne, hrest⟩ := List.pairwise_cons.mp hdistinct
      rw [insertAll, List.foldl_cons, ← insertAll]
      rcases List.mem_cons.mp hmem with rfl | hmem
      · rw [insertAll_absent fun x hx => (hne x hx).symm]
        exact Std.ExtTreeMap.getElem?_insert_self
      · exact ih hrest hmem _

theorem insertAll_append (hs : Dict) (xs ys : List (Bytes × Bytes)) :
    insertAll hs (xs ++ ys) = insertAll (insertAll hs xs) ys := List.foldl_append

/-- A map whose names are in lower case is put together again from its entries. -/
theorem insertAll_toList {m : Dict} (h : LowerNames m) : insertAll ∅ m.toList = m := by
  have hlower : ∀ hd ∈ m.toList, hd.1.map tolower = hd.1 := by
    intro hd hmem
    refine h hd.1 ?_
    rw [← Std.ExtTreeMap.isSome_getElem?_iff_mem,
      Std.ExtTreeMap.mem_toList_iff_getElem?_eq_some.mp hmem]
    rfl
  have hdistinct : m.toList.Pairwise fun a b => a.1.map tolower ≠ b.1.map tolower := by
    refine (Std.ExtTreeMap.distinct_keys_toList (t := m)).imp_of_mem ?_
    intro a b ha hb hne heq
    rw [hlower a ha, hlower b hb] at heq
    exact hne (by rw [heq]; exact Std.ReflCmp.compare_self)
  apply Std.ExtTreeMap.ext_getElem?
  intro k
  cases hk : m[k]? with
  | none =>
      rw [insertAll_absent]
      · rfl
      · intro hd hmem heq
        rw [hlower hd hmem] at heq
        rw [← heq, Std.ExtTreeMap.mem_toList_iff_getElem?_eq_some.mp hmem] at hk
        cases hk
  | some v =>
      have hmem := Std.ExtTreeMap.mem_toList_iff_getElem?_eq_some.mpr hk
      have hfound := insertAll_present hdistinct hmem ∅
      rw [hlower _ hmem] at hfound
      exact hfound

/-! ## The message -/

/-- `"connection"`. -/
def connectionKey : Bytes := connection.map tolower

/-- The headers a decoder finds in an encoded message with a body of `n` bytes. -/
def arrivedHeaders (m : HttpMsg) (n : Nat) : Dict :=
  (m.headers.insert connectionKey keepAlive).insert contentLength (decimal n)

/-- The names of headers: words in lower case other than the two the encoder adds. -/
structure IsName (k : Bytes) : Prop where
  nonempty : k ≠ []
  token : ∀ c ∈ k, isspace c = false ∧ c ≠ 0x3a
  lower : k.map tolower = k
  own : k ≠ connectionKey ∧ k ≠ contentLength

/-- The values of headers: trimmed, and without a line end. -/
structure IsValue (v : Bytes) : Prop where
  nonempty : v ≠ []
  trimmed : Slice.trimSpace v = v
  line : ∀ c ∈ v, inLine c = true

/-- A message that can be sent; `memory` is where `body2` points. -/
structure Sendable (m : HttpMsg) (memory : Bytes) : Prop where
  header : ∀ k v : Bytes, m.headers[k]? = some v → IsName k ∧ IsValue v
  lies : m.getBody.Lies memory
  size : (m.getBody.read memory).length < 2 ^ 31

theorem Sendable.of_no_headers {m : HttpMsg} {memory : Bytes} (hheaders : m.headers = ∅)
    (hlies : m.getBody.Lies memory) (hsize : (m.getBody.read memory).length < 2 ^ 31) :
    m.Sendable memory where
  header k v hget := by
    rw [hheaders, Std.ExtTreeMap.getElem?_empty] at hget
    cases hget
  lies := hlies
  size := hsize

theorem isWord_version : IsWord cleared.version := ⟨by decide, by decide +kernel⟩

theorem trimSpace_word {w : Bytes} (h : ∀ c ∈ w, isspace c = false) : Slice.trimSpace w = w := by
  have hstart : w.dropWhile isspace = w := by
    cases w with
    | nil => rfl
    | cons c w => rw [List.dropWhile_cons_of_neg (by simp [h c List.mem_cons_self])]
  unfold Slice.trimSpace
  rw [hstart, List.rdropWhile_eq_self_iff]
  intro hne hlast
  rw [h _ (List.getLast_mem hne)] at hlast
  cases hlast

theorem headerOk_sent {m : HttpMsg} {memory : Bytes} (h : m.Sendable memory) (n : Nat) :
    ∀ hd ∈ m.sentHeaders n, HeaderOk hd := by
  intro hd hmem
  rcases List.mem_append.mp hmem with hmem | hmem
  · have hget : m.headers[hd.1]? = some hd.2 := Std.ExtTreeMap.mem_toList_iff_getElem?_eq_some.mp hmem
    obtain ⟨hname, hvalue⟩ := h.header hd.1 hd.2 hget
    exact ⟨fun c hc => (hname.token c hc).1, hvalue.nonempty, hvalue.trimmed, hvalue.line⟩
  · rcases List.mem_cons.mp hmem with rfl | hmem
    · exact ⟨by decide +kernel, by decide, by decide, by decide +kernel⟩
    · rw [List.mem_singleton.mp hmem]
      have hspace : ∀ c ∈ decimal n, isspace c = false := fun c hc =>
        isspace_of_isdigit (isdigit_decimal n c hc)
      have hname : ∀ c ∈ contentLengthName, isspace c = false := by decide +kernel
      exact ⟨hname, decimal_ne_nil n, trimSpace_word hspace, fun c hc =>
        inLine_of_not_isspace (hspace c hc)⟩

theorem insertAll_sent {m : HttpMsg} {memory : Bytes} (h : m.Sendable memory) (n : Nat) :
    insertAll ∅ (m.sentHeaders n) = m.arrivedHeaders n := by
  have hlower : LowerNames m.headers := by
    intro k hk
    obtain ⟨v, hv⟩ := Option.isSome_iff_exists.mp (Std.ExtTreeMap.isSome_getElem?_iff_mem.mpr hk)
    exact (h.header k v hv).1.lower
  rw [sentHeaders, insertAll_append, insertAll_toList hlower]
  rfl

/-- The start line behind which a message stands, cut before its first header. -/
theorem sentText_eq (m : HttpMsg) (body : Bytes) : ∃ hd hds, m.sentHeaders body.length = hd :: hds ∧
    ∀ line c d, line ++ c :: d :: m.sentText body = blockOf line c d hd hds ++ (blank ++ body) := by
  obtain ⟨hd, hds, hcons⟩ := List.exists_cons_of_ne_nil
    (l := m.sentHeaders body.length) (by simp [sentHeaders])
  refine ⟨hd, hds, hcons, fun line c d => ?_⟩
  rw [sentText, hcons, headerText_cons]
  simp [blockOf]

theorem toInt32_mod (n : Nat) : toInt32 (n % 2 ^ 64) = toInt32 n := by
  unfold toInt32
  have hmod : n % 2 ^ 64 % 2 ^ 32 = n % 2 ^ 32 := by omega
  rw [hmod]

/-- `getBody` of a message that has left its body in the buffer. -/
theorem read_getBody_ofLen {m : HttpMsg} {s n : Nat} (hslice : m.body2 = .ofLen s n)
    (hbody : m.body = []) (memory : Bytes) :
    m.getBody.read memory = (memory.drop s).take n := by
  have hends : m.body2.pb = s ∧ m.body2.pe = s + n := by
    rw [hslice]
    exact ⟨rfl, rfl⟩
  unfold getBody
  by_cases hzero : n = 0
  · rw [if_pos (by omega), hbody, hzero, List.take_zero]
    rfl
  · have hdiff : (m.body2.pe - m.body2.pb).toNat = n := by omega
    rw [if_neg (by omega), Body.read, Slice.read, hdiff, hends.1, Int.toNat_natCast]

/-- A body of the declared length behind its header block is taken, copied or not,
with all that follows it left alone. -/
theorem takeBody_arrived {block body : Bytes} (hdecl : (parseHead block).declared = body.length)
    (hsize : body.length < 2 ^ 31) (t : Bytes) (copyBody : Bool) :
    let d := (parseHead block).msg.takeBody
      (rewritten (block ++ (blank ++ (body ++ t))) block) copyBody
    d.outcome = .returned .complete ∧ d.msg.headers = (parseHead block).headers ∧
      d.msg.getBody.read d.memory = body ∧ d.msg.getByte = toInt32 (block.length + 4 + body.length) := by
  have hlen : (parseHead block).msg.contentLen = body.length := by
    have hnonneg : 0 ≤ (parseHead block).declared := by omega
    have h := (Head.contentLen_of_nonneg hnonneg).1
    omega
  have hscan : (parseHead block).msg.scanned = block.length + 4 := by
    rw [Head.msg, length_text]
  have htext := length_text block
  have hbuf : rewritten (block ++ (blank ++ (body ++ t))) block =
      (parseHead block).text ++ (blank ++ (body ++ t)) := by
    rw [rewritten, List.drop_left]
  have hdrop : ((parseHead block).text ++ (blank ++ (body ++ t))).drop (block.length + 4) =
      body ++ t := by
    rw [← htext, ← List.drop_drop, List.drop_left]
    exact List.drop_left' rfl
  have hbytes : ∀ n, n = body.length →
      (((parseHead block).text ++ (blank ++ (body ++ t))).drop (block.length + 4)).take n = body := by
    rintro n rfl
    rw [hdrop, List.take_left' rfl]
  rw [hbuf]
  rcases takeBody_cases (parseHead block).msg ((parseHead block).text ++ (blank ++ (body ++ t)))
    copyBody with ⟨hshort, -⟩ | ⟨-, ⟨-, hbig, -⟩ | ⟨-, heq⟩⟩
  · have hmod := Nat.mod_le ((parseHead block).msg.contentLen + (parseHead block).msg.scanned) (2 ^ 64)
    rw [hlen, hscan] at hshort hmod
    simp only [List.length_append, htext, blank, List.length_cons, List.length_nil] at hshort
    omega
  · rw [hlen, maxSize] at hbig
    omega
  · rw [heq]
    refine ⟨rfl, rfl, ?_, ?_⟩
    · cases copyBody with
      | true =>
          have hcopied : (((parseHead block).text ++ (blank ++ (body ++ t))).drop
              (parseHead block).msg.scanned).take (parseHead block).msg.contentLen = body := by
            rw [hscan]
            exact hbytes _ hlen
          exact hcopied
      | false =>
          refine (read_getBody_ofLen (s := block.length + 4) (n := body.length) ?_ rfl _).trans
            (hbytes _ rfl)
          simp only [hlen, hscan, toDiff, Bool.false_eq_true, if_false]
          rw [if_pos (by omega)]
    · rw [getByte]
      simp only [hlen, hscan, toInt32_mod]

theorem takeBody_keeps_headers (m : HttpMsg) (buf : Bytes) (copyBody : Bool) :
    (m.takeBody buf copyBody).msg.headers = m.headers := by
  rcases takeBody_cases m buf copyBody with ⟨-, h⟩ | ⟨-, ⟨-, -, h⟩ | ⟨-, h⟩⟩
  · rw [h]
  · rw [h]
  · rw [h]

/-- No two lines of an encoded message have one name. -/
theorem distinct_sent {m : HttpMsg} {memory : Bytes} (h : m.Sendable memory) (n : Nat) :
    (m.sentHeaders n).Pairwise fun a b => a.1.map tolower ≠ b.1.map tolower := by
  have hname : ∀ hd ∈ m.headers.toList, IsName hd.1 := fun hd hmem =>
    (h.header hd.1 hd.2 (Std.ExtTreeMap.mem_toList_iff_getElem?_eq_some.mp hmem)).1
  refine List.pairwise_append.mpr ⟨?_, ?_, ?_⟩
  · refine (Std.ExtTreeMap.distinct_keys_toList (t := m.headers)).imp_of_mem ?_
    intro a b ha hb hne heq
    rw [(hname a ha).lower, (hname b hb).lower] at heq
    exact hne (by rw [heq]; exact Std.ReflCmp.compare_self)
  · refine List.pairwise_cons.mpr ⟨?_, List.pairwise_singleton _ _⟩
    intro b hb
    rw [List.mem_singleton.mp hb]
    have hne : connection.map tolower ≠ contentLengthName.map tolower := by decide
    exact hne
  · intro a ha b hb
    rw [(hname a ha).lower]
    rcases List.mem_cons.mp hb with rfl | hb
    · exact (hname a ha).own.1
    · rw [List.mem_singleton.mp hb]
      have hkey : contentLengthName.map tolower = contentLength := by decide
      rw [hkey]
      exact (hname a ha).own.2

theorem two_le_sentHeaders (m : HttpMsg) (n : Nat) :
    ∃ hd hd' hds, m.sentHeaders n = hd :: hd' :: hds := by
  unfold sentHeaders
  rcases m.headers.toList with _ | ⟨hd, _ | ⟨hd', hds⟩⟩
  · exact ⟨_, _, _, rfl⟩
  · exact ⟨_, _, _, rfl⟩
  · exact ⟨_, _, _, rfl⟩

theorem sent_name_ne_nil {m : HttpMsg} {memory : Bytes} (h : m.Sendable memory) {n : Nat}
    {hd : Bytes × Bytes} {hds : List (Bytes × Bytes)} (hcons : m.sentHeaders n = hd :: hds) :
    hd.1 ≠ [] := by
  have hmem : hd ∈ m.sentHeaders n := by
    rw [hcons]
    exact List.mem_cons_self
  rcases List.mem_append.mp hmem with hmem | hmem
  · exact (h.header hd.1 hd.2 (Std.ExtTreeMap.mem_toList_iff_getElem?_eq_some.mp hmem)).1.nonempty
  · rcases List.mem_cons.mp hmem with rfl | hmem
    · exact List.cons_ne_nil _ _
    · rw [List.mem_singleton.mp hmem]
      exact List.cons_ne_nil _ _

theorem declared_arrived {m : HttpMsg} {n : Nat} (hn : n < 2 ^ 31) {block : Bytes}
    (h : (parseHead block).headers = m.arrivedHeaders n) : (parseHead block).declared = n := by
  have hvalue : (m.arrivedHeaders n).getValue contentLength = decimal n :=
    Std.ExtTreeMap.getD_insert_self
  have hread := atoi_decimal hn (t := []) (by rintro c ⟨⟩)
  rw [List.append_nil] at hread
  rw [Head.declared, h, hvalue, hread]

end HttpMsg

/-! ## Words of a start line -/

theorem cStr_word {w : Bytes} (h : IsWord w) : cStr w = w :=
  List.takeWhile_eq_self_iff.mpr fun c hc => by simpa using (h.2 c hc).2

theorem eatWord_blank (s : Bytes) : Slice.eatWord (0x20 :: s) = Slice.eatWord s := by
  unfold Slice.eatWord
  rw [List.dropWhile_cons_of_pos (by decide)]

theorem IsWord.inLine {w : Bytes} (h : IsWord w) : ∀ c ∈ w, inLine c = true := fun c hc =>
  HttpMsg.inLine_of_not_isspace (h.2 c hc).1

theorem IsWord.eatWord {w : Bytes} (h : IsWord w) (t : Bytes) :
    Slice.eatWord (w ++ 0x20 :: t) = (w, 0x20 :: t) := by
  refine HttpMsg.eatWord_append_word h.1 (fun c hc => (h.2 c hc).1) ?_
  rintro c ⟨⟩
  decide

theorem IsWord.eatWord_end {w : Bytes} (h : IsWord w) : Slice.eatWord w = (w, []) := by
  have hend := HttpMsg.eatWord_append_word (t := []) h.1 (fun c hc => (h.2 c hc).1)
    (by rintro c ⟨⟩)
  rwa [List.append_nil] at hend

theorem isWord_signedDecimal (v : Int) : IsWord (signedDecimal v) := by
  have hdigits : ∀ c ∈ decimal v.natAbs, isspace c = false ∧ c ≠ 0 := by
    intro c hc
    have hdigit := isdigit_decimal _ c hc
    refine ⟨isspace_of_isdigit hdigit, ?_⟩
    rintro rfl
    exact absurd hdigit (by decide)
  unfold signedDecimal
  split
  · refine ⟨List.cons_ne_nil _ _, fun c hc => ?_⟩
    rcases List.mem_cons.mp hc with rfl | hc
    · exact ⟨by decide, by decide⟩
    · exact hdigits c hc
  · exact ⟨decimal_ne_nil _, hdigits⟩

theorem IsWord.dropWhile {w : Bytes} (h : IsWord w) (t : Bytes) :
    (w ++ t).dropWhile isspace = w ++ t := by
  obtain ⟨c, s, rfl⟩ := List.exists_cons_of_ne_nil h.1
  rw [List.cons_append, List.dropWhile_cons_of_neg (by simp [(h.2 c List.mem_cons_self).1])]

end Handy
