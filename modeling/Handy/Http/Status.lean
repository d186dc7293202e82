import Handy.Http.ResponseTrip

/-! # Where the status of a response comes from

`HttpResponse::tryDecode` hands `atoi` a pointer into the receive buffer. With a
status word in the first line the conversion ends at the word's end. Without one
the pointer is the end of the line, and `atoi` goes over the line end into the
bytes behind it: the first header, or the body. So the status depends on the
first line alone exactly when that line is empty or has a second word.
-/

namespace Handy

/-! ## Conversions -/

theorem digits_append {y : Bytes} (hy : EndsDigits y) (s : Bytes) : digits (s ++ y) = digits s := by
  have htake : (s ++ y).takeWhile isdigit = s.takeWhile isdigit := by
    have hend : y.takeWhile isdigit = [] := by
      cases y with
      | nil => rfl
      | cons c y => rw [List.takeWhile_cons_of_neg (by simp [hy c rfl])]
    rw [List.takeWhile_append, hend, List.append_nil]
    split
    · next hall => exact ((List.takeWhile_prefix isdigit).eq_of_length hall).symm
    · rfl
  rw [digits, htake, digits]

theorem atoi_word {w y : Bytes} (hne : w ≠ []) (hword : ∀ c ∈ w, isspace c = false)
    (hy : EndsDigits y) : atoi (w ++ y) = atoi w := by
  obtain ⟨c, s, rfl⟩ := List.exists_cons_of_ne_nil hne
  have hc : ¬ isspace c = true := by simp [hword c List.mem_cons_self]
  have hfirst := digits_append hy (c :: s)
  have hrest := digits_append hy s
  rw [List.cons_append] at hfirst
  unfold atoi
  rw [List.cons_append]
  by_cases hminus : c = 0x2d
  · subst hminus
    unfold strtol
    rw [List.dropWhile_cons_of_neg hc, List.dropWhile_cons_of_neg hc]
    simp only [hrest]
  · by_cases hplus : c = 0x2b
    · subst hplus
      unfold strtol
      rw [List.dropWhile_cons_of_neg hc, List.dropWhile_cons_of_neg hc]
      simp only [hrest]
    · have hspace := hword c List.mem_cons_self
      rw [strtol_unsigned hspace hminus hplus, strtol_unsigned hspace hminus hplus, hfirst]

theorem atoi_space {c : UInt8} (h : isspace c = true) (s : Bytes) : atoi (c :: s) = atoi s := by
  unfold atoi strtol
  rw [List.dropWhile_cons_of_pos h]

namespace HttpMsg

/-! ## The first line of a header block -/

theorem blank_of_findBlank {xs : Bytes} {n : Nat} (h : (findBlank xs n).2 = true) :
    (xs.drop ((findBlank xs n).1 - n)).take 4 = blank := by
  induction xs generalizing n with
  | nil => simp [findBlank] at h
  | cons c rest ih =>
      unfold findBlank at h ⊢
      split at h
      · simp at h
      · next hlen =>
          rw [if_neg hlen]
          split at h
          · next hblank =>
              rw [if_pos hblank, Nat.sub_self]
              exact hblank
          · next hblank =>
              have hle := le_findBlank rest (n + 1)
              have hdrop : (findBlank rest (n + 1)).1 - n = (findBlank rest (n + 1)).1 - (n + 1) + 1 := by
                omega
              rw [if_neg hblank, hdrop, List.drop_succ_cons]
              exact ih h

theorem drop_headerBlock {b block : Bytes} (h : headerBlock b = some block) :
    ∃ t, b = block ++ 0x0d :: t := by
  obtain ⟨-, -, hfind, htake⟩ := headerBlock_eq_some h
  have hfound : (findBlank b 0).2 = true := by rw [hfind]
  have hblank := blank_of_findBlank hfound
  rw [hfind, Nat.sub_zero] at hblank
  have hsplit : b = block ++ b.drop block.length := by
    conv_lhs => rw [← List.take_append_drop block.length b, htake]
  cases hrest : b.drop block.length with
  | nil =>
      rw [hrest] at hblank
      cases hblank
  | cons c t =>
      rw [hrest] at hblank
      have hc : c = 0x0d := (List.cons.inj hblank).1
      refine ⟨t, ?_⟩
      rw [← hc, ← hrest]
      exact hsplit

theorem line1_eq {b block : Bytes} (h : headerBlock b = some block) :
    (parseHead block).line1 = (Slice.eatLine b).1 := by
  obtain ⟨t, rfl⟩ := drop_headerBlock h
  have hend : (0x0d :: t : Bytes).takeWhile inLine = [] := List.takeWhile_cons_of_neg (by decide)
  have hline : (parseHead block).line1 = block.takeWhile inLine := rfl
  rw [hline, Slice.eatLine, List.takeWhile_append, hend, List.append_nil]
  split
  · next hall => exact (List.takeWhile_prefix inLine).eq_of_length hall
  · rfl

theorem head?_headerLines (hs : Dict) (req : Bytes) : (headerLines hs req).2.2.head? = req.head? := by
  rw [headerLines.eq_def]
  split
  · rfl
  · rfl
  · simp only
    split
    · rfl
    · split <;> rfl

theorem rewritten_line1 {b block : Bytes} (h : headerBlock b = some block) :
    ∃ c t, rewritten b block = (parseHead block).line1 ++ c :: t ∧ inLine c = false := by
  obtain ⟨t, hb⟩ := drop_headerBlock h
  have hdrop : b.drop block.length = 0x0d :: t := by rw [hb, List.drop_left]
  have hhead := head?_headerLines ∅ (Slice.eatLine block).2
  have htext : (parseHead block).text =
      (parseHead block).line1 ++ (headerLines ∅ (Slice.eatLine block).2).2.2 := rfl
  rw [rewritten, htext, hdrop, List.append_assoc]
  cases hleft : (headerLines ∅ (Slice.eatLine block).2).2.2 with
  | nil => exact ⟨0x0d, t, rfl, by decide⟩
  | cons c left =>
      rw [hleft] at hhead
      have hstop := List.head?_dropWhile_not inLine block
      have hrest : (block.dropWhile inLine).head? = some c := hhead.symm
      rw [hrest] at hstop
      exact ⟨c, left ++ 0x0d :: t, rfl, hstop⟩

end HttpMsg

namespace HttpResponse

open HttpMsg

/-- What the first line decides. -/
def statusFields (resp : HttpResponse) : Bytes × Int × Bytes :=
  (resp.version, resp.status, resp.statusWord)

def lineEnd : Bytes → Bytes
  | 0x0d :: 0x0a :: _ => crlf
  | c :: _ => [c]
  | [] => []

/-- `s'` has the first line of `s`, with its end; from there on it is any text. -/
def SameFirstLine (s s' : Bytes) : Prop :=
  ∃ t, s' = (Slice.eatLine s).1 ++ lineEnd (Slice.eatLine s).2 ++ t

/-- No bytes behind the first line, of the message or of the memory behind it, get
into the fields of a response that is complete with them. -/
def LineDecides (s : Bytes) (fields : Bytes × Int × Bytes) : Prop :=
  ∀ s' t behind copyBody, SameFirstLine s s' →
    (cleared.tryDecode (s' ++ t) behind copyBody).outcome = .returned .complete →
    statusFields (cleared.tryDecode (s' ++ t) behind copyBody).msg = fields

def secondWord (line : Bytes) : Bytes := (Slice.eatWord (Slice.eatWord line).2).1

/-! ## What a complete response says -/

theorem fields_of_complete {b behind : Bytes} {copyBody : Bool}
    (h : (cleared.tryDecode b behind copyBody).outcome = .returned .complete) :
    ∃ block, headerBlock b = some block ∧
      statusFields (cleared.tryDecode b behind copyBody).msg =
        if (Slice.eatLine b).1 = [] then statusFields cleared
        else statusFields (cleared.startLine (Slice.eatLine b).1 (rewritten b block ++ behind)) := by
  have hmsg : cleared.toHttpMsg = HttpMsg.cleared := rfl
  unfold tryDecode at h ⊢
  rw [hmsg] at h ⊢
  cases hblock : headerBlock b with
  | none =>
      rw [HttpMsg.tryDecode_none hblock] at h
      cases h
  | some block =>
      refine ⟨block, rfl, ?_⟩
      rw [HttpMsg.tryDecode_some hblock] at h ⊢
      cases hok : (parseHead block).ok with
      | false =>
          rw [hok] at h
          by_cases hline : (parseHead block).line1 = []
          · simp [finish, hline] at h
          · simp [finish, hline] at h
      | true =>
          rw [hok, if_pos rfl] at h
          rw [if_pos rfl, ← line1_eq hblock]
          have hversion := takeBody_keeps_version (parseHead block).msg (rewritten b block) copyBody
          cases hout : ((parseHead block).msg.takeBody (rewritten b block) copyBody).outcome with
          | lengthError =>
              simp only [finish, hout] at h
              cases h
          | returned r =>
              unfold finish
              simp only [hout]
              by_cases hline : (parseHead block).line1 = []
              · rw [if_pos hline, if_pos hline]
                simp only [statusFields, hversion]
                rfl
              · rw [if_neg hline, if_neg hline]
                simp only [takeBody_memory]
                rfl

/-- `atoi` is given what the first line has from its second word on, and all the
memory behind the line. -/
theorem status_startLine (resp : HttpResponse) (line t : Bytes) :
    (resp.startLine line (line ++ t)).status =
      atoi ((Slice.eatWord line).2.dropWhile isspace ++ t) := by
  have hparts := Slice.eatWord_append line
  obtain ⟨p, hp⟩ : (Slice.eatWord line).2.dropWhile isspace <:+ line :=
    (List.dropWhile_suffix isspace).trans ⟨_, hparts⟩
  have hpos : line.length - ((Slice.eatWord line).2.dropWhile isspace).length = p.length := by
    have hlen := congrArg List.length hp
    rw [List.length_append] at hlen
    omega
  have hdrop : (line ++ t).drop p.length = (Slice.eatWord line).2.dropWhile isspace ++ t := by
    conv_lhs => rw [← hp, List.append_assoc, List.drop_left]
  simp only [startLine, hpos, hdrop]

theorem status_of_secondWord (resp : HttpResponse) {line : Bytes} (hword : secondWord line ≠ [])
    {c : UInt8} (hc : inLine c = false) (t : Bytes) :
    (resp.startLine line (line ++ c :: t)).status = atoi (secondWord line) := by
  rw [status_startLine]
  have hsplit : (Slice.eatWord line).2.dropWhile isspace =
      secondWord line ++ (Slice.eatWord (Slice.eatWord line).2).2 :=
    List.takeWhile_append_dropWhile.symm
  have hspace : ∀ x ∈ secondWord line, isspace x = false := by
    intro x hx
    have hp := List.mem_takeWhile_imp hx
    simpa using hp
  have hdigit : ∀ x, isspace x = true → isdigit x = false := by
    intro x hx
    cases hd : isdigit x with
    | false => rfl
    | true =>
        rw [isspace_of_isdigit hd] at hx
        cases hx
  have hend : EndsDigits ((Slice.eatWord (Slice.eatWord line).2).2 ++ c :: t) := by
    intro x hx
    have hstop := List.head?_dropWhile_not (!isspace ·) ((Slice.eatWord line).2.dropWhile isspace)
    have htail : ((Slice.eatWord line).2.dropWhile isspace).dropWhile (!isspace ·) =
        (Slice.eatWord (Slice.eatWord line).2).2 := rfl
    rw [htail] at hstop
    cases hrest : (Slice.eatWord (Slice.eatWord line).2).2 with
    | nil =>
        rw [hrest] at hx
        have hxc : c = x := Option.some.inj hx
        refine hdigit x ?_
        by_contra hno
        rw [← hxc, inLine_of_not_isspace (Bool.eq_false_iff.mpr (hxc ▸ hno))] at *
        cases hc
    | cons d tail =>
        rw [hrest] at hx hstop
        have hxd : d = x := Option.some.inj hx
        refine hdigit x ?_
        simpa [hxd] using hstop
  rw [hsplit, List.append_assoc, atoi_word hword hspace hend]

theorem status_of_no_secondWord (resp : HttpResponse) {line : Bytes} (hword : secondWord line = [])
    (t : Bytes) : (resp.startLine line (line ++ t)).status = atoi t := by
  have hnone : (Slice.eatWord line).2.dropWhile isspace = [] := by
    have hstop := List.head?_dropWhile_not isspace (Slice.eatWord line).2
    have hfirst : ((Slice.eatWord line).2.dropWhile isspace).takeWhile (!isspace ·) = [] := hword
    cases hrest : (Slice.eatWord line).2.dropWhile isspace with
    | nil => rfl
    | cons c rest =>
        rw [hrest] at hstop hfirst
        rw [List.takeWhile_cons_of_pos (by simpa using hstop)] at hfirst
        cases hfirst
  rw [status_startLine, hnone, List.nil_append]

/-! ## A second word decides -/

theorem lineEnd_of_complete {s behind : Bytes} {copyBody : Bool}
    (h : (cleared.tryDecode s behind copyBody).outcome = .returned .complete) :
    ∃ c t, (Slice.eatLine s).2 = c :: t ∧ inLine c = false := by
  obtain ⟨block, hblock, -⟩ := fields_of_complete h
  obtain ⟨t, hs⟩ := drop_headerBlock hblock
  have hstop := List.head?_dropWhile_not inLine s
  cases hrest : s.dropWhile inLine with
  | nil =>
      -- the CR behind the block is no character of the line
      have hall := List.dropWhile_eq_nil_iff.mp hrest 0x0d (by rw [hs]; simp)
      exact absurd hall (by decide)
  | cons c t =>
      rw [hrest] at hstop
      exact ⟨c, t, hrest, hstop⟩

theorem eatLine_of_same {s s' : Bytes} {c : UInt8} {u : Bytes} (hend : (Slice.eatLine s).2 = c :: u)
    (hc : inLine c = false) (h : SameFirstLine s s') (t : Bytes) :
    (Slice.eatLine (s' ++ t)).1 = (Slice.eatLine s).1 := by
  obtain ⟨v, rfl⟩ := h
  have hfirst : ∃ w, lineEnd (c :: u) = c :: w := by
    unfold lineEnd
    split
    · next heq => exact ⟨[0x0a], by rw [(List.cons.inj heq).1]; rfl⟩
    · next heq => exact ⟨[], by rw [(List.cons.inj heq).1]⟩
    · next heq => cases heq
  obtain ⟨w, hw⟩ := hfirst
  have hline : ∀ x ∈ (Slice.eatLine s).1, inLine x = true := fun x hx => List.mem_takeWhile_imp hx
  have hcut := eatLine_append_line hline (t := c :: (w ++ (v ++ t))) (by rintro x ⟨⟩; exact hc)
  rw [hend, hw, List.append_assoc, List.append_assoc, List.cons_append, hcut]

/-- The fields of a complete response whose first line is empty or has a second
word. -/
theorem fields_of_line {b behind : Bytes} {copyBody : Bool}
    (h : (cleared.tryDecode b behind copyBody).outcome = .returned .complete)
    (hword : (Slice.eatLine b).1 = [] ∨ secondWord (Slice.eatLine b).1 ≠ []) :
    statusFields (cleared.tryDecode b behind copyBody).msg =
      if (Slice.eatLine b).1 = [] then statusFields cleared
      else ((Slice.eatWord (Slice.eatLine b).1).1, atoi (secondWord (Slice.eatLine b).1),
        Slice.trimSpace (Slice.eatWord (Slice.eatWord (Slice.eatLine b).1).2).2) := by
  obtain ⟨block, hblock, hfields⟩ := fields_of_complete h
  rw [hfields]
  by_cases hline : (Slice.eatLine b).1 = []
  · rw [if_pos hline, if_pos hline]
  · obtain ⟨c, t, hmemory, hc⟩ := rewritten_line1 hblock
    rw [line1_eq hblock] at hmemory
    have hstatus := status_of_secondWord cleared (hword.resolve_left hline) hc (t ++ behind)
    rw [if_neg hline, if_neg hline, hmemory, List.append_assoc, List.cons_append]
    simp only [statusFields, hstatus]
    rfl

theorem lineDecides_of_secondWord {s behind : Bytes} {copyBody : Bool}
    (h : (cleared.tryDecode s behind copyBody).outcome = .returned .complete)
    (hword : (Slice.eatLine s).1 = [] ∨ secondWord (Slice.eatLine s).1 ≠ []) :
    LineDecides s (statusFields (cleared.tryDecode s behind copyBody).msg) := by
  intro s' t behind' copyBody' hsame hcomplete
  obtain ⟨c, u, hend, hc⟩ := lineEnd_of_complete h
  have hline := eatLine_of_same hend hc hsame t
  have hword' : (Slice.eatLine (s' ++ t)).1 = [] ∨ secondWord (Slice.eatLine (s' ++ t)).1 ≠ [] := by
    rwa [hline]
  rw [fields_of_line hcomplete hword', fields_of_line h hword, hline]

/-! ## No second word -/

/-- The header `k: x` behind a first line, with its two bytes of line end. -/
def digitMessage (line : Bytes) (c d : UInt8) (k : Nat) : Bytes :=
  blockOf line c d (decimal k, [0x78]) [] ++ blank

theorem headerOk_digit (k : Nat) : HeaderOk (decimal k, [0x78]) := by
  have hvalue : IsValue [0x78] := ⟨by decide, by decide, by decide +kernel⟩
  exact ⟨fun x hx => isspace_of_isdigit (isdigit_decimal k x hx), hvalue.nonempty, hvalue.trimmed,
    hvalue.line⟩

theorem map_tolower_decimal (k : Nat) : (decimal k).map tolower = decimal k := by
  have hsame : ∀ x ∈ decimal k, tolower x = id x := by
    intro x hx
    have hrange : 0x30 ≤ x.toNat ∧ x.toNat ≤ 0x39 := by
      simpa [isdigit, UInt8.le_iff_toNat_le] using isdigit_decimal k x hx
    unfold tolower
    rw [if_neg, id]
    rintro ⟨hlo, -⟩
    simp only [UInt8.le_iff_toNat_le, UInt8.reduceToNat] at hlo
    omega
  rw [List.map_congr_left hsame, List.map_id]

theorem status_digitMessage {line : Bytes} {c d : UInt8} (hline : ∀ x ∈ line, inLine x = true)
    (hne : line ≠ []) (hword : secondWord line = []) (hc : inLine c = false) (hd : d ≠ 0x0d)
    (hspace : isspace d = true) {k : Nat} (hk : k < 2 ^ 31) (hkey : decimal k ≠ contentLength)
    (behind : Bytes) (copyBody : Bool) :
    (cleared.tryDecode (digitMessage line c d k) behind copyBody).outcome = .returned .complete ∧
      (cleared.tryDecode (digitMessage line c d k) behind copyBody).msg.status = k := by
  have hends : EndsLine c d := ⟨hc, hd⟩
  have hok : ∀ x ∈ [(decimal k, [0x78])], HeaderOk x := by
    intro x hx
    rw [List.mem_singleton.mp hx]
    exact headerOk_digit k
  have hcut : digitMessage line c d k =
      blockOf line c d (decimal k, [0x78]) [] ++ (blank ++ ([] ++ [])) := rfl
  have hblock := headerBlock_blockOf hline hends hok ([] ++ [])
  obtain ⟨hline1, hheaders, hgood⟩ := parseHead_blockOf hline hends hok
  have hdecl : (parseHead (blockOf line c d (decimal k, [0x78]) [])).declared =
      ([] : Bytes).length := by
    have hnone : (Std.ExtTreeMap.insert (∅ : Dict) (decimal k) [0x78])[contentLength]? = none := by
      rw [Std.ExtTreeMap.getElem?_insert, if_neg, Std.ExtTreeMap.getElem?_empty]
      exact fun heq => hkey (Std.LawfulEqCmp.eq_of_compare heq)
    have hmap : insertAll ∅ [(decimal k, [0x78])] =
        Std.ExtTreeMap.insert (∅ : Dict) ((decimal k).map tolower) [0x78] := rfl
    rw [Head.declared, hheaders, hmap, map_tolower_decimal, Dict.getValue,
      Std.ExtTreeMap.getD_eq_getD_getElem?, hnone]
    rfl
  obtain ⟨hout, -⟩ := takeBody_arrived hdecl (by decide) [] copyBody
  have hcall := finish_of_line hblock hgood (by rw [hline1]; exact hne) hout behind
  rw [hcut, hcall]
  refine ⟨rfl, ?_⟩
  obtain ⟨left, hleft⟩ : ∃ left,
      (headerLines ∅ (c :: d :: (field (decimal k) [0x78] ++ laterLines []))).2.2 =
        c :: d :: ((decimal k).map tolower ++ 0x3a :: left) := by
    rw [headerLines_field ∅ c d (headerOk_digit k) (atLineEnd_laterLines [])]
    exact ⟨_, congrArg (fun left => c :: d :: left) (List.append_assoc _ _ _)⟩
  have hmemory : rewritten (blockOf line c d (decimal k, [0x78]) [] ++ (blank ++ ([] ++ [])))
      (blockOf line c d (decimal k, [0x78]) []) ++ behind =
        line ++ c :: d :: (decimal k ++ 0x3a :: (left ++ (blank ++ behind))) := by
    have hrest : (Slice.eatLine (blockOf line c d (decimal k, [0x78]) [])).2 =
        c :: d :: (field (decimal k) [0x78] ++ laterLines []) :=
      congrArg Prod.snd (eatLine_append_line hline (hends.atLineEnd _))
    have htext : (parseHead (blockOf line c d (decimal k, [0x78]) [])).text =
        (parseHead (blockOf line c d (decimal k, [0x78]) [])).line1 ++
          (headerLines ∅ (Slice.eatLine (blockOf line c d (decimal k, [0x78]) [])).2).2.2 := rfl
    rw [rewritten, List.drop_left, htext, hline1, hrest, hleft, map_tolower_decimal]
    simp
  have hcolon : EndsDigits (0x3a :: (left ++ (blank ++ behind))) := by
    rintro x ⟨⟩
    decide
  have hspace' : isspace c = true := by
    by_contra hno
    rw [inLine_of_not_isspace (Bool.eq_false_iff.mpr hno)] at hc
    cases hc
  rw [hline1, hmemory]
  simp only [status_of_no_secondWord _ hword, atoi_space hspace', atoi_space hspace,
    atoi_decimal hk hcolon]

/-- Any first line without a second word has two complete messages behind it that
differ in the status. -/
theorem secondWord_of_lineDecides {s behind : Bytes} {copyBody : Bool}
    (h : (cleared.tryDecode s behind copyBody).outcome = .returned .complete)
    (hdecides : LineDecides s (statusFields (cleared.tryDecode s behind copyBody).msg)) :
    (Slice.eatLine s).1 = [] ∨ secondWord (Slice.eatLine s).1 ≠ [] := by
  by_contra hno
  rw [not_or, not_not] at hno
  obtain ⟨hne, hword⟩ := hno
  obtain ⟨c, u, hend, hc⟩ := lineEnd_of_complete h
  have hline : ∀ x ∈ (Slice.eatLine s).1, inLine x = true := fun x hx => List.mem_takeWhile_imp hx
  -- the two bytes of line end a message with the same first line can have
  obtain ⟨d, v, hd, hspace, hstart⟩ : ∃ d v, d ≠ 0x0d ∧ isspace d = true ∧
      lineEnd (c :: u) ++ v = [c, d] := by
    unfold lineEnd
    split
    · next heq => exact ⟨0x0a, [], by decide, by decide, by rw [(List.cons.inj heq).1]; rfl⟩
    · next heq => exact ⟨0x20, [0x20], by decide, by decide, by rw [(List.cons.inj heq).1]; rfl⟩
    · next heq => cases heq
  have hstatus : ∀ k < 2 ^ 31, decimal k ≠ contentLength →
      (statusFields (cleared.tryDecode s behind copyBody).msg).2.1 = k := by
    intro k hk hkey
    have hsame : SameFirstLine s (digitMessage (Slice.eatLine s).1 c d k) := by
      refine ⟨v ++ (field (decimal k) [0x78] ++ blank), ?_⟩
      rw [hend, List.append_assoc, ← List.append_assoc (lineEnd (c :: u)), hstart]
      simp [digitMessage, blockOf, laterLines]
    obtain ⟨hout, hval⟩ := status_digitMessage hline hne hword hc hd hspace hk hkey behind copyBody
    have hfields := hdecides _ [] behind copyBody hsame (by rwa [List.append_nil])
    rw [List.append_nil] at hfields
    rw [← hfields]
    exact hval
  have hseven := hstatus 7 (by decide) (by decide)
  have height := hstatus 8 (by decide) (by decide)
  rw [hseven] at height
  cases height

/-- The first line of a complete response decides its version, status and reason
phrase exactly when it is empty or has a second word. -/
theorem line_decides_iff (s behind : Bytes) (copyBody : Bool)
    (h : (cleared.tryDecode s behind copyBody).outcome = .returned .complete) :
    LineDecides s (statusFields (cleared.tryDecode s behind copyBody).msg) ↔
      (Slice.eatLine s).1 = [] ∨ secondWord (Slice.eatLine s).1 ≠ [] :=
  ⟨secondWord_of_lineDecides h, lineDecides_of_secondWord h⟩

/-- `V 200`, a status line without a reason phrase. -/
def statusOnly : Bytes := [0x56, 0x20, 0x32, 0x30, 0x30, 0x0d, 0x0a, 0x0d, 0x0a]

theorem line_decides_iff_statusOnly :
    LineDecides statusOnly (statusFields (cleared.tryDecode statusOnly [] true).msg) ↔
      (Slice.eatLine statusOnly).1 = [] ∨ secondWord (Slice.eatLine statusOnly).1 ≠ [] :=
  line_decides_iff statusOnly [] true (by decide +kernel)

/-- Behind the line `V` and the blank line one more byte, `5`, is the status. -/
theorem status_from_behind : ¬ ∀ s behind copyBody,
    (cleared.tryDecode s behind copyBody).outcome = .returned .complete →
      LineDecides s (statusFields (cleared.tryDecode s behind copyBody).msg) := by
  intro h
  have hfive := h [0x56, 0x0d, 0x0a, 0x0d, 0x0a] [] true (by decide +kernel)
    [0x56, 0x0d, 0x0a, 0x0d, 0x0a] [0x35] [] true ⟨[0x0d, 0x0a], rfl⟩ (by decide +kernel)
  exact absurd hfive (by decide +kernel)

end HttpResponse

end Handy
