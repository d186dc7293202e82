import Handy.Conf.Parse

/-! # The lines of a configuration file

Every line is of one kind, whatever stands around it, and what the loop of `parse` does with
it depends on its kind and on the section and the key in force. A line that fits in the
buffer is read in one piece.
-/

namespace Handy

namespace Conf

open LineScanner

/-! ## Kinds of lines -/

/-- What a line is, with what it says. -/
inductive IniLine where
  | skipped
  | header (section_ : Bytes)
  | more (value : Bytes)
  | pair (key value : Bytes)
  /-- a `[` without a `]` -/
  | unclosed
  /-- neither `=` nor `:` -/
  | keyless
deriving DecidableEq, Repr

/-- The value recorded for the text behind a separator. -/
def recordedValue (text : Bytes) : Bytes := rstrip (tillEnd false (text.dropWhile isspace))

def separator (ln : Bytes) : Option UInt8 :=
  if 0x3d ∈ ln then some 0x3d else if 0x3a ∈ ln then some 0x3a else none

def classify (ln : Bytes) : IniLine :=
  match ln.dropWhile isspace with
  | [] => .skipped
  | c :: body =>
      if c = 0x3b ∨ c = 0x23 then .skipped
      else if c = 0x5b then
        if 0x5d ∈ body then .header (rstrip ((body.dropWhile isspace).takeWhile (· != 0x5d)))
        else .unclosed
      else if isspace (ln.headD 0) then .more (rstrip (c :: body))
      else
        match separator ln with
        | none => .keyless
        | some sep =>
            .pair (rstrip (ln.takeWhile (· != sep))) (recordedValue (ln.dropWhile (· != sep)).tail)

/-- What the loop does with a line of this kind; whether there is an error. -/
def Parsing.take (st : Parsing) : IniLine → Parsing × Bool
  | .skipped => (st, false)
  | .header section_ => ({ st with section_ := section_, key := [] }, false)
  | .more value => if st.key ≠ [] then (st.record value, false) else (st, true)
  | .pair key value => ({ st with key := key }.record value, false)
  | .unclosed => ({ st with section_ := [], key := [] }, true)
  | .keyless => ({ st with key := [] }.record [], true)

section Line

variable {c : UInt8} {text : Bytes}

theorem at_stop (hc : isspace c = false) (h : c ∈ text) :
    ∃ rest, text.dropWhile (· != c) = c :: rest ∧
      (text.dropWhile (· != c)).dropWhile isspace = text.dropWhile (· != c) := by
  cases hstop : text.dropWhile (· != c) with
  | nil => exact absurd (List.dropWhile_eq_nil_iff.mp hstop c h) (by simp)
  | cons b rest =>
      have hb := Cut.ends_dropWhile (· != c) text b (by rw [hstop, List.head?_cons])
      have hbc : b = c := bne_eq_false_iff_eq.mp hb
      subst hbc
      exact ⟨rest, rfl, Cut.dropWhile_ends (Cut.ends_cons hc)⟩

theorem matchChar_at (hc : isspace c = false) (rest : Bytes) :
    matchChar ⟨c :: rest, false⟩ c = ⟨rest, false⟩ := by
  rw [matchChar, skipSpaces_fine, Cut.dropWhile_ends (Cut.ends_cons hc)]
  simp

theorem take_section (st : Parsing) (body : Bytes) :
    ({ st with section_ := (consumeTill ⟨body, false⟩ (some 0x5d)).2, key := [] },
        ((consumeTill ⟨body, false⟩ (some 0x5d)).1.matchChar 0x5d).err) =
      st.take (if 0x5d ∈ body
        then .header (rstrip ((body.dropWhile isspace).takeWhile (· != 0x5d))) else .unclosed) := by
  have hmem : 0x5d ∈ body.dropWhile isspace ↔ 0x5d ∈ body := Cut.mem_dropWhile_iff (by decide) body
  by_cases h : 0x5d ∈ body
  · obtain ⟨rest, hrest, -⟩ := at_stop (by decide) (hmem.mpr h)
    rw [consumeTill_found _ (hmem.mpr h), if_pos h, hrest]
    simp only [matchChar_at (by decide : isspace 0x5d = false)]
    rfl
  · have hhead : (body.dropWhile isspace).head? ≠ some 0x5d :=
      fun hhead => h (hmem.mp (List.mem_of_mem_head? hhead))
    rw [consumeTill_missing _ (fun hin => h (hmem.mp hin)), if_neg h]
    simp only [matchChar_err, bne_iff_ne.mpr hhead]
    rfl

theorem consumeTillEnd_fine : (consumeTillEnd ⟨text, false⟩).2 = recordedValue text := by
  rw [consumeTillEnd, skipSpaces_fine]
  rfl

theorem consumeTill_key {ln : Bytes} (hln : ln.dropWhile isspace = ln) (hc : isspace c = false)
    (h : c ∈ ln) :
    ∃ rest, consumeTill ⟨ln, false⟩ (some c) =
        (⟨c :: rest, false⟩, rstrip (ln.takeWhile (· != c))) ∧
      (ln.dropWhile (· != c)).tail = rest := by
  obtain ⟨rest, hrest, -⟩ := at_stop hc h
  rw [consumeTill_found _ (hln.symm ▸ h), hln, hrest]
  exact ⟨rest, rfl, rfl⟩

theorem consumeTill_none {ln : Bytes} (hln : ln.dropWhile isspace = ln) (h : c ∉ ln) :
    consumeTill ⟨ln, false⟩ (some c) = (⟨ln, true⟩, []) := by
  rw [consumeTill_missing _ (hln.symm ▸ h), hln]

theorem take_key (st : Parsing) {ln : Bytes} (hln : ln.dropWhile isspace = ln) :
    (let (ls, key) := consumeTill ⟨ln, false⟩ (some 0x3d)
      let (ls, c) := ls.peekChar
      if c = some 0x3d then
        let (_, value) := (ls.skip 1).consumeTillEnd
        ({ st with key := key }.record value, false)
      else
        let (ls, key) := consumeTill ⟨ln, false⟩ (some 0x3a)
        let ls := ls.matchChar 0x3a
        let (_, value) := ls.consumeTillEnd
        ({ st with key := key }.record value, ls.err)) =
      st.take (match separator ln with
        | none => .keyless
        | some sep =>
            .pair (rstrip (ln.takeWhile (· != sep)))
              (recordedValue (ln.dropWhile (· != sep)).tail)) := by
  unfold separator
  by_cases hequals : 0x3d ∈ ln
  · obtain ⟨rest, hcall, hrest⟩ := consumeTill_key hln (by decide) hequals
    have hpeek : peekChar ⟨0x3d :: rest, false⟩ = (⟨0x3d :: rest, false⟩, some 0x3d) := by
      rw [peekChar_fine, List.dropWhile_cons_of_neg (by decide)]
      rfl
    have hskip : (⟨0x3d :: rest, false⟩ : LineScanner).skip 1 = ⟨rest, false⟩ := rfl
    simp only [hcall, hpeek, if_pos hequals, if_true, hskip, consumeTillEnd_fine, hrest]
    rfl
  · have hhead : ln.head? ≠ some 0x3d := fun hhead => hequals (List.mem_of_mem_head? hhead)
    simp only [consumeTill_none hln hequals, peekChar_err, hhead, hequals, if_false]
    by_cases hcolon : 0x3a ∈ ln
    · obtain ⟨rest, hcall, hrest⟩ := consumeTill_key hln (by decide) hcolon
      simp only [hcall, matchChar_at (by decide : isspace 0x3a = false), if_pos hcolon,
        consumeTillEnd_fine, hrest]
      rfl
    · have hother : ln.head? ≠ some 0x3a := fun hhead => hcolon (List.mem_of_mem_head? hhead)
      simp only [consumeTill_none hln hcolon, matchChar_err, bne_iff_ne.mpr hother,
        consumeTillEnd_err, if_neg hcolon]
      rfl

end Line

/-- A line is what its kind says. -/
theorem parseLine_eq (st : Parsing) (ln : Bytes) : parseLine st ln = st.take (classify ln) := by
  unfold parseLine classify
  rw [peekChar_fine]
  cases hbody : ln.dropWhile isspace with
  | nil => rfl
  | cons c body =>
      simp only [List.head?_cons, Option.some.injEq, reduceCtorEq, or_false]
      split
      · rfl
      · split
        · next hbracket =>
            subst hbracket
            exact take_section st body
        · split
          · have hzero : consumeTill ⟨c :: body, false⟩ none = (⟨[], false⟩, rstrip (c :: body)) := by
              rw [consumeTill_zero, ← hbody, List.dropWhile_idempotent]
            rw [hzero]
            rfl
          · next hflush =>
              have hln : ln.dropWhile isspace = ln := by
                cases ln with
                | nil => rfl
                | cons b rest => exact List.dropWhile_cons_of_neg hflush
              rw [hln] at hbody
              rw [← hbody]
              exact take_key st hln

/-! ## The lines of a file -/

/-- The lines, each with its end; the last may have none. -/
def linesOf : Bytes → List Bytes
  | [] => []
  | c :: rest =>
      if c = 0x0a then [c] :: linesOf rest
      else
        match linesOf rest with
        | [] => [[c]]
        | l :: ls => (c :: l) :: ls

/-- Every line fits in the buffer, and none holds a zero. -/
def ShortLines (file : Bytes) : Prop := ∀ l ∈ linesOf file, l.length < maxLine ∧ 0 ∉ l

instance (file : Bytes) : Decidable (ShortLines file) :=
  inferInstanceAs (Decidable (∀ l ∈ linesOf file, _))

theorem linesOf_ne_nil (c : UInt8) (rest : Bytes) : linesOf (c :: rest) ≠ [] := by
  rw [linesOf]
  split
  · exact List.cons_ne_nil _ _
  · cases linesOf rest <;> exact List.cons_ne_nil _ _

theorem flatten_linesOf (file : Bytes) : (linesOf file).flatten = file := by
  induction file with
  | nil => rfl
  | cons c rest ih =>
      rw [linesOf]
      split
      · rw [List.flatten_cons, ih]
        rfl
      · cases hls : linesOf rest with
        | nil =>
            rw [hls] at ih
            rw [← ih]
            rfl
        | cons l ls =>
            rw [hls, List.flatten_cons] at ih
            rw [List.flatten_cons, List.cons_append, ih]

theorem line_ne_nil {file l : Bytes} {ls : List Bytes} (h : linesOf file = l :: ls) : l ≠ [] := by
  cases file with
  | nil => cases h
  | cons c rest =>
      rw [linesOf] at h
      split at h
      · cases h
        exact List.cons_ne_nil _ _
      · split at h
        · cases h
          exact List.cons_ne_nil _ _
        · cases h
          exact List.cons_ne_nil _ _

/-- A read takes the first line if it fits. -/
theorem readLine_line {file l : Bytes} {ls : List Bytes} (h : linesOf file = l :: ls) {n : Nat}
    (hlen : l.length ≤ n) : (readLine n file).1 = l ∧ linesOf (readLine n file).2 = ls := by
  induction file generalizing l n with
  | nil => cases h
  | cons c rest ih =>
      have hpos := List.length_pos_iff.mpr (line_ne_nil h)
      obtain ⟨n, rfl⟩ := Nat.exists_eq_succ_of_ne_zero (Nat.ne_of_gt (Nat.lt_of_lt_of_le hpos hlen))
      rw [linesOf] at h
      rw [readLine]
      split at h
      · next hc =>
          cases h
          rw [if_pos hc]
          exact ⟨rfl, rfl⟩
      · next hc =>
          rw [if_neg hc]
          split at h
          · next hls =>
              cases h
              cases rest with
              | nil => cases n <;> exact ⟨rfl, rfl⟩
              | cons b rest => exact absurd hls (linesOf_ne_nil b rest)
          · next hls =>
              cases h
              obtain ⟨hfirst, hrest⟩ := ih hls (Nat.le_of_succ_le_succ hlen)
              exact ⟨congrArg (c :: ·) hfirst, hrest⟩

theorem linesOf_flatten {file : Bytes} {before after : List Bytes}
    (h : linesOf file = before ++ after) : linesOf before.flatten = before := by
  induction file generalizing before with
  | nil =>
      rw [(List.append_eq_nil_iff.mp h.symm).1]
      rfl
  | cons c rest ih =>
      cases before with
      | nil => rfl
      | cons l before =>
          rw [List.cons_append, linesOf] at h
          split at h
          · next hc =>
              injection h with hl htail
              subst hl
              rw [List.flatten_cons, List.singleton_append, linesOf, if_pos hc, ih htail]
          · next hc =>
              split at h
              · next hls =>
                  injection h with hl htail
                  subst hl
                  rw [(List.append_eq_nil_iff.mp htail.symm).1, List.flatten_cons,
                    List.flatten_nil, List.append_nil, linesOf, if_neg hc]
                  rfl
              · next l' ls' hls =>
                  injection h with hl htail
                  subst hl
                  have hlines : linesOf rest = (l' :: before) ++ after := by
                    rw [hls, htail, List.cons_append]
                  have hrest := ih hlines
                  rw [List.flatten_cons] at hrest
                  rw [List.flatten_cons, List.cons_append, linesOf, if_neg hc, hrest]

/-! ## What the loop reads -/

/-- The strings that the loop finds in the buffer; a line that does not fit is read in
several. -/
def reads (file : Bytes) : List Bytes :=
  match _h : fgets maxLine file with
  | none => []
  | some r => cStr r.1 :: reads r.2
termination_by file.length
decreasing_by exact length_fgets _h

theorem reads_nil : reads [] = [] := by
  rw [reads]
  rfl

theorem fgets_file {file : Bytes} (h : file ≠ []) :
    fgets maxLine file = some (readLine (maxLine - 1) file) := if_neg h

theorem reads_read {file : Bytes} (h : file ≠ []) :
    reads file =
      cStr (readLine (maxLine - 1) file).1 :: reads (readLine (maxLine - 1) file).2 := by
  have hread := fgets_file h
  rw [reads]
  split
  · next hnone =>
      rw [hread] at hnone
      cases hnone
  · next r hr =>
      rw [hread] at hr
      cases hr
      rfl

abbrev Whole (file : Bytes) : Prop := Cut.Stops (· != 0x0a) file

theorem readLine_append {front : Bytes} (hne : front ≠ []) (hwhole : Whole front) (n : Nat)
    (rest : Bytes) :
    readLine n (front ++ rest) = ((readLine n front).1, (readLine n front).2 ++ rest) ∧
      Whole (readLine n front).2 := by
  induction n generalizing front with
  | zero => exact ⟨rfl, hwhole⟩
  | succ n ih =>
      obtain ⟨c, front, rfl⟩ := List.exists_cons_of_ne_nil hne
      rw [List.cons_append, readLine, readLine]
      by_cases hc : c = 0x0a
      · rw [if_pos hc, if_pos hc]
        exact ⟨rfl, Cut.stops_tail hwhole⟩
      · rw [if_neg hc, if_neg hc]
        have hfront : front ≠ [] := by
          intro hnil
          subst hnil
          exact hc (bne_eq_false_iff_eq.mp (hwhole c rfl))
        obtain ⟨hread, hrest⟩ := ih hfront (Cut.stops_tail hwhole)
        rw [hread]
        exact ⟨rfl, hrest⟩

theorem reads_append {front : Bytes} (hwhole : Whole front) (rest : Bytes) :
    reads (front ++ rest) = reads front ++ reads rest := by
  induction hn : front.length using Nat.strong_induction_on generalizing front with
  | _ n ih =>
      by_cases hne : front = []
      · subst hne
        rw [reads_nil]
        rfl
      · obtain ⟨hread, hrest⟩ := readLine_append hne hwhole (maxLine - 1) rest
        have hshorter : (readLine (maxLine - 1) front).2.length < n :=
          hn ▸ length_fgets (fgets_file hne)
        have happend : front ++ rest ≠ [] := fun h => hne (List.append_eq_nil_iff.mp h).1
        rw [reads_read happend, reads_read hne, hread, List.cons_append,
          ih _ hshorter hrest rfl]

theorem line_split {file l : Bytes} {ls : List Bytes} (h : linesOf file = l :: ls) :
    ∃ rest, file = l ++ rest ∧ linesOf rest = ls ∧ (rest = [] ∨ Whole l) := by
  induction file generalizing l with
  | nil => cases h
  | cons c file ih =>
      rw [linesOf] at h
      split at h
      · next hc =>
          cases h
          exact ⟨file, rfl, rfl, Or.inr fun a ha => by cases ha; exact bne_eq_false_iff_eq.mpr hc⟩
      · split at h
        · next hls =>
            cases h
            cases file with
            | nil => exact ⟨[], rfl, rfl, Or.inl rfl⟩
            | cons b file => exact absurd hls (linesOf_ne_nil b file)
        · next l' ls' hls =>
            cases h
            obtain ⟨rest, hfile, hrest, hend⟩ := ih hls
            refine ⟨rest, congrArg (c :: ·) hfile, hrest, hend.imp_right fun hwhole => ?_⟩
            exact Cut.stops_cons (line_ne_nil hls) hwhole

theorem linesOf_line {file l : Bytes} (h : l ∈ linesOf file) : linesOf l = [l] := by
  generalize hlines : linesOf file = lines at h
  induction lines generalizing file with
  | nil => cases h
  | cons l' ls ih =>
      obtain ⟨rest, -, hrest, -⟩ := line_split hlines
      cases h with
      | head =>
          have hfirst : linesOf [l].flatten = [l] := linesOf_flatten hlines
          rwa [List.flatten_singleton] at hfirst
      | tail _ hmem => exact ih hrest hmem

/-- Every line is read for itself. -/
theorem reads_lines (file : Bytes) : reads file = (linesOf file).flatMap reads := by
  generalize hlines : linesOf file = lines
  induction lines generalizing file with
  | nil =>
      rw [← flatten_linesOf file, hlines]
      exact reads_nil
  | cons l ls ih =>
      obtain ⟨rest, hfile, hrest, hend⟩ := line_split hlines
      rw [List.flatMap_cons, ← ih rest hrest, hfile]
      rcases hend with hnil | hwhole
      · rw [hnil, reads_nil, List.append_nil, List.append_nil]
      · exact reads_append hwhole rest

theorem cStr_line {l : Bytes} (h : 0 ∉ l) : cStr l = l :=
  List.takeWhile_eq_self_iff.mpr fun _ hc => bne_iff_ne.mpr fun hzero => h (hzero ▸ hc)

/-- A line that fits in the buffer is read in one piece. -/
theorem reads_line {file l : Bytes} (hmem : l ∈ linesOf file) (hfits : l.length < maxLine)
    (hzero : 0 ∉ l) : reads l = [l] := by
  have hlines := linesOf_line hmem
  obtain ⟨hline, hrest⟩ := readLine_line hlines (Nat.le_sub_one_of_lt hfits)
  have hempty : (readLine (maxLine - 1) l).2 = [] := by
    rw [← flatten_linesOf (readLine (maxLine - 1) l).2, hrest]
    rfl
  rw [reads_read (line_ne_nil hlines), hline, hempty, reads_nil, cStr_line hzero]

theorem reads_short {file : Bytes} (h : ShortLines file) : reads file = linesOf file := by
  have hread : ∀ l ∈ linesOf file, reads l = [l] := fun l hl => reads_line hl (h l hl).1 (h l hl).2
  rw [reads_lines, List.flatMap_congr hread]
  exact List.flatMap_singleton' _

end Conf

end Handy
