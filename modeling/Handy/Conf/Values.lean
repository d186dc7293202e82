import Handy.Conf.Grammar

/-! # What a key line records

The value of a key line is meant to be the text behind the separator up to a `;` that a
space stands in front of, without the spaces around it. The scan stops at every `;` and `#`,
and one character behind the first space it meets. So it records the first word of the
text, up to a `;` or a `#` in it, and that is the value when the value is one such word.
-/

namespace Handy

namespace Conf

open LineScanner

/-- The text up to the first `;` behind a space; whether a space stands in front of it. -/
def untilComment : Bool → Bytes → Bytes
  | _, [] => []
  | wasspace, c :: rest =>
      if wasspace = true ∧ c = 0x3b then [] else c :: untilComment (isspace c) rest

/-- The value of a text behind a separator, which is no space. -/
def iniValue (text : Bytes) : Bytes := Slice.trimSpace (untilComment false text)

/-- A character that the scan goes over, other than a space. -/
def isPlain (c : UInt8) : Bool := !isspace c && c != 0x3b && c != 0x23

/-- The value is one word without `;` and `#`, or nothing. -/
def OneWord (text : Bytes) : Prop := ∀ c ∈ iniValue text, isPlain c = true

instance (text : Bytes) : Decidable (OneWord text) :=
  inferInstanceAs (Decidable (∀ c ∈ iniValue text, _))

/-- A line with a key: not indented, no comment and no section, with a separator. -/
structure IsKeyLine (line : Bytes) : Prop where
  flush : ¬ Indented line
  first : firstChar line ≠ some 0x3b ∧ firstChar line ≠ some 0x23 ∧ firstChar line ≠ some 0x5b
  sep : 0x3d ∈ line ∨ 0x3a ∈ line

/-- The text in front of the separator, without the spaces around it, and the text behind
it. -/
def keyOf (line : Bytes) : Bytes :=
  match separator line with
  | none => []
  | some sep => rstrip (line.takeWhile (· != sep))

def valueText (line : Bytes) : Bytes :=
  match separator line with
  | none => []
  | some sep => (line.dropWhile (· != sep)).tail

/-- The section in force at the end of a file. -/
def sectionOf (file : Bytes) : Bytes := ((reads file).map classify).foldl sectionAfter []

theorem classify_keyLine {line : Bytes} (h : IsKeyLine line) :
    classify line = .pair (keyOf line) (recordedValue (valueText line)) := by
  obtain ⟨hsemi, hhash, hbracket⟩ := h.first
  unfold firstChar at hsemi hhash hbracket
  unfold classify keyOf valueText
  cases hbody : line.dropWhile isspace with
  | nil =>
      -- a line without a character has no separator
      have hall := List.dropWhile_eq_nil_iff.mp hbody
      rcases h.sep with hsep | hsep
      · cases hall _ hsep
      · cases hall _ hsep
  | cons c body =>
      rw [hbody, List.head?_cons, ne_eq, Option.some.injEq] at hsemi hhash hbracket
      have hflush : ¬ isspace (line.headD 0) = true := h.flush
      simp only [if_neg (not_or.mpr ⟨hsemi, hhash⟩), if_neg hbracket, if_neg hflush]
      cases hsep : separator line with
      | none => exact absurd h.sep (separator_none.mp hsep)
      | some sep => rfl

/-! ## The scan -/

theorem tillEnd_space (text : Bytes) : tillEnd true text = [] := by
  cases text with
  | nil => rfl
  | cons c rest =>
      rw [tillEnd, if_pos rfl, ite_self]

/-- The scan takes the first word, and a space behind it. -/
theorem tillEnd_eq (text : Bytes) :
    ∃ space, tillEnd false text = text.takeWhile isPlain ++ space ∧
      ∀ c ∈ space, isspace c = true := by
  induction text with
  | nil => exact ⟨[], rfl, fun _ h => nomatch h⟩
  | cons c rest ih =>
      rw [tillEnd, if_neg Bool.false_ne_true]
      by_cases hmark : c = 0x3b ∨ c = 0x23
      · have hother : isPlain c = false := by
          rcases hmark with rfl | rfl <;> decide
        refine ⟨[], ?_, fun _ h => nomatch h⟩
        rw [if_pos hmark, List.takeWhile_cons_of_neg (by simp [hother])]
        rfl
      · rw [if_neg hmark]
        cases hspace : isspace c with
        | true =>
            have hother : isPlain c = false := by
              rw [isPlain, hspace]
              rfl
            refine ⟨[c], ?_, fun a ha => by rw [List.mem_singleton.mp ha]; exact hspace⟩
            rw [tillEnd_space, List.takeWhile_cons_of_neg (by simp [hother])]
            rfl
        | false =>
            obtain ⟨space, htext, hall⟩ := ih
            have hplain : isPlain c = true := by
              obtain ⟨hsemi, hhash⟩ := not_or.mp hmark
              rw [isPlain, hspace, bne_iff_ne.mpr hsemi, bne_iff_ne.mpr hhash]
              rfl
            refine ⟨space, ?_, hall⟩
            rw [htext, List.takeWhile_cons_of_pos hplain]
            rfl

theorem recordedValue_eq (text : Bytes) :
    recordedValue text = (text.dropWhile isspace).takeWhile isPlain := by
  obtain ⟨space, htext, hspace⟩ := tillEnd_eq (text.dropWhile isspace)
  have hstops : Cut.Stops isspace ((text.dropWhile isspace).takeWhile isPlain) := by
    intro c hc
    have hplain := List.mem_takeWhile_imp (List.mem_of_getLast? hc)
    simp only [isPlain, Bool.and_eq_true, Bool.not_eq_true'] at hplain
    exact hplain.1.1
  rw [recordedValue, htext]
  exact Cut.rdropWhile_stop hstops hspace

theorem untilComment_split (wasspace : Bool) (text : Bytes) :
    ∃ rest, text = untilComment wasspace text ++ rest ∧ ∀ c, rest.head? = some c → c = 0x3b := by
  induction text generalizing wasspace with
  | nil => exact ⟨[], rfl, fun _ h => nomatch h⟩
  | cons c text ih =>
      rw [untilComment]
      split
      · next hcomment =>
          exact ⟨c :: text, rfl, fun a ha => (Option.some.inj ha).symm.trans hcomment.2⟩
      · obtain ⟨rest, htext, hrest⟩ := ih (isspace c)
        exact ⟨rest, congrArg (c :: ·) htext, hrest⟩

/-- The first word is the value exactly when the value is one word. -/
theorem recordedValue_iff (text : Bytes) : recordedValue text = iniValue text ↔ OneWord text := by
  rw [recordedValue_eq]
  constructor
  · intro h c hc
    rw [← h] at hc
    exact List.mem_takeWhile_imp hc
  · intro hword
    obtain ⟨rest, htext, hrest⟩ := untilComment_split false text
    obtain ⟨pre, post, hvalue, hpre, hpost⟩ := Cut.exists_trim isspace (untilComment false text)
    change untilComment false text = pre ++ iniValue text ++ post at hvalue
    have hends : Cut.Ends isspace (iniValue text) := Cut.ends_trim isspace _
    have hplain : ∀ c ∈ iniValue text, isPlain c = true := hword
    generalize iniValue text = v at hvalue hends hplain
    rw [htext, hvalue, List.append_assoc, List.append_assoc, List.dropWhile_append_of_pos hpre]
    have hmark : Cut.Ends isPlain rest := fun c hc => by rw [hrest c hc]; rfl
    cases v with
    | nil =>
        -- nothing but spaces in front of the comment
        have hspace : Cut.Ends isspace rest := fun c hc => by rw [hrest c hc]; rfl
        rw [List.nil_append, Cut.dropWhile_stop hpost hspace]
        exact Cut.takeWhile_ends hmark
    | cons c v =>
        have hfirst : Cut.Ends isspace (c :: v ++ (post ++ rest)) := Cut.ends_cons (hends c rfl)
        have hstop : Cut.Ends isPlain (post ++ rest) := by
          cases post with
          | nil => exact hmark
          | cons b post =>
              refine Cut.ends_cons ?_
              rw [isPlain, hpost b List.mem_cons_self]
              rfl
        rw [Cut.dropWhile_ends hfirst]
        exact Cut.takeWhile_stop hplain hstop

/-! ## In a file -/

theorem key_line_recorded {conf : Conf} {filename file line : Bytes} {before after : List Bytes}
    (hsplit : linesOf file = before ++ line :: after) (hfits : line.length < maxLine)
    (hzero : 0 ∉ line) (hkey : IsKeyLine line) {r0 : Conf} {r : Conf × Int}
    (hbefore : conf.parse filename (some before.flatten) = some (r0, 0))
    (hparse : conf.parse filename (some file) = some r) :
    ∃ later, r.1.getStrings (sectionOf before.flatten) (keyOf line) =
      r0.getStrings (sectionOf before.flatten) (keyOf line) ++
        recordedValue (valueText line) :: later := by
  have hmem : line ∈ linesOf file := by
    rw [hsplit]
    exact List.mem_append_right before List.mem_cons_self
  have hline : reads line = [line] := reads_line hmem hfits hzero
  have hreads : reads file = reads before.flatten ++ line :: after.flatMap reads := by
    rw [reads_lines file, reads_lines before.flatten, linesOf_flatten hsplit, hsplit,
      List.flatMap_append, List.flatMap_cons, hline]
    rfl
  have hsection : (inForce [] [] ((reads before.flatten).map classify)).1 =
      sectionOf before.flatten := rfl
  have hvalues := parse_values hparse
  rw [hreads, List.map_append, List.map_cons, recorded_append (parse_firstBad hbefore),
    Grouped.pushAll_append, ← parse_values hbefore, classify_keyLine hkey, hsection,
    recorded] at hvalues
  have hadd := Grouped.list_push_same r0.values
    (makeKey (sectionOf before.flatten) (keyOf line)) (recordedValue (valueText line))
  unfold getStrings
  rw [hvalues, Grouped.pushAll_cons, Grouped.list_pushAll]
  change ∃ later, (r0.values.push (makeKey (sectionOf before.flatten) (keyOf line))
    (recordedValue (valueText line))).list _ ++ _ = _
  rw [hadd, List.append_assoc]
  exact ⟨_, rfl⟩

/-- The value recorded for a key line is the one that is meant exactly when that is one
word without `;` and `#`, or nothing. -/
theorem value_kept_iff (conf : Conf) (filename : Bytes) {file line : Bytes}
    {before after : List Bytes} (hsplit : linesOf file = before ++ line :: after)
    (hfits : line.length < maxLine) (hzero : 0 ∉ line) (hkey : IsKeyLine line) {r0 : Conf}
    {r : Conf × Int} (hbefore : conf.parse filename (some before.flatten) = some (r0, 0))
    (hparse : conf.parse filename (some file) = some r) :
    (r.1.getStrings (sectionOf before.flatten) (keyOf line))[
        (r0.getStrings (sectionOf before.flatten) (keyOf line)).length]? =
      some (iniValue (valueText line)) ↔ OneWord (valueText line) := by
  obtain ⟨later, hvalues⟩ := key_line_recorded hsplit hfits hzero hkey hbefore hparse
  rw [hvalues, List.getElem?_append_right (Nat.le_refl _), Nat.sub_self,
    List.getElem?_cons_zero, Option.some.injEq]
  exact recordedValue_iff (valueText line)

/-- `"k = v ; c\n"`. -/
def commentedLine : Bytes := [0x6b, 0x20, 0x3d, 0x20, 0x76, 0x20, 0x3b, 0x20, 0x63, 0x0a]

theorem value_kept_iff_commented :
    ∃ r, new.parse [] (some commentedLine) = some (r, 0) ∧
      (r.getStrings [] [0x6b])[0]? = some [0x76] := by
  obtain ⟨r, hparse⟩ := parse_good (by decide : ShortLines commentedLine) (by decide) (by decide)
    new []
  have hempty : new.parse [] (some []) = some (new, 0) := by
    rw [parse_eq, reads_nil]
    rfl
  have hkept := value_kept_iff new [] (by decide : linesOf commentedLine = [] ++ [commentedLine])
    (by decide) (by decide) ⟨by decide, by decide, by decide⟩ hempty hparse
  have hvalue := hkept.mpr (by decide +kernel)
  have hsection : sectionOf [] = [] := by
    rw [sectionOf, reads_nil]
    rfl
  rw [List.flatten_nil, hsection] at hvalue
  exact ⟨r, hparse, hvalue⟩

/-- `"k = a b\n"`. -/
def spacedLine : Bytes := [0x6b, 0x20, 0x3d, 0x20, 0x61, 0x20, 0x62, 0x0a]

/-- Of the two words only the first is recorded. -/
theorem second_word_lost :
    linesOf spacedLine = [spacedLine] ∧ spacedLine.length < maxLine ∧ 0 ∉ spacedLine ∧
      IsKeyLine spacedLine ∧ iniValue (valueText spacedLine) = [0x61, 0x20, 0x62] ∧
      ∃ r, new.parse [] (some spacedLine) = some (r, 0) ∧ r.getStrings [] [0x6b] = [[0x61]] := by
  have hshort : ShortLines spacedLine := by decide
  obtain ⟨r, hparse⟩ := parse_good hshort (by decide) (by decide) new []
  refine ⟨by decide, by decide, by decide, ⟨by decide, by decide, by decide⟩, by decide, r, hparse, ?_⟩
  rw [getStrings, parse_values hparse, Grouped.list_pushAll, reads_short hshort]
  decide

end Conf

end Handy
