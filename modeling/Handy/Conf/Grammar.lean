import Handy.Conf.Lines

/-! # Which lines a configuration file may have

The parse of a file whose lines fit in the buffer is a run over the kinds of its lines: it
ends at the first line that is bad where it stands, with the number of that line, and has
recorded the values of the lines before it. A line that begins with `[` has to be a section
line, and an indented line needs a key in force.
-/

namespace Handy

namespace Conf

/-! ## Runs over the kinds -/

/-- The loop over the kinds of the lines, with the number of lines read. -/
def runLines (st : Parsing) (lineno : Nat) : List IniLine → Option (Values × Int)
  | [] => some (st.values, 0)
  | l :: ls =>
      if lineno + 1 = 2 ^ 31 then none
      else if (st.take l).2 then some ((st.take l).1.values, (lineno + 1 : Nat))
      else runLines (st.take l).1 (lineno + 1) ls

theorem parseLoop_read {file : Bytes} {r : Bytes × Bytes} (h : fgets maxLine file = some r)
    (st : Parsing) (lineno : Nat) :
    parseLoop st lineno file =
      if lineno + 1 = 2 ^ 31 then none
      else if (parseLine st (cStr r.1)).2 then
        some ((parseLine st (cStr r.1)).1.values, ((lineno + 1 : Nat) : Int))
      else parseLoop (parseLine st (cStr r.1)).1 (lineno + 1) r.2 := by
  rw [parseLoop]
  split
  · next hnone =>
      rw [h] at hnone
      cases hnone
  · next r' hr' =>
      rw [h] at hr'
      cases hr'
      rfl

/-- The loop over a file is the run over what it reads. -/
theorem parseLoop_eq (st : Parsing) (lineno : Nat) (file : Bytes) :
    parseLoop st lineno file = runLines st lineno ((reads file).map classify) := by
  induction hn : file.length using Nat.strong_induction_on generalizing file st lineno with
  | _ n ih =>
      by_cases hne : file = []
      · subst hne
        rw [parseLoop, reads_nil]
        rfl
      · have hread := fgets_file hne
        have hshorter : (readLine (maxLine - 1) file).2.length < n := hn ▸ length_fgets hread
        rw [parseLoop_read hread, reads_read hne, parseLine_eq, List.map_cons, runLines,
          ih _ hshorter _ _ _ rfl]

/-! ## What a run records and where it ends -/

/-- A value with the section and the key it was recorded under. -/
structure Entry where
  section_ : Bytes
  key : Bytes
  value : Bytes
deriving DecidableEq, Repr

def Entry.mapKey (e : Entry) : Bytes := makeKey e.section_ e.key

/-- The values of the lines, up to the first that is bad; one without a separator leaves an
empty value under an empty key. -/
def recorded (section_ key : Bytes) : List IniLine → List Entry
  | [] => []
  | .skipped :: ls => recorded section_ key ls
  | .header name :: ls => recorded name [] ls
  | .more value :: ls =>
      if key ≠ [] then ⟨section_, key, value⟩ :: recorded section_ key ls else []
  | .pair name value :: ls => ⟨section_, name, value⟩ :: recorded section_ name ls
  | .unclosed :: _ => []
  | .keyless :: _ => [⟨section_, [], []⟩]

theorem runLines_values {st : Parsing} {lineno : Nat} {ls : List IniLine} {r : Values × Int}
    (h : runLines st lineno ls = some r) :
    r.1 = st.values.pushAll Entry.mapKey Entry.value (recorded st.section_ st.key ls) := by
  induction ls generalizing st lineno with
  | nil =>
      cases h
      rfl
  | cons l ls ih =>
      rw [runLines] at h
      split at h
      · cases h
      · cases l with
        | skipped => exact ih h
        | header name => exact ih h
        | more value =>
            by_cases hkey : st.key ≠ []
            · have htake : st.take (.more value) = (st.record value, false) := if_pos hkey
              rw [htake] at h
              rw [recorded, if_pos hkey]
              exact ih h
            · have htake : st.take (.more value) = (st, true) := if_neg hkey
              rw [htake] at h
              rw [recorded, if_neg hkey]
              cases h
              rfl
        | pair name value => exact ih h
        | unclosed =>
            cases h
            rfl
        | keyless =>
            cases h
            rfl

/-- A line of this kind may stand where this key is in force. -/
def fits (key : Bytes) : IniLine → Bool
  | .skipped | .header _ | .pair _ _ => true
  | .more _ => key != []
  | .unclosed | .keyless => false

def keyAfter (key : Bytes) : IniLine → Bytes
  | .header _ => []
  | .pair name _ => name
  | _ => key

def sectionAfter (section_ : Bytes) : IniLine → Bytes
  | .header name => name
  | _ => section_

theorem take_fits {st : Parsing} {l : IniLine} (h : fits st.key l = true) :
    (st.take l).2 = false ∧ (st.take l).1.key = keyAfter st.key l := by
  cases l with
  | skipped => exact ⟨rfl, rfl⟩
  | header name => exact ⟨rfl, rfl⟩
  | more value =>
      have hkey : st.key ≠ [] := bne_iff_ne.mp h
      rw [Parsing.take, if_pos hkey]
      exact ⟨rfl, rfl⟩
  | pair name value => exact ⟨rfl, rfl⟩
  | unclosed => cases h
  | keyless => cases h

theorem no_key {key value : Bytes} (h : fits key (.more value) = false) : ¬ key ≠ [] := by
  intro hkey
  rw [fits, bne_iff_ne.mpr hkey] at h
  cases h

theorem take_bad {st : Parsing} {l : IniLine} (h : fits st.key l = false) : (st.take l).2 = true := by
  cases l with
  | skipped => cases h
  | header name => cases h
  | more value => rw [Parsing.take, if_neg (no_key h)]
  | pair name value => cases h
  | unclosed => rfl
  | keyless => rfl

/-- How many lines stand before the first that is bad. -/
def firstBad (key : Bytes) : List IniLine → Option Nat
  | [] => none
  | l :: ls => if fits key l then (firstBad (keyAfter key l) ls).map (· + 1) else some 0

/-- The result is the number of the first bad line, or zero. -/
theorem runLines_result (st : Parsing) (lineno : Nat) (ls : List IniLine)
    (hcount : lineno + ls.length < 2 ^ 31) :
    ∃ r, runLines st lineno ls = some r ∧
      r.2 = match firstBad st.key ls with
        | none => 0
        | some n => (lineno + n + 1 : Nat) := by
  induction ls generalizing st lineno with
  | nil => exact ⟨_, rfl, rfl⟩
  | cons l ls ih =>
      rw [List.length_cons] at hcount
      rw [runLines, firstBad, if_neg (by omega)]
      cases hfits : fits st.key l with
      | false =>
          rw [if_pos (take_bad hfits)]
          exact ⟨_, rfl, rfl⟩
      | true =>
          obtain ⟨hgood, hkey⟩ := take_fits hfits
          obtain ⟨r, hr, hresult⟩ := ih (st.take l).1 (lineno + 1) (by omega)
          rw [hkey] at hresult
          refine ⟨r, ?_, ?_⟩
          · rw [hgood, if_neg Bool.false_ne_true]
            exact hr
          · rw [hresult, if_pos rfl]
            cases firstBad (keyAfter st.key l) ls with
            | none => rfl
            | some n =>
                have hsum : lineno + 1 + n + 1 = lineno + (n + 1) + 1 := by omega
                exact congrArg Nat.cast hsum

/-- The section and the key in force behind some lines. -/
def inForce (section_ key : Bytes) (ls : List IniLine) : Bytes × Bytes :=
  (ls.foldl sectionAfter section_, ls.foldl keyAfter key)

theorem recorded_append {section_ key : Bytes} {before : List IniLine}
    (h : firstBad key before = none) (after : List IniLine) :
    recorded section_ key (before ++ after) = recorded section_ key before ++
      recorded (inForce section_ key before).1 (inForce section_ key before).2 after := by
  induction before generalizing section_ key with
  | nil => rfl
  | cons l before ih =>
      rw [firstBad] at h
      split at h
      · next hfits =>
          have hrest := @ih (sectionAfter section_ l) _ (Option.map_eq_none_iff.mp h)
          cases l with
          | skipped => exact hrest
          | header name => exact hrest
          | more value =>
              have hkey : key ≠ [] := bne_iff_ne.mp hfits
              rw [List.cons_append, recorded, recorded, if_pos hkey, if_pos hkey, List.cons_append]
              exact congrArg _ hrest
          | pair name value =>
              rw [List.cons_append, recorded, recorded, List.cons_append]
              exact congrArg _ hrest
          | unclosed => cases hfits
          | keyless => cases hfits
      · cases h

theorem firstBad_append {key : Bytes} {before : List IniLine} (h : firstBad key before = none)
    (after : List IniLine) :
    firstBad key (before ++ after) =
      (firstBad (before.foldl keyAfter key) after).map (· + before.length) := by
  induction before generalizing key with
  | nil => exact Option.map_id'.symm
  | cons l before ih =>
      rw [firstBad] at h
      split at h
      · next hfits =>
          rw [List.cons_append, firstBad, if_pos hfits, ih (Option.map_eq_none_iff.mp h),
            Option.map_map]
          congr 1
      · cases h

/-! ## The grammar -/

def firstChar (ln : Bytes) : Option UInt8 := (ln.dropWhile isspace).head?

theorem firstChar_cons {ln body : Bytes} {c : UInt8} (h : ln.dropWhile isspace = c :: body) :
    firstChar ln = some c := by
  rw [firstChar, h, List.head?_cons]

def Indented (ln : Bytes) : Prop := isspace (ln.headD 0) = true

instance (ln : Bytes) : Decidable (Indented ln) := inferInstanceAs (Decidable (_ = _))

/-- The key of the last line that is a section or a key line, if it is a key line. -/
def lastKey (before : List Bytes) : Option Bytes :=
  match (before.map classify).reverse.find? fun l => l matches .header _ | .pair _ _ with
  | some (.pair key _) => some key
  | _ => none

inductive Fits (before : List Bytes) (line : Bytes) : Prop where
  | blank (h : ∀ c ∈ line, isspace c = true)
  | comment (h : firstChar line = some 0x3b ∨ firstChar line = some 0x23)
  | header (h : firstChar line = some 0x5b) (closed : 0x5d ∈ line.dropWhile isspace)
  | continuation (h : Indented line) (other : firstChar line ≠ some 0x5b)
      (key : ∃ k, lastKey before = some k ∧ k ≠ [])
  | keyLine (h : ¬ Indented line) (other : firstChar line ≠ some 0x5b)
      (sep : 0x3d ∈ line ∨ 0x3a ∈ line)

theorem keyAfter_lastKey (before : List Bytes) :
    (before.map classify).foldl keyAfter [] = (lastKey before).getD [] := by
  unfold lastKey
  generalize before.map classify = kinds
  induction kinds using List.reverseRecOn with
  | nil => rfl
  | append_singleton kinds l ih =>
      rw [List.foldl_append, List.reverse_append, ih]
      cases l <;> rfl

theorem separator_none {ln : Bytes} : separator ln = none ↔ ¬ (0x3d ∈ ln ∨ 0x3a ∈ ln) := by
  unfold separator
  split
  · next h => exact iff_of_false (fun hnone => nomatch hnone) fun hnone => hnone (Or.inl h)
  · next h =>
      split
      · next hcolon =>
          exact iff_of_false (fun hnone => nomatch hnone) fun hnone => hnone (Or.inr hcolon)
      · next hcolon => exact iff_of_true rfl fun hsep => hsep.elim h hcolon

theorem not_fits {before : List Bytes} {line body : Bytes} {c : UInt8}
    (hbody : line.dropWhile isspace = c :: body) (hcomment : ¬ (c = 0x3b ∨ c = 0x23))
    (hheader : c = 0x5b → 0x5d ∉ body)
    (hother : c ≠ 0x5b → (Indented line → ¬ ∃ k, lastKey before = some k ∧ k ≠ []) ∧
      (¬ Indented line → ¬ (0x3d ∈ line ∨ 0x3a ∈ line))) : ¬ Fits before line := by
  have hfirst := firstChar_cons hbody
  have hne : firstChar line ≠ some 0x5b → c ≠ 0x5b := fun h hc => h (hfirst.trans (congrArg some hc))
  intro hfits
  cases hfits with
  | blank h =>
      rw [List.dropWhile_eq_nil_iff.mpr h] at hbody
      cases hbody
  | comment h =>
      rw [hfirst, Option.some.injEq, Option.some.injEq] at h
      exact hcomment h
  | header h closed =>
      have hc : c = 0x5b := Option.some.inj (hfirst.symm.trans h)
      rw [hbody, hc] at closed
      exact hheader hc (List.mem_of_ne_of_mem (by decide) closed)
  | continuation h other key => exact (hother (hne other)).1 h key
  | keyLine h other sep => exact (hother (hne other)).2 h sep

/-- A line fits exactly when its kind does behind the key in force. -/
theorem classify_fits (before : List Bytes) (line : Bytes) :
    fits ((before.map classify).foldl keyAfter []) (classify line) = true ↔ Fits before line := by
  have hkey : (∃ k, lastKey before = some k ∧ k ≠ []) ↔
      (before.map classify).foldl keyAfter [] ≠ [] := by
    rw [keyAfter_lastKey]
    cases lastKey before with
    | none => exact iff_of_false (fun ⟨k, h, _⟩ => nomatch h) fun h => h rfl
    | some k => exact ⟨fun ⟨k', h, hne⟩ => by cases h; exact hne, fun h => ⟨k, rfl, h⟩⟩
  generalize (before.map classify).foldl keyAfter [] = key at hkey ⊢
  unfold classify
  cases hbody : line.dropWhile isspace with
  | nil => exact iff_of_true rfl (.blank (List.dropWhile_eq_nil_iff.mp hbody))
  | cons c body =>
      have hfirst := firstChar_cons hbody
      simp only
      split
      · next hcomment =>
          refine iff_of_true rfl (.comment ?_)
          rw [hfirst, Option.some.injEq, Option.some.injEq]
          exact hcomment
      · next hcomment =>
          split
          · next hbracket =>
              split
              · next hclosed =>
                  refine iff_of_true rfl (.header (hfirst.trans (congrArg some hbracket)) ?_)
                  rw [hbody]
                  exact List.mem_cons_of_mem _ hclosed
              · next hopen =>
                  refine iff_of_false Bool.false_ne_true (not_fits hbody hcomment ?_ ?_)
                  · exact fun _ => hopen
                  · exact fun hother => absurd hbracket hother
          · next hbracket =>
              have hother : firstChar line ≠ some 0x5b :=
                fun h => hbracket (Option.some.inj (hfirst.symm.trans h))
              split
              · next hindent =>
                  rw [fits, bne_iff_ne, ← hkey]
                  constructor
                  · exact fun key => .continuation hindent hother key
                  · intro hfits
                    by_contra hnone
                    refine not_fits hbody hcomment (fun h => absurd h hbracket) ?_ hfits
                    exact fun _ => ⟨fun _ => hnone, fun hflush => absurd hindent hflush⟩
              · next hflush =>
                  split
                  · next hnone =>
                      refine iff_of_false Bool.false_ne_true (not_fits hbody hcomment ?_ ?_)
                      · exact fun h => absurd h hbracket
                      · exact fun _ =>
                          ⟨fun hindent => absurd hindent hflush, fun _ => separator_none.mp hnone⟩
                  · next sep hsep =>
                      refine iff_of_true rfl (.keyLine hflush hother ?_)
                      by_contra hnone
                      rw [separator_none.mpr hnone] at hsep
                      cases hsep

instance (before : List Bytes) (line : Bytes) : Decidable (Fits before line) :=
  decidable_of_iff _ (classify_fits before line)

/-- A run meets no bad line exactly when every line fits where it stands. -/
theorem firstBad_none_iff (key : Bytes) (ls : List IniLine) :
    firstBad key ls = none ↔
      ∀ before l after, ls = before ++ l :: after → fits (before.foldl keyAfter key) l = true := by
  induction ls generalizing key with
  | nil => exact iff_of_true rfl fun before l after h => nomatch (List.append_eq_nil_iff.mp h.symm).2
  | cons l ls ih =>
      rw [firstBad]
      constructor
      · intro h before l' after hsplit
        split at h
        · next hfits =>
            cases before with
            | nil =>
                cases hsplit
                exact hfits
            | cons b before =>
                cases hsplit
                exact (ih _).mp (Option.map_eq_none_iff.mp h) before l' after rfl
        · cases h
      · intro h
        have hfits : fits key l = true := h [] l ls rfl
        rw [if_pos hfits, Option.map_eq_none_iff, ih]
        intro before l' after hsplit
        exact h (l :: before) l' after (by rw [hsplit]; rfl)

theorem firstBad_lines (lines : List Bytes) :
    firstBad [] (lines.map classify) = none ↔
      ∀ before line after, lines = before ++ line :: after → Fits before line := by
  rw [firstBad_none_iff]
  constructor
  · intro h before line after hsplit
    exact (classify_fits before line).mp
      (h (before.map classify) (classify line) (after.map classify) (by rw [hsplit, List.map_append,
        List.map_cons]))
  · intro h before l after hsplit
    obtain ⟨before', rest, rfl, rfl, hrest⟩ := List.map_eq_append_iff.mp hsplit
    obtain ⟨line, after', rfl, rfl, -⟩ := List.map_eq_cons_iff.mp hrest
    exact (classify_fits before' line).mpr (h before' line after' rfl)

theorem firstBad_of_zero {st : Parsing} {lineno : Nat} {ls : List IniLine} {values : Values}
    (h : runLines st lineno ls = some (values, 0)) : firstBad st.key ls = none := by
  induction ls generalizing st lineno with
  | nil => rfl
  | cons l ls ih =>
      rw [runLines] at h
      split at h
      · cases h
      · split at h
        · have hzero := congrArg Prod.snd (Option.some.inj h)
          simp only at hzero
          omega
        · next hgood =>
            have hfits : fits st.key l = true := by
              by_contra hbad
              exact hgood (take_bad (Bool.eq_false_iff.mpr hbad))
            have hrest := ih h
            rw [(take_fits hfits).2] at hrest
            rw [firstBad, if_pos hfits, hrest, Option.map_none]

theorem parse_eq (conf : Conf) (filename file : Bytes) :
    conf.parse filename (some file) =
      (runLines ⟨conf.values, [], []⟩ 0 ((reads file).map classify)).map
        fun r => (⟨r.1, filename⟩, r.2) := by
  rw [parse]
  simp only [parseLoop_eq]

theorem parse_values {conf : Conf} {filename file : Bytes} {r : Conf × Int}
    (h : conf.parse filename (some file) = some r) :
    r.1.values = conf.values.pushAll Entry.mapKey Entry.value
      (recorded [] [] ((reads file).map classify)) := by
  rw [parse_eq, Option.map_eq_some_iff] at h
  obtain ⟨r', hrun, rfl⟩ := h
  exact runLines_values hrun

theorem parse_firstBad {conf : Conf} {filename file : Bytes} {r0 : Conf}
    (h : conf.parse filename (some file) = some (r0, 0)) :
    firstBad [] ((reads file).map classify) = none := by
  rw [parse_eq, Option.map_eq_some_iff] at h
  obtain ⟨⟨values, result⟩, hrun, hresult⟩ := h
  cases hresult
  exact firstBad_of_zero hrun

/-- What it leaves, while the number of its lines is an `int`. -/
theorem parse_spec {file : Bytes} (hshort : ShortLines file)
    (hcount : (linesOf file).length < 2 ^ 31) (conf : Conf) (filename : Bytes) :
    ∃ r, conf.parse filename (some file) = some r ∧
      r.1.values = conf.values.pushAll Entry.mapKey Entry.value
        (recorded [] [] ((linesOf file).map classify)) ∧
      r.2 = match firstBad [] ((linesOf file).map classify) with
        | none => 0
        | some n => (n + 1 : Nat) := by
  obtain ⟨r, hrun, hresult⟩ := runLines_result ⟨conf.values, [], []⟩ 0
    ((linesOf file).map classify) (by rw [List.length_map]; omega)
  refine ⟨(⟨r.1, filename⟩, r.2), ?_, runLines_values hrun, ?_⟩
  · rw [parse_eq, reads_short hshort, hrun]
    rfl
  · simp only [Nat.zero_add] at hresult
    exact hresult

theorem parse_good {file : Bytes} (hshort : ShortLines file)
    (hcount : (linesOf file).length < 2 ^ 31)
    (hgood : firstBad [] ((linesOf file).map classify) = none) (conf : Conf) (filename : Bytes) :
    ∃ r0, conf.parse filename (some file) = some (r0, 0) := by
  obtain ⟨r, hparse, -, hresult⟩ := parse_spec hshort hcount conf filename
  rw [hgood] at hresult
  have hzero : r.2 = 0 := hresult
  exact ⟨r.1, by rw [hparse, ← hzero]⟩

theorem length_recorded_bad (section_ : Bytes) {key : Bytes} {l : IniLine}
    (h : fits key l = false) (ls : List IniLine) : (recorded section_ key (l :: ls)).length ≤ 1 := by
  cases l with
  | skipped => cases h
  | header name => cases h
  | more value =>
      rw [recorded, if_neg (no_key h)]
      exact Nat.zero_le 1
  | pair name value => cases h
  | unclosed => exact Nat.zero_le 1
  | keyless => exact Nat.le_refl 1

theorem shortLines_before {file : Bytes} (hshort : ShortLines file) {before after : List Bytes}
    (h : linesOf file = before ++ after) : ShortLines before.flatten := by
  intro l hl
  rw [linesOf_flatten h] at hl
  exact hshort l (h ▸ List.mem_append_left after hl)

/-- A parse succeeds exactly when every line fits where it stands. Otherwise its result is
the number of the first line that does not, and the values are those of the file that ends
in front of it, with one more at most. -/
theorem parse_accepts_iff (conf : Conf) (filename file : Bytes) (hshort : ShortLines file)
    (hcount : (linesOf file).length < 2 ^ 31) :
    ∃ r, conf.parse filename (some file) = some r ∧
      (r.2 = 0 ↔ ∀ before line after, linesOf file = before ++ line :: after → Fits before line) ∧
      ∀ before line after, linesOf file = before ++ line :: after →
        (∀ b l a, before = b ++ l :: a → Fits b l) → ¬ Fits before line →
        r.2 = (before.length + 1 : Nat) ∧
          ∃ r0, conf.parse filename (some before.flatten) = some (r0, 0) ∧
            ∃ additions : List Entry, additions.length ≤ 1 ∧
              r.1.values = r0.values.pushAll Entry.mapKey Entry.value additions := by
  obtain ⟨r, hparse, hvalues, hresult⟩ := parse_spec hshort hcount conf filename
  refine ⟨r, hparse, ?_, ?_⟩
  · rw [hresult, ← firstBad_lines]
    cases firstBad [] ((linesOf file).map classify) with
    | none => exact iff_of_true rfl rfl
    | some n => exact iff_of_false (fun h => by simp only at h; omega) fun h => nomatch h
  · intro before line after hsplit hbefore hbad
    have hgood := (firstBad_lines before).mpr hbefore
    have hfits := Bool.eq_false_iff.mpr fun h => hbad ((classify_fits before line).mp h)
    have hkinds : (linesOf file).map classify =
        before.map classify ++ classify line :: after.map classify := by
      rw [hsplit, List.map_append, List.map_cons]
    constructor
    · rw [hresult, hkinds, firstBad_append hgood, firstBad, if_neg (Bool.eq_false_iff.mp hfits)]
      simp only [Option.map_some, Nat.zero_add, List.length_map]
    · have hlines := linesOf_flatten hsplit
      have hcount' : (linesOf before.flatten).length < 2 ^ 31 := by
        rw [hlines]
        rw [hsplit, List.length_append] at hcount
        omega
      have hgood' : firstBad [] ((linesOf before.flatten).map classify) = none := by
        rw [hlines]
        exact hgood
      have hshort' := shortLines_before hshort hsplit
      obtain ⟨r0, hparse0⟩ := parse_good hshort' hcount' hgood' conf filename
      have hvalues0 := parse_values hparse0
      rw [reads_short hshort', hlines] at hvalues0
      refine ⟨r0, hparse0, _, length_recorded_bad ((before.map classify).foldl sectionAfter [])
        hfits (after.map classify), ?_⟩
      rw [hvalues, hkinds, recorded_append hgood, Grouped.pushAll_append, hvalues0]
      rfl

/-- `"[s]\nk=v\nx\n"`. -/
def badThird : Bytes := [0x5b, 0x73, 0x5d, 0x0a, 0x6b, 0x3d, 0x76, 0x0a, 0x78, 0x0a]

theorem parse_accepts_iff_third : ∃ r, new.parse [] (some badThird) = some r ∧ r.2 = 3 := by
  obtain ⟨r, hparse, -, hbad⟩ :=
    parse_accepts_iff new [] badThird (by decide +kernel) (by decide +kernel)
  have hthird := hbad [[0x5b, 0x73, 0x5d, 0x0a], [0x6b, 0x3d, 0x76, 0x0a]] [0x78, 0x0a] []
    (by decide +kernel) ((firstBad_lines _).mp (by decide +kernel)) (by decide +kernel)
  exact ⟨r, hparse, hthird.1⟩

theorem runLines_overflow (st : Parsing) {lineno n : Nat} (hlineno : lineno < 2 ^ 31)
    (h : 2 ^ 31 ≤ lineno + n) : runLines st lineno (List.replicate n .skipped) = none := by
  induction n generalizing lineno with
  | zero => omega
  | succ n ih =>
      rw [List.replicate_succ, runLines]
      split
      · rfl
      · exact ih (by omega) (by omega)

theorem linesOf_blank (n : Nat) : linesOf (List.replicate n 0x0a) = List.replicate n [0x0a] := by
  induction n with
  | zero => rfl
  | succ n ih => rw [List.replicate_succ, List.replicate_succ, linesOf, if_pos rfl, ih]

/-- `"[a=b\n"`. -/
def bracketLine : Bytes := [0x5b, 0x61, 0x3d, 0x62, 0x0a]

/-- A line that is not indented and has a `=` is refused for its `[`, and a file of `2 ^ 31`
blank lines has more of them than an `int` counts. -/
theorem bracket_line_refused :
    (linesOf bracketLine = [bracketLine] ∧ ¬ Indented bracketLine ∧ 0x3d ∈ bracketLine ∧
      ShortLines bracketLine ∧ ∃ r, new.parse [] (some bracketLine) = some r ∧ r.2 = 1) ∧
    ShortLines (List.replicate (2 ^ 31) 0x0a) ∧
      new.parse [] (some (List.replicate (2 ^ 31) 0x0a)) = none := by
  have hshort : ShortLines bracketLine := by decide
  have hblank : ShortLines (List.replicate (2 ^ 31) 0x0a) := by
    intro l hl
    rw [linesOf_blank] at hl
    rw [(List.mem_replicate.mp hl).2]
    decide
  refine ⟨⟨by decide, by decide, by decide, hshort, ?_⟩, hblank, ?_⟩
  · obtain ⟨r, hparse, -, hresult⟩ := parse_spec hshort (by decide) new []
    exact ⟨r, hparse, hresult⟩
  · have hskipped : classify [0x0a] = .skipped := by decide
    rw [parse_eq, reads_short hblank, linesOf_blank, List.map_replicate, hskipped,
      runLines_overflow _ (by decide) (by omega)]
    rfl

end Conf

end Handy
