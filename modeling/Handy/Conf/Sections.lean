import Handy.Conf.Grammar

/-! # Lookups by section and name

The values of all sections are in one map, under the section and the key with a `.` between
them. A `.` can also be a part of either: `b.c` in the section `a` and `c` in the section
`a.b` are the same text, and a lookup of the one finds the values of the other.
-/

namespace Handy

namespace Conf

def lower (s : Bytes) : Bytes := s.map tolower

/-- The values that a file gives, each under the section and the key in force. -/
def entriesOf (file : Bytes) : List Entry := recorded [] [] ((linesOf file).map classify)

/-- Recorded under this section and name, whatever the case of the letters. -/
def Entry.Under (section_ name : Bytes) (e : Entry) : Prop :=
  lower e.section_ = lower section_ ∧ lower e.key = lower name

instance (section_ name : Bytes) (e : Entry) : Decidable (e.Under section_ name) :=
  inferInstanceAs (Decidable (_ ∧ _))

/-- Recorded under others that give the same text, with the separator at another `.` of it. -/
def Entry.Confused (section_ name : Bytes) (e : Entry) : Prop :=
  Cut.Shifted 0x2e (lower section_) (lower name) (lower e.section_) (lower e.key) ∨
    Cut.Shifted 0x2e (lower e.section_) (lower e.key) (lower section_) (lower name)

def valuesUnder (section_ name : Bytes) (es : List Entry) : List Bytes :=
  (es.filter fun e => e.Under section_ name).map Entry.value

variable {section_ name : Bytes} {e : Entry}

theorem makeKey_eq (section_ name : Bytes) :
    makeKey section_ name = lower section_ ++ 0x2e :: lower name := by
  rw [makeKey, List.map_append, List.map_append, List.append_assoc]
  rfl

theorem mapKey_iff :
    e.mapKey = makeKey section_ name ↔ e.Under section_ name ∨ e.Confused section_ name := by
  rw [Entry.mapKey, makeKey_eq, makeKey_eq, Cut.joined_eq_iff]
  exact or_congr_right or_comm

theorem not_confused (h : e.Under section_ name) : ¬ e.Confused section_ name := by
  intro hconfused
  rw [Entry.Confused, h.1] at hconfused
  exact hconfused.elim Cut.not_shifted Cut.not_shifted

/-- The values under the key of a lookup are those that are meant exactly when none is
recorded under others with the same text. -/
theorem list_entries_iff (es : List Entry) :
    ((∅ : Values).pushAll Entry.mapKey Entry.value es).list (makeKey section_ name) =
        valuesUnder section_ name es ↔
      ∀ e ∈ es, ¬ e.Confused section_ name := by
  have hunder : ∀ e ∈ es, decide (e.Under section_ name) = true → e.mapKey = makeKey section_ name :=
    fun e _ h => mapKey_iff.mpr (Or.inl (of_decide_eq_true h))
  rw [valuesUnder, Grouped.list_pushAll_iff Entry.mapKey Entry.value hunder]
  constructor
  · intro h e he hconfused
    have hmeant := h e he (mapKey_iff.mpr (Or.inr hconfused))
    exact not_confused (of_decide_eq_true hmeant) hconfused
  · intro h e he hkey
    exact decide_eq_true ((mapKey_iff.mp hkey).resolve_right (h e he))

theorem mem_lower {s : Bytes} : 0x2e ∈ lower s ↔ 0x2e ∈ s := by
  constructor
  · intro h
    obtain ⟨c, hc, hlower⟩ := List.mem_map.mp h
    unfold tolower at hlower
    split at hlower
    · next hletter =>
        -- no letter is a `.` with the other bit
        have hle := UInt8.le_iff_toNat_le.mp hletter.1
        have hle' := UInt8.le_iff_toNat_le.mp hletter.2
        have hsum := congrArg UInt8.toNat hlower
        rw [UInt8.toNat_add] at hsum
        simp only [UInt8.reduceToNat] at hle hle' hsum
        omega
    · exact hlower ▸ hc
  · exact fun h => List.mem_map.mpr ⟨0x2e, h, rfl⟩

/-- Where no section has a `.` in it, nothing is found but what is meant. -/
theorem list_entries_plain {es : List Entry} (hsection : 0x2e ∉ section_)
    (hplain : ∀ e ∈ es, 0x2e ∉ e.section_) :
    ((∅ : Values).pushAll Entry.mapKey Entry.value es).list (makeKey section_ name) =
      valuesUnder section_ name es := by
  apply (list_entries_iff es).mpr
  intro e he hconfused
  rcases hconfused with hshifted | hshifted
  · exact hplain e he (mem_lower.mp hshifted.mem)
  · exact hsection (mem_lower.mp hshifted.mem)

/-- Lookups in a file that is accepted find the values under the section and the name, and
no others, exactly when none is recorded under others with the same text. -/
theorem lookup_exact_iff (filename : Bytes) {file : Bytes} (hshort : ShortLines file) {conf : Conf}
    (hparse : new.parse filename (some file) = some (conf, 0)) (section_ name : Bytes) :
    (conf.getStrings section_ name = valuesUnder section_ name (entriesOf file) ∧
        ∀ default_value, conf.get section_ name default_value =
          (valuesUnder section_ name (entriesOf file)).getLast?.getD default_value) ↔
      ∀ e ∈ entriesOf file, ¬ e.Confused section_ name := by
  have hvalues := parse_values hparse
  rw [reads_short hshort] at hvalues
  have hlist : conf.getStrings section_ name = valuesUnder section_ name (entriesOf file) ↔
      ∀ e ∈ entriesOf file, ¬ e.Confused section_ name := by
    rw [getStrings, hvalues]
    exact list_entries_iff (entriesOf file)
  rw [← hlist]
  constructor
  · exact And.left
  · intro h
    refine ⟨h, fun default_value => ?_⟩
    rw [get, Grouped.last?_eq, ← h]
    rfl

/-- `"[s]\nk=v\n"`. -/
def plainFile : Bytes := [0x5b, 0x73, 0x5d, 0x0a, 0x6b, 0x3d, 0x76, 0x0a]

theorem lookup_exact_iff_plain :
    ∃ conf, new.parse [] (some plainFile) = some (conf, 0) ∧
      conf.getStrings [0x53] [0x4b] = [[0x76]] := by
  have hshort : ShortLines plainFile := by decide
  obtain ⟨conf, hparse⟩ := parse_good hshort (by decide) (by decide) new []
  have hentries : entriesOf plainFile = [⟨[0x73], [0x6b], [0x76]⟩] := by decide
  have hexact := (lookup_exact_iff [] hshort hparse [0x53] [0x4b]).mpr fun e he => by
    rw [hentries, List.mem_singleton] at he
    subst he
    exact not_confused (by decide)
  rw [hentries] at hexact
  exact ⟨conf, hparse, hexact.1⟩

/-- `"[a.b]\nc=1\n"`. -/
def dottedFile : Bytes := [0x5b, 0x61, 0x2e, 0x62, 0x5d, 0x0a, 0x63, 0x3d, 0x31, 0x0a]

/-- There is no section `a`, and the lookup of `b.c` in it finds the value of `c` in `a.b`. -/
theorem dotted_section_found :
    ShortLines dottedFile ∧ valuesUnder [0x61] [0x62, 0x2e, 0x63] (entriesOf dottedFile) = [] ∧
      ∃ conf, new.parse [] (some dottedFile) = some (conf, 0) ∧
        conf.getStrings [0x61] [0x62, 0x2e, 0x63] = [[0x31]] := by
  have hshort : ShortLines dottedFile := by decide
  obtain ⟨conf, hparse⟩ := parse_good hshort (by decide) (by decide) new []
  refine ⟨hshort, by decide, conf, hparse, ?_⟩
  rw [getStrings, parse_values hparse, Grouped.list_pushAll, reads_short hshort]
  decide

end Conf

end Handy
