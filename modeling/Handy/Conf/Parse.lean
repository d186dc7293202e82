import Handy.Conf.Scan
import Handy.Http.Encode
import Handy.Lib.Grouped

/-! # Configuration files

`Conf::parse` reads a file line by line through a buffer of 16 KiB, with the section and the
key in force, and puts every value behind those of its key in one map, whose keys are made
of the section and the name. A line number that does not fit in an `int` is an overflow:
the parse then has no result. What `fopen` finds is a parameter.
-/

namespace Handy

/-- `std::map<std::string, std::list<std::string>>`; `operator[]` is only called to push a
value, so no list is empty. -/
abbrev Values := Grouped Bytes Bytes

structure Conf where
  values : Values
  filename : Bytes

namespace Conf

/-- A configuration that nothing has been read into. -/
def new : Conf := ⟨∅, []⟩

def makeKey (section_ name : Bytes) : Bytes := (section_ ++ [0x2e] ++ name).map tolower

def get (conf : Conf) (section_ name default_value : Bytes) : Bytes :=
  (conf.values.last? (makeKey section_ name)).getD default_value

def getStrings (conf : Conf) (section_ name : Bytes) : List Bytes :=
  conf.values.list (makeKey section_ name)

/-! ## Parsing -/

/-- Up to `n` characters of the file, or through the end of a line. -/
def readLine : Nat → Bytes → Bytes × Bytes
  | 0, file => ([], file)
  | _, [] => ([], [])
  | n + 1, c :: file =>
      if c = 0x0a then ([c], file)
      else
        let r := readLine n file
        (c :: r.1, r.2)

/-- `fgets` into a buffer of `n` characters. -/
def fgets (n : Nat) (file : Bytes) : Option (Bytes × Bytes) :=
  if file = [] then none else some (readLine (n - 1) file)

theorem length_readLine (n : Nat) (file : Bytes) : (readLine n file).2.length ≤ file.length := by
  induction n generalizing file with
  | zero => exact Nat.le_refl _
  | succ n ih =>
      cases file with
      | nil => exact Nat.le_refl _
      | cons c file =>
          rw [readLine]
          split
          · exact Nat.le_succ _
          · exact Nat.le_succ_of_le (ih file)

/-- `MAX_LINE`. -/
def maxLine : Nat := 16 * 1024

theorem length_fgets {file : Bytes} {r : Bytes × Bytes} (h : fgets maxLine file = some r) :
    r.2.length < file.length := by
  unfold fgets at h
  split at h
  · cases h
  · next hne =>
      obtain ⟨c, rest, rfl⟩ := List.exists_cons_of_ne_nil hne
      cases h
      have hmax : maxLine - 1 = 16382 + 1 := rfl
      rw [hmax, readLine]
      split
      · exact Nat.lt_succ_self _
      · exact Nat.lt_succ_of_le (length_readLine 16382 rest)

/-- The local variables of `parse` that a line changes. -/
structure Parsing where
  values : Values
  section_ : Bytes
  key : Bytes

/-- `values_[makeKey(section, key)].push_back(value)`. -/
def Parsing.record (st : Parsing) (value : Bytes) : Parsing :=
  { st with values := st.values.push (makeKey st.section_ st.key) value }

/-- The body of the loop, on the string in `ln`; whether there is an error. -/
def parseLine (st : Parsing) (ln : Bytes) : Parsing × Bool :=
  let (ls, c) := LineScanner.peekChar ⟨ln, false⟩
  if c = some 0x3b ∨ c = some 0x23 ∨ c = none then (st, false)
  else if c = some 0x5b then
    let (ls, section_) := (ls.skip 1).consumeTill (some 0x5d)
    let ls := ls.matchChar 0x5d
    ({ st with section_ := section_, key := [] }, ls.err)
  else if isspace (ln.headD 0) then
    if st.key ≠ [] then (st.record (ls.consumeTill none).2, false) else (st, true)
  else
    let lsc := ls
    let (ls, key) := ls.consumeTill (some 0x3d)
    let (ls, c) := ls.peekChar
    if c = some 0x3d then
      let (_, value) := (ls.skip 1).consumeTillEnd
      ({ st with key := key }.record value, false)
    else
      let (ls, key) := lsc.consumeTill (some 0x3a)
      let ls := ls.matchChar 0x3a
      let (_, value) := ls.consumeTillEnd
      ({ st with key := key }.record value, ls.err)

/-- The loop, with `lineno`; the values and the result. -/
def parseLoop (st : Parsing) (lineno : Nat) (file : Bytes) : Option (Values × Int) :=
  match _h : fgets maxLine file with
  | none => some (st.values, 0)
  | some r =>
      -- `lineno++`
      if lineno + 1 = 2 ^ 31 then none
      else
        let next := parseLine st (cStr r.1)
        if next.2 then some (next.1.values, (lineno + 1 : Nat))
        else parseLoop next.1 (lineno + 1) r.2
termination_by file.length
decreasing_by exact length_fgets _h

/-- `parse`; `file` is what `fopen` finds under the name. -/
def parse (conf : Conf) (filename : Bytes) (file : Option Bytes) : Option (Conf × Int) :=
  match file with
  | none => some ({ conf with filename := filename }, -1)
  | some file =>
      (parseLoop ⟨conf.values, [], []⟩ 0 file).map fun r => (⟨r.1, filename⟩, r.2)

end Conf

end Handy
