import Handy.File.Status

/-! # Saving through a temporary file

`file::renameSave` writes a temporary file, unlinks the old file and renames the new one to
its name. The files are a map from names to contents; how each system call goes is the
environment's choice, and a `write` may store less than it was given. The code takes a short
write for a complete one, and the file is gone when the rename fails behind the unlink; in
every other case the file holds the new content or is what it was.
-/

namespace Handy

/-- Two words of an error text. -/
def CString.spaced (a b : CString) : CString where
  bytes := a.bytes ++ 0x20 :: b.bytes
  noNul := by
    intro h
    rcases List.mem_append.mp h with h | h
    · exact a.noNul h
    · rcases List.mem_cons.mp h with h | h
      · cases h
      · exact b.noNul h

namespace Status

/-- A status as its code and message, or none for the empty one. -/
abbrev Value := Option (Int32 × CString)

/-- `code()`. -/
def Value.code : Value → Int32
  | none => 0
  | some (code, _) => code

/-- `ok()`. -/
def Value.ok (s : Value) : Bool := s.code == 0

end Status

namespace File

/-! ## System calls -/

/-- What a failing call leaves in `errno`. -/
structure Errno where
  value : Int32
  nonzero : value ≠ 0
deriving DecidableEq

/-- `ENOENT`. -/
def Errno.noEntry : Errno := ⟨2, by decide⟩

/-- The files by name, and `errno`. -/
structure System where
  files : CString → Option Bytes
  errno : Int32

def System.setFile (sys : System) (name : CString) (content : Option Bytes) : System :=
  { sys with files := fun n => if n = name then content else sys.files n }

def System.fail (sys : System) (e : Errno) : System := { sys with errno := e.value }

/-- How a `write` goes: it fails, or stores at most this many bytes. -/
inductive Written where
  | failed (e : Errno)
  | stored (most : Nat)
deriving DecidableEq

/-- How the system calls go; `none` where a call does what it is asked. -/
structure Outcomes where
  opened : Option Errno
  written : Written
  unlinked : Option Errno
  renamed : Option Errno

/-- `open` with `O_WRONLY | O_CREAT | O_TRUNC`; whether there is a descriptor. -/
def System.openTrunc (sys : System) (name : CString) : Option Errno → System × Bool
  | none => (sys.setFile name (some []), true)
  | some e => (sys.fail e, false)

/-- `write` to the file just opened, with its result. -/
def System.write (sys : System) (name : CString) (cont : Bytes) : Written → System × Int
  | .failed e => (sys.fail e, -1)
  | .stored most => (sys.setFile name (some (cont.take most)), (min most cont.length : Nat))

/-- `unlink`; a file that is not there cannot be removed. -/
def System.unlink (sys : System) (name : CString) : Option Errno → System × Int
  | none =>
      match sys.files name with
      | none => (sys.fail .noEntry, -1)
      | some _ => (sys.setFile name none, 0)
  | some e => (sys.fail e, -1)

/-- `rename`. -/
def System.rename (sys : System) (src target : CString) : Option Errno → System × Int
  | none =>
      match sys.files src with
      | none => (sys.fail .noEntry, -1)
      | some content => ((sys.setFile src none).setFile target (some content), 0)
  | some e => (sys.fail e, -1)

/-! ## The functions of the source -/

section Save

variable (strerror : Int32 → CString)

/-- `Status::ioError`. -/
def ioError (sys : System) (op name : CString) : Status.Value :=
  some (sys.errno, (op.spaced name).spaced (strerror sys.errno))

/-- `"open"`, `"write"` and `"rename"`. -/
def openOp : CString := ⟨[0x6f, 0x70, 0x65, 0x6e], by decide⟩

def writeOp : CString := ⟨[0x77, 0x72, 0x69, 0x74, 0x65], by decide⟩

def renameOp : CString := ⟨[0x72, 0x65, 0x6e, 0x61, 0x6d, 0x65], by decide⟩

/-- A `ssize_t` converted to an `int`. -/
def narrow (count : Int) : Int := count.bmod (2 ^ 32)

/-- `file::writeContent`. -/
def writeContent (sys : System) (filename : CString) (cont : Bytes) (opened : Option Errno)
    (written : Written) : System × Status.Value :=
  let (sys, fd) := sys.openTrunc filename opened
  if fd then
    let (sys, count) := sys.write filename cont written
    -- `int r = write(..)`
    let r := narrow count
    if r < 0 then (sys, ioError strerror sys writeOp filename) else (sys, none)
  else (sys, ioError strerror sys openOp filename)

/-- `file::renameFile`. -/
def renameFile (sys : System) (src target : CString) (renamed : Option Errno) :
    System × Status.Value :=
  let (sys, r) := sys.rename src target renamed
  if r ≠ 0 then (sys, ioError strerror sys renameOp (src.spaced target)) else (sys, none)

/-- `file::renameSave`. -/
def renameSave (sys : System) (name tmpName : CString) (cont : Bytes) (o : Outcomes) :
    System × Status.Value :=
  let (sys, s) := writeContent strerror sys tmpName cont o.opened o.written
  if s.ok then
    let (sys, _) := sys.unlink name o.unlinked
    renameFile strerror sys tmpName name o.renamed
  else (sys, s)

end Save

/-! ## What it is for -/

/-- The file holds the new content after a success, and is what it was after an error. -/
def Atomic (before after : System) (name : CString) (cont : Bytes) (s : Status.Value) : Prop :=
  if s.ok then after.files name = some cont else after.files name = before.files name

instance (before after : System) (name : CString) (cont : Bytes) (s : Status.Value) :
    Decidable (Atomic before after name cont s) :=
  inferInstanceAs (Decidable
    (if s.ok then after.files name = some cont else after.files name = before.files name))

/-- The content counts as written: `open` and `write` do not fail, and the result of `write`
is no negative `int`, or is one while `errno` is still zero. -/
def Accepted (errno : Int32) (cont : Bytes) (o : Outcomes) : Prop :=
  match o.opened, o.written with
  | none, .stored most => 0 ≤ narrow (min most cont.length : Nat) ∨ errno = 0
  | _, _ => False

/-- If the rename succeeds everything was stored, and if it fails there was no file to
unlink or it could not be. -/
structure Harmless (sys : System) (name : CString) (cont : Bytes) (o : Outcomes) : Prop where
  whole : o.renamed = none → ∀ most, o.written = .stored most → cont.length ≤ most
  kept : o.renamed ≠ none → sys.files name = none ∨ o.unlinked ≠ none

/-! ## One call at a time -/

section Calls

variable (strerror : Int32 → CString) {sys : System}

theorem setFile_same (name : CString) (content : Option Bytes) :
    (sys.setFile name content).files name = content := if_pos rfl

theorem setFile_other {n name : CString} (h : n ≠ name) (content : Option Bytes) :
    (sys.setFile name content).files n = sys.files n := if_neg h

theorem files_unlink (name : CString) (unlinked : Option Errno) (n : CString) :
    (sys.unlink name unlinked).1.files n =
      if n = name ∧ unlinked = none then none else sys.files n := by
  cases unlinked with
  | some e => rw [if_neg fun h => nomatch h.2]; rfl
  | none =>
      rw [System.unlink]
      by_cases hn : n = name
      · subst hn
        rw [if_pos ⟨rfl, rfl⟩]
        cases hfile : sys.files n with
        | none => exact hfile
        | some content => exact setFile_same n none
      · rw [if_neg fun h => hn h.1]
        cases sys.files name with
        | none => rfl
        | some content => exact setFile_other hn none

variable (sys)

theorem renameFile_ok {src : CString} {content : Bytes} (h : sys.files src = some content)
    (target : CString) :
    (renameFile strerror sys src target none).2 = none ∧
      (renameFile strerror sys src target none).1.files target = some content := by
  have hcall : sys.rename src target none =
      ((sys.setFile src none).setFile target (some content), 0) := by
    rw [System.rename, h]
  rw [renameFile, hcall]
  exact ⟨rfl, setFile_same target (some content)⟩

theorem renameFile_error (src target : CString) (e : Errno) :
    (renameFile strerror sys src target (some e)).2.ok = false ∧
      (renameFile strerror sys src target (some e)).1.files = sys.files :=
  ⟨beq_false_of_ne e.nonzero, rfl⟩

theorem writeContent_stored (filename : CString) (cont : Bytes) (most : Nat) :
    let sys' := (sys.setFile filename (some [])).setFile filename (some (cont.take most))
    writeContent strerror sys filename cont none (.stored most) =
      (sys', if narrow (min most cont.length : Nat) < 0
        then ioError strerror sys' writeOp filename else none) := by
  intro sys'
  unfold writeContent
  simp only [System.openTrunc, System.write, if_true]
  exact (apply_ite (Prod.mk sys') _ _ _).symm

theorem writeContent_frame {n filename : CString} (h : n ≠ filename) (cont : Bytes)
    (opened : Option Errno) (written : Written) :
    (writeContent strerror sys filename cont opened written).1.files n = sys.files n := by
  cases opened with
  | some e => rfl
  | none =>
      cases written with
      | failed e => exact setFile_other h (some [])
      | stored most =>
          rw [writeContent_stored]
          exact (setFile_other h _).trans (setFile_other h _)

/-- Its status, and what the file holds where it is a success. -/
theorem writeContent_accepted (filename : CString) (cont : Bytes) (o : Outcomes) :
    ((writeContent strerror sys filename cont o.opened o.written).2.ok = true ↔
        Accepted sys.errno cont o) ∧
      ∀ most, o.opened = none → o.written = .stored most →
        (writeContent strerror sys filename cont o.opened o.written).1.files filename =
          some (cont.take most) := by
  unfold Accepted
  cases o.opened with
  | some e =>
      refine ⟨iff_of_false ?_ fun h => h, fun _ h => nomatch h⟩
      exact Bool.eq_false_iff.mp (beq_false_of_ne e.nonzero)
  | none =>
      cases o.written with
      | failed e =>
          refine ⟨iff_of_false ?_ fun h => h, fun _ _ h => nomatch h⟩
          exact Bool.eq_false_iff.mp (beq_false_of_ne e.nonzero)
      | stored most =>
          rw [writeContent_stored]
          refine ⟨?_, ?_⟩
          · simp only
            split
            · next hneg =>
                have hcode : Status.Value.code (ioError strerror ((sys.setFile filename
                    (some [])).setFile filename (some (cont.take most))) writeOp filename) =
                    sys.errno := rfl
                rw [Status.Value.ok, hcode, beq_iff_eq, or_iff_right (Int.not_le.mpr hneg)]
            · next hpos => exact iff_of_true rfl (Or.inl (Int.not_lt.mp hpos))
          · intro most' _ hmost
            cases hmost
            exact setFile_same filename (some (cont.take most))

end Calls

theorem accepted_stored {errno : Int32} {cont : Bytes} {o : Outcomes} (h : Accepted errno cont o) :
    o.opened = none ∧ ∃ most, o.written = .stored most := by
  unfold Accepted at h
  split at h
  · next hopened hwritten => exact ⟨hopened, _, hwritten⟩
  · exact h.elim

section Outcome

variable (strerror : Int32 → CString) {sys : System} {name tmpName : CString} {cont : Bytes}
  {o : Outcomes}

/-- Nothing has been done to the file when the content does not count as written. -/
theorem renameSave_refused (hne : tmpName ≠ name) (h : ¬ Accepted sys.errno cont o) :
    (renameSave strerror sys name tmpName cont o).2.ok = false ∧
      (renameSave strerror sys name tmpName cont o).1.files name = sys.files name := by
  have hok := (writeContent_accepted strerror sys tmpName cont o).1
  have hfalse := Bool.eq_false_iff.mpr fun htrue => h (hok.mp htrue)
  unfold renameSave
  simp only [hfalse]
  exact ⟨hfalse, writeContent_frame strerror sys hne.symm cont o.opened o.written⟩

/-- Otherwise the file is unlinked and the temporary one renamed. -/
theorem renameSave_accepted (hne : tmpName ≠ name) (h : Accepted sys.errno cont o) {most : Nat}
    (hmost : o.written = .stored most) :
    ∃ sys', renameSave strerror sys name tmpName cont o =
        renameFile strerror sys' tmpName name o.renamed ∧
      sys'.files tmpName = some (cont.take most) ∧
      sys'.files name = if o.unlinked = none then none else sys.files name := by
  obtain ⟨hok, hstored⟩ := writeContent_accepted strerror sys tmpName cont o
  have hframe := writeContent_frame strerror sys hne.symm cont o.opened o.written
  refine ⟨((writeContent strerror sys tmpName cont o.opened o.written).1.unlink name o.unlinked).1,
    ?_, ?_, ?_⟩
  · unfold renameSave
    simp only [hok.mpr h, if_true]
  · rw [files_unlink, if_neg fun hboth => hne hboth.1]
    exact hstored most (accepted_stored h).1 hmost
  · rw [files_unlink, hframe]
    simp only [true_and]

end Outcome

/-- A save does what it is for exactly when its content did not count as written, or what
follows is harmless. -/
theorem renameSave_atomic_iff (strerror : Int32 → CString) (sys : System) (name tmpName : CString)
    (hne : tmpName ≠ name) (cont : Bytes) (o : Outcomes) :
    let r := renameSave strerror sys name tmpName cont o
    Atomic sys r.1 name cont r.2 ↔ (Accepted sys.errno cont o → Harmless sys name cont o) := by
  intro r
  by_cases hacc : Accepted sys.errno cont o
  · obtain ⟨-, most, hmost⟩ := accepted_stored hacc
    obtain ⟨sys', hr, htmp, hname⟩ := renameSave_accepted strerror hne hacc hmost
    have hr' : r = renameFile strerror sys' tmpName name o.renamed := hr
    rw [Atomic, hr', imp_iff_right hacc]
    cases hrenamed : o.renamed with
    | none =>
        obtain ⟨hstatus, hfile⟩ := renameFile_ok strerror sys' htmp name
        rw [hstatus, hfile]
        constructor
        · intro hsame
          have htake : cont.take most = cont := Option.some.inj hsame
          refine ⟨fun _ most' hmost' => ?_, fun h => absurd hrenamed h⟩
          rw [hmost] at hmost'
          cases hmost'
          exact List.take_eq_self_iff cont |>.mp htake
        · intro hharmless
          exact congrArg some (List.take_of_length_le (hharmless.whole hrenamed most hmost))
    | some e =>
        obtain ⟨hstatus, hfiles⟩ := renameFile_error strerror sys' tmpName name e
        rw [hstatus, hfiles, hname]
        constructor
        · intro hsame
          refine ⟨fun h => absurd (hrenamed.symm.trans h) (Option.some_ne_none e), fun _ => ?_⟩
          by_cases hunlinked : o.unlinked = none
          · rw [if_neg Bool.false_ne_true, if_pos hunlinked] at hsame
            exact Or.inl hsame.symm
          · exact Or.inr hunlinked
        · intro hharmless
          rw [if_neg Bool.false_ne_true]
          rcases hharmless.kept (by rw [hrenamed]; exact Option.some_ne_none e) with habsent | hleft
          · rw [habsent, ite_self]
          · rw [if_neg hleft]
  · obtain ⟨hstatus, hfile⟩ := renameSave_refused strerror hne hacc
    refine iff_of_true ?_ fun h => absurd h hacc
    show if r.2.ok then _ else _
    rw [hstatus]
    exact hfile

/-- `"a"` and `"b"`. -/
def nameA : CString := ⟨[0x61], by decide⟩

def nameB : CString := ⟨[0x62], by decide⟩

def oneFile : System := ⟨fun n => if n = nameA then some [0x6f] else none, 0⟩

def saved (o : Outcomes) : System × Status.Value :=
  renameSave (fun _ => nameB) oneFile nameA nameB [0x6e, 0x65] o

def notUnlinked : Outcomes := ⟨none, .stored 2, some .noEntry, none⟩

theorem renameSave_atomic_iff_kept :
    Atomic oneFile (saved notUnlinked).1 nameA [0x6e, 0x65] (saved notUnlinked).2 :=
  (renameSave_atomic_iff (fun _ => nameB) oneFile nameA nameB (by decide) [0x6e, 0x65]
    notUnlinked).mpr fun _ => ⟨fun _ most h => by cases h; decide, fun h => absurd rfl h⟩

/-- The rename fails, or one byte of the two is stored. -/
def notRenamed : Outcomes := ⟨none, .stored 2, none, some ⟨5, by decide⟩⟩

def shortWrite : Outcomes := ⟨none, .stored 1, none, none⟩

/-- A rename that fails behind the unlink loses the file, and a short write is taken for the
whole content. -/
theorem renameSave_loses :
    ((saved notRenamed).2.ok = false ∧ oneFile.files nameA = some [0x6f] ∧
      (saved notRenamed).1.files nameA = none ∧
      ¬ Atomic oneFile (saved notRenamed).1 nameA [0x6e, 0x65] (saved notRenamed).2) ∧
    (saved shortWrite).2.ok = true ∧ (saved shortWrite).1.files nameA = some [0x6e] ∧
      ¬ Atomic oneFile (saved shortWrite).1 nameA [0x6e, 0x65] (saved shortWrite).2 := by
  decide +kernel

end File

end Handy
