import Handy.File.RenameSave

/-! # Reading a file

`file::getContent` appends what it reads to a string of the caller's. A `read` may bring less
than it was asked for, and a failing one leaves what was read before it in the string.
-/

namespace Handy

namespace File

/-- How a `read` goes: it fails, or brings at most this many bytes and one. -/
inductive ReadOutcome where
  | failed (e : Errno)
  | brings (most : Nat)
deriving DecidableEq

/-- `sizeof buf`. -/
def bufSize : Nat := 4096

/-- The result of a `read` that does not fail, with `rest` behind the file's offset. -/
def readCount (rest : Bytes) (most : Nat) : Nat := min (min (most + 1) bufSize) rest.length

theorem readCount_eq_zero {rest : Bytes} {most : Nat} : readCount rest most = 0 ↔ rest = [] := by
  unfold readCount bufSize
  rw [← List.length_eq_zero_iff]
  omega

/-- The `for` loop from the call number `i` on: the string, and the error of a `read`. -/
def readLoop (reads : Nat → ReadOutcome) (i : Nat) (rest cont : Bytes) : Bytes × Option Errno :=
  match reads i with
  | .failed e => (cont, some e)
  | .brings most =>
      let r := readCount rest most
      if _h : r = 0 then (cont, none)
      else readLoop reads (i + 1) (rest.drop r) (cont ++ rest.take r)
termination_by rest.length
decreasing_by
  have hle : readCount rest most ≤ rest.length := Nat.min_le_right _ _
  simp only [List.length_drop]
  omega

/-- `"read"`. -/
def readOp : CString := ⟨[0x72, 0x65, 0x61, 0x64], by decide⟩

/-- `file::getContent`; `opened` and `reads` are how the calls go. A file that is not there
cannot be opened. -/
def getContent (strerror : Int32 → CString) (sys : System) (filename : CString) (cont : Bytes)
    (opened : Option Errno) (reads : Nat → ReadOutcome) : System × Bytes × Status.Value :=
  match opened, sys.files filename with
  | some e, _ => (sys.fail e, cont, ioError strerror (sys.fail e) openOp filename)
  | none, none => (sys.fail .noEntry, cont, ioError strerror (sys.fail .noEntry) openOp filename)
  | none, some content =>
      match readLoop reads 0 content cont with
      | (cont, some e) => (sys.fail e, cont, ioError strerror (sys.fail e) readOp filename)
      | (cont, none) => (sys, cont, none)

/-- How far the first `n` reads of a file come. -/
def offsetAfter (reads : Nat → ReadOutcome) (content : Bytes) : Nat → Nat
  | 0 => 0
  | n + 1 =>
      let offset := offsetAfter reads content n
      match reads n with
      | .failed _ => offset
      | .brings most => offset + readCount (content.drop offset) most

/-- The `read` number `n` is made: each before it brought something. -/
def Made (reads : Nat → ReadOutcome) (content : Bytes) (n : Nat) : Prop :=
  ∀ m < n, offsetAfter reads content m < offsetAfter reads content (m + 1)

theorem offsetAfter_le (reads : Nat → ReadOutcome) (content : Bytes) (n : Nat) :
    offsetAfter reads content n ≤ content.length := by
  induction n with
  | zero => exact Nat.zero_le _
  | succ n ih =>
      rw [offsetAfter]
      cases reads n with
      | failed e => exact ih
      | brings most =>
          have hle : readCount (content.drop (offsetAfter reads content n)) most ≤
              (content.drop (offsetAfter reads content n)).length := Nat.min_le_right _ _
          rw [List.length_drop] at hle
          dsimp only
          omega

/-- Where the loop is when it comes to a `read`. -/
theorem readLoop_made {reads : Nat → ReadOutcome} {content : Bytes} {n : Nat}
    (hmade : Made reads content n) (cont : Bytes) :
    readLoop reads 0 content cont =
      readLoop reads n (content.drop (offsetAfter reads content n))
        (cont ++ content.take (offsetAfter reads content n)) := by
  induction n with
  | zero => simp [offsetAfter]
  | succ n ih =>
      have hmore := hmade n (Nat.lt_succ_self n)
      rw [ih fun m hm => hmade m (Nat.lt_succ_of_lt hm), readLoop]
      rw [offsetAfter] at hmore ⊢
      cases hread : reads n with
      | failed e =>
          rw [hread] at hmore
          exact absurd hmore (Nat.lt_irrefl _)
      | brings most =>
          rw [hread] at hmore
          have hsome : readCount (content.drop (offsetAfter reads content n)) most ≠ 0 := by
            intro hzero
            simp only [hzero, Nat.add_zero] at hmore
            exact Nat.lt_irrefl _ hmore
          simp only [hsome, dif_neg, not_false_iff, List.drop_drop, List.append_assoc,
            ← List.take_add]

theorem Made.succ {reads : Nat → ReadOutcome} {content : Bytes} {n : Nat}
    (hmade : Made reads content n)
    (hmore : offsetAfter reads content n < offsetAfter reads content (n + 1)) :
    Made reads content (n + 1) := by
  intro m hm
  rcases Nat.lt_succ_iff_lt_or_eq.mp hm with hm | rfl
  · exact hmade m hm
  · exact hmore

theorem Made.le_offset {reads : Nat → ReadOutcome} {content : Bytes} {n : Nat}
    (hmade : Made reads content n) : n ≤ offsetAfter reads content n := by
  induction n with
  | zero => exact Nat.zero_le _
  | succ n ih =>
      have hmore := hmade n (Nat.lt_succ_self n)
      have hle := ih fun m hm => hmade m (Nat.lt_succ_of_lt hm)
      omega

/-- Some `read` is the last: a file ends. -/
theorem exists_last (reads : Nat → ReadOutcome) (content : Bytes) :
    ∃ n, Made reads content n ∧ offsetAfter reads content (n + 1) = offsetAfter reads content n := by
  have hmono : ∀ n, offsetAfter reads content n ≤ offsetAfter reads content (n + 1) := by
    intro n
    rw [offsetAfter]
    cases reads n with
    | failed e => exact Nat.le_refl _
    | brings most => exact Nat.le_add_right _ _
  by_contra hnever
  have hmade : ∀ n, Made reads content n := by
    intro n
    induction n with
    | zero => exact fun m hm => absurd hm (Nat.not_lt_zero m)
    | succ n ih =>
        apply ih.succ
        apply Nat.lt_of_le_of_ne (hmono n)
        exact fun heq => hnever ⟨n, ih, heq.symm⟩
  have hfar := (hmade (content.length + 1)).le_offset
  have hle := offsetAfter_le reads content (content.length + 1)
  omega

/-- The loop stops at the end of the file, or at a `read` that fails, and has appended what lies
before that. -/
theorem readLoop_spec (reads : Nat → ReadOutcome) (content cont : Bytes) :
    ∃ n, Made reads content n ∧
      ((∀ e, reads n ≠ .failed e) ∧ readLoop reads 0 content cont = (cont ++ content, none) ∨
        ∃ e, reads n = .failed e ∧ ∃ k ≤ content.length,
          readLoop reads 0 content cont = (cont ++ content.take k, some e)) := by
  obtain ⟨n, hmade, hlast⟩ := exists_last reads content
  refine ⟨n, hmade, ?_⟩
  rw [readLoop_made hmade, readLoop]
  rw [offsetAfter] at hlast
  cases hread : reads n with
  | failed e => exact Or.inr ⟨e, rfl, _, offsetAfter_le reads content n, rfl⟩
  | brings most =>
      left
      rw [hread] at hlast
      have hzero : readCount (content.drop (offsetAfter reads content n)) most = 0 := by
        dsimp only at hlast
        omega
      have hend : content.drop (offsetAfter reads content n) = [] := readCount_eq_zero.mp hzero
      refine ⟨by simp, ?_⟩
      have hall : content.take (offsetAfter reads content n) = content := by
        rw [List.take_eq_self_iff]
        exact List.drop_eq_nil_iff.mp hend
      simp only [hzero, dif_pos, hall]

theorem readLoop_ok_iff (reads : Nat → ReadOutcome) (content cont : Bytes) :
    (readLoop reads 0 content cont).2 = none ↔
      ∀ n, Made reads content n → ∀ e, reads n ≠ .failed e := by
  constructor
  · intro hok n hmade e hfails
    rw [readLoop_made hmade, readLoop, hfails] at hok
    cases hok
  · intro hfine
    obtain ⟨n, hmade, ⟨-, hloop⟩ | ⟨e, hfails, -⟩⟩ := readLoop_spec reads content cont
    · rw [hloop]
    · exact absurd hfails (hfine n hmade e)

theorem renameSave_ok {strerror : Int32 → CString} {sys : System} {name tmpName : CString}
    (hne : tmpName ≠ name) {cont : Bytes} {o : Outcomes}
    (h : (renameSave strerror sys name tmpName cont o).2.ok = true) :
    ∃ most, o.written = .stored most ∧
      (renameSave strerror sys name tmpName cont o).1.files name = some (cont.take most) := by
  by_cases hacc : Accepted sys.errno cont o
  · obtain ⟨-, most, hmost⟩ := accepted_stored hacc
    obtain ⟨sys', hr, htmp, -⟩ := renameSave_accepted strerror hne hacc hmost
    rw [hr] at h ⊢
    cases hrenamed : o.renamed with
    | none =>
        obtain ⟨-, hfile⟩ := renameFile_ok strerror sys' htmp name
        exact ⟨most, hmost, hfile⟩
    | some e =>
        rw [hrenamed, (renameFile_error strerror sys' tmpName name e).1] at h
        cases h
  · rw [(renameSave_refused strerror hne hacc).1] at h
    cases h

/-- What is there is appended: all of it after a success, whatever the reads bring at a time,
and else a part. It is a success exactly when no call that is made fails. -/
theorem getContent_spec (strerror : Int32 → CString) {sys : System} {filename : CString}
    {content : Bytes} (hfile : sys.files filename = some content) (cont : Bytes)
    (opened : Option Errno) (reads : Nat → ReadOutcome) :
    let r := getContent strerror sys filename cont opened reads
    r.1.files = sys.files ∧
      (r.2.2.ok = true → r.2.1 = cont ++ content) ∧
      (r.2.2.ok = false → ∃ k ≤ content.length, r.2.1 = cont ++ content.take k) ∧
      (r.2.2.ok = true ↔
        opened = none ∧ ∀ n, Made reads content n → ∀ e, reads n ≠ .failed e) := by
  intro r
  have hcall : r = getContent strerror sys filename cont opened reads := rfl
  unfold getContent at hcall
  rw [hfile] at hcall
  have hbad : ∀ (e : Errno) (op : CString),
      (ioError strerror (sys.fail e) op filename).ok = false := fun e _ => beq_false_of_ne e.nonzero
  cases opened with
  | some e =>
      rw [hcall]
      refine ⟨rfl, fun hok => ?_, fun _ => ⟨0, Nat.zero_le _, by simp⟩, ?_⟩
      · rw [hbad] at hok
        cases hok
      · simp [hbad]
  | none =>
      have hiff := readLoop_ok_iff reads content cont
      obtain ⟨n, hmade, ⟨-, hloop⟩ | ⟨e, hfails, k, hk, hloop⟩⟩ := readLoop_spec reads content cont
      · simp only [hloop] at hcall
        rw [hloop] at hiff
        rw [hcall]
        have hok : Status.Value.ok none = true := rfl
        refine ⟨rfl, fun _ => rfl, fun hno => ?_, iff_of_true hok ⟨rfl, hiff.mp rfl⟩⟩
        cases hno
      · simp only [hloop] at hcall
        rw [hcall]
        refine ⟨rfl, fun hok => ?_, fun _ => ⟨k, hk, rfl⟩, ?_⟩
        · rw [hbad] at hok
          cases hok
        · exact iff_of_false (by simp [hbad]) fun hfine => hfine.2 n hmade e hfails

/-- Behind a save that reports a success a read that does so too has appended what the one
`write` stored, so the saved content exactly when that was all of it; one that does not has
appended a part. The read is a success exactly when the `open` and the reads made up to the end
of the file do not fail. -/
theorem saved_content_read_back (strerror : Int32 → CString) (sys : System)
    (name tmpName : CString) (hne : tmpName ≠ name) (cont : Bytes) (o : Outcomes)
    (hsaved : (renameSave strerror sys name tmpName cont o).2.ok = true) (before : Bytes)
    (opened : Option Errno) (reads : Nat → ReadOutcome) :
    let r := getContent strerror (renameSave strerror sys name tmpName cont o).1 name before opened
      reads
    ∃ most, o.written = .stored most ∧
      (r.2.2.ok = true → r.2.1 = before ++ cont.take most ∧
        (r.2.1 = before ++ cont ↔ cont.length ≤ most)) ∧
      (r.2.2.ok = false → ∃ k ≤ min most cont.length, r.2.1 = before ++ cont.take k) ∧
      (r.2.2.ok = true ↔
        opened = none ∧ ∀ n, Made reads (cont.take most) n → ∀ e, reads n ≠ .failed e) := by
  intro r
  obtain ⟨most, hmost, hfile⟩ := renameSave_ok hne hsaved
  obtain ⟨-, hall, hpart, hiff⟩ := getContent_spec strerror hfile before opened reads
  refine ⟨most, hmost, fun hok => ⟨hall hok, ?_⟩, fun hno => ?_, hiff⟩
  · rw [hall hok, List.append_cancel_left_eq, List.take_eq_self_iff]
  · obtain ⟨k, hk, hread⟩ := hpart hno
    rw [List.length_take] at hk
    refine ⟨k, hk, ?_⟩
    rw [hread, List.take_take, Nat.min_eq_left (by omega)]

/-- Three bytes are saved and read back two at a time. -/
theorem saved_content_read_back_pairs :
    (getContent (fun _ => nameB)
      (renameSave (fun _ => nameB) oneFile nameA nameB [0x6e, 0x65, 0x77] ⟨none, .stored 3, none, none⟩).1
      nameA [0x3e] none fun _ => .brings 1).2.1 = [0x3e, 0x6e, 0x65, 0x77] := by
  obtain ⟨most, hmost, hall, -, hgoes⟩ := saved_content_read_back (fun _ => nameB) oneFile nameA nameB
    (by decide) [0x6e, 0x65, 0x77] ⟨none, .stored 3, none, none⟩ (by decide +kernel) [0x3e] none
    fun _ => .brings 1
  have hthree : 3 = most := by
    injection hmost
  exact (hall (hgoes.mpr ⟨rfl, by simp⟩)).2.mpr (by subst hthree; decide)

end File

end Handy
