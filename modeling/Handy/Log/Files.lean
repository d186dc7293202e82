import Handy.File.RenameSave
import Handy.Log.Rotation

/-! # The files of a log

`Logger::logv` appends to the file of a descriptor, and `maybeRotate` renames that file to
`.backup`, over what had this name before, and opens a new one. The files here are the open
files by number, and the names that refer to them, since a file that loses its name is still
written to. How each system call goes is the environment's choice; one thread is in `logv` at a
time.
-/

namespace Handy

open File

/-- How the calls of a `logv` go; `none` where a call does what it is asked. -/
structure LogOutcomes where
  renamed : Option Errno
  opened : Option Errno
  duplicated : Option Errno
  written : Written

/-- `logv` at the time `now` with the text it puts together. -/
structure LogCall where
  now : Int
  level : Nat
  text : Bytes
  outcomes : LogOutcomes

/-- The names and files, `fd_` (`none` is `-1`), `filename_` (`none` is the empty one), and the
other fields of the `Logger`. Files from `next` on are not in use. -/
structure LogFiles where
  names : CString → Option Nat
  data : Nat → Bytes
  next : Nat
  fd : Option Nat
  filename : Option CString
  level : Nat
  lastRotate : Int
  realRotate : Int

/-- `"%s.backup"` in 4096 characters. -/
def backupName (name : CString) : CString where
  bytes := (name.bytes ++ [0x2e, 0x62, 0x61, 0x63, 0x6b, 0x75, 0x70]).take 4095
  noNul := by
    intro h
    rcases List.mem_append.mp (List.mem_of_mem_take h) with h | h
    · exact name.noNul h
    · revert h
      decide

namespace LogFiles

/-- `open` with `O_APPEND | O_CREAT | O_WRONLY`: the file, if there is a descriptor. -/
def openAppend (s : LogFiles) (name : CString) : Option Errno → LogFiles × Option Nat
  | some _ => (s, none)
  | none =>
      match s.names name with
      | some i => (s, some i)
      | none =>
          ({ s with
              names := fun n => if n = name then some s.next else s.names n
              data := fun i => if i = s.next then [] else s.data i
              next := s.next + 1 }, some s.next)

/-- `rename`; whether it succeeds. -/
def rename (s : LogFiles) (src target : CString) : Option Errno → LogFiles × Bool
  | some _ => (s, false)
  | none =>
      match s.names src with
      | none => (s, false)
      | some i =>
          ({ s with names := fun n =>
              if n = target then some i else if n = src then none else s.names n }, true)

/-- What a `write` stores of a text. -/
def stored (text : Bytes) : Written → Bytes
  | .failed _ => []
  | .stored most => text.take most

/-- `write` to the file of a descriptor. -/
def append (s : LogFiles) (i : Nat) (text : Bytes) (written : Written) : LogFiles :=
  { s with data := fun j => if j = i then s.data i ++ stored text written else s.data j }

/-- `Logger::setFileName`; `none` when the `fatalif` behind `dup2` ends the process. -/
def setFileName (s : LogFiles) (name : CString) (opened duplicated : Option Errno) :
    Option LogFiles :=
  match s.openAppend name opened with
  | (s, none) => some s
  | (s, some i) =>
      let s := { s with filename := some name }
      match s.fd, duplicated with
      | none, _ => some { s with fd := some i }
      -- `dup2(fd, fd_)` and `close(fd)`
      | some _, none => some { s with fd := some i }
      | some _, some _ => none

/-- The condition of `maybeRotate` up to the decision. -/
def wantsRotation (k : LogClock) (s : LogFiles) (now : Int) : Bool :=
  k.slot now ≠ k.slot s.lastRotate ∧ k.slot s.realRotate ≠ k.slot now

/-- `Logger::maybeRotate`. -/
def maybeRotate (k : LogClock) (s : LogFiles) (now : Int) (o : LogOutcomes) : LogFiles :=
  match s.filename with
  | none => s
  | some name =>
      if k.slot now = k.slot s.lastRotate then s
      else
        let old := s.realRotate
        let s := { s with lastRotate := now, realRotate := now }
        if k.slot old = k.slot s.lastRotate then s
        else
          match s.rename name (backupName name) o.renamed with
          | (s, false) => s
          | (s, true) =>
              match s.openAppend name o.opened with
              | (s, none) => s
              | (s, some i) => if o.duplicated = none then { s with fd := some i } else s

/-- `Logger::logv` behind the level's check and with the text made: where there is no file the
text goes to the standard output. -/
def logv (k : LogClock) (s : LogFiles) (c : LogCall) : LogFiles :=
  if s.level < c.level then s
  else
    let s := s.maybeRotate k c.now c.outcomes
    match s.fd with
    | none => s
    | some i => s.append i c.text c.outcomes.written

def content (s : LogFiles) (name : CString) : Bytes :=
  match s.names name with
  | none => []
  | some i => s.data i

/-- The two files of a log, the older first. -/
def kept (s : LogFiles) (name : CString) : Bytes := s.content (backupName name) ++ s.content name

def stores (s : LogFiles) (c : LogCall) : Bytes :=
  if s.level < c.level then [] else stored c.text c.outcomes.written

/-- The rename of a call that succeeds. -/
def renames (k : LogClock) (s : LogFiles) (c : LogCall) : List Unit :=
  match s.filename with
  | none => []
  | some name =>
      if ¬ s.level < c.level ∧ s.wantsRotation k c.now ∧ c.outcomes.renamed = none ∧
          s.names name ≠ none then [()]
      else []

/-- A log with a name and a descriptor: its file has the name, or has the name of the backup
since no new one could be opened. -/
structure Ready (name : CString) (s : LogFiles) : Prop where
  named : s.filename = some name
  apart : backupName name ≠ name
  below : ∀ n i, s.names n = some i → i < s.next
  single : ∀ n m i, s.names n = some i → s.names m = some i → n = m
  open_ : ∃ i, s.fd = some i ∧
    (s.names name = some i ∨ s.names name = none ∧ s.names (backupName name) = some i)

/-- No file has the name since the last one could not be opened. -/
def Stuck (name : CString) (s : LogFiles) : Prop := s.names name = none

variable {k : LogClock} {name : CString} {s : LogFiles}

theorem content_append (i : Nat) (text : Bytes) (written : Written) (n : CString) :
    (s.append i text written).content n =
      if s.names n = some i then s.content n ++ stored text written else s.content n := by
  show (match s.names n with
    | none => []
    | some j => if j = i then s.data i ++ stored text written else s.data j) = _
  unfold content
  cases hn : s.names n with
  | none => rfl
  | some j =>
      by_cases hji : j = i
      · simp [hji]
      · simp [hji]

/-- A write goes behind what is kept. -/
theorem Ready.append (h : s.Ready name) {i : Nat} (hfd : s.fd = some i) (text : Bytes)
    (written : Written) :
    (s.append i text written).Ready name ∧
      (s.append i text written).kept name = s.kept name ++ stored text written ∧
      (¬ s.Stuck name → (s.append i text written).content name = s.content name ++
        stored text written) := by
  obtain ⟨j, hj, hat⟩ := h.open_
  obtain rfl : i = j := Option.some.inj (hfd.symm.trans hj)
  refine ⟨⟨h.named, h.apart, h.below, h.single, i, hfd, hat⟩, ?_, ?_⟩
  · unfold kept
    rw [content_append, content_append]
    rcases hat with hname | ⟨hnone, hbackup⟩
    · have hbackup : s.names (backupName name) ≠ some i :=
        fun hb => h.apart (h.single _ _ i hb hname)
      rw [if_neg hbackup, if_pos hname, List.append_assoc]
    · have hempty : s.content name = [] := by
        unfold content
        rw [hnone]
      rw [if_pos hbackup, hnone, if_neg (by simp), hempty, List.append_nil, List.append_nil]
  · intro hfree
    rcases hat with hname | ⟨hnone, _⟩
    · rw [content_append, if_pos hname]
    · exact absurd hnone hfree

/-! ## A rotation -/

/-- The rename went through: what was the file of the name is the backup. -/
def turned (s : LogFiles) (name : CString) (i : Nat) (now : Int) : LogFiles :=
  { s with
    names := fun n => if n = backupName name then some i else if n = name then none else s.names n
    lastRotate := now
    realRotate := now }

/-- And a new file was opened. -/
def reopened (s : LogFiles) (name : CString) (i : Nat) (now : Int) : LogFiles :=
  { s.turned name i now with
    names := fun n => if n = name then some s.next else (s.turned name i now).names n
    data := fun j => if j = s.next then [] else s.data j
    next := s.next + 1
    fd := some s.next }

/-- What `maybeRotate` does: nothing to the files, or a rename alone, or a rename and a new
file. -/
theorem maybeRotate_cases (h : s.Ready name) (now : Int) (o : LogOutcomes) :
    (¬ (s.wantsRotation k now = true ∧ o.renamed = none ∧ s.names name ≠ none) ∧
        ∃ last real, s.maybeRotate k now o =
          { s with lastRotate := last, realRotate := real }) ∨
      ∃ i, s.wantsRotation k now = true ∧ o.renamed = none ∧ s.names name = some i ∧
        s.maybeRotate k now o =
          match o.opened with
          | some _ => s.turned name i now
          | none =>
              if o.duplicated = none then s.reopened name i now
              else { s.reopened name i now with fd := s.fd } := by
  unfold maybeRotate wantsRotation
  split
  · next hnone =>
      rw [h.named] at hnone
      cases hnone
  · next name' hname' =>
      obtain rfl : name = name' := Option.some.inj (h.named.symm.trans hname')
      by_cases hlast : k.slot now = k.slot s.lastRotate
      · refine Or.inl ⟨by simp [hlast], s.lastRotate, s.realRotate, ?_⟩
        rw [if_pos hlast]
      · rw [if_neg hlast]
        dsimp only
        by_cases hreal : k.slot s.realRotate = k.slot now
        · refine Or.inl ⟨by simp [hreal], now, now, ?_⟩
          rw [if_pos hreal]
        · rw [if_neg hreal]
          have hwants : decide (k.slot now ≠ k.slot s.lastRotate ∧
              k.slot s.realRotate ≠ k.slot now) = true := decide_eq_true ⟨hlast, hreal⟩
          cases hrename : o.renamed with
          | some e =>
              refine Or.inl ⟨?_, now, now, rfl⟩
              rintro ⟨_, hnone, _⟩
              cases hnone
          | none =>
              cases hname : s.names name with
              | none =>
                  refine Or.inl ⟨fun hall => hall.2.2 rfl, now, now, ?_⟩
                  simp [rename, hname]
              | some i =>
                  refine Or.inr ⟨i, hwants, rfl, rfl, ?_⟩
                  have hgone : (s.turned name i now).names name = none := by
                    show (if name = backupName name then some i
                      else if name = name then none else s.names name) = none
                    rw [if_neg (Ne.symm h.apart), if_pos rfl]
                  have hturned : rename { s with lastRotate := now, realRotate := now } name
                      (backupName name) none = (s.turned name i now, true) := by
                    simp only [rename, hname]
                    rfl
                  rw [hturned]
                  cases hopened : o.opened with
                  | some e => rfl
                  | none =>
                      have hopen : (s.turned name i now).openAppend name none =
                          ({ s.turned name i now with
                            names := fun n => if n = name then some s.next
                              else (s.turned name i now).names n
                            data := fun j => if j = s.next then [] else s.data j
                            next := s.next + 1 }, some s.next) := by
                        simp only [openAppend, hgone]
                        rfl
                      simp only [hopen]
                      rfl

theorem Ready.fd_eq (h : s.Ready name) {i : Nat} (hname : s.names name = some i) :
    s.fd = some i := by
  obtain ⟨j, hfd, hat⟩ := h.open_
  rcases hat with hat | ⟨hnone, _⟩
  · rw [hname] at hat
    rw [hfd, Option.some.inj hat]
  · rw [hname] at hnone
    cases hnone

theorem turned_names (h : s.Ready name) {i : Nat} (now : Int) (n : CString) (j : Nat) :
    (s.turned name i now).names n = some j ↔
      n = backupName name ∧ i = j ∨ n ≠ backupName name ∧ n ≠ name ∧ s.names n = some j := by
  show (if n = backupName name then some i else if n = name then none else s.names n) = some j ↔ _
  by_cases hb : n = backupName name
  · simp [hb]
  · by_cases hn : n = name
    · simp [hn, Ne.symm h.apart]
    · simp [hb, hn]

theorem Ready.turned (h : s.Ready name) {i : Nat} (hname : s.names name = some i) (now : Int) :
    (s.turned name i now).Ready name ∧ (s.turned name i now).Stuck name ∧
      (s.turned name i now).content (backupName name) = s.content name := by
  have hbackup : (s.turned name i now).names (backupName name) = some i := if_pos rfl
  have hgone : (s.turned name i now).names name = none := by
    show (if name = backupName name then some i
      else if name = name then none else s.names name) = none
    rw [if_neg (Ne.symm h.apart), if_pos rfl]
  refine ⟨⟨h.named, h.apart, ?_, ?_, i, h.fd_eq hname, Or.inr ⟨hgone, hbackup⟩⟩, hgone, ?_⟩
  · intro n j hn
    rcases (turned_names h now n j).mp hn with ⟨_, rfl⟩ | ⟨_, _, hn⟩
    · exact h.below name i hname
    · exact h.below n j hn
  · intro n m j hn hm
    rcases (turned_names h now n j).mp hn with ⟨hnb, hij⟩ | ⟨_, hnn, hn⟩
    · rcases (turned_names h now m j).mp hm with ⟨hmb, _⟩ | ⟨_, hmn, hm⟩
      · rw [hnb, hmb]
      · exact absurd (h.single m name i (hij ▸ hm) hname) hmn
    · rcases (turned_names h now m j).mp hm with ⟨_, hij⟩ | ⟨_, _, hm⟩
      · exact absurd (h.single n name i (hij ▸ hn) hname) hnn
      · exact h.single n m j hn hm
  · unfold content
    rw [hbackup, hname]
    rfl

theorem Ready.reopened (h : s.Ready name) {i : Nat} (hname : s.names name = some i) (now : Int) :
    (s.reopened name i now).Ready name ∧ ¬ (s.reopened name i now).Stuck name ∧
      (s.reopened name i now).content (backupName name) = s.content name ∧
      (s.reopened name i now).content name = [] := by
  obtain ⟨hturned, _, hcontent⟩ := h.turned hname now
  have hnew : (s.reopened name i now).names name = some s.next := if_pos rfl
  have hold : ∀ n, n ≠ name → (s.reopened name i now).names n = (s.turned name i now).names n :=
    fun n hn => if_neg hn
  have hlt := h.below name i hname
  refine ⟨⟨h.named, h.apart, ?_, ?_, s.next, rfl, Or.inl hnew⟩, ?_, ?_, ?_⟩
  · intro n j hn
    show j < s.next + 1
    by_cases hnn : n = name
    · rw [hnn, hnew] at hn
      have heq := Option.some.inj hn
      omega
    · rw [hold n hnn] at hn
      exact Nat.lt_succ_of_lt (hturned.below n j hn)
  · intro n m j hn hm
    by_cases hnn : n = name
    · by_cases hmn : m = name
      · rw [hnn, hmn]
      · rw [hold m hmn] at hm
        rw [hnn, hnew] at hn
        have hbelow : j < s.next := hturned.below m j hm
        have heq := Option.some.inj hn
        omega
    · by_cases hmn : m = name
      · rw [hold n hnn] at hn
        rw [hmn, hnew] at hm
        have hbelow : j < s.next := hturned.below n j hn
        have heq := Option.some.inj hm
        omega
      · rw [hold n hnn] at hn
        rw [hold m hmn] at hm
        exact hturned.single n m j hn hm
  · intro hstuck
    have hnone : (s.reopened name i now).names name = none := hstuck
    rw [hnew] at hnone
    cases hnone
  · rw [← hcontent]
    have hbackup : (s.turned name i now).names (backupName name) = some i := if_pos rfl
    unfold content
    rw [hold _ h.apart, hbackup]
    show (if i = s.next then [] else s.data i) = s.data i
    rw [if_neg (Nat.ne_of_lt hlt)]
  · unfold content
    rw [hnew]
    exact if_pos rfl

/-! ## A call -/

theorem Stuck.content (h : s.Stuck name) : s.content name = [] := by
  unfold LogFiles.content
  have hnone : s.names name = none := h
  rw [hnone]

theorem Stuck.renames (h : s.Stuck name) (hready : s.Ready name) (c : LogCall) :
    s.renames k c = [] := by
  unfold LogFiles.renames
  rw [hready.named]
  dsimp only
  rw [if_neg]
  rintro ⟨_, _, _, hname⟩
  exact hname h

theorem logv_eq {c : LogCall} (hlevel : ¬ s.level < c.level) {t : LogFiles} {i : Nat}
    (hrotate : s.maybeRotate k c.now c.outcomes = t) (hfd : t.fd = some i) :
    s.logv k c = t.append i c.text c.outcomes.written := by
  unfold logv
  rw [if_neg hlevel, hrotate]
  dsimp only
  split
  · next hnone =>
      rw [hfd] at hnone
      cases hnone
  · next j hj =>
      rw [hfd] at hj
      rw [Option.some.inj hj]

/-- A call that renames nothing adds what it stores. -/
theorem logv_same (h : s.Ready name) {c : LogCall} (hsame : s.renames k c = []) :
    (s.logv k c).Ready name ∧ ((s.logv k c).Stuck name ↔ s.Stuck name) ∧
      (s.logv k c).kept name = s.kept name ++ s.stores c ∧
      (¬ s.Stuck name → (s.logv k c).content name = s.content name ++ s.stores c) := by
  by_cases hlevel : s.level < c.level
  · have hsilent : s.logv k c = s := if_pos hlevel
    have hnothing : s.stores c = [] := if_pos hlevel
    rw [hsilent, hnothing, List.append_nil, List.append_nil]
    exact ⟨h, Iff.rfl, rfl, fun _ => rfl⟩
  · have hstores : s.stores c = stored c.text c.outcomes.written := if_neg hlevel
    rcases maybeRotate_cases (k := k) h c.now c.outcomes with
      ⟨_, last, real, heq⟩ | ⟨i, hwants, hrename, hname, _⟩
    · obtain ⟨i, hfd, hat⟩ := h.open_
      have hready : Ready name { s with lastRotate := last, realRotate := real } :=
        ⟨h.named, h.apart, h.below, h.single, i, hfd, hat⟩
      obtain ⟨hready', hkept, hcontent⟩ := hready.append hfd c.text c.outcomes.written
      rw [logv_eq hlevel heq hfd, hstores]
      exact ⟨hready', Iff.rfl, hkept, hcontent⟩
    · unfold renames at hsame
      rw [h.named] at hsame
      dsimp only at hsame
      rw [if_pos ⟨hlevel, hwants, hrename, by simp [hname]⟩] at hsame
      cases hsame

/-- A call that renames makes the file the backup, and stores in the new file, or in the backup
when there is no new one. -/
theorem logv_renamed (h : s.Ready name) {c : LogCall}
    (hdup : c.outcomes.opened = none → c.outcomes.duplicated = none)
    (hrenames : s.renames k c ≠ []) :
    s.renames k c = [()] ∧ ¬ s.Stuck name ∧ (s.logv k c).Ready name ∧
      ((s.logv k c).Stuck name ↔ c.outcomes.opened ≠ none) ∧
      (s.logv k c).kept name = s.content name ++ s.stores c ∧
      (¬ (s.logv k c).Stuck name → (s.logv k c).content name = s.stores c) := by
  have hcase : ¬ s.level < c.level ∧ s.wantsRotation k c.now ∧ c.outcomes.renamed = none ∧
      s.names name ≠ none := by
    by_contra hno
    apply hrenames
    unfold renames
    rw [h.named]
    exact if_neg hno
  have hone : s.renames k c = [()] := by
    unfold renames
    rw [h.named]
    exact if_pos hcase
  refine ⟨hone, hcase.2.2.2, ?_⟩
  have hstores : s.stores c = stored c.text c.outcomes.written := if_neg hcase.1
  rcases maybeRotate_cases (k := k) h c.now c.outcomes with
    ⟨hno, _⟩ | ⟨i, hwants, hrename, hname, heq⟩
  · exact absurd hcase.2 hno
  · cases hopened : c.outcomes.opened with
    | some e =>
        rw [hopened] at heq
        obtain ⟨hready, hstuck, hcontent⟩ := h.turned hname c.now
        have hfd : (s.turned name i c.now).fd = some i := h.fd_eq hname
        obtain ⟨hready', hkept, _⟩ := hready.append hfd c.text c.outcomes.written
        rw [logv_eq hcase.1 heq hfd, hstores]
        refine ⟨hready', iff_of_true hstuck (by simp), ?_, fun hfree => absurd hstuck hfree⟩
        rw [hkept, kept, hcontent, hstuck.content, List.append_nil]
    | none =>
        simp only [hopened, hdup hopened, if_true] at heq
        obtain ⟨hready, hfree, hcontent, hempty⟩ := h.reopened hname c.now
        have hfd : (s.reopened name i c.now).fd = some s.next := rfl
        obtain ⟨hready', hkept, hnew⟩ := hready.append hfd c.text c.outcomes.written
        rw [logv_eq hcase.1 heq hfd, hstores]
        refine ⟨hready', iff_of_false hfree (by simp), ?_, fun _ => ?_⟩
        · rw [hkept, kept, hcontent, hempty, List.append_nil]
        · rw [hnew hfree, hempty, List.nil_append]

/-! ## Runs -/

theorem Ready.logv (h : s.Ready name) {c : LogCall} (hdup : c.outcomes.duplicated = none) :
    (s.logv k c).Ready name := by
  by_cases hsame : s.renames k c = []
  · exact (logv_same h hsame).1
  · exact (logv_renamed h (fun _ => hdup) hsame).2.2.1

theorem Ready.run (h : s.Ready name) {cs : List LogCall}
    (hdup : ∀ c ∈ cs, c.outcomes.duplicated = none) :
    (Driven.run (LogFiles.logv k) s cs).Ready name := by
  induction cs generalizing s with
  | nil => exact h
  | cons c cs ih =>
      exact ih (h.logv (hdup c List.mem_cons_self)) fun c' hc' => hdup c' (List.mem_cons_of_mem c hc')

/-- A log that is stuck stays so, and everything goes to its backup. -/
theorem Stuck.run (hstuck : s.Stuck name) (h : s.Ready name) (cs : List LogCall) :
    (Driven.run (logv k) s cs).Stuck name ∧
      Driven.collect (logv k) (LogFiles.renames k) s cs = [] ∧
      (Driven.run (logv k) s cs).kept name =
        s.kept name ++ Driven.collect (logv k) stores s cs := by
  induction cs generalizing s with
  | nil => exact ⟨hstuck, rfl, (List.append_nil _).symm⟩
  | cons c cs ih =>
      have hsame : s.renames k c = [] := hstuck.renames h c
      obtain ⟨hready, hstill, hkept, _⟩ := logv_same h hsame
      obtain ⟨hend, hnone, hrest⟩ := ih (hstill.mpr hstuck) hready
      refine ⟨hend, ?_, ?_⟩
      · rw [Driven.collect, hsame, hnone]
        rfl
      · rw [Driven.run_cons, Driven.collect, hrest, hkept, List.append_assoc]

/-- What a run leaves, by the number of its renames. -/
theorem run_kept (h : s.Ready name) {cs : List LogCall}
    (hdup : ∀ c ∈ cs, c.outcomes.duplicated = none) :
    let n := (Driven.collect (logv k) (renames k) s cs).length
    let new := Driven.collect (logv k) stores s cs
    (n = 0 → (Driven.run (logv k) s cs).kept name = s.kept name ++ new) ∧
      (n = 1 → (Driven.run (logv k) s cs).kept name = s.content name ++ new) ∧
      (2 ≤ n → (Driven.run (logv k) s cs).kept name <:+ new) := by
  induction cs generalizing s with
  | nil =>
      refine ⟨fun _ => (List.append_nil _).symm, fun hn => ?_, fun hn => ?_⟩
      · cases hn
      · exact absurd hn (Nat.not_succ_le_zero 1)
  | cons c cs ih =>
      have hdup' : ∀ c' ∈ cs, c'.outcomes.duplicated = none :=
        fun c' hc' => hdup c' (List.mem_cons_of_mem c hc')
      have hlen : (Driven.collect (logv k) (renames k) s (c :: cs)).length =
          (s.renames k c).length +
            (Driven.collect (logv k) (renames k) (s.logv k c) cs).length := by
        rw [Driven.collect, List.length_append]
      have hnew : Driven.collect (logv k) stores s (c :: cs) =
          s.stores c ++ Driven.collect (logv k) stores (s.logv k c) cs := rfl
      dsimp only
      rw [hlen, hnew, Driven.run_cons]
      by_cases hsame : s.renames k c = []
      · obtain ⟨hready, hstill, hkept, hcontent⟩ := logv_same h hsame
        obtain ⟨hzero, hone, htwo⟩ := ih hready hdup'
        rw [hsame, List.length_nil, Nat.zero_add]
        refine ⟨fun hn => ?_, fun hn => ?_, fun hn => ?_⟩
        · rw [hzero hn, hkept, List.append_assoc]
        · have hfree : ¬ s.Stuck name := by
            intro hstuck
            have hnone := (Stuck.run (k := k) (hstill.mpr hstuck) hready cs).2.1
            rw [hnone] at hn
            cases hn
          rw [hone hn, hcontent hfree, List.append_assoc]
        · exact (htwo hn).trans (List.suffix_append _ _)
      · obtain ⟨hlist, _, hready, _, hkept, hcontent⟩ :=
          logv_renamed h (fun _ => hdup c List.mem_cons_self) hsame
        obtain ⟨hzero, hone, htwo⟩ := ih hready hdup'
        rw [hlist, List.length_singleton]
        refine ⟨fun hn => by omega, fun hn => ?_, fun hn => ?_⟩
        · have hnone : (Driven.collect (logv k) (renames k) (s.logv k c) cs).length = 0 := by omega
          rw [hzero hnone, hkept, List.append_assoc]
        · by_cases hlast : (Driven.collect (logv k) (renames k) (s.logv k c) cs).length = 1
          · have hfree : ¬ (s.logv k c).Stuck name := by
              intro hstuck
              have hnone := (Stuck.run (k := k) hstuck hready cs).2.1
              rw [hnone] at hlast
              cases hlast
            rw [hone hlast, hcontent hfree]
          · exact (htwo (by omega)).trans (List.suffix_append _ _)

/-- `Logger::Logger` at the time `t0`, and no files. -/
def start (level : Nat) (t0 : Int) : LogFiles :=
  ⟨fun _ => none, fun _ => [], 0, none, none, level, t0, t0⟩

/-- A logger behind its first `setFileName`. -/
def opened (name : CString) (level : Nat) (t0 : Int) : LogFiles :=
  ((start level t0).setFileName name none none).getD (start level t0)

theorem Ready.opened {name : CString} (happart : backupName name ≠ name) (level : Nat) (t0 : Int) :
    (opened name level t0).Ready name := by
  have hnames : ∀ n i, (LogFiles.opened name level t0).names n = some i ↔ n = name ∧ 0 = i := by
    intro n i
    show (if n = name then some 0 else none) = some i ↔ _
    by_cases hn : n = name
    · simp [hn]
    · simp [hn]
  refine ⟨rfl, happart, ?_, ?_, 0, rfl, Or.inl ((hnames name 0).mpr ⟨rfl, rfl⟩)⟩
  · intro n i hn
    obtain ⟨_, rfl⟩ := (hnames n i).mp hn
    exact Nat.lt_succ_self 0
  · intro n m i hn hm
    rw [((hnames n i).mp hn).1, ((hnames m i).mp hm).1]

end LogFiles

open LogFiles in
/-- What was stored is in the two files of the log, in order, as long as one rename at most has
succeeded since, and in neither of them behind the second, however the calls go. -/
theorem log_kept (k : LogClock) {name : CString} {s : LogFiles} (h : s.Ready name)
    (before after : List LogCall)
    (hdup : ∀ c ∈ before ++ after, c.outcomes.duplicated = none) :
    let mid := Driven.run (logv k) s before
    let new := Driven.collect (logv k) stores mid after
    let n := (Driven.collect (logv k) (renames k) mid after).length
    let t := Driven.run (logv k) s (before ++ after)
    (n = 0 → t.kept name = mid.kept name ++ new) ∧
      (n = 1 → t.kept name = mid.content name ++ new) ∧ (2 ≤ n → t.kept name <:+ new) := by
  have hbefore : ∀ c ∈ before, c.outcomes.duplicated = none :=
    fun c hc => hdup c (List.mem_append_left after hc)
  have hafter : ∀ c ∈ after, c.outcomes.duplicated = none :=
    fun c hc => hdup c (List.mem_append_right before hc)
  dsimp only
  rw [Driven.run_append]
  exact run_kept (h.run hbefore) hafter

namespace LogFiles

/-- `"l"`. -/
def logName : CString := ⟨[0x6c], by decide⟩

def fine (now : Int) (text : Bytes) : LogCall := ⟨now, 0, text, ⟨none, none, none, .stored 4096⟩⟩

theorem apart_logName : backupName logName ≠ logName := by decide

end LogFiles

open LogFiles in
/-- Two intervals end: the first line is gone, the second is in the backup. -/
theorem log_kept_lines :
    let cs := [fine 6 [0x61], fine 16 [0x62], fine 26 [0x63]]
    let s := Driven.run (logv Rotating.ten) (opened logName 5 5) cs
    s.kept logName = [0x62, 0x63] ∧ s.kept logName <:+ [0x62, 0x63] := by
  intro cs s
  have hkept : s.kept logName = [0x62, 0x63] := by decide
  have hready : (opened logName 5 5).Ready logName := Ready.opened apart_logName 5 5
  have hthree := log_kept Rotating.ten hready [fine 6 [0x61]] [fine 16 [0x62], fine 26 [0x63]]
    (by decide)
  exact ⟨hkept, hthree.2.2 (by decide)⟩

open LogFiles in
/-- When the file was renamed and a new one cannot be opened, the log is never rotated again:
everything later goes to the backup, and no file has the name of the log. -/
theorem log_stuck (k : LogClock) {name : CString} {s : LogFiles} (h : s.Ready name)
    {c : LogCall} (hrenames : s.renames k c ≠ []) (hopened : c.outcomes.opened ≠ none)
    (after : List LogCall) :
    let t := Driven.run (logv k) s (c :: after)
    t.names name = none ∧ Driven.collect (logv k) (renames k) (s.logv k c) after = [] ∧
      t.content (backupName name) =
        s.content name ++ Driven.collect (logv k) stores s (c :: after) := by
  obtain ⟨_, _, hready, hstuck, hkept, _⟩ :=
    logv_renamed h (fun hnone => absurd hnone hopened) hrenames
  obtain ⟨hend, hnone, hrest⟩ := Stuck.run (k := k) (hstuck.mpr hopened) hready after
  refine ⟨hend, hnone, ?_⟩
  have hempty : (Driven.run (logv k) (s.logv k c) after).content name = [] := hend.content
  rw [hkept, kept, hempty, List.append_nil] at hrest
  rw [Driven.run_cons, hrest, List.append_assoc]
  rfl

namespace LogFiles

/-- A call that renames, and opens nothing for want of descriptors. -/
def noFile (now : Int) (text : Bytes) : LogCall :=
  ⟨now, 0, text, ⟨none, some ⟨24, by decide⟩, none, .stored 4096⟩⟩

end LogFiles

open LogFiles in
theorem log_stuck_lines :
    let s := Driven.run (logv Rotating.ten) (opened logName 5 5)
      [fine 6 [0x61], noFile 16 [0x62], fine 26 [0x63]]
    s.names logName = none ∧ s.content (backupName logName) = [0x61, 0x62, 0x63] := by
  intro s
  have hready : (opened logName 5 5).Ready logName := Ready.opened apart_logName 5 5
  have hready' := hready.logv (k := Rotating.ten) (c := fine 6 [0x61]) rfl
  obtain ⟨hnone, _, hcontent⟩ := log_stuck Rotating.ten hready' (c := noFile 16 [0x62])
    (by decide) (by decide) [fine 26 [0x63]]
  exact ⟨hnone, hcontent.trans (by decide)⟩

end Handy
