import Handy.Codec.Model
import Handy.Lib.Owned

/-! # Status objects and their arrays

A `Status` holds a pointer to an array with the array's length, the code and the message.
The two functions that make one compute that length differently: `fromFormat` counts the
zero behind the message and has `vsnprintf` write it, the constructor does neither. Copies
take the length from the array. A byte of an array is unknown until it is written, and a
read or a write outside an array is an error, as is one of an unknown byte.
-/

namespace Handy

/-- A `const char *` to a string: the bytes in front of its zero. -/
structure CString where
  bytes : Bytes
  noNul : 0 ∉ bytes
deriving DecidableEq

namespace Status

/-! ## Arrays -/

/-- `new char[n]`; a byte is `none` until it is written. -/
abbrev Block := List (Option UInt8)

def Block.new (n : Nat) : Block := List.replicate n none

def Block.store (b : Block) (offset : Nat) (p : Bytes) : Option Block :=
  if offset + p.length ≤ b.length then
    some (b.take offset ++ p.map some ++ b.drop (offset + p.length))
  else none

def Block.load (b : Block) (offset n : Nat) : Option Bytes :=
  if offset + n ≤ b.length then ((b.drop offset).take n).mapM id else none

/-- A C string is read up to its zero. -/
def Block.cString : Block → Option Bytes
  | [] => none
  | none :: _ => none
  | some c :: rest => if c = 0 then some [] else (Block.cString rest).map (c :: ·)

/-- `*(uint32_t *)` at the offset. -/
def Block.word (b : Block) (offset : Nat) : Option Nat := (b.load offset 4).map loadWord

/-! ## The functions of the class -/

/-- `Status(int code, const char *msg)`. -/
def construct (code : Int32) (msg : CString) : Option Block := do
  let sz := (msg.bytes.length + 8) % 2 ^ 32
  let p := Block.new sz
  let p ← p.store 0 (wordBytes sz)
  let p ← p.store 4 (wordBytes code.toUInt32.toNat)
  -- `memcpy(p + 8, msg, sz - 8)`; the difference is an `uint32_t`
  let n := (2 ^ 32 + sz - 8) % 2 ^ 32
  if n ≤ msg.bytes.length + 1 then p.store 8 ((msg.bytes ++ [0]).take n) else none

/-- `vsnprintf(NULL, 0, fmt, ap)`, when `text` is what `fmt` and `ap` format to. -/
def formattedLength (text : CString) : Int :=
  if text.bytes.length < 2 ^ 31 then text.bytes.length else -1

/-- `fromFormat`. The sum is an `int`, which must not overflow. -/
def fromFormat (code : Int32) (text : CString) : Option Block := do
  let sum := 8 + formattedLength text + 1
  if 2 ^ 31 ≤ sum then none
  else
    let size := sum.toNat
    let p := Block.new size
    let p ← p.store 0 (wordBytes size)
    let p ← p.store 4 (wordBytes code.toUInt32.toNat)
    -- `vsnprintf(state_ + 8, size - 8, fmt, ap)` writes nothing into no room
    if size - 8 = 0 then some p else p.store 8 (text.bytes.take (size - 8 - 1) ++ [0])

/-- `copyState`, for a pointer that is not `NULL`. -/
def copyState (state : Block) : Option Block := do
  let size ← state.word 0
  if size ≤ state.length then some (state.take size) else none

abbrev Heap := Owned.Heap Block

/-- `code()`. -/
def code (h : Heap) (i : Nat) : Option Int32 := do
  match ← h.pointer i with
  | none => some 0
  | some a => (← h.block a).word 4 |>.map fun v => (UInt32.ofNat v).toInt32

/-- `msg()`, read up to its zero. -/
def msg (h : Heap) (i : Nat) : Option Bytes := do
  match ← h.pointer i with
  | none => some []
  | some a => Block.cString ((← h.block a).drop 8)

/-- The constructors `Status()`, `Status(const Status &)` and `Status(Status &&)`, the two
assignments and the destructor, in turn. -/
def run (h : Heap) (calls : List Owned.Call) : Option Heap := h.run copyState calls

/-- The two ways a status with a message is made. -/
inductive Origin where
  | constructor
  | format
deriving DecidableEq, Repr

def Origin.make : Origin → Int32 → CString → Option Block
  | constructor => construct
  | format => fromFormat

/-- The first object is made, and the calls follow. -/
def life (origin : Origin) (code : Int32) (m : CString) (calls : List Owned.Call) : Option Heap := do
  run (Owned.Heap.start (← origin.make code m)) calls

/-- The array has its own length in front, and the code and the message are what they
should be. -/
structure Intact (h : Heap) (i : Nat) (c : Int32) (m : CString) : Prop where
  sized : ∃ a b, h.pointer i = some (some a) ∧ h.block a = some b ∧ b.word 0 = some b.length
  code : code h i = some c
  msg : msg h i = some m.bytes

/-! ## What the arrays hold -/

theorem length_newBlock (n : Nat) : (Block.new n).length = n := List.length_replicate

theorem store_next {p q : Bytes} {k : Nat} (h : q.length ≤ k) :
    Block.store (p.map some ++ Block.new k) p.length q =
      some ((p ++ q).map some ++ Block.new (k - q.length)) := by
  have hlen : (p.map some : Block).length = p.length := List.length_map _
  unfold Block.store
  rw [if_pos (by rw [List.length_append, hlen, length_newBlock]; omega), ← hlen, List.take_left,
    ← List.drop_drop, List.drop_left, Block.new, List.drop_replicate, List.map_append]
  rfl

theorem store_none {b : Block} {offset : Nat} {p : Bytes} (h : b.length < offset + p.length) :
    b.store offset p = none := if_neg (Nat.not_le_of_lt h)

theorem mapM_some (p : Bytes) : (p.map some).mapM id = some p := by
  induction p with
  | nil => rfl
  | cons c p ih =>
      rw [List.map_cons, List.mapM_cons, ih]
      rfl

theorem load_written (p q : Bytes) (rest : Block) :
    Block.load (p.map some ++ (q.map some ++ rest)) p.length q.length = some q := by
  have hp : (p.map some : Block).length = p.length := List.length_map _
  have hq : (q.map some : Block).length = q.length := List.length_map _
  unfold Block.load
  rw [if_pos (by rw [List.length_append, List.length_append, hp, hq]; omega), ← hp, List.drop_left,
    ← hq, List.take_left]
  exact mapM_some q

theorem cString_open {p : Bytes} (h : 0 ∉ p) : Block.cString (p.map some) = none := by
  induction p with
  | nil => rfl
  | cons c p ih =>
      obtain ⟨hc, hp⟩ := List.ne_and_not_mem_of_not_mem_cons h
      rw [List.map_cons, Block.cString, if_neg (Ne.symm hc), ih hp]
      rfl

theorem cString_closed {p : Bytes} (h : 0 ∉ p) :
    Block.cString ((p ++ [0]).map some) = some p := by
  induction p with
  | nil => rfl
  | cons c p ih =>
      obtain ⟨hc, hp⟩ := List.ne_and_not_mem_of_not_mem_cons h
      rw [List.cons_append, List.map_cons, Block.cString, if_neg (Ne.symm hc), ih hp]
      rfl

/-- An array that is as long as it says, with a code and what is behind it. -/
def layout (code : Int32) (body : Bytes) : Block :=
  (wordBytes (8 + body.length)).map some ++
    ((wordBytes code.toUInt32.toNat).map some ++ body.map some)

theorem length_layout (code : Int32) (body : Bytes) : (layout code body).length = 8 + body.length := by
  simp only [layout, List.length_append, List.length_map, wordBytes, List.length_cons,
    List.length_nil]
  omega

theorem drop_layout (code : Int32) (body : Bytes) : (layout code body).drop 8 = body.map some := rfl

theorem size_layout {code : Int32} {body : Bytes} (h : 8 + body.length < 2 ^ 32) :
    (layout code body).word 0 = some (layout code body).length := by
  have hload : (layout code body).load 0 4 = some (wordBytes (8 + body.length)) :=
    load_written [] (wordBytes (8 + body.length)) _
  have hword := loadWord_wordBytes_append (8 + body.length) h []
  rw [List.append_nil] at hword
  rw [Block.word, hload, Option.map_some, hword, length_layout]

theorem code_layout (code : Int32) (body : Bytes) :
    (layout code body).word 4 = some code.toUInt32.toNat := by
  have hload : (layout code body).load 4 4 = some (wordBytes code.toUInt32.toNat) :=
    load_written (wordBytes (8 + body.length)) (wordBytes code.toUInt32.toNat) _
  have hword := loadWord_wordBytes_append code.toUInt32.toNat code.toUInt32.toNat_lt []
  rw [List.append_nil] at hword
  rw [Block.word, hload, Option.map_some, hword]

theorem copyState_layout {code : Int32} {body : Bytes} (h : 8 + body.length < 2 ^ 32) :
    copyState (layout code body) = some (layout code body) := by
  rw [copyState, size_layout h]
  simp only [Option.bind_eq_bind, Option.bind_some, Nat.le_refl, if_true, List.take_length]

theorem store_words (size k : Nat) (code : Int32) (hsize : size = 8 + k) :
    ((Block.new size).store 0 (wordBytes size)).bind
        (fun p => p.store 4 (wordBytes code.toUInt32.toNat)) =
      some ((wordBytes size ++ wordBytes code.toUInt32.toNat).map some ++ Block.new k) := by
  have hwords : (wordBytes size).length = 4 ∧ (wordBytes code.toUInt32.toNat).length = 4 := ⟨rfl, rfl⟩
  have hfirst := store_next (p := []) (q := wordBytes size) (k := size) (by omega)
  have hsecond := store_next (p := wordBytes size) (q := wordBytes code.toUInt32.toNat)
    (k := size - 4) (by omega)
  rw [List.map_nil, List.nil_append, List.nil_append] at hfirst
  have hk : size - 4 - 4 = k := by omega
  rw [show (Block.new size).store 0 (wordBytes size) = _ from hfirst, Option.bind_some]
  exact hsecond.trans (by rw [hwords.2, hk])

theorem store_body (code : Int32) (body : Bytes) :
    Block.store ((wordBytes (8 + body.length) ++ wordBytes code.toUInt32.toNat).map some ++
      Block.new body.length) 8 body = some (layout code body) := by
  have h := store_next (p := wordBytes (8 + body.length) ++ wordBytes code.toUInt32.toNat)
    (q := body) (Nat.le_refl _)
  have hfull : Block.new 0 = [] := rfl
  rw [Nat.sub_self, hfull, List.append_nil] at h
  refine Eq.trans h ?_
  rw [layout, List.map_append, List.map_append, List.append_assoc]

theorem store_words_none {size : Nat} (h : size < 8) (v : Nat) :
    ((Block.new size).store 0 (wordBytes size)).bind (fun p => p.store 4 (wordBytes v)) = none := by
  have hwords : (wordBytes size).length = 4 ∧ (wordBytes v).length = 4 := ⟨rfl, rfl⟩
  by_cases hfour : 4 ≤ size
  · have hfirst := store_next (p := []) (q := wordBytes size) (k := size) (by omega)
    rw [List.map_nil, List.nil_append, List.nil_append] at hfirst
    rw [show (Block.new size).store 0 (wordBytes size) = _ from hfirst, Option.bind_some]
    apply store_none
    rw [List.length_append, List.length_map, length_newBlock]
    omega
  · rw [store_none (by rw [length_newBlock]; omega), Option.bind_none]

/-! ## What the two functions make -/

/-- The constructor leaves no zero behind the message, whatever the lengths. -/
theorem construct_spec {code : Int32} {msg : CString} {b : Block} (h : construct code msg = some b) :
    ∃ body, b = layout code body ∧ 8 + body.length < 2 ^ 32 ∧ 0 ∉ body := by
  unfold construct at h
  simp only [Option.bind_eq_bind] at h
  generalize hsz : (msg.bytes.length + 8) % 2 ^ 32 = sz at h
  rw [← Option.bind_assoc] at h
  by_cases hroom : 8 ≤ sz
  · obtain ⟨k, rfl⟩ := Nat.exists_eq_add_of_le hroom
    have hn : (2 ^ 32 + (8 + k) - 8) % 2 ^ 32 = k := by omega
    have hk : k ≤ msg.bytes.length := by omega
    have hbody : (msg.bytes ++ [0]).take k = msg.bytes.take k := List.take_append_of_le_length hk
    have hlen : (msg.bytes.take k).length = k := by
      rw [List.length_take, Nat.min_eq_left hk]
    rw [store_words (8 + k) k code rfl, Option.bind_some, hn, if_pos (by omega), hbody] at h
    refine ⟨msg.bytes.take k, ?_, by omega, fun hmem => msg.noNul (List.mem_of_mem_take hmem)⟩
    have hstore := store_body code (msg.bytes.take k)
    rw [hlen] at hstore
    exact Option.some.inj (h.symm.trans hstore)
  · rw [store_words_none (by omega), Option.bind_none] at h
    cases h

/-- `fromFormat` puts the zero there, while the sum of the lengths is an `int`. -/
theorem fromFormat_fits {code : Int32} {text : CString} (h : text.bytes.length + 9 < 2 ^ 31) :
    fromFormat code text = some (layout code (text.bytes ++ [0])) := by
  have hlen : formattedLength text = text.bytes.length := if_pos (by omega)
  have hsize : (8 + (text.bytes.length : Int) + 1).toNat = 8 + (text.bytes ++ [0]).length := by
    rw [List.length_append, List.length_singleton]
    omega
  unfold fromFormat
  simp only [hlen, Option.bind_eq_bind]
  rw [if_neg (by omega), hsize, ← Option.bind_assoc, store_words _ _ code rfl, Option.bind_some]
  have hroom : 8 + (text.bytes ++ [0]).length - 8 = text.bytes.length + 1 := by
    rw [List.length_append, List.length_singleton]
    omega
  rw [hroom, if_neg (by omega), Nat.add_sub_cancel, List.take_length]
  exact store_body code (text.bytes ++ [0])

/-- Beyond that it makes nothing, or an array without a message. -/
theorem fromFormat_long {code : Int32} {text : CString} (h : 2 ^ 31 ≤ text.bytes.length + 9)
    {b : Block} (hb : fromFormat code text = some b) : b = layout code [] := by
  unfold fromFormat at hb
  unfold formattedLength at hb
  by_cases hint : text.bytes.length < 2 ^ 31
  · simp only [if_pos hint] at hb
    rw [if_pos (by omega)] at hb
    cases hb
  · simp only [if_neg hint, Option.bind_eq_bind] at hb
    rw [if_neg (by decide), ← Option.bind_assoc] at hb
    have hsize : (8 + (-1 : Int) + 1).toNat = 8 := rfl
    rw [hsize, store_words 8 0 code rfl, Option.bind_some, if_pos rfl] at hb
    exact (Option.some.inj hb).symm

theorem make_spec {origin : Origin} {code : Int32} {m : CString} {b : Block}
    (h : origin.make code m = some b) :
    ∃ body, b = layout code body ∧ 8 + body.length < 2 ^ 32 ∧
      (Block.cString (body.map some) = some m.bytes ↔
        origin = .format ∧ m.bytes.length + 9 < 2 ^ 31) := by
  cases origin with
  | constructor =>
      obtain ⟨body, hb, hlen, hopen⟩ := construct_spec h
      refine ⟨body, hb, hlen, ?_⟩
      rw [cString_open hopen]
      exact iff_of_false (fun h => nomatch h) fun h => nomatch h.1
  | format =>
      by_cases hfits : m.bytes.length + 9 < 2 ^ 31
      · have hb := (fromFormat_fits hfits).symm.trans h
        refine ⟨m.bytes ++ [0], (Option.some.inj hb).symm, ?_, ?_⟩
        · rw [List.length_append, List.length_singleton]
          omega
        · exact iff_of_true (cString_closed m.noNul) ⟨rfl, hfits⟩
      · refine ⟨[], fromFormat_long (by omega) h, by decide, ?_⟩
        exact iff_of_false (fun h => nomatch h) fun h => hfits h.2

/-! ## Every chain -/

/-- The status as a value, in the first object. -/
def first (code : Int32) (m : CString) : List (Owned.Slot (Int32 × CString)) := [.held (code, m)]

/-- Whatever copies, moves and assignments follow, an object that holds the status has the
array that was made. -/
theorem life_block {origin : Origin} {code : Int32} {m : CString} {calls : List Owned.Call}
    (hvalid : Driven.Along Owned.step Owned.Valid (first code m) calls) {b : Block}
    (hmake : origin.make code m = some b) (hcopy : copyState b = some b) {i : Nat}
    (hheld : (Driven.run Owned.step (first code m) calls)[i]? = some (.held (code, m))) :
    ∃ h a, life origin code m calls = some h ∧ h.pointer i = some (some a) ∧ h.block a = some b := by
  obtain ⟨hvalid', hvalues⟩ := Owned.run_map (fun _ => b) hvalid
  have hcopies : Owned.Heap.Copies copyState (Owned.Heap.start b).view := by
    intro b' hb'
    cases List.mem_singleton.mp hb'
    exact hcopy
  obtain ⟨h, hrun, -, hview⟩ := Owned.Heap.run_spec (Owned.Heap.start_inv b) hcopies hvalid'
  have hi : h.view[i]? = some (.held b) := by
    rw [hview]
    refine (congrArg (fun l => l[i]?) hvalues).trans ?_
    rw [List.getElem?_map, hheld]
    rfl
  obtain ⟨a, hpointer, hblock⟩ := Owned.Heap.block_of_view hi
  refine ⟨h, a, ?_, hpointer, hblock⟩
  rw [life, hmake]
  exact hrun

theorem intact_layout {h : Heap} {i a : Nat} {c : Int32} {m : CString} {body : Bytes}
    (hpointer : h.pointer i = some (some a)) (hblock : h.block a = some (layout c body))
    (hlen : 8 + body.length < 2 ^ 32) :
    Intact h i c m ↔ Block.cString (body.map some) = some m.bytes := by
  have hmsg : msg h i = Block.cString (body.map some) := by
    rw [msg, hpointer]
    simp only [Option.bind_eq_bind, Option.bind_some, hblock, drop_layout]
  constructor
  · intro hintact
    rw [← hmsg]
    exact hintact.msg
  · intro hbody
    refine ⟨⟨a, _, hpointer, hblock, size_layout hlen⟩, ?_, hmsg.trans hbody⟩
    rw [code, hpointer]
    simp only [Option.bind_eq_bind, Option.bind_some, hblock, code_layout, Option.map_some,
      UInt32.ofNat_toNat]
    rfl

/-- After any chain of calls on objects that are there, an assignment on two different
ones, an object that holds the status holds it intact exactly when the status was made by
`fromFormat` and the length of its message and nine fit in an `int`. -/
theorem status_intact_iff (origin : Origin) (code : Int32) (m : CString) (calls : List Owned.Call)
    (hvalid : Driven.Along Owned.step Owned.Valid (first code m) calls) (i : Nat)
    (hheld : (Driven.run Owned.step (first code m) calls)[i]? = some (.held (code, m))) :
    (∃ h, life origin code m calls = some h ∧ Intact h i code m) ↔
      origin = .format ∧ m.bytes.length + 9 < 2 ^ 31 := by
  cases hmake : origin.make code m with
  | none =>
      refine iff_of_false ?_ ?_
      · rintro ⟨h, hlife, -⟩
        rw [life, hmake] at hlife
        cases hlife
      · rintro ⟨rfl, hfits⟩
        exact nomatch (fromFormat_fits hfits).symm.trans hmake
  | some b =>
      obtain ⟨body, rfl, hlen, hbody⟩ := make_spec hmake
      obtain ⟨h, a, hlife, hpointer, hblock⟩ :=
        life_block hvalid hmake (copyState_layout hlen) hheld
      have hintact := intact_layout (m := m) hpointer hblock hlen
      rw [← hbody, ← hintact]
      constructor
      · rintro ⟨h', hlife', hintact'⟩
        rw [hlife] at hlife'
        cases hlife'
        exact hintact'
      · exact fun hintact' => ⟨h, hlife, hintact'⟩

def no : CString := ⟨[0x6e, 0x6f], by decide⟩

/-- The status is copied, moved and assigned, and its first copy destroyed. -/
theorem status_intact_iff_moved :
    ∃ h, life .format 5 no [.copy 0, .move 0, .empty, .assign 0 1, .moveAssign 3 2, .destroy 1] =
      some h ∧ Intact h 3 5 no :=
  (status_intact_iff .format 5 no _ (by decide +kernel) 3 (by decide +kernel)).mpr
    ⟨rfl, by decide⟩

/-- The array of the constructor ends where the message does. -/
theorem constructed_message_open :
    ∃ h, life .constructor 2 no [] = some h ∧ code h 0 = some 2 ∧ msg h 0 = none ∧
      ¬ Intact h 0 2 no := by
  refine ⟨_, rfl, by decide +kernel, by decide +kernel, fun h => ?_⟩
  exact nomatch h.msg.symm.trans (by decide +kernel : msg _ 0 = none)

end Status

end Handy
