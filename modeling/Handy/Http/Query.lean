import Handy.Http.Message
import Handy.Lib.Cut

/-! # The query string, character by character

The part of `HttpRequest::tryDecode` that looks for the `?` and cuts the query
string into arguments, with the positions the source keeps. Every character is
read through a check, and a read or a substring beyond the string gives `none`.
What the loops leave is what the split of the query string at `&` and of its
segments at `=` says.
-/

namespace Handy

/-! ## Scans -/

/-- `while (c < s.size() && p(s[c])) c++;` -/
def scanFrom (p : UInt8 → Bool) (s : Bytes) (c : Nat) : Option Nat :=
  if c < s.length then
    match s[c]? with
    | none => none
    | some b => if p b then scanFrom p s (c + 1) else some c
  else some c
termination_by s.length - c

/-- `if (c < s.size() && s[c] == b) c++;` -/
def skip (b : UInt8) (s : Bytes) (c : Nat) : Option Nat :=
  if c < s.length then
    match s[c]? with
    | none => none
    | some a => some (if a = b then c + 1 else c)
  else some c

/-- `string(s.data() + b, s.data() + e)`. -/
def substr (s : Bytes) (b e : Nat) : Option Bytes :=
  if b ≤ e ∧ e ≤ s.length then some ((s.drop b).take (e - b)) else none

/-- `operator[]` of a `std::string`, which has a zero behind its last character. -/
def charAt (s : Bytes) (i : Nat) : Option UInt8 := if i = s.length then some 0 else s[i]?

theorem scanFrom_eq (p : UInt8 → Bool) (s : Bytes) (c : Nat) :
    scanFrom p s c = some (c + ((s.drop c).takeWhile p).length) := by
  fun_induction scanFrom p s c with
  | case1 c hc hnone =>
      rw [List.getElem?_eq_getElem hc] at hnone
      cases hnone
  | case2 c hc b hb hp ih =>
      rw [ih, List.drop_eq_getElem_cons hc]
      rw [List.getElem?_eq_getElem hc] at hb
      cases hb
      rw [List.takeWhile_cons_of_pos hp, List.length_cons]
      congr 1
      omega
  | case3 c hc b hb hp =>
      rw [List.drop_eq_getElem_cons hc]
      rw [List.getElem?_eq_getElem hc] at hb
      cases hb
      rw [List.takeWhile_cons_of_neg hp, List.length_nil, Nat.add_zero]
  | case4 c hc =>
      rw [List.drop_eq_nil_of_le (Nat.le_of_not_lt hc), List.takeWhile_nil, List.length_nil,
        Nat.add_zero]

theorem skip_eq (b : UInt8) (s : Bytes) (c : Nat) :
    skip b s c = some (if (s.drop c).head? = some b then c + 1 else c) := by
  unfold skip
  split
  · next hc =>
      rw [List.getElem?_eq_getElem hc, List.drop_eq_getElem_cons hc, List.head?_cons]
      simp only [Option.some.injEq]
  · next hc =>
      rw [List.drop_eq_nil_of_le (Nat.le_of_not_lt hc), List.head?_nil]
      rfl

theorem drop_skip (b : UInt8) (s : Bytes) (c : Nat) :
    s.drop (if (s.drop c).head? = some b then c + 1 else c) =
      if (s.drop c).head? = some b then (s.drop c).tail else s.drop c := by
  split
  · rw [List.tail_drop]
  · rfl

theorem skip_le {b : UInt8} {s : Bytes} {c : Nat} (hc : c ≤ s.length) :
    (if (s.drop c).head? = some b then c + 1 else c) ≤ s.length := by
  split
  · next h =>
      have hlen := List.length_pos_of_mem (List.mem_of_mem_head? h)
      rw [List.length_drop] at hlen
      omega
  · exact hc

theorem skip_dropWhile (b : UInt8) (s : Bytes) :
    (if (s.dropWhile (· != b)).head? = some b then (s.dropWhile (· != b)).tail
      else s.dropWhile (· != b)) = (s.dropWhile (· != b)).tail := by
  cases h : s.dropWhile (· != b) with
  | nil => rfl
  | cons a rest =>
      have hstop := Cut.ends_dropWhile (· != b) s a (by rw [h, List.head?_cons])
      rw [List.head?_cons, if_pos (congrArg some (bne_eq_false_iff_eq.mp hstop))]

theorem drop_scanFrom (p : UInt8 → Bool) (s : Bytes) (c : Nat) :
    s.drop (c + ((s.drop c).takeWhile p).length) = (s.drop c).dropWhile p := by
  rw [← List.drop_drop, Cut.drop_takeWhile]

theorem substr_scanFrom (p : UInt8 → Bool) (s : Bytes) (c : Nat) (hc : c ≤ s.length) :
    substr s c (c + ((s.drop c).takeWhile p).length) = some ((s.drop c).takeWhile p) := by
  have hlen := (List.takeWhile_prefix p (l := s.drop c)).length_le
  rw [List.length_drop] at hlen
  unfold substr
  rw [if_pos ⟨by omega, by omega⟩, Nat.add_sub_cancel_left, Cut.take_takeWhile]

theorem scanFrom_le (p : UInt8 → Bool) (s : Bytes) (c : Nat) (hc : c ≤ s.length) :
    c + ((s.drop c).takeWhile p).length ≤ s.length := by
  have hlen := (List.takeWhile_prefix p (l := s.drop c)).length_le
  rw [List.length_drop] at hlen
  omega

namespace HttpRequest

/-! ## The loops of the source -/

/-- The positions of a round: where the key begins and ends, where the value does, and
where the next round begins. -/
structure ArgCursor where
  kb : Nat
  ke : Nat
  vb : Nat
  ve : Nat
  c : Nat

/-- The scans of one round. -/
def scanArg (qs : Bytes) (c : Nat) : Option ArgCursor := do
  let kb := c
  let c ← scanFrom (fun b => b != 0x3d && b != 0x26) qs c
  let ke := c
  let c ← skip 0x3d qs c
  let vb := c
  let c ← scanFrom (· != 0x26) qs c
  let ve := c
  let c ← skip 0x26 qs c
  return ⟨kb, ke, vb, ve, c⟩

/-- `if (kb != ke) args[key] = value;` -/
def storeArg (qs : Bytes) (args : Dict) (r : ArgCursor) : Option Dict :=
  if r.kb = r.ke then some args
  else do
    let key ← substr qs r.kb r.ke
    let value ← substr qs r.vb r.ve
    return args.insert key value

/-- Where a round ends, as the list functions have it. -/
theorem scanArg_eq (qs : Bytes) (c : Nat) (hc : c < qs.length) :
    ∃ r, scanArg qs c = some r ∧ c < r.c ∧ qs.drop r.c = (nextArg (qs.drop c)).2.2 ∧
      ∀ args, storeArg qs args r =
        some (if (nextArg (qs.drop c)).1 = [] then args
          else args.insert (nextArg (qs.drop c)).1 (nextArg (qs.drop c)).2.1) := by
  have hkey := scanFrom_le (fun b => b != 0x3d && b != 0x26) qs c (Nat.le_of_lt hc)
  have hkeyDrop := drop_scanFrom (fun b => b != 0x3d && b != 0x26) qs c
  have hkeyText := substr_scanFrom (fun b => b != 0x3d && b != 0x26) qs c (Nat.le_of_lt hc)
  generalize hkeyEnd : c + ((qs.drop c).takeWhile fun b => b != 0x3d && b != 0x26).length = ke
    at hkey hkeyDrop hkeyText
  have hvalue := skip_le (b := 0x3d) hkey
  have hvalueDrop := drop_skip 0x3d qs ke
  generalize hvalueStart : (if (qs.drop ke).head? = some 0x3d then ke + 1 else ke) = vb
    at hvalue hvalueDrop
  have hend := scanFrom_le (· != 0x26) qs vb hvalue
  have hendDrop := drop_scanFrom (· != 0x26) qs vb
  have hendText := substr_scanFrom (· != 0x26) qs vb hvalue
  generalize hvalueEnd : vb + ((qs.drop vb).takeWhile (· != 0x26)).length = ve
    at hend hendDrop hendText
  have hnext : qs.drop (if (qs.drop ve).head? = some 0x26 then ve + 1 else ve) =
      (nextArg (qs.drop c)).2.2 := by
    rw [drop_skip, hendDrop, skip_dropWhile, hvalueDrop, hkeyDrop]
    rfl
  have hprogress : c < if (qs.drop ve).head? = some 0x26 then ve + 1 else ve := by
    have hshorter := length_nextArg qs[c] (qs.drop (c + 1))
    rw [← List.drop_eq_getElem_cons hc, ← hnext, List.length_drop, List.length_drop] at hshorter
    omega
  refine ⟨⟨c, ke, vb, ve, _⟩, ?_, hprogress, hnext, fun args => ?_⟩
  · simp only [scanArg, scanFrom_eq, skip_eq, hkeyEnd, hvalueStart, hvalueEnd, Option.bind_eq_bind,
      Option.bind_some]
    rfl
  · have hempty : c = ke ↔ (nextArg (qs.drop c)).1 = [] := by
      rw [← hkeyEnd, ← List.length_eq_zero_iff]
      show c = c + (nextArg (qs.drop c)).1.length ↔ _
      omega
    unfold storeArg
    simp only [hempty]
    split
    · rfl
    · rw [hkeyText, hendText, hvalueDrop, hkeyDrop]
      rfl

/-- The `while` loop over the query string. -/
def argsLoop (qs : Bytes) (args : Dict) (c : Nat) : Option Dict :=
  if _hc : c < qs.length then
    match _hr : scanArg qs c with
    | none => none
    | some r =>
        match storeArg qs args r with
        | none => none
        | some args => argsLoop qs args r.c
  else some args
termination_by qs.length - c
decreasing_by
  obtain ⟨r', hr', hlt, -⟩ := scanArg_eq qs c _hc
  rw [_hr] at hr'
  cases hr'
  omega

/-- The `for` loop over `query_uri`, from `i` on, with `uri` and `args`. -/
def uriLoop (queryUri uri : Bytes) (args : Dict) (i : Nat) : Option (Bytes × Dict) :=
  if i ≤ queryUri.length then
    match charAt queryUri i with
    | none => none
    | some b =>
        if b = 0x3f then do
          let uri ← substr queryUri 0 i
          let qs ← substr queryUri (i + 1) queryUri.length
          let args ← argsLoop qs args 0
          return (uri, args)
        else uriLoop queryUri (if i = queryUri.length then queryUri else uri) args (i + 1)
  else some (uri, args)
termination_by queryUri.length + 1 - i

/-- `tryDecode` behind the check that the first line is not empty; whether it goes on. -/
def startLineAt (req : HttpRequest) (ln1 : Bytes) : Option (HttpRequest × Bool) :=
  let (method, ln1) := Slice.eatWord ln1
  let (queryUri, ln1) := Slice.eatWord ln1
  let (version, _) := Slice.eatWord ln1
  let req := { req with method := method, queryUri := queryUri, version := version }
  if queryUri.length = 0 ∨ charAt queryUri 0 ≠ some 0x2f then some (req, false)
  else do
    let (uri, args) ← uriLoop queryUri req.uri req.args 0
    return ({ req with uri := uri, args := args }, true)

/-- `HttpRequest::tryDecode`, with the positions of its scans. -/
def tryDecodeAt (req : HttpRequest) (buf : Bytes) (copyBody : Bool) : Option (Decoded HttpRequest) :=
  let (d, ln1) := req.toHttpMsg.tryDecode_ buf copyBody
  let req := { req with toHttpMsg := d.msg }
  match d.outcome with
  | .lengthError => some ⟨req, .lengthError, d.memory, d.range⟩
  | .returned r =>
      if ln1 = [] then some ⟨req, .returned r, d.memory, d.range⟩
      else do
        let (req, ok) ← req.startLineAt ln1
        return ⟨req, .returned (if ok then r else .error), d.memory, d.range⟩

/-! ## What the loops leave -/

theorem argsLoop_eq (qs : Bytes) (args : Dict) (c : Nat) :
    argsLoop qs args c = some (queryArgs args (qs.drop c)) := by
  fun_induction argsLoop qs args c with
  | case1 args c hc hnone =>
      obtain ⟨r, hr, -⟩ := scanArg_eq qs c hc
      rw [hnone] at hr
      cases hr
  | case2 args c hc r hr hnone =>
      obtain ⟨r', hr', -, -, hstore⟩ := scanArg_eq qs c hc
      rw [hr] at hr'
      cases hr'
      rw [hstore] at hnone
      cases hnone
  | case3 args c hc r hr args' hargs ih =>
      obtain ⟨r', hr', -, hdrop, hstore⟩ := scanArg_eq qs c hc
      rw [hr] at hr'
      cases hr'
      rw [hstore] at hargs
      cases hargs
      rw [ih, hdrop]
      conv_rhs => rw [List.drop_eq_getElem_cons hc, queryArgs, ← List.drop_eq_getElem_cons hc]
  | case4 args c hc =>
      rw [List.drop_eq_nil_of_le (Nat.le_of_not_lt hc), queryArgs]

theorem charAt_eq {s : Bytes} {i : Nat} (hi : i < s.length) : charAt s i = some s[i] := by
  rw [charAt, if_neg (Nat.ne_of_lt hi), List.getElem?_eq_getElem hi]

/-- A string cut at its first `?`. -/
theorem split_at_mark {s : Bytes} {i : Nat} (hi : i < s.length) (hmark : s[i] = 0x3f)
    (hbefore : ∀ b ∈ s.take i, b ≠ 0x3f) :
    s.takeWhile (· != 0x3f) = s.take i ∧
      s.dropWhile (· != 0x3f) = 0x3f :: s.drop (i + 1) := by
  have hsplit : s = s.take i ++ 0x3f :: s.drop (i + 1) := by
    rw [← hmark, ← List.drop_eq_getElem_cons hi, List.take_append_drop]
  have hclear : ∀ b ∈ s.take i, (b != 0x3f) = true := fun b hb => bne_iff_ne.mpr (hbefore b hb)
  have hends : Cut.Ends (· != 0x3f) (0x3f :: s.drop (i + 1)) := Cut.ends_cons (by decide)
  constructor
  · conv_lhs => rw [hsplit]
    exact Cut.takeWhile_stop hclear hends
  · conv_lhs => rw [hsplit]
    exact Cut.dropWhile_stop hclear hends

theorem uriLoop_eq (queryUri uri : Bytes) (args : Dict) (i : Nat) (hi : i ≤ queryUri.length)
    (hbefore : ∀ b ∈ queryUri.take i, b ≠ 0x3f) :
    uriLoop queryUri uri args i =
      some (match queryUri.dropWhile (· != 0x3f) with
        | [] => (queryUri, args)
        | _ :: qs => (queryUri.takeWhile (· != 0x3f), queryArgs args qs)) := by
  induction hleft : queryUri.length - i generalizing i uri with
  | zero =>
      have hend : i = queryUri.length := by omega
      subst hend
      rw [List.take_length] at hbefore
      have hclear : queryUri.dropWhile (· != 0x3f) = [] :=
        List.dropWhile_eq_nil_iff.mpr fun b hb => bne_iff_ne.mpr (hbefore b hb)
      have hlast : charAt queryUri queryUri.length = some 0 := if_pos rfl
      rw [uriLoop, if_pos hi, hlast, hclear]
      simp only [show ¬(0 : UInt8) = 0x3f by decide, if_false, if_true]
      rw [uriLoop, if_neg (by omega)]
  | succ left ih =>
      have hlt : i < queryUri.length := by omega
      rw [uriLoop, if_pos hi, charAt_eq hlt]
      by_cases hmark : queryUri[i] = 0x3f
      · obtain ⟨htake, hdrop⟩ := split_at_mark hlt hmark hbefore
        have huri : substr queryUri 0 i = some (queryUri.take i) := if_pos ⟨Nat.zero_le i, hi⟩
        have hqs : substr queryUri (i + 1) queryUri.length = some (queryUri.drop (i + 1)) := by
          rw [substr, if_pos ⟨hlt, Nat.le_refl _⟩, List.take_of_length_le]
          rw [List.length_drop]
        simp only [hmark, if_true, huri, hqs, argsLoop_eq, List.drop_zero, hdrop, htake]
        rfl
      · simp only [if_neg hmark]
        apply ih
        · omega
        · intro b hb
          rw [List.take_succ_eq_append_getElem hlt, List.mem_append, List.mem_singleton] at hb
          rcases hb with hb | rfl
          · exact hbefore b hb
          · exact hmark
        · omega

theorem startLineAt_eq (req : HttpRequest) (ln1 : Bytes) :
    req.startLineAt ln1 = some (req.startLine ln1) := by
  unfold startLineAt startLine
  simp only
  generalize (Slice.eatWord (Slice.eatWord ln1).2).1 = queryUri
  cases queryUri with
  | nil => rfl
  | cons b rest =>
      have hfirst : charAt (b :: rest) 0 = some b := rfl
      rw [hfirst, List.head?_cons]
      by_cases hslash : b = 0x2f
      · subst hslash
        rw [uriLoop_eq _ _ _ 0 (Nat.zero_le _) (by simp), if_neg (by simp), if_pos rfl]
        cases (0x2f :: rest : Bytes).dropWhile (· != 0x3f) <;> rfl
      · have hother : some b ≠ some 0x2f := fun h => hslash (Option.some.inj h)
        rw [if_pos (Or.inr hother), if_neg hother]

theorem tryDecodeAt_eq (req : HttpRequest) (buf : Bytes) (copyBody : Bool) :
    req.tryDecodeAt buf copyBody = some (req.tryDecode buf copyBody) := by
  unfold tryDecodeAt tryDecode finish
  simp only [startLineAt_eq]
  cases (req.toHttpMsg.tryDecode_ buf copyBody).1.outcome with
  | lengthError => rfl
  | returned r =>
      simp only
      split <;> rfl

/-! ## The query string as a split -/

/-- The part of a path before the first `?`. -/
def pathOf (queryUri : Bytes) : Bytes := queryUri.takeWhile (· != 0x3f)

/-- The part behind it. -/
def queryOf (queryUri : Bytes) : Bytes := (queryUri.dropWhile (· != 0x3f)).tail

/-- A segment is a key, and behind the first `=` a value; without a key it says nothing. -/
def addSegment (args : Dict) (segment : Bytes) : Dict :=
  let key := segment.takeWhile (· != 0x3d)
  let value := (segment.dropWhile (· != 0x3d)).tail
  if key = [] then args else args.insert key value

/-- The arguments of the segments between the `&`, later ones overriding. -/
def argsOf (qs : Bytes) : Dict := (qs.splitOn 0x26).foldl addSegment ∅

/-- One round of the loop reads one segment. -/
theorem nextArg_segment {segment tail : Bytes} (hsegment : 0x26 ∉ segment)
    (htail : Cut.Ends (· != 0x26) tail) :
    nextArg (segment ++ tail) =
      (segment.takeWhile (· != 0x3d), (segment.dropWhile (· != 0x3d)).tail, tail.tail) := by
  have hkey : ∀ b ∈ segment.takeWhile (· != 0x3d), (b != 0x3d && b != 0x26) = true := by
    intro b hb
    have hne : b ≠ 0x26 := fun h => hsegment (h ▸ (List.takeWhile_subset _ hb))
    rw [List.mem_takeWhile_imp hb, Bool.true_and, bne_iff_ne]
    exact hne
  have hsplit := List.takeWhile_append_dropWhile (p := (· != 0x3d)) (l := segment)
  have hstop := Cut.ends_dropWhile (· != 0x3d) segment
  generalize segment.takeWhile (· != 0x3d) = key at hkey hsplit ⊢
  generalize segment.dropWhile (· != 0x3d) = rest at hsplit hstop ⊢
  subst hsplit
  rw [List.append_assoc]
  -- the key ends at the `=`, or with the segment
  have hends : Cut.Ends (fun b => b != 0x3d && b != 0x26) (rest ++ tail) := by
    intro b hb
    cases rest with
    | nil =>
        have h : (b != 0x26) = false := htail b hb
        simp only [h, Bool.and_false]
    | cons a value =>
        have h : (b != 0x3d) = false := hstop b hb
        simp only [h, Bool.false_and]
  unfold nextArg
  simp only [Cut.takeWhile_stop hkey hends, Cut.dropWhile_stop hkey hends]
  cases rest with
  | nil =>
      have hskip : (if tail.head? = some 0x3d then tail.tail else tail) = tail := by
        apply if_neg
        intro h
        cases htail 0x3d h
      have hnone : tail.takeWhile (· != 0x26) = [] ∧ tail.dropWhile (· != 0x26) = tail :=
        ⟨Cut.takeWhile_ends htail, Cut.dropWhile_ends htail⟩
      rw [List.nil_append, hskip, hnone.1, hnone.2]
      rfl
  | cons a value =>
      have ha : a = 0x3d := bne_eq_false_iff_eq.mp (hstop a rfl)
      subst ha
      have hvalue : ∀ b ∈ value, (b != 0x26) = true := by
        intro b hb
        exact bne_iff_ne.mpr fun h => hsegment (by simp [← h, hb])
      rw [List.cons_append, List.head?_cons, if_pos rfl, List.tail_cons, List.tail_cons,
        Cut.takeWhile_stop hvalue htail, Cut.dropWhile_stop hvalue htail]

/-- The loop adds the segments in turn. -/
theorem queryArgs_eq (args : Dict) (qs : Bytes) :
    queryArgs args qs = (qs.splitOn 0x26).foldl addSegment args := by
  induction hlen : qs.length using Nat.strongRecOn generalizing qs args with
  | ind n ih =>
      subst hlen
      have hsplit := List.takeWhile_append_dropWhile (p := (· != 0x26)) (l := qs)
      have htail := Cut.ends_dropWhile (· != 0x26) qs
      have hsegment : 0x26 ∉ qs.takeWhile (· != 0x26) := by
        intro h
        cases List.mem_takeWhile_imp h
      generalize qs.takeWhile (· != 0x26) = segment at hsplit hsegment
      generalize qs.dropWhile (· != 0x26) = tail at hsplit htail
      have harg := nextArg_segment hsegment htail
      rw [hsplit] at harg
      have hround : queryArgs args qs = queryArgs (addSegment args segment) tail.tail := by
        cases qs with
        | nil =>
            obtain ⟨rfl, rfl⟩ := List.append_eq_nil_iff.mp hsplit
            rfl
        | cons c rest =>
            rw [queryArgs, harg]
            rfl
      rw [hround]
      cases tail with
      | nil =>
          rw [List.append_nil] at hsplit
          subst hsplit
          rw [List.splitOn_eq_singleton hsegment, List.tail_nil, queryArgs]
          rfl
      | cons b rest =>
          have hb : b = 0x26 := bne_eq_false_iff_eq.mp (htail b rfl)
          subst hb hsplit
          rw [List.splitOn_append_cons_self_of_not_mem hsegment, List.foldl_cons]
          refine ih rest.length ?_ _ rest rfl
          rw [List.length_append, List.length_cons]
          omega

/-- No first line has been parsed since the last `clear`. -/
structure Unparsed (req : HttpRequest) : Prop where
  queryUri : req.queryUri = []
  args : req.args = ∅

theorem unparsed_cleared : Unparsed cleared := ⟨rfl, rfl⟩

theorem uriLoop_split (queryUri uri : Bytes) :
    uriLoop queryUri uri ∅ 0 = some (pathOf queryUri, argsOf (queryOf queryUri)) := by
  rw [uriLoop_eq _ _ _ 0 (Nat.zero_le _) (by simp)]
  unfold pathOf queryOf argsOf
  cases hmark : queryUri.dropWhile (· != 0x3f) with
  | nil =>
      rw [List.takeWhile_eq_self_iff.mpr (List.dropWhile_eq_nil_iff.mp hmark)]
      rfl
  | cons b qs =>
      simp only [queryArgs_eq, List.tail_cons]

/-- What an accepted first line leaves. -/
theorem startLine_split {req : HttpRequest} (h : req.args = ∅) (ln1 : Bytes)
    (hslash : (req.startLine ln1).1.queryUri.head? = some 0x2f) :
    (req.startLine ln1).1.uri = pathOf (req.startLine ln1).1.queryUri ∧
      (req.startLine ln1).1.args = argsOf (queryOf (req.startLine ln1).1.queryUri) := by
  have hline := req.startLineAt_eq ln1
  unfold startLineAt at hline
  simp only [h, uriLoop_split] at hline
  split at hline
  · next hrefused =>
      rw [← Option.some.inj hline] at hslash
      obtain ⟨rest, hrest⟩ := List.head?_eq_some_iff.mp hslash
      simp only at hrest
      rw [hrest] at hrefused
      rcases hrefused with hempty | hother
      · cases hempty
      · exact absurd rfl hother
  · rw [← Option.some.inj hline]
    exact ⟨rfl, rfl⟩

/-- Whatever is in the buffer, the loops come to an end and stay inside the strings, and a
request that gets a `query_uri` with a `/` in front gets the path before the first `?` and
the arguments of the segments behind it. -/
theorem query_string_parsed (req : HttpRequest) (h : Unparsed req) (buf : Bytes) (copyBody : Bool) :
    (∀ queryUri, uriLoop queryUri req.uri req.args 0 =
        some (pathOf queryUri, argsOf (queryOf queryUri))) ∧
      ∃ d, req.tryDecodeAt buf copyBody = some d ∧
        (d.msg.queryUri.head? = some 0x2f →
          d.msg.uri = pathOf d.msg.queryUri ∧ d.msg.args = argsOf (queryOf d.msg.queryUri)) := by
  constructor
  · intro queryUri
    rw [h.args]
    exact uriLoop_split queryUri req.uri
  · refine ⟨_, req.tryDecodeAt_eq buf copyBody, ?_⟩
    unfold tryDecode finish
    simp only
    cases (req.toHttpMsg.tryDecode_ buf copyBody).1.outcome with
    | lengthError =>
        intro hslash
        simp [h.queryUri] at hslash
    | returned r =>
        simp only
        split
        · intro hslash
          simp [h.queryUri] at hslash
        · refine startLine_split ?_ _
          exact h.args

/-- `"GET /p?a=1&b&=x&a=2=3& HTTP/1.1"` and the blank line. -/
def queriedRequest : Bytes :=
  [0x47, 0x45, 0x54, 0x20, 0x2f, 0x70, 0x3f, 0x61, 0x3d, 0x31, 0x26, 0x62, 0x26, 0x3d, 0x78, 0x26,
    0x61, 0x3d, 0x32, 0x3d, 0x33, 0x26, 0x20, 0x48, 0x54, 0x54, 0x50, 0x2f, 0x31, 0x2e, 0x31] ++
    HttpMsg.blank

theorem query_string_parsed_override :
    ∃ d, cleared.tryDecodeAt queriedRequest true = some d ∧
      d.msg.uri = [0x2f, 0x70] ∧
      d.msg.args.toList = [([0x61], [0x32, 0x3d, 0x33]), ([0x62], [])] := by
  obtain ⟨-, d, hd, hquery⟩ := query_string_parsed cleared unparsed_cleared queriedRequest true
  have heq := hd.symm.trans (tryDecodeAt_eq cleared queriedRequest true)
  cases heq
  obtain ⟨huri, hargs⟩ := hquery (by decide +kernel)
  exact ⟨_, hd, huri.trans (by decide +kernel), (congrArg _ hargs).trans (by decide +kernel)⟩

end HttpRequest

end Handy
