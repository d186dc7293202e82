import Handy.Http.Exchange
import Handy.Http.StatServer

/-! # Callbacks of an HTTP server and files

`HttpServer` looks the callback of a request up by method and uri. `sendFile` makes `body2`
of the connection's response point into a string of its own, and the response outlives it:
a later one on the connection that is not given a file is made from memory that is gone.
-/

namespace Handy

/-! ## Looking a callback up -/

/-- `cbs_` and `defcb_`. -/
structure HttpServer (Cb : Type) where
  cbs : Std.ExtTreeMap Bytes (Std.ExtTreeMap Bytes Cb)
  defcb : Cb

/-- The calls that set callbacks; `onGet(uri, cb)` is `onRequest("GET", uri, cb)`. -/
inductive HttpRoute (Cb : Type) where
  | onRequest (method uri : Bytes) (cb : Cb)
  | onDefault (cb : Cb)

namespace HttpServer

variable {Cb : Type}

/-- `HttpServer(bases)`; `notFound` is the default callback. -/
def new (notFound : Cb) : HttpServer Cb := ⟨∅, notFound⟩

/-- `cbs_[method][uri] = cb`, and `onDefault`. -/
def set (svr : HttpServer Cb) : HttpRoute Cb → HttpServer Cb
  | .onRequest method uri cb =>
      { svr with cbs := svr.cbs.insert method ((svr.cbs.getD method ∅).insert uri cb) }
  | .onDefault cb => { svr with defcb := cb }

/-- The lookup in the lambda given to `onHttpMsg`. -/
def callbackFor (svr : HttpServer Cb) (req : HttpRequest) : Cb :=
  match svr.cbs[req.method]? with
  | some byUri =>
      match byUri[req.uri]? with
      | some cb => cb
      | none => svr.defcb
  | none => svr.defcb

/-- The callback the routes, newest first, give a method and uri. -/
def routed (method uri : Bytes) : List (HttpRoute Cb) → Option Cb
  | [] => none
  | .onRequest m u cb :: routes => if m = method ∧ u = uri then some cb else routed method uri routes
  | .onDefault _ :: routes => routed method uri routes

/-- The default the routes, newest first, give. -/
def defaulted (notFound : Cb) : List (HttpRoute Cb) → Cb
  | [] => notFound
  | .onRequest _ _ _ :: routes => defaulted notFound routes
  | .onDefault cb :: _ => cb

theorem set_lookup (svr : HttpServer Cb) (route : HttpRoute Cb) (method uri : Bytes) :
    (((svr.set route).cbs[method]?).bind fun byUri => byUri[uri]?) =
      match route with
      | .onRequest m u cb => if m = method ∧ u = uri then some cb
          else (svr.cbs[method]?).bind fun byUri => byUri[uri]?
      | .onDefault _ => (svr.cbs[method]?).bind fun byUri => byUri[uri]? := by
  cases route with
  | onDefault cb => rfl
  | onRequest m u cb =>
      simp only [set, Std.ExtTreeMap.getElem?_insert]
      by_cases hm : m = method
      · subst hm
        simp only [Std.compare_self, if_true, Option.bind_some, true_and,
          Std.ExtTreeMap.getElem?_insert]
        by_cases hu : u = uri
        · subst hu
          simp
        · have hne : ¬ compare u uri = .eq := fun heq => hu (Std.LawfulEqCmp.eq_of_compare heq)
          simp only [hne, if_false, hu]
          rw [Std.ExtTreeMap.getD_eq_getD_getElem?]
          cases svr.cbs[m]? with
          | none => simp
          | some byUri => rfl
      · have hne : ¬ compare m method = .eq := fun heq => hm (Std.LawfulEqCmp.eq_of_compare heq)
        simp only [hne, if_false, hm, false_and]

/-- The server finds what was set last for the method and the uri, or the last default. -/
theorem callbackFor_eq (notFound : Cb) (routes : List (HttpRoute Cb)) (req : HttpRequest) :
    (routes.foldl set (new notFound)).callbackFor req =
      ((routed req.method req.uri routes.reverse).getD (defaulted notFound routes.reverse)) := by
  have hboth : ∀ routes : List (HttpRoute Cb),
      (((routes.foldl set (new notFound)).cbs[req.method]?).bind fun byUri => byUri[req.uri]?) =
          routed req.method req.uri routes.reverse ∧
        (routes.foldl set (new notFound)).defcb = defaulted notFound routes.reverse := by
    intro routes
    induction routes using List.reverseRecOn with
    | nil => simp [new, routed, defaulted]
    | append_singleton routes route ih =>
        rw [List.foldl_append, List.reverse_append]
        constructor
        · simp only [List.foldl_cons, List.foldl_nil, set_lookup, ih.1]
          cases route <;> rfl
        · rw [List.foldl_cons, List.foldl_nil]
          cases route with
          | onRequest m u cb => exact ih.2
          | onDefault cb => rfl
  obtain ⟨hlookup, hdefault⟩ := hboth routes
  rw [← hlookup, ← hdefault]
  unfold callbackFor
  cases (routes.foldl set (new notFound)).cbs[req.method]? with
  | none => rfl
  | some byUri =>
      simp only [Option.bind_some]
      cases byUri[req.uri]? <;> rfl

end HttpServer

/-! ## Sending -/

/-- What a callback does: it writes to the response of the connection and sends it, or sends one
of its own, or writes and calls `sendFile`, for which `read` is what `file::getContent` does. -/
inductive HttpReply where
  | sendResponse (write : HttpResponse → HttpResponse)
  | sendOwn (resp : HttpResponse)
  | sendFile (write : HttpResponse → HttpResponse) (read : Bytes × Status.Value)

/-- The response of a server connection. `block` is the memory `body2` points into, if that is
still there; `stale` says that memory that is gone was read. What was sent is bookkeeping. -/
structure HttpOutput where
  resp : HttpResponse
  block : Option Bytes
  stale : Bool
  sent : List Bytes

namespace HttpOutput

def fresh : HttpOutput := ⟨.cleared, none, false, []⟩

/-- `encode` of the connection's response. -/
def send (s : HttpOutput) : HttpOutput :=
  if s.resp.body2.pe = s.resp.body2.pb then { s with sent := s.sent ++ [s.resp.text []] }
  else
    match s.block with
    | some memory => { s with sent := s.sent ++ [s.resp.text memory] }
    | none => { s with stale := true }

/-- The message of a status. -/
def message (st : Status.Value) : Bytes :=
  match st with
  | none => []
  | some (_, msg) => msg.bytes

/-- `HttpConnPtr::sendFile`; `cont` goes out of scope at its end. -/
def sendFile (s : HttpOutput) (read : Bytes × Status.Value) : HttpOutput :=
  let (cont, st) := read
  let s :=
    if st.code = File.Errno.noEntry.value then { s with resp := s.resp.setNotFound }
    else if st.code ≠ 0 then { s with resp := s.resp.setStatus 500 (message st) }
    else { s with resp := { s.resp with body2 := ⟨0, cont.length⟩ }, block := some cont }
  { s.send with block := none }

def reply (s : HttpOutput) (r : HttpReply) : HttpOutput :=
  if s.stale then s
  else
    match r with
    | .sendResponse write => { s with resp := write s.resp }.send
    | .sendOwn resp => { s with sent := s.sent ++ [resp.text []] }
    | .sendFile write read => { s with resp := write s.resp }.sendFile read

/-! ## What is asked of a callback -/

/-- The callback leaves `body2` alone and does not look at it. -/
def KeepsBody2 (write : HttpResponse → HttpResponse) : Prop :=
  ∀ (resp : HttpResponse) (s : Slice), write { resp with body2 := s } = { write resp with body2 := s }

/-- What holds of a reply: a file fits in memory. -/
def Fits : HttpReply → Prop
  | .sendResponse write => KeepsBody2 write
  | .sendOwn resp => resp.body2 = .unset
  | .sendFile write read => KeepsBody2 write ∧ read.1.length < 2 ^ 64

/-- The content a reply leaves `body2` with, if it is given one. -/
def given : HttpReply → Option Bytes
  | .sendFile _ (cont, st) => if st.code = 0 then some cont else none
  | _ => none

/-- The content of the last file sent, empty if there was none. -/
def lastFile (replies : List HttpReply) : Bytes := ((replies.filterMap given).getLast?).getD []

/-- The reply is made from `body2`, which is not its own. -/
def Borrows : HttpReply → Bool
  | .sendResponse _ => true
  | .sendOwn _ => false
  | .sendFile _ (_, st) => st.code != 0

/-- A response without `body2`: what the replies would do if a file were put in its body. -/
def plainly (resp : HttpResponse) : HttpReply → HttpResponse × Bytes
  | .sendResponse write => (write resp, (write resp).text [])
  | .sendOwn own => (resp, own.text [])
  | .sendFile write (cont, st) =>
      let resp := write resp
      if st.code = File.Errno.noEntry.value then (resp.setNotFound, resp.setNotFound.text [])
      else if st.code ≠ 0 then
        (resp.setStatus 500 (message st), (resp.setStatus 500 (message st)).text [])
      else (resp, { resp with body := if cont = [] then resp.body else cont }.text [])

def plain (resp : HttpResponse) : List HttpReply → List Bytes
  | [] => []
  | r :: rs => (plainly resp r).2 :: plain (plainly resp r).1 rs

/-! ## The response and its memory -/

theorem text_congr {r r' : HttpResponse} {memory memory' : Bytes} (hheaders : r.headers = r'.headers)
    (hversion : r.version = r'.version) (hstatus : r.status = r'.status)
    (hword : r.statusWord = r'.statusWord) (hsize : r.getBody.size = r'.getBody.size)
    (hread : r.getBody.read memory = r'.getBody.read memory') :
    r.text memory = r'.text memory' := by
  unfold HttpResponse.text HttpResponse.encode HttpMsg.encodeWith
  rw [hheaders, hversion, hstatus, hword, hsize, hread]

theorem getBody_unset {r : HttpResponse} (h : r.body2.pe = r.body2.pb) :
    r.getBody = .copied r.body := if_pos h

theorem getBody_given {r : HttpResponse} {n : Nat} (h : r.body2 = ⟨0, n⟩) (hn : n ≠ 0) :
    r.getBody = .inBuffer ⟨0, n⟩ := by
  unfold HttpMsg.getBody
  rw [h, if_neg]
  exact fun heq => hn (Int.ofNat_eq_zero.mp heq)

theorem size_given {n : Nat} (hn : n < 2 ^ 64) : (HttpMsg.Body.inBuffer ⟨0, n⟩).size = n := by
  unfold HttpMsg.Body.size toSize
  simp only
  rw [Int.sub_zero, Int.emod_eq_of_lt (Int.natCast_nonneg n) (by omega), Int.toNat_natCast]

theorem read_given (cont : Bytes) :
    (HttpMsg.Body.inBuffer ⟨0, cont.length⟩).read cont = cont := by
  simp [HttpMsg.Body.read, Slice.read]

/-- A file through `body2` is a file in the body. -/
theorem text_file {r r' : HttpResponse} {cont : Bytes} (hne : cont ≠ [])
    (hlen : cont.length < 2 ^ 64) (hgiven : r.body2 = ⟨0, cont.length⟩)
    (hunset : r'.body2 = .unset) (hbody : r'.body = cont) (hheaders : r.headers = r'.headers)
    (hversion : r.version = r'.version) (hstatus : r.status = r'.status)
    (hword : r.statusWord = r'.statusWord) : r.text cont = r'.text [] := by
  have hslice := getBody_given hgiven (List.length_pos_of_ne_nil hne).ne'
  have hcopied : r'.getBody = .copied cont := by
    rw [getBody_unset (by rw [hunset]; rfl), hbody]
  apply text_congr hheaders hversion hstatus hword
  · rw [hslice, hcopied, size_given hlen]
    rfl
  · rw [hslice, hcopied, read_given]
    rfl

theorem text_unset {r r' : HttpResponse} (hempty : r.body2.pe = r.body2.pb)
    (hunset : r'.body2 = .unset) (hbody : r.body = r'.body) (hheaders : r.headers = r'.headers)
    (hversion : r.version = r'.version) (hstatus : r.status = r'.status)
    (hword : r.statusWord = r'.statusWord) : r.text [] = r'.text [] := by
  have hboth : r.getBody = r'.getBody := by
    rw [getBody_unset hempty, getBody_unset (r := r') (by rw [hunset]; rfl), hbody]
  apply text_congr hheaders hversion hstatus hword
  · rw [hboth]
  · rw [hboth]

theorem lastFile_concat (past : List HttpReply) (r : HttpReply) :
    lastFile (past ++ [r]) = (given r).getD (lastFile past) := by
  unfold lastFile
  rw [List.filterMap_append]
  cases hgiven : given r with
  | none => simp [hgiven]
  | some cont => simp [hgiven]

/-- Between two replies: `resp` is the response but for `body2`, which is left as long as the last
file was, and the file's memory is gone. -/
structure Between (past : List HttpReply) (resp : HttpResponse) (s : HttpOutput) : Prop where
  stale : s.stale = false
  block : s.block = none
  unset : resp.body2 = .unset
  resp : s.resp = { resp with body2 := ⟨0, (lastFile past).length⟩ }

theorem with_unset {resp : HttpResponse} (h : resp.body2 = .unset) :
    { resp with body2 := .unset } = resp := by
  rw [← h]

theorem KeepsBody2.unset {write : HttpResponse → HttpResponse} (h : KeepsBody2 write)
    {resp : HttpResponse} (hunset : resp.body2 = .unset) : (write resp).body2 = .unset := by
  have hsame := h resp .unset
  rw [with_unset hunset] at hsame
  rw [hsame]

/-- The response is sent as it is when `body2` is empty, and else memory that is gone is read. -/
theorem send_between {past : List HttpReply} {resp : HttpResponse} {s : HttpOutput}
    (h : Between past resp s) :
    (lastFile past ≠ [] → s.send.stale = true) ∧
      (lastFile past = [] → s.send = { s with sent := s.sent ++ [resp.text []] }) := by
  unfold send
  rw [h.block]
  constructor
  · intro hne
    have hpos := List.length_pos_of_ne_nil hne
    rw [if_neg]
    rw [h.resp]
    simp only
    omega
  · intro hnil
    have hempty : s.resp.body2.pe = s.resp.body2.pb := by
      rw [h.resp, hnil]
      rfl
    have htext : s.resp.text [] = resp.text [] := by
      apply text_unset hempty h.unset <;> rw [h.resp]
    rw [if_pos hempty, htext]

/-- A file is sent from memory that is there. -/
theorem send_given {resp : HttpResponse} {s : HttpOutput} {b : Slice} {cont : Bytes}
    (hunset : resp.body2 = .unset) (hresp : s.resp = { resp with body2 := b })
    (hlen : cont.length < 2 ^ 64) :
    ({ s with resp := { s.resp with body2 := ⟨0, cont.length⟩ }, block := some cont }.send) =
      { s with
        resp := { s.resp with body2 := ⟨0, cont.length⟩ }
        block := some cont
        sent := s.sent ++ [HttpResponse.text
          { resp with body := if cont = [] then resp.body else cont } []] } := by
  unfold send
  by_cases hnil : cont = []
  · subst hnil
    have htext : HttpResponse.text { s.resp with body2 := ⟨0, ([] : Bytes).length⟩ } [] =
        resp.text [] := by
      apply text_unset rfl hunset <;> rw [hresp]
    rw [if_pos rfl, htext]
    rfl
  · have hpos := List.length_pos_of_ne_nil hnil
    have htext : HttpResponse.text { s.resp with body2 := ⟨0, cont.length⟩ } cont =
        HttpResponse.text { resp with body := cont } [] := by
      generalize hr : ({ s.resp with body2 := ⟨0, cont.length⟩ } : HttpResponse) = r
      generalize hr' : ({ resp with body := cont } : HttpResponse) = r'
      refine text_file hnil hlen ?_ ?_ ?_ ?_ ?_ ?_ ?_
      · rw [← hr]
      · rw [← hr']
        exact hunset
      · rw [← hr']
      · rw [← hr, ← hr', hresp]
      · rw [← hr, ← hr', hresp]
      · rw [← hr, ← hr', hresp]
      · rw [← hr, ← hr', hresp]
    have hne : ¬ ((cont.length : Int) = 0) := by omega
    rw [if_neg hne, if_neg hnil, ← htext]

theorem Between.write {past : List HttpReply} {resp : HttpResponse} {s : HttpOutput}
    (h : Between past resp s) {write : HttpResponse → HttpResponse} (hkeeps : KeepsBody2 write) :
    Between past (write resp) { s with resp := write s.resp } := by
  refine ⟨h.stale, h.block, hkeeps.unset h.unset, ?_⟩
  show write s.resp = _
  rw [h.resp, hkeeps]

theorem Between.reply {past : List HttpReply} {resp : HttpResponse} {s : HttpOutput}
    (h : Between past resp s) {r : HttpReply} (hfits : Fits r) :
    (lastFile past ≠ [] ∧ Borrows r = true → (s.reply r).stale = true) ∧
      (¬ (lastFile past ≠ [] ∧ Borrows r = true) →
        Between (past ++ [r]) (plainly resp r).1 (s.reply r) ∧
          (s.reply r).sent = s.sent ++ [(plainly resp r).2]) := by
  have hno : ¬ s.stale = true := by simp [h.stale]
  unfold HttpOutput.reply
  rw [if_neg hno]
  cases r with
  | sendResponse write =>
      have hkeeps : KeepsBody2 write := hfits
      have hwritten := h.write hkeeps
      obtain ⟨hgone, hgoes⟩ := send_between hwritten
      have hsame : lastFile (past ++ [.sendResponse write]) = lastFile past := lastFile_concat _ _
      refine ⟨fun hstale => hgone hstale.1, fun hfine => ?_⟩
      have hnil : lastFile past = [] := by
        by_contra hne
        exact hfine ⟨hne, rfl⟩
      dsimp only
      rw [hgoes hnil]
      refine ⟨⟨h.stale, h.block, hwritten.unset, ?_⟩, rfl⟩
      rw [hsame]
      exact hwritten.resp
  | sendOwn own =>
      have hsame : lastFile (past ++ [.sendOwn own]) = lastFile past := lastFile_concat _ _
      refine ⟨fun hstale => absurd hstale.2 (by simp [Borrows]), fun _ => ?_⟩
      refine ⟨⟨h.stale, h.block, h.unset, ?_⟩, rfl⟩
      rw [hsame]
      exact h.resp
  | sendFile write read =>
      obtain ⟨cont, st⟩ := read
      have hkeeps : KeepsBody2 write := hfits.1
      have hwritten := h.write hkeeps
      have hfails : ∀ fail : HttpResponse → HttpResponse,
          KeepsBody2 fail → given (.sendFile write (cont, st)) = none →
          plainly resp (.sendFile write (cont, st)) =
            (fail (write resp), (fail (write resp)).text []) →
          let s' := { { s with resp := fail (write s.resp) }.send with block := none }
          (lastFile past ≠ [] → s'.stale = true) ∧
            (lastFile past = [] →
              Between (past ++ [.sendFile write (cont, st)])
                (plainly resp (.sendFile write (cont, st))).1 s' ∧
              s'.sent = s.sent ++ [(plainly resp (.sendFile write (cont, st))).2]) := by
        intro fail hfail hgiven hplain s'
        have hfailed := hwritten.write hfail
        obtain ⟨hgone, hgoes⟩ := send_between hfailed
        refine ⟨fun hne => hgone hne, fun hnil => ?_⟩
        have hsent : s' = { s with resp := fail (write s.resp)
                                   block := none
                                   sent := s.sent ++ [(fail (write resp)).text []] } := by
          show ({ ({ s with resp := fail (write s.resp) } : HttpOutput).send with
            block := none } : HttpOutput) = _
          rw [hgoes hnil]
        rw [hsent, hplain]
        refine ⟨⟨h.stale, rfl, hfailed.unset, ?_⟩, rfl⟩
        rw [lastFile_concat, hgiven]
        exact hfailed.resp
      have hgiven : given (.sendFile write (cont, st)) = if st.code = 0 then some cont else none := rfl
      dsimp only [HttpOutput.sendFile]
      by_cases hnoent : st.code = File.Errno.noEntry.value
      · have hbad : st.code ≠ 0 := by
          rw [hnoent]
          exact File.Errno.noEntry.nonzero
        have hcase := hfails HttpResponse.setNotFound (fun _ _ => rfl)
          (by rw [hgiven, if_neg hbad]) (by simp only [plainly, if_pos hnoent])
        rw [if_pos hnoent]
        refine ⟨fun hstale => hcase.1 hstale.1, fun hfine => hcase.2 ?_⟩
        by_contra hne
        exact hfine ⟨hne, by simp [Borrows, hbad]⟩
      · rw [if_neg hnoent]
        by_cases hbad : st.code = 0
        · rw [if_neg (not_not_intro hbad)]
          refine ⟨fun hstale => absurd hstale.2 (by simp [Borrows, hbad]), fun _ => ?_⟩
          have hplain : plainly resp (.sendFile write (cont, st)) =
              (write resp, HttpResponse.text
                { write resp with body := if cont = [] then (write resp).body else cont } []) := by
            simp only [plainly, if_neg hnoent, if_neg (not_not_intro hbad)]
          have hsent := @send_given (write resp) { s with resp := write s.resp } _ _
            hwritten.unset hwritten.resp hfits.2
          rw [hplain]
          dsimp only at hsent ⊢
          rw [hsent]
          refine ⟨⟨h.stale, rfl, hwritten.unset, ?_⟩, rfl⟩
          rw [lastFile_concat, hgiven, if_pos hbad, Option.getD_some]
          show { write s.resp with body2 := ⟨0, cont.length⟩ } = _
          have hbase := hwritten.resp
          dsimp only at hbase
          rw [hbase]
        · have hcase := hfails (fun resp => resp.setStatus 500 (message st)) (fun _ _ => rfl)
            (by rw [hgiven, if_neg hbad]) (by
              simp only [plainly, if_neg hnoent, if_pos hbad, ne_eq])
          rw [if_pos hbad]
          refine ⟨fun hstale => hcase.1 hstale.1, fun hfine => hcase.2 ?_⟩
          by_contra hne
          exact hfine ⟨hne, by simp [Borrows, hbad]⟩

theorem reply_stale {s : HttpOutput} (h : s.stale = true) (rs : List HttpReply) :
    Driven.run reply s rs = s := by
  induction rs with
  | nil => rfl
  | cons r rs ih =>
      have hstays : s.reply r = s := by
        unfold HttpOutput.reply
        rw [if_pos h]
      rw [Driven.run_cons, hstays, ih]

theorem Between.run {past : List HttpReply} {resp : HttpResponse} {s : HttpOutput}
    (h : Between past resp s) {rs : List HttpReply} (hfits : ∀ r ∈ rs, Fits r) :
    ((Driven.run HttpOutput.reply s rs).stale = true ↔
        ∃ before r after, rs = before ++ r :: after ∧ lastFile (past ++ before) ≠ [] ∧
          Borrows r = true) ∧
      ((Driven.run HttpOutput.reply s rs).stale = false →
        (Driven.run HttpOutput.reply s rs).sent = s.sent ++ plain resp rs) := by
  induction rs generalizing past resp s with
  | nil =>
      constructor
      · refine iff_of_false ?_ ?_
        · rw [Driven.run_nil, h.stale]
          exact Bool.false_ne_true
        · rintro ⟨before, r, after, hnil, -⟩
          simp at hnil
      · intro _
        exact (List.append_nil _).symm
  | cons r rs ih =>
      obtain ⟨hgone, hgoes⟩ := h.reply (hfits r List.mem_cons_self)
      by_cases hstale : lastFile past ≠ [] ∧ Borrows r = true
      · have hnow := hgone hstale
        rw [Driven.run_cons, reply_stale hnow]
        refine ⟨iff_of_true hnow ⟨[], r, rs, rfl, ?_, hstale.2⟩, fun hno => ?_⟩
        · rw [List.append_nil]
          exact hstale.1
        · rw [hnow] at hno
          cases hno
      · obtain ⟨hnext, hsent⟩ := hgoes hstale
        obtain ⟨hiff, hplain⟩ := ih hnext fun q hq => hfits q (List.mem_cons_of_mem r hq)
        rw [Driven.run_cons, hiff]
        constructor
        · constructor
          · rintro ⟨before, q, after, rfl, hlast, hborrows⟩
            rw [List.append_assoc] at hlast
            exact ⟨r :: before, q, after, rfl, hlast, hborrows⟩
          · rintro ⟨before, q, after, hsplit, hlast, hborrows⟩
            cases before with
            | nil =>
                rw [List.append_nil] at hlast
                obtain ⟨rfl, rfl⟩ := List.cons.inj hsplit
                exact absurd ⟨hlast, hborrows⟩ hstale
            | cons r' before =>
                obtain ⟨rfl, rfl⟩ := List.cons.inj hsplit
                rw [List.append_cons] at hlast
                exact ⟨before, q, after, rfl, hlast, hborrows⟩
        · intro hfine
          rw [hplain hfine, hsent, List.append_assoc]
          rfl

end HttpOutput

end Handy
