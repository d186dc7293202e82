import Handy.Http.Encode
import Handy.File.RenameSave
import Handy.Lib.Run

/-! # The statistics server

`StatServer` answers every request of a connection into the same response, which nothing
clears: `clearData` on a server clears the request. What a request leaves in it, a status, a
header or a body, the next one on the connection finds there.
-/

namespace Handy

/-- The characters of a literal. -/
def ascii (s : String) : Bytes := s.toList.map fun c => UInt8.ofNat c.toNat

namespace HttpResponse

/-- `HttpResponse::setStatus`. -/
def setStatus (resp : HttpResponse) (st : Int) (msg : Bytes) : HttpResponse :=
  { resp with status := st, statusWord := msg, body := msg }

/-- `"Not Found"`. -/
def notFoundWord : Bytes := [0x4e, 0x6f, 0x74, 0x20, 0x46, 0x6f, 0x75, 0x6e, 0x64]

/-- `HttpResponse::setNotFound`. -/
def setNotFound (resp : HttpResponse) : HttpResponse := resp.setStatus 404 notFoundWord

end HttpResponse

/-- `StatServer::StatType`. -/
inductive StatType where
  | state
  | page
  | cmd
deriving DecidableEq

/-- `StatCallBack`; `W` is what the callbacks see and change besides. -/
abbrev StatCallBack (W : Type) := HttpRequest → HttpResponse → W → HttpResponse × W

/-- `InfoCallBack`. -/
abbrev InfoCallBack (W : Type) := W → Bytes × W

/-- `IntCallBack`. -/
abbrev IntCallBack (W : Type) := W → Int64 × W

/-- `StatServer`: each callback with its description, and all of them by key. -/
structure StatServer (W : Type) where
  statcbs : Std.ExtTreeMap Bytes (Bytes × StatCallBack W)
  pagecbs : Std.ExtTreeMap Bytes (Bytes × StatCallBack W)
  cmdcbs : Std.ExtTreeMap Bytes (Bytes × StatCallBack W)
  allcbs : Std.ExtTreeMap Bytes (StatCallBack W)

namespace StatServer

variable {W : Type}

def new : StatServer W := ⟨∅, ∅, ∅, ∅⟩

/-! ## Registering callbacks -/

/-- `onRequest` with a `StatCallBack`. -/
def onRequest (svr : StatServer W) (type : StatType) (key desc : Bytes) (cb : StatCallBack W) :
    StatServer W :=
  let svr :=
    match type with
    | .state => { svr with statcbs := svr.statcbs.insert key (desc, cb) }
    | .page => { svr with pagecbs := svr.pagecbs.insert key (desc, cb) }
    | .cmd => { svr with cmdcbs := svr.cmdcbs.insert key (desc, cb) }
  { svr with allcbs := svr.allcbs.insert key cb }

/-- `[cb](const HttpRequest &, HttpResponse &r) { r.body = cb(); }`. -/
def infoCallBack (cb : InfoCallBack W) : StatCallBack W := fun _ r w =>
  let (body, w) := cb w
  ({ r with body := body }, w)

/-- `onRequest` with an `InfoCallBack`; `onState`, `onPage` and `onCmd` call it. -/
def onRequestInfo (svr : StatServer W) (type : StatType) (key desc : Bytes) (cb : InfoCallBack W) :
    StatServer W :=
  svr.onRequest type key desc (infoCallBack cb)

/-- `onState` and `onCmd` with an `IntCallBack`: `format("%ld", cb())`. -/
def onRequestInt (svr : StatServer W) (type : StatType) (key desc : Bytes) (cb : IntCallBack W) :
    StatServer W :=
  svr.onRequestInfo type key desc fun w =>
    let (v, w) := cb w
    (signedDecimal v.toInt, w)

/-- `"Content-Type"` and `"text/plain; charset=utf-8"`. -/
def contentType : Bytes := ascii "Content-Type"

def textPlain : Bytes := ascii "text/plain; charset=utf-8"

/-- The callback of `onPageFile`. `read` is `file::getContent`: what it appends to its string,
here to `resp.body`, and its status. -/
def pageFileCallBack (read : W → (Bytes × Status.Value) × W) : StatCallBack W := fun _ resp w =>
  let ((got, st), w) := read w
  let resp := { resp with body := resp.body ++ got }
  if st.ok then ({ resp with headers := resp.headers.insert contentType textPlain }, w)
  else (resp.setNotFound, w)

/-- `onPageFile`. -/
def onPageFile (svr : StatServer W) (page desc : Bytes) (read : W → (Bytes × Status.Value) × W) :
    StatServer W :=
  svr.onRequest .page page desc (pageFileCallBack read)

/-! ## Answering a request -/

/-- `util::format` of a text: its second buffer takes 30000 bytes with the zero. -/
def format (text : Bytes) : Bytes := text.take 29999

def pageLink (path : Bytes) : Bytes :=
  format (ascii "<a href=\"/" ++ cStr path ++ ascii "\">" ++ cStr path ++ ascii "</a>")

def queryLink (path : Bytes) : Bytes :=
  format (ascii "<a href=\"/?stat=" ++ cStr path ++ ascii "\">" ++ cStr path ++ ascii "</a>")

/-- The `for` loop over `statcbs_`: each callback is called with the uri of its key and a
response of its own. -/
def stateRows (req : HttpRequest) : List (Bytes × Bytes × StatCallBack W) → W → Bytes × W
  | [], w => ([], w)
  | (key, desc, cb) :: stats, w =>
      let (r, w) := cb { req with uri := key } HttpResponse.cleared w
      let (rows, w) := stateRows req stats w
      (ascii "<tr><td>" ++ pageLink key ++ ascii "</td><td>" ++ desc ++ ascii "</td><td>" ++ r.body ++
        ascii "</td></tr>\n" ++ rows, w)

/-- The loops over `pagecbs_` and `cmdcbs_`. -/
def linkRows (link : Bytes → Bytes) (stats : List (Bytes × Bytes × StatCallBack W)) : Bytes :=
  stats.flatMap fun stat =>
    ascii "<tr><td>" ++ link stat.1 ++ ascii "</td><td>" ++ stat.2.1 ++ ascii "</td></tr>\n"

/-- What the page for `/` begins with. -/
def tables (svr : StatServer W) (req : HttpRequest) (w : W) : Bytes × W :=
  let (rows, w) := stateRows req svr.statcbs.toList w
  (ascii "<a href=\"/\">refresh</a><br/>\n" ++ ascii "<table>\n" ++
    ascii "<tr><td>Stat</td><td>Desc</td><td>Value</td></tr>\n" ++ rows ++
    ascii "</table>\n<br/>\n<table>\n" ++ ascii "<tr><td>Page</td><td>Desc</td>\n" ++
    linkRows pageLink svr.pagecbs.toList ++
    ascii "</table>\n<br/>\n<table>\n" ++ ascii "<tr><td>Cmd</td><td>Desc</td>\n" ++
    linkRows queryLink svr.cmdcbs.toList ++ ascii "</table>\n", w)

/-- `format("<br/>SubQuery %s:<br/> %s", query.c_str(), resp.body.c_str())`. -/
def subQuery (query body : Bytes) : Bytes :=
  format (ascii "<br/>SubQuery " ++ cStr query ++ ascii ":<br/> " ++ cStr body)

/-- The string `query`. With an empty `uri` `assign(data() + 1, size() - 1)` is asked for
`SIZE_MAX` characters and throws `std::length_error`. -/
def query? (req : HttpRequest) : Option Bytes :=
  if req.args.getValue (ascii "stat") = [] then
    if req.uri = [] then none else some req.uri.tail
  else some (req.args.getValue (ascii "stat"))

/-- The callback given to `server_.onDefault`, up to `sendResponse`. -/
def answer (svr : StatServer W) (req : HttpRequest) (resp : HttpResponse) (w : W) :
    Option (HttpResponse × W) :=
  match query? req with
  | none => none
  | some query =>
      let (resp, w) :=
        if query = [] then (resp, w)
        else
          match svr.allcbs[query]? with
          | some cb => cb req resp w
          | none => (resp.setNotFound, w)
      if req.uri = [0x2f] then
        let (buf, w) := svr.tables req w
        let buf := if resp.body = [] then buf else buf ++ subQuery query resp.body
        some ({ resp with body := buf }, w)
      else some (resp, w)

end StatServer

/-- A connection to a `StatServer`: the response of its `HttpContext`, and, as bookkeeping, the
responses sent and whether a callback threw. -/
structure StatConn (W : Type) where
  resp : HttpResponse
  world : W
  sent : List HttpResponse
  threw : Bool

namespace StatServer

variable {W : Type}

def connected (w : W) : StatConn W := ⟨.cleared, w, [], false⟩

/-- The server's callback for one request. -/
def serve (svr : StatServer W) (s : StatConn W) (req : HttpRequest) : StatConn W :=
  if s.threw then s
  else
    match svr.answer req s.resp s.world with
    | none => { s with threw := true }
    | some (resp, w) => ⟨resp, w, s.sent ++ [resp], false⟩

/-! ## What the callbacks leave -/

/-- What a callback of one of the overloads does to the response. -/
inductive Shown where
  | nothing
  | info (body : Bytes)
  | file (got : Bytes)
  | missing
deriving DecidableEq

def Shown.apply (resp : HttpResponse) : Shown → HttpResponse
  | .nothing => resp
  | .info body => { resp with body := body }
  | .file got =>
      { resp with
        body := resp.body ++ got
        headers := resp.headers.insert contentType textPlain }
  | .missing => resp.setNotFound

/-- A callback that never looks at the response it is given. -/
def Plain (cb : StatCallBack W) : Prop :=
  ∀ req w, ∃ e w', e ≠ Shown.nothing ∧ ∀ resp, cb req resp w = (Shown.apply resp e, w')

/-- All callbacks are such, as those of the overloads are. -/
def Offered (svr : StatServer W) : Prop :=
  ∀ (key : Bytes) (cb : StatCallBack W), svr.allcbs[key]? = some cb → Plain cb

theorem plain_info (cb : InfoCallBack W) : Plain (infoCallBack cb) :=
  fun _ w => ⟨.info (cb w).1, (cb w).2, by simp, fun _ => rfl⟩

theorem plain_pageFile (read : W → (Bytes × Status.Value) × W) : Plain (pageFileCallBack read) := by
  intro req w
  cases hok : (read w).1.2.ok with
  | true =>
      refine ⟨.file (read w).1.1, (read w).2, by simp, fun resp => ?_⟩
      simp only [pageFileCallBack, hok, if_true, Shown.apply]
  | false =>
      refine ⟨.missing, (read w).2, by simp, fun resp => ?_⟩
      simp only [pageFileCallBack, hok, Bool.false_eq_true, if_false, Shown.apply]
      rfl

theorem offered_new : Offered (new : StatServer W) := by
  intro key cb h
  simp [new] at h

theorem Offered.onRequest {svr : StatServer W} (h : svr.Offered) {cb : StatCallBack W}
    (hcb : Plain cb) (type : StatType) (key desc : Bytes) :
    (svr.onRequest type key desc cb).Offered := by
  have hall : (svr.onRequest type key desc cb).allcbs = svr.allcbs.insert key cb := by
    cases type <;> rfl
  intro key' cb' hget
  rw [hall, Std.ExtTreeMap.getElem?_insert] at hget
  split at hget
  · cases hget
    exact hcb
  · exact h key' cb' hget

theorem Offered.onRequestInfo {svr : StatServer W} (h : svr.Offered) (type : StatType)
    (key desc : Bytes) (cb : InfoCallBack W) : (svr.onRequestInfo type key desc cb).Offered :=
  h.onRequest (plain_info cb) type key desc

theorem Offered.onRequestInt {svr : StatServer W} (h : svr.Offered) (type : StatType)
    (key desc : Bytes) (cb : IntCallBack W) : (svr.onRequestInt type key desc cb).Offered :=
  h.onRequestInfo type key desc _

theorem Offered.onPageFile {svr : StatServer W} (h : svr.Offered) (page desc : Bytes)
    (read : W → (Bytes × Status.Value) × W) : (svr.onPageFile page desc read).Offered :=
  h.onRequest (plain_pageFile read) .page page desc

/-- What the page for `/` makes of the response. -/
def finish (req : HttpRequest) (query buf : Bytes) (resp : HttpResponse) : HttpResponse :=
  if req.uri = [0x2f] then
    { resp with body := if resp.body = [] then buf else buf ++ subQuery query resp.body }
  else resp

/-- What a request does is the same whatever response it finds. -/
theorem Offered.answer_eq {svr : StatServer W} (h : svr.Offered) {req : HttpRequest}
    {query : Bytes} (hquery : query? req = some query) (w : W) :
    ∃ e buf w', (query = [] → e = .nothing) ∧ (query ≠ [] → e ≠ .nothing) ∧
      ∀ resp, svr.answer req resp w = some (finish req query buf (Shown.apply resp e), w') := by
  have hpage : ∀ e w', ∃ buf w'', ∀ resp : HttpResponse,
      (if req.uri = [0x2f] then
        let (buf, w'') := svr.tables req w'
        let buf := if (Shown.apply resp e).body = [] then buf
          else buf ++ subQuery query (Shown.apply resp e).body
        some ({ Shown.apply resp e with body := buf }, w'')
      else some (Shown.apply resp e, w')) =
      some (finish req query buf (Shown.apply resp e), w'') := by
    intro e w'
    by_cases hroot : req.uri = [0x2f]
    · refine ⟨(svr.tables req w').1, (svr.tables req w').2, fun resp => ?_⟩
      simp only [finish, if_pos hroot]
    · refine ⟨[], w', fun resp => ?_⟩
      simp only [finish, if_neg hroot]
  unfold answer
  simp only [hquery]
  by_cases hnil : query = []
  · obtain ⟨buf, w', hresp⟩ := hpage .nothing w
    refine ⟨.nothing, buf, w', fun _ => rfl, fun hne => absurd hnil hne, fun resp => ?_⟩
    simp only [if_pos hnil]
    exact hresp resp
  · simp only [if_neg hnil]
    cases hcb : svr.allcbs[query]? with
    | none =>
        obtain ⟨buf, w', hresp⟩ := hpage .missing w
        exact ⟨.missing, buf, w', fun heq => absurd heq hnil, fun _ => by simp, hresp⟩
    | some cb =>
        obtain ⟨e, w', hsome, hshown⟩ := h query cb hcb req w
        obtain ⟨buf, w'', hresp⟩ := hpage e w'
        refine ⟨e, buf, w'', fun heq => absurd heq hnil, fun _ => hsome, fun resp => ?_⟩
        simp only [hshown resp]
        exact hresp resp

@[simp] theorem finish_status (req : HttpRequest) (query buf : Bytes) (resp : HttpResponse) :
    (finish req query buf resp).status = resp.status := by
  unfold finish
  split <;> rfl

@[simp] theorem finish_headers (req : HttpRequest) (query buf : Bytes) (resp : HttpResponse) :
    (finish req query buf resp).headers = resp.headers := by
  unfold finish
  split <;> rfl

theorem apply_status (e : Shown) (resp : HttpResponse) :
    (Shown.apply resp e).status = 404 ↔
      resp.status = 404 ∨ (Shown.apply HttpResponse.cleared e).status = 404 := by
  have hcleared : HttpResponse.cleared.status = 200 := rfl
  cases e with
  | nothing => simp [Shown.apply, hcleared]
  | info body => simp [Shown.apply, hcleared]
  | file got => simp [Shown.apply, hcleared]
  | missing => simp [Shown.apply, HttpResponse.setNotFound, HttpResponse.setStatus]

theorem apply_headers (e : Shown) (resp : HttpResponse) :
    contentType ∈ (Shown.apply resp e).headers ↔
      contentType ∈ resp.headers ∨ contentType ∈ (Shown.apply HttpResponse.cleared e).headers := by
  have hcleared : contentType ∉ HttpResponse.cleared.headers := Std.ExtTreeMap.not_mem_empty
  cases e with
  | nothing => simp [Shown.apply, hcleared]
  | info body => simp [Shown.apply, hcleared]
  | file got => simp [Shown.apply]
  | missing =>
      have hsame : ∀ resp : HttpResponse, (Shown.apply resp .missing).headers = resp.headers :=
        fun _ => rfl
      rw [hsame, hsame]
      simp [hcleared]

theorem typed_iff (e : Shown) :
    contentType ∈ (Shown.apply HttpResponse.cleared e).headers ↔ ∃ got, e = .file got := by
  have hcleared : contentType ∉ HttpResponse.cleared.headers := Std.ExtTreeMap.not_mem_empty
  cases e with
  | nothing => simpa [Shown.apply] using hcleared
  | info body => simpa [Shown.apply] using hcleared
  | file got => simp [Shown.apply]
  | missing => exact iff_of_false hcleared (by simp)

/-! ## Requests on one connection -/

theorem serve_some {svr : StatServer W} {s : StatConn W} {req : HttpRequest} {r : HttpResponse}
    {w : W} (hthrew : s.threw = false) (h : svr.answer req s.resp s.world = some (r, w)) :
    svr.serve s req = ⟨r, w, s.sent ++ [r], false⟩ := by
  simp only [serve, hthrew, Bool.false_eq_true, if_false, h]

/-- What the request would be answered on a connection of its own. -/
def anew (svr : StatServer W) (s : StatConn W) (req : HttpRequest) : List HttpResponse :=
  if s.threw then [] else ((svr.answer req .cleared s.world).map Prod.fst).toList

/-- The marks on the response are those of all the answers so far. -/
structure Marked (s : StatConn W) (news : List HttpResponse) : Prop where
  status : s.resp.status = 404 ↔ ∃ f ∈ news, f.status = 404
  typed : contentType ∈ s.resp.headers ↔ ∃ f ∈ news, contentType ∈ f.headers

theorem marked_connected (w : W) : Marked (connected w) [] := by
  have hcleared : HttpResponse.cleared.status = 200 := rfl
  refine ⟨by simp [connected, hcleared], ?_⟩
  have hnone : contentType ∉ HttpResponse.cleared.headers := Std.ExtTreeMap.not_mem_empty
  simpa [connected] using hnone

theorem Marked.serve {svr : StatServer W} (hsvr : svr.Offered) {s : StatConn W}
    {news : List HttpResponse} (h : Marked s news) (req : HttpRequest) :
    Marked (svr.serve s req) (news ++ svr.anew s req) := by
  unfold StatServer.serve anew
  cases hthrew : s.threw with
  | true => simpa using h
  | false =>
      simp only [Bool.false_eq_true, if_false]
      cases hquery : query? req with
      | none =>
          have hnone : ∀ resp, svr.answer req resp s.world = none := by
            intro resp
            unfold answer
            simp only [hquery]
          simp only [hnone, Option.map_none, Option.toList_none, List.append_nil]
          exact ⟨h.status, h.typed⟩
      | some query =>
          obtain ⟨e, buf, w', -, -, hresp⟩ := hsvr.answer_eq hquery s.world
          simp only [hresp, Option.map_some, Option.toList_some]
          constructor
          · simp only [finish_status, List.mem_append, List.mem_singleton, or_and_right, exists_or,
              exists_eq_left, ← h.status]
            exact apply_status e s.resp
          · simp only [finish_headers, List.mem_append, List.mem_singleton, or_and_right, exists_or,
              exists_eq_left, ← h.typed]
            exact apply_headers e s.resp

theorem Marked.run {svr : StatServer W} (hsvr : svr.Offered) {s : StatConn W}
    {news : List HttpResponse} (h : Marked s news) (reqs : List HttpRequest) :
    Marked (Driven.run svr.serve s reqs) (news ++ Driven.collect svr.serve svr.anew s reqs) := by
  induction reqs generalizing s news with
  | nil => rw [Driven.collect, List.append_nil]; exact h
  | cons req reqs ih =>
      rw [Driven.collect, ← List.append_assoc]
      exact ih (h.serve hsvr req)

/-- A response on a connection that has had requests before, beside what a connection of its
own would be sent. `404` and the content type of a page file stay for good. The body is the
same for a key that is not shown from a file; a page file is appended to the body before, and
the page for `/` alone takes the body before in. -/
theorem response_kept_alive (svr : StatServer W) (hsvr : svr.Offered) (w : W)
    (before : List HttpRequest) (req : HttpRequest) (query : Bytes)
    (hquery : query? req = some query)
    (hthrew : (Driven.run svr.serve (connected w) before).threw = false) :
    let s := Driven.run svr.serve (connected w) before
    let news := Driven.collect svr.serve svr.anew (connected w) (before ++ [req])
    ∃ r f w', svr.answer req s.resp s.world = some (r, w') ∧
      svr.answer req HttpResponse.cleared s.world = some (f, w') ∧
      (r.status = 404 ↔ ∃ g ∈ news, g.status = 404) ∧
      (contentType ∈ r.headers ↔ ∃ g ∈ news, contentType ∈ g.headers) ∧
      (query ≠ [] → contentType ∉ f.headers → r.body = f.body) ∧
      (contentType ∈ f.headers → req.uri ≠ [0x2f] → r.body = s.resp.body ++ f.body) ∧
      (query = [] → req.uri = [0x2f] → s.resp.body ≠ [] →
        r.body = f.body ++ subQuery [] s.resp.body) := by
  intro s news
  obtain ⟨e, buf, w', hnothing, hsome, hresp⟩ := hsvr.answer_eq hquery s.world
  have hmarked : Marked (svr.serve s req) news := by
    have hrun := (marked_connected w).run hsvr (before ++ [req])
    rw [List.nil_append, Driven.run_append] at hrun
    exact hrun
  rw [serve_some hthrew (hresp s.resp)] at hmarked
  refine ⟨_, _, w', hresp s.resp, hresp .cleared, hmarked.status, hmarked.typed, ?_, ?_, ?_⟩
  · intro hne htyped
    rw [finish_headers, typed_iff] at htyped
    cases e with
    | nothing => exact absurd rfl (hsome hne)
    | info body => unfold finish; split <;> rfl
    | file got => exact absurd ⟨got, rfl⟩ htyped
    | missing => unfold finish; split <;> rfl
  · intro htyped huri
    rw [finish_headers, typed_iff] at htyped
    obtain ⟨got, rfl⟩ := htyped
    simp only [finish, if_neg huri]
    rfl
  · intro hnil huri hbody
    rw [hnothing hnil]
    simp only [finish, if_pos huri, Shown.apply, if_neg hbody, hnil]
    rfl

def onePage : StatServer Unit := new.onRequestInfo .page [0x61] [] fun w => ([0x6f, 0x6b], w)

def requestFor (uri : Bytes) : HttpRequest := { HttpRequest.cleared with uri := uri }

/-- The page is shown with the status that a key nobody registered left. -/
theorem response_kept_alive_after_missing :
    ∃ r w', onePage.answer (requestFor [0x2f, 0x61])
        (Driven.run onePage.serve (connected ()) [requestFor [0x2f, 0x62]]).resp () = some (r, w') ∧
      r.status = 404 ∧ r.body = [0x6f, 0x6b] := by
  have hoffered : onePage.Offered := offered_new.onRequestInfo .page [0x61] [] _
  obtain ⟨r, f, w', hr, hf, hstatus, -, hbody, -, -⟩ :=
    response_kept_alive onePage hoffered () [requestFor [0x2f, 0x62]] (requestFor [0x2f, 0x61]) [0x61]
      (by decide +kernel) (by decide +kernel)
  have hnew : f = { HttpResponse.cleared with body := [0x6f, 0x6b] } := by
    have heval : onePage.answer (requestFor [0x2f, 0x61]) HttpResponse.cleared () =
        some ({ HttpResponse.cleared with body := [0x6f, 0x6b] }, ()) := by
      decide +kernel
    exact (Prod.mk.inj (Option.some.inj (hf.symm.trans heval))).1
  refine ⟨r, w', hr, hstatus.mpr (by decide +kernel), (hbody (by simp) ?_).trans (by rw [hnew])⟩
  rw [hnew]
  exact Std.ExtTreeMap.not_mem_empty

end StatServer

end Handy
