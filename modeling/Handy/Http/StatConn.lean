import Handy.Http.Exchange
import Handy.Http.Path
import Handy.Http.StatServer

/-! # The statistics server on a connection

The parser takes a request whose first line is empty, and gives it no path. The callback of
`StatServer` cuts the first character off the path, and with none there `assign` throws: the
bytes of an empty line end the process.
-/

namespace Handy

open HttpRequest HttpConn

/-- The connection below and the response above it. -/
structure StatServing (W : Type) where
  http : HttpConn
  stat : StatConn W

namespace StatServing

variable {W : Type}

def start (w : W) : StatServing W := ⟨HttpConn.fresh, StatServer.connected w⟩

/-- A read event. The callback answers before it returns, or throws, and nothing catches it. -/
def read (svr : StatServer W) (s : StatServing W) (new : Bytes) : StatServing W :=
  if s.stat.threw ∨ s.http.fault then s
  else
    let d := s.http.req.tryDecode (s.http.input ++ new) true
    if s.http.input ++ new ≠ [] ∧ d.outcome = .returned .complete then
      let stat := svr.serve s.stat d.msg
      { http := s.http.readAll new (if stat.threw then none else some (stat.resp.text []))
        stat := stat }
    else { s with http := s.http.readAll new none }

def EmptyFirstLine (f : Bytes) : Prop := f.head? = some 0x0d ∨ f.head? = some 0x0a

instance (f : Bytes) : Decidable (EmptyFirstLine f) := inferInstanceAs (Decidable (_ ∨ _))

/-! ## Requests without a path -/

theorem args_of_no_uri (b : Bytes)
    (hout : (cleared.tryDecode b true).outcome = .returned .complete)
    (huri : (cleared.tryDecode b true).msg.uri = []) :
    (cleared.tryDecode b true).msg.args = ∅ := by
  unfold HttpRequest.tryDecode HttpRequest.finish at hout huri ⊢
  simp only at hout huri ⊢
  split at hout
  · cases hout
  · next r hr =>
      simp only [hr] at huri ⊢
      split at hout
      · next hnil =>
          simp only [hnil, if_true]
          rfl
      · next hline =>
          simp only [hline, if_false] at huri ⊢
          unfold HttpRequest.startLine at hout huri
          simp only at hout huri
          split at hout
          · next hslash =>
              exfalso
              obtain ⟨rest, hrest⟩ := List.head?_eq_some_iff.mp hslash
              simp only [hrest, List.head?_cons, if_true] at huri
              split at huri <;> simp at huri
          · simp at hout

theorem uri_eq_nil_iff {f : Bytes} (hf : Whole f) :
    (cleared.tryDecode f true).msg.uri = [] ↔ EmptyFirstLine f := by
  obtain ⟨-, block, hblock, -, -⟩ := (whole_iff f).mp hf
  have hgoes : ended (cleared.tryDecode f true).outcome = false := by
    rw [hf.1]
    rfl
  have hline := (fromLine_of_goes hblock hgoes).1
  obtain ⟨hne, -, -, htake⟩ := HttpMsg.headerBlock_eq_some hblock
  obtain ⟨x, tail, rfl⟩ := List.exists_cons_of_ne_nil hne
  have hhead : f.head? = some x := by
    rw [← List.take_append_drop (x :: tail).length f, htake]
    rfl
  have hline1 : (HttpMsg.parseHead (x :: tail)).line1 = [] ↔ x = 0x0a ∨ x = 0x0d :=
    Slice.eatLine_eq_nil x tail
  unfold EmptyFirstLine
  rw [hhead, Option.some.injEq, Option.some.injEq, or_comm, ← hline1]
  by_cases hnil : (HttpMsg.parseHead (x :: tail)).line1 = []
  · refine iff_of_true ?_ hnil
    rw [hline.uri, hnil]
    rfl
  · refine iff_of_false ?_ hnil
    intro huri
    have hvalid := (hline.valid_iff.mpr hnil).2
    rw [huri] at hvalid
    cases hvalid

/-- The callback throws for a request with an empty first line only. -/
theorem query_eq_none_iff {f : Bytes} (hf : Whole f) :
    StatServer.query? (cleared.tryDecode f true).msg = none ↔ EmptyFirstLine f := by
  rw [← uri_eq_nil_iff hf]
  unfold StatServer.query?
  constructor
  · intro hquery
    split at hquery
    · split at hquery
      · next huri => exact huri
      · cases hquery
    · cases hquery
  · intro huri
    have hargs := args_of_no_uri f hf.1 huri
    have hnone : (cleared.tryDecode f true).msg.args.getValue (ascii "stat") = [] := by
      rw [hargs]
      simp [Dict.getValue]
    rw [if_pos hnone, if_pos huri]

/-! ## Read events -/

theorem readAll_served (c : HttpConn) (new : Bytes) (answer : Option Bytes) :
    (c.readAll new answer).served =
      if c.input ++ new ≠ [] ∧
          (c.req.tryDecode (c.input ++ new) true).outcome = .returned .complete then
        c.served ++ [(c.pos, (c.req.tryDecode (c.input ++ new) true).msg)]
      else c.served := by
  unfold HttpConn.readAll
  simp only
  split
  · next hnil => simp [hnil]
  · next hne =>
      unfold HttpConn.handleRead
      simp only
      split
      · next hout => simp [hout]
      · next hout => simp [hout]
      · next hout => simp [hout]
      · next hout =>
          rw [callback_served, if_pos ⟨hne, hout⟩]
      · next hout => simp [hout]

/-- What a read event does when no request is complete behind it. -/
theorem read_waits {svr : StatServer W} {s : StatServing W} {new : Bytes}
    (hthrew : s.stat.threw = false) (hfault : s.http.fault = false)
    (hsame : (s.http.readAll new none).served = s.http.served) :
    s.read svr new = { s with http := s.http.readAll new none } := by
  rw [readAll_served] at hsame
  unfold StatServing.read
  simp only [hthrew, hfault, Bool.false_eq_true, or_self, if_false]
  split
  · next hdone =>
      rw [if_pos hdone] at hsame
      simp at hsame
  · rfl

/-- What it does when one is. -/
theorem read_serves {svr : StatServer W} {s : StatServing W} {new : Bytes} {pos : Nat}
    {req : HttpRequest} (hthrew : s.stat.threw = false) (hfault : s.http.fault = false)
    (hmore : (s.http.readAll new none).served = s.http.served ++ [(pos, req)]) :
    s.read svr new =
      ⟨s.http.readAll new
        (if (svr.serve s.stat req).threw then none else some ((svr.serve s.stat req).resp.text [])),
        svr.serve s.stat req⟩ := by
  rw [readAll_served] at hmore
  unfold StatServing.read
  simp only [hthrew, hfault, Bool.false_eq_true, or_self, if_false]
  split
  · next hdone =>
      rw [if_pos hdone] at hmore
      have hreq := (Prod.mk.inj (List.cons.inj (List.append_cancel_left hmore)).1).2
      rw [hreq]
  · next hwaits =>
      rw [if_neg hwaits] at hmore
      simp at hmore

theorem read_threw {svr : StatServer W} {s : StatServing W} (hthrew : s.stat.threw = true)
    (chunks : List Bytes) : Driven.run (read svr) s chunks = s := by
  induction chunks with
  | nil => rfl
  | cons new chunks ih =>
      have hstays : s.read svr new = s := by
        unfold StatServing.read
        rw [if_pos (Or.inl hthrew)]
      rw [Driven.run_cons, hstays, ih]

theorem answer_isSome {svr : StatServer W} {req : HttpRequest} {query : Bytes}
    (h : StatServer.query? req = some query) (resp : HttpResponse) (w : W) :
    ∃ r w', svr.answer req resp w = some (r, w') := by
  unfold StatServer.answer
  simp only [h]
  by_cases hroot : req.uri = [0x2f]
  · simp only [if_pos hroot]
    exact ⟨_, _, rfl⟩
  · simp only [if_neg hroot]
    exact ⟨_, _, rfl⟩

theorem serve_threw (svr : StatServer W) {s : StatConn W} (h : s.threw = false)
    (req : HttpRequest) :
    (svr.serve s req).threw = true ↔ StatServer.query? req = none := by
  cases hquery : StatServer.query? req with
  | none =>
      have hnone : svr.answer req s.resp s.world = none := by
        unfold StatServer.answer
        simp only [hquery]
      simp [StatServer.serve, h, hnone]
  | some query =>
      have hsome : ∃ r w', svr.answer req s.resp s.world = some (r, w') :=
        answer_isSome hquery s.resp s.world
      obtain ⟨r, w', hr⟩ := hsome
      simp [StatServer.serve_some h hr]

theorem readAll_unanswered (c : HttpConn) (new resp : Bytes) :
    (c.readAll new (some resp)).unanswered = c.unanswered := by
  rw [readAll_some]
  have hnone : (c.readAll new none).unanswered =
      c.unanswered + ((c.readAll new none).served.length - c.served.length) := by
    unfold HttpConn.readAll
    simp only
    split
    · simp
    · unfold HttpConn.handleRead
      simp only
      split
      · simp
      · simp
      · simp
      · simp [HttpConn.callback]
      · simp
  have hserved : (c.readAll new none).served.length ≤ c.served.length + 1 := by
    rw [readAll_served]
    split
    · simp
    · omega
  split
  · rw [(sendResponse_rest _ resp).2.2, hnone]
    omega
  · rw [hnone]
    omega

theorem readAll_waits_unanswered {c : HttpConn} {new : Bytes}
    (h : (c.readAll new none).served = c.served) :
    (c.readAll new none).unanswered = c.unanswered := by
  have hsome := readAll_unanswered c new []
  rw [readAll_some, h, if_neg (Nat.lt_irrefl _)] at hsome
  exact hsome

/-- A read event serves the next request, or none. -/
theorem next_served {fs old rest : List Bytes} {got new later : Bytes} {c : HttpConn}
    (h : OnTime old got c) (hfs : ∀ f ∈ fs, Whole f) (hsplit : old ++ rest = fs)
    (hstream : got ++ new ++ later = fs.flatten) (hidle : c.unanswered = 0)
    (answer : Option Bytes) :
    if old.length < wholeIn fs (got.length + new.length) then
      ∃ rest', rest = rest.headI :: rest' ∧
        OnTime (old ++ [rest.headI]) (got ++ new) (c.readAll new answer)
    else OnTime old (got ++ new) (c.readAll new answer) := by
  obtain ⟨old', rest', hsplit', hlen, hnext⟩ := h.readAll hfs hsplit hstream hidle answer
  rw [← hsplit] at hsplit'
  split at hlen
  · next hmore =>
      rw [if_pos hmore]
      cases rest with
      | nil =>
          have hlong := congrArg List.length hsplit'
          rw [List.append_nil, List.length_append] at hlong
          omega
      | cons f rest =>
          rw [List.append_cons] at hsplit'
          have hsame := List.append_inj hsplit' (by rw [hlen, List.length_append]; rfl)
          exact ⟨rest, rfl, hsame.1 ▸ hnext⟩
  · next hnone =>
      rw [if_neg hnone]
      exact (List.append_inj hsplit' hlen).1 ▸ hnext

theorem le_done (k : Nat) (ws : List Nat) : k ≤ Backlog.done k ws := by
  induction ws generalizing k with
  | nil => exact Nat.le_refl k
  | cons w ws ih =>
      rw [Backlog.done]
      split
      · exact Nat.le_trans (Nat.le_succ k) (ih (k + 1))
      · exact ih k

/-- The read events, as far as the connection below sees them. -/
def events (chunks : List Bytes) : List HttpEvent := chunks.map fun new => .read new none

theorem threw_iff_from {svr : StatServer W} {fs old rest : List Bytes} {got : Bytes}
    {s : StatServing W} (hfs : ∀ f ∈ fs, Whole f) (h : OnTime old got s.http)
    (hidle : s.http.unanswered = 0) (hthrew : s.stat.threw = false) (hsplit : old ++ rest = fs)
    (hfine : ∀ f ∈ old, ¬ EmptyFirstLine f) {chunks : List Bytes}
    (hstream : got ++ chunks.flatten = fs.flatten) :
    (Driven.run (read svr) s chunks).stat.threw = true ↔
      ∃ f ∈ fs.take (Backlog.done old.length (arrivals fs got.length (events chunks))),
        EmptyFirstLine f := by
  induction chunks generalizing old rest got s with
  | nil =>
      have htake : fs.take old.length = old := by rw [← hsplit, List.take_left]
      show s.stat.threw = true ↔ ∃ f ∈ fs.take old.length, EmptyFirstLine f
      rw [hthrew, htake]
      exact iff_of_false Bool.false_ne_true fun ⟨f, hf, hempty⟩ => hfine f hf hempty
  | cons new chunks ih =>
      rw [List.flatten_cons, ← List.append_assoc] at hstream
      have hnext := fun answer => next_served h hfs hsplit hstream hidle answer
      have hcount : Backlog.done old.length (arrivals fs got.length (events (new :: chunks))) =
          Backlog.done (if old.length < wholeIn fs (got.length + new.length) then old.length + 1
            else old.length) (arrivals fs (got ++ new).length (events chunks)) := by
        rw [List.length_append]
        rfl
      rw [Driven.run_cons, hcount]
      split
      · next hmore =>
          simp only [if_pos hmore] at hnext
          obtain ⟨rest', hrest, hnone⟩ := hnext none
          have hsplit' : (old ++ [rest.headI]) ++ rest' = fs := by
            rw [← List.append_cons, ← hrest, hsplit]
          have hf : Whole rest.headI := by
            apply hfs
            rw [← hsplit', List.mem_append]
            exact Or.inl (by simp)
          have hserved : (s.http.readAll new none).served =
              s.http.served ++ [(old.flatten.length, (cleared.tryDecode rest.headI true).msg)] := by
            rw [hnone.served, requests_append, h.served, Nat.zero_add]
            rfl
          rw [read_serves hthrew h.fault hserved]
          by_cases hempty : EmptyFirstLine rest.headI
          · have hnow := (serve_threw svr hthrew _).mpr ((query_eq_none_iff hf).mpr hempty)
            rw [read_threw hnow]
            refine iff_of_true hnow ⟨rest.headI, ?_, hempty⟩
            have hle := le_done (old.length + 1)
              (arrivals fs (got ++ new).length (events chunks))
            have hall : (old ++ [rest.headI]).length ≤ Backlog.done (old.length + 1)
                (arrivals fs (got ++ new).length (events chunks)) := by
              rw [List.length_append]
              exact hle
            rw [← hsplit', List.take_append, List.take_of_length_le (hsplit'.symm ▸ hall)]
            exact List.mem_append_left _ (by simp)
          · have hgoes : (svr.serve s.stat (cleared.tryDecode rest.headI true).msg).threw = false := by
              rw [← Bool.not_eq_true, serve_threw svr hthrew, query_eq_none_iff hf]
              exact hempty
            simp only [hgoes, Bool.false_eq_true, if_false]
            obtain ⟨_, _, hsome⟩ := hnext
              (some ((svr.serve s.stat (cleared.tryDecode rest.headI true).msg).resp.text []))
            have hlen : (old ++ [rest.headI]).length = old.length + 1 := by simp
            rw [← hlen]
            refine ih hsome ((readAll_unanswered _ _ _).trans hidle) hgoes hsplit' ?_ hstream
            intro f hf
            rcases List.mem_append.mp hf with hf | hf
            · exact hfine f hf
            · rw [List.mem_singleton.mp hf]
              exact hempty
      · next hnone =>
          simp only [if_neg hnone] at hnext
          have hserved : (s.http.readAll new none).served = s.http.served := by
            rw [(hnext none).served, h.served]
          rw [read_waits hthrew h.fault hserved]
          exact ih (hnext none) ((readAll_waits_unanswered hserved).trans hidle) hthrew hsplit hfine
            hstream

/-- A connection of requests that come whole, cut anyhow: an exception ends the process exactly
when a request whose first line is empty is served, whatever callbacks are registered. A read
event serves one request. -/
theorem threw_iff (svr : StatServer W) (w : W) (fs : List Bytes) (hfs : ∀ f ∈ fs, Whole f)
    (chunks : List Bytes) (hstream : chunks.flatten = fs.flatten) :
    (Driven.run (read svr) (start w) chunks).stat.threw = true ↔
      ∃ f ∈ fs.take (Backlog.done 0 (arrivals fs 0 (events chunks))), EmptyFirstLine f := by
  have hfine : ∀ f ∈ ([] : List Bytes), ¬ EmptyFirstLine f := fun f hf => by cases hf
  have hsplit : [] ++ fs = fs := rfl
  have hstream' : [] ++ chunks.flatten = fs.flatten := hstream
  exact threw_iff_from hfs onTime_fresh rfl rfl hsplit hfine hstream'

/-- A line end, a header and the blank line, cut in two, end a server that offers nothing. -/
theorem threw_iff_blank :
    (Driven.run (read (StatServer.new : StatServer Unit)) (start ())
      [[0x0d, 0x0a, 0x61], [0x3a, 0x20, 0x62, 0x0d, 0x0a, 0x0d, 0x0a]]).stat.threw = true :=
  (threw_iff _ _ [[0x0d, 0x0a, 0x61, 0x3a, 0x20, 0x62, 0x0d, 0x0a, 0x0d, 0x0a]] (by decide +kernel) _
    rfl).mpr (by decide +kernel)

end StatServing

end Handy
