import Handy.Http.Fragments
import Handy.Lib.Backlog
import Handy.Lib.Run

/-! # An HTTP server connection

`HttpConnPtr` on a server connection: `handleRead` decodes what has arrived and
calls the user's callback for a complete request, `sendResponse` takes the
request out of the buffer and clears the parser, in the callback or later. One
read event serves at most one request, and an event that comes while a response
is still to be sent serves the same request again; a schedule of events serves
every request once exactly when the responses are in time and the read events
keep up with the requests.
-/

namespace Handy

open HttpMsg hiding cleared tryDecode_none

/-- What an `HttpConnPtr` of a server points to: `input_` and what was given to
`output_` of the connection, the request of its `HttpContext`, and whether
`close()` was called. `fault` says that an exception left the loop or `consume`
went past the end. The rest is bookkeeping: the bytes consumed, the calls of the
callback, each with the stream position and the request it got, and how many of
these have not been answered. -/
structure HttpConn where
  input : Bytes
  output : Bytes
  req : HttpRequest
  closing : Bool
  fault : Bool
  pos : Nat
  served : List (Nat × HttpRequest)
  unanswered : Nat
deriving DecidableEq

/-- A read event, with the response the callback sends if it is called and does
not leave it for later, or a response sent between read events. -/
inductive HttpEvent where
  | read (new : Bytes) (answer : Option Bytes)
  | sendResponse (resp : Bytes)
deriving DecidableEq

namespace HttpConn

def fresh : HttpConn where
  input := []
  output := []
  req := HttpRequest.cleared
  closing := false
  fault := false
  pos := 0
  served := []
  unanswered := 0

/-- `"HTTP/1.1 100 Continue\n\r\n"`. -/
def continue100Line : Bytes :=
  [0x48, 0x54, 0x54, 0x50, 0x2f, 0x31, 0x2e, 0x31, 0x20, 0x31, 0x30, 0x30, 0x20, 0x43, 0x6f, 0x6e,
    0x74, 0x69, 0x6e, 0x75, 0x65, 0x0a, 0x0d, 0x0a]

/-- `input_.consume`, which asks for no more than there is. -/
def consume (c : HttpConn) (len : Int) : HttpConn :=
  if 0 ≤ len ∧ len ≤ c.input.length then
    { c with input := c.input.drop len.toNat, pos := c.pos + len.toNat }
  else { c with fault := true }

/-- `HttpConnPtr::clearData` on a server. -/
def clearData (c : HttpConn) : HttpConn :=
  { c.consume c.req.getByte with req := HttpRequest.cleared }

/-- `HttpConnPtr::sendResponse`; `resp` is what `encode` makes of the response. -/
def sendResponse (c : HttpConn) (resp : Bytes) : HttpConn :=
  let c := { c with output := c.output ++ resp }
  { c.clearData with unanswered := c.unanswered - 1 }

/-- The user's callback. -/
def callback (c : HttpConn) (answer : Option Bytes) : HttpConn :=
  let c := { c with
    served := c.served ++ [(c.pos, c.req)]
    unanswered := c.unanswered + 1 }
  match answer with
  | some resp => c.sendResponse resp
  | none => c

/-- `HttpConnPtr::handleRead` on a server. -/
def handleRead (c : HttpConn) (answer : Option Bytes) : HttpConn :=
  let d := c.req.tryDecode c.input true
  let c := { c with req := d.msg, input := d.memory }
  match d.outcome with
  | .lengthError => { c with fault := true }
  | .returned .error => { c with closing := true }
  | .returned .continue100 => { c with output := c.output ++ continue100Line }
  | .returned .complete => c.callback answer
  | .returned .notComplete => c

/-- `TcpConn::handleRead` once it has read all there is: `readcb_` is called if
`input_` holds anything. -/
def readAll (c : HttpConn) (new : Bytes) (answer : Option Bytes) : HttpConn :=
  let c := { c with input := c.input ++ new }
  if c.input = [] then c else c.handleRead answer

def step (c : HttpConn) (e : HttpEvent) : HttpConn :=
  if c.fault then c
  else
    match e with
    | .read new answer => c.readAll new answer
    | .sendResponse resp => c.sendResponse resp

/-! ## What is asked of a schedule -/

/-- One request: the parser takes all of it and nothing else. -/
def Whole (f : Bytes) : Prop :=
  (HttpRequest.cleared.tryDecode f true).outcome = .returned .complete ∧
    (HttpRequest.cleared.tryDecode f true).msg.getByte = f.length

instance (f : Bytes) : Decidable (Whole f) :=
  inferInstanceAs (Decidable ((HttpRequest.cleared.tryDecode f true).outcome = .returned .complete ∧
    (HttpRequest.cleared.tryDecode f true).msg.getByte = f.length))

def received : List HttpEvent → Bytes
  | [] => []
  | .read new _ :: evs => new ++ received evs
  | .sendResponse _ :: evs => received evs

/-- A response goes with a call of the callback that has had none. -/
def Owed (c : HttpConn) : HttpEvent → Prop
  | .read _ _ => True
  | .sendResponse _ => 0 < c.unanswered

instance (c : HttpConn) : (e : HttpEvent) → Decidable (Owed c e)
  | .read _ _ => isTrue trivial
  | .sendResponse _ => inferInstanceAs (Decidable (0 < c.unanswered))

/-- The requests arrive, cut anyhow, and each call of the callback is answered
once, in the call or later. -/
structure Schedule (fs : List Bytes) (evs : List HttpEvent) : Prop where
  arrives : received evs = fs.flatten
  owed : Driven.Along step Owed fresh evs
  answered : (Driven.run step fresh evs).unanswered = 0

instance (fs : List Bytes) (evs : List HttpEvent) : Decidable (Schedule fs evs) :=
  decidable_of_iff (received evs = fs.flatten ∧ Driven.Along step Owed fresh evs ∧
      (Driven.run step fresh evs).unanswered = 0)
    ⟨fun h => ⟨h.1, h.2.1, h.2.2⟩, fun h => ⟨h.arrives, h.owed, h.answered⟩⟩

/-- The calls of the callback when each request is served once: where in the
stream it begins, and what the parser makes of it. -/
def requests (pos : Nat) : List Bytes → List (Nat × HttpRequest)
  | [] => []
  | f :: fs => (pos, (HttpRequest.cleared.tryDecode f true).msg) :: requests (pos + f.length) fs

/-- The callback was called once for each request, in order, and no request is
left in the buffer. -/
def ServedOnce (fs : List Bytes) (c : HttpConn) : Prop :=
  c.served = requests 0 fs ∧
    (HttpRequest.cleared.tryDecode c.input true).outcome ≠ .returned .complete

instance (fs : List Bytes) (c : HttpConn) : Decidable (ServedOnce fs c) :=
  inferInstanceAs (Decidable (c.served = requests 0 fs ∧
    (HttpRequest.cleared.tryDecode c.input true).outcome ≠ .returned .complete))

/-- No read event comes while a response is to be sent. -/
def InTime (c : HttpConn) : HttpEvent → Prop
  | .read _ _ => c.unanswered = 0
  | .sendResponse _ => True

instance (c : HttpConn) : (e : HttpEvent) → Decidable (InTime c e)
  | .read _ _ => inferInstanceAs (Decidable (c.unanswered = 0))
  | .sendResponse _ => isTrue trivial

/-- How many of the requests are whole in the first `n` bytes of the stream. -/
def wholeIn : List Bytes → Nat → Nat
  | [], _ => 0
  | f :: fs, n => if f.length ≤ n then wholeIn fs (n - f.length) + 1 else 0

/-- For each read event, how many requests are whole by then; `n` bytes are there
before the first. -/
def arrivals (fs : List Bytes) (n : Nat) : List HttpEvent → List Nat
  | [] => []
  | .read new _ :: evs =>
      wholeIn fs (n + new.length) :: arrivals fs (n + new.length) evs
  | .sendResponse _ :: evs => arrivals fs n evs

/-! ## Whole requests -/

open HttpRequest

structure Parsed (f : Bytes) (req : HttpRequest) : Prop where
  outcome : ∀ t, (cleared.tryDecode (f ++ t) true).outcome = .returned .complete
  msg : ∀ t, (cleared.tryDecode (f ++ t) true).msg = req
  length : ∀ t, (cleared.tryDecode (f ++ t) true).memory.length = f.length + t.length
  behind : ∀ t, (cleared.tryDecode (f ++ t) true).memory.drop f.length = t
  readable : ∀ t, Readable (f ++ t)
  waits : ∀ p q, p ++ q = f → q ≠ [] → settled (cleared.tryDecode p true).outcome = false
  complete : req.complete = true
  getByte : req.getByte = f.length
  nonempty : f ≠ []

theorem Whole.length_lt {f : Bytes} (h : Whole f) : f.length < 2 ^ 31 := by
  have hlt := toInt32_lt (cleared.tryDecode f true).msg.scanned
  have hbyte : toInt32 (cleared.tryDecode f true).msg.scanned = f.length := h.2
  omega

theorem Whole.sized {f : Bytes} (h : Whole f) : Sized f := by
  have hlt := h.length_lt
  unfold Sized
  omega

/-- A whole request is a header block the parser takes, the blank line, and a body
of the declared length. -/
theorem whole_iff (f : Bytes) :
    Whole f ↔ f.length < 2 ^ 31 ∧ ∃ block, headerBlock f = some block ∧ Accepted block ∧
      (f.length : Int) = block.length + 4 + (parseHead block).declared := by
  constructor
  · intro h
    obtain ⟨block, hblock, haccepted, -, hend, hle, -⟩ := tryDecode_complete h.sized h.1
    have hdown := toInt32_le (cleared.tryDecode f true).msg.scanned
    have hbyte : toInt32 (cleared.tryDecode f true).msg.scanned = f.length := h.2
    exact ⟨h.length_lt, block, hblock, haccepted, by omega⟩
  · rintro ⟨hlt, block, hblock, haccepted, hlen⟩
    have hsized : Sized f := by
      unfold Sized
      omega
    have hout := complete_of_accepted hblock haccepted (Int.le_of_eq hlen.symm)
    obtain ⟨block', hblock', -, -, hend, hle, -⟩ := tryDecode_complete hsized hout
    rw [← Option.some.inj (hblock.symm.trans hblock'), ← hlen] at hend
    refine ⟨hout, ?_⟩
    show toInt32 (cleared.tryDecode f true).msg.scanned = f.length
    rw [toInt32_of_lt (by omega), hend]

theorem Whole.parsed {f : Bytes} (h : Whole f) : Parsed f (cleared.tryDecode f true).msg := by
  obtain ⟨hout, hbyte⟩ := h
  have hsized := Whole.sized ⟨hout, hbyte⟩
  obtain ⟨block, hblock, haccepted, hcomplete, -, hle, hmore⟩ := tryDecode_complete hsized hout
  have hlen := length_rewritten hblock
  have hscanned : (cleared.tryDecode f true).msg.scanned = f.length := by
    have hdown := toInt32_le (cleared.tryDecode f true).msg.scanned
    have heq : toInt32 (cleared.tryDecode f true).msg.scanned = f.length := hbyte
    omega
  refine ⟨fun t => ?_, fun t => ?_, fun t => ?_, fun t => ?_, fun t => ?_, ?_, hcomplete, hbyte, ?_⟩
  · rw [hmore t]
    exact hout
  · rw [hmore t]
  · rw [hmore t, List.length_append, hlen]
  · rw [hmore t, ← hlen, List.drop_left]
  · refine Or.inr fun block' hblock' => ?_
    rw [headerBlock_append hblock t] at hblock'
    rw [← Option.some.inj hblock']
    exact haccepted.declared
  · intro p q hpq hq
    by_contra hset
    rw [Bool.not_eq_false] at hset
    have hsame := settled_append (hpq ▸ hsized) hset
    rw [hpq, hout] at hsame
    have hend := (tryDecode_complete (hpq ▸ hsized : Sized (p ++ q)).shorter hsame.1.symm)
    obtain ⟨_, -, -, -, -, hshort, -⟩ := hend
    rw [← hsame.2 hsame.1.symm, hscanned, ← hpq, List.length_append] at hshort
    have hpos := List.length_pos_of_ne_nil hq
    omega
  · rintro rfl
    have hlong := (headerBlock_eq_some hblock).2.1
    simp at hlong

/-! ## Between two events -/

/-- Nothing is owed, and `b` has arrived behind the last request: a part that the
parser has seen, and a part that it has not. -/
structure Waiting (c : HttpConn) (b : Bytes) : Prop where
  unanswered : c.unanswered = 0
  paused : ∃ xs held rest, Resume.Paused (call true) settled cleared xs c.req held ∧
    c.input = held ++ rest ∧ b = xs ++ rest

/-- The response to `f` is owed; `b` has arrived behind `f`. -/
structure Owing (c : HttpConn) (f b : Bytes) : Prop where
  unanswered : c.unanswered = 1
  req : c.req = (cleared.tryDecode f true).msg
  length : c.input.length = f.length + b.length
  behind : c.input.drop f.length = b

theorem length_held {xs held : Bytes} {req : HttpRequest}
    (h : Resume.Paused (call true) settled cleared xs req held) : held.length = xs.length := by
  obtain ⟨k, -, hheld, hgoes⟩ := h
  have hgoes' : settled (cleared.tryDecode xs k).outcome = false := hgoes
  have hmem : held = (cleared.tryDecode xs k).memory := hheld
  cases hblock : headerBlock xs with
  | none => rw [hmem, tryDecode_none hblock]
  | some block =>
      obtain ⟨-, -, -, hcall⟩ := tryDecode_of_unsettled hblock hgoes'
      rw [hmem, hcall]
      exact length_rewritten hblock

theorem Waiting.length {c : HttpConn} {b : Bytes} (h : Waiting c b) :
    c.input.length = b.length := by
  obtain ⟨xs, held, rest, hpaused, hinput, rfl⟩ := h.paused
  rw [hinput, List.length_append, List.length_append, length_held hpaused]

/-- The parser comes to what it would make of `b` and the new bytes at once. -/
theorem Waiting.decodes {c : HttpConn} {b new : Bytes} (h : Waiting c b)
    (hread : Readable (b ++ new)) :
    call true true c.req (c.input ++ new) = call true true cleared (b ++ new) := by
  obtain ⟨xs, held, rest, hpaused, hinput, rfl⟩ := h.paused
  rw [List.append_assoc] at hread
  rw [hinput, List.append_assoc, List.append_assoc]
  exact (resumable true).feed_eq hpaused true hread

theorem waiting_clear {c : HttpConn} {b : Bytes} (hunanswered : c.unanswered = 0)
    (hreq : c.req = cleared) (hinput : c.input = b) : Waiting c b := by
  refine ⟨hunanswered, [], [], b, ?_, hinput, rfl⟩
  rw [hreq]
  exact (resumable true).paused_nil

/-- The response takes its request out of the buffer. -/
theorem Owing.sendResponse {c : HttpConn} {f b : Bytes} (h : Owing c f b) (hf : Whole f)
    (resp : Bytes) :
    Waiting (c.sendResponse resp) b ∧ (c.sendResponse resp).pos = c.pos + f.length ∧
      (c.sendResponse resp).fault = c.fault ∧ (c.sendResponse resp).served = c.served := by
  have hbyte : c.req.getByte = f.length := by
    rw [h.req]
    exact hf.parsed.getByte
  have hlen := h.length
  have hfits : 0 ≤ c.req.getByte ∧ c.req.getByte ≤ c.input.length := by omega
  have hdrop : c.input.drop c.req.getByte.toNat = b := by
    rw [hbyte, Int.toNat_natCast]
    exact h.behind
  have hsent : c.sendResponse resp =
      { c with
        output := c.output ++ resp
        input := b
        pos := c.pos + f.length
        req := cleared
        unanswered := c.unanswered - 1 } := by
    unfold HttpConn.sendResponse clearData consume
    simp only [if_pos hfits, hdrop]
    simp only [hbyte, Int.toNat_natCast]
  rw [hsent]
  refine ⟨waiting_clear ?_ rfl rfl, rfl, rfl, rfl⟩
  show c.unanswered - 1 = 0
  rw [h.unanswered]

/-- A read event that brings the rest of `f` calls the callback with it. -/
theorem Waiting.serves {c : HttpConn} {b new f t : Bytes} (h : Waiting c b) (hf : Whole f)
    (hmore : b ++ new = f ++ t) (answer : Option Bytes) :
    ∃ c' : HttpConn, c.readAll new answer = c'.callback answer ∧ c'.pos = c.pos ∧
      c'.fault = c.fault ∧ c'.served = c.served ∧ c'.req = (cleared.tryDecode f true).msg ∧
      c'.unanswered = 0 ∧ c'.input.length = f.length + t.length ∧ c'.input.drop f.length = t := by
  have hparsed := hf.parsed
  have hcall := h.decodes (hmore ▸ hparsed.readable t)
  rw [hmore] at hcall
  have hmsg : (c.req.tryDecode (c.input ++ new) true).msg = (cleared.tryDecode f true).msg :=
    (congrArg (·.state) hcall).trans (hparsed.msg t)
  have hmemory : (c.req.tryDecode (c.input ++ new) true).memory =
      (cleared.tryDecode (f ++ t) true).memory := congrArg (·.left) hcall
  have hout : (c.req.tryDecode (c.input ++ new) true).outcome = .returned .complete :=
    (congrArg (·.result) hcall).trans (hparsed.outcome t)
  have hne : c.input ++ new ≠ [] := by
    intro hnil
    have hlen := congrArg List.length hmore
    have hzero := congrArg List.length hnil
    have hpos := List.length_pos_of_ne_nil hparsed.nonempty
    rw [List.length_append, List.length_append] at hlen
    rw [List.length_append, List.length_nil, h.length] at hzero
    omega
  refine ⟨{ c with
    input := (cleared.tryDecode (f ++ t) true).memory
    req := (cleared.tryDecode f true).msg }, ?_, rfl, rfl, rfl, rfl, h.unanswered,
    hparsed.length t, hparsed.behind t⟩
  unfold readAll handleRead
  simp only [if_neg hne, hout, hmsg, hmemory]

theorem Waiting.waits {c : HttpConn} {b new : Bytes} (h : Waiting c b)
    (hready : Readable (b ++ new))
    (hgoes : settled (cleared.tryDecode (b ++ new) true).outcome = false)
    (answer : Option Bytes) :
    Waiting (c.readAll new answer) (b ++ new) ∧ (c.readAll new answer).pos = c.pos ∧
      (c.readAll new answer).fault = c.fault ∧ (c.readAll new answer).served = c.served := by
  have hcall := h.decodes hready
  have hmsg : (c.req.tryDecode (c.input ++ new) true).msg =
      (cleared.tryDecode (b ++ new) true).msg := congrArg (·.state) hcall
  have hmemory : (c.req.tryDecode (c.input ++ new) true).memory =
      (cleared.tryDecode (b ++ new) true).memory := congrArg (·.left) hcall
  have hout : (c.req.tryDecode (c.input ++ new) true).outcome =
      (cleared.tryDecode (b ++ new) true).outcome := congrArg (·.result) hcall
  by_cases hnil : c.input ++ new = []
  · obtain ⟨hinput, hnew⟩ := List.append_eq_nil_iff.mp hnil
    have hkeep : c.readAll new answer = c := by
      unfold readAll
      simp only [hnil, if_true]
      rw [← hinput]
    rw [hkeep, hnew, List.append_nil]
    exact ⟨h, rfl, rfl, rfl⟩
  · have hread : c.readAll new answer =
        { c with input := c.input ++ new }.handleRead answer := if_neg hnil
    rw [hread]
    have hlater : ∀ c' : HttpConn, c'.unanswered = c.unanswered →
        c'.req = (cleared.tryDecode (b ++ new) true).msg →
        c'.input = (cleared.tryDecode (b ++ new) true).memory → Waiting c' (b ++ new) := by
      intro c' hsame hreq hinput
      refine ⟨hsame.trans h.unanswered, b ++ new, c'.input, [], ⟨true, hreq, hinput, hgoes⟩, ?_, ?_⟩
      · rw [List.append_nil]
      · rw [List.append_nil]
    unfold handleRead
    simp only [hout, hmsg, hmemory]
    generalize (cleared.tryDecode (b ++ new) true).outcome = out at hgoes
    cases out with
    | lengthError => cases hgoes
    | returned r =>
        cases r with
        | error => cases hgoes
        | complete => cases hgoes
        | notComplete => exact ⟨hlater _ rfl rfl rfl, rfl, rfl, rfl⟩
        | continue100 => exact ⟨hlater _ rfl rfl rfl, rfl, rfl, rfl⟩

/-! ## Counting requests -/

theorem requests_append (pos : Nat) (old new : List Bytes) :
    requests pos (old ++ new) = requests pos old ++ requests (pos + old.flatten.length) new := by
  induction old generalizing pos with
  | nil => rfl
  | cons f old ih =>
      simp only [List.cons_append, requests, ih, List.flatten_cons, List.length_append,
        Nat.add_assoc]

theorem length_requests (pos : Nat) (fs : List Bytes) : (requests pos fs).length = fs.length := by
  induction fs generalizing pos with
  | nil => rfl
  | cons f fs ih => simp only [requests, List.length_cons, ih]

/-- No two requests begin at the same place. -/
theorem requests_nodup {fs : List Bytes} (hfs : ∀ f ∈ fs, f ≠ []) (pos : Nat) :
    ((requests pos fs).map Prod.fst).Nodup := by
  have hfrom : ∀ (fs : List Bytes) (pos : Nat), ∀ p ∈ (requests pos fs).map Prod.fst, pos ≤ p := by
    intro fs
    induction fs with
    | nil => exact fun pos p hp => absurd hp List.not_mem_nil
    | cons f fs ih =>
        intro pos p hp
        rcases List.mem_cons.mp hp with rfl | hp
        · exact Nat.le_refl _
        · exact Nat.le_trans (Nat.le_add_right _ _) (ih _ p hp)
  induction fs generalizing pos with
  | nil => exact List.nodup_nil
  | cons f fs ih =>
      have hf := List.length_pos_of_ne_nil (hfs f List.mem_cons_self)
      have hfs' : ∀ g ∈ fs, g ≠ [] := fun g hg => hfs g (List.mem_cons_of_mem f hg)
      refine List.nodup_cons.mpr ⟨fun hmem => ?_, ih hfs' _⟩
      have hle := hfrom fs _ pos hmem
      omega

theorem wholeIn_append (old new : List Bytes) (n : Nat) :
    wholeIn (old ++ new) (old.flatten.length + n) = old.length + wholeIn new n := by
  induction old with
  | nil => simp
  | cons f old ih =>
      have hle : f.length ≤ (f :: old).flatten.length + n := by
        rw [List.flatten_cons, List.length_append]
        omega
      have hsub : (f :: old).flatten.length + n - f.length = old.flatten.length + n := by
        rw [List.flatten_cons, List.length_append]
        omega
      rw [List.cons_append, wholeIn, if_pos hle, hsub, ih, List.length_cons]
      omega

theorem wholeIn_le (fs : List Bytes) (n : Nat) : wholeIn fs n ≤ fs.length := by
  induction fs generalizing n with
  | nil => exact Nat.le_refl 0
  | cons f fs ih =>
      rw [wholeIn]
      split
      · exact Nat.succ_le_succ (ih _)
      · exact Nat.zero_le _

theorem wholeIn_mono (fs : List Bytes) {n m : Nat} (h : n ≤ m) : wholeIn fs n ≤ wholeIn fs m := by
  induction fs generalizing n m with
  | nil => exact Nat.le_refl 0
  | cons f fs ih =>
      rw [wholeIn, wholeIn]
      split
      · next hle =>
          rw [if_pos (Nat.le_trans hle h)]
          exact Nat.succ_le_succ (ih (by omega))
      · exact Nat.zero_le _

theorem arrivals_le (fs : List Bytes) (n : Nat) (evs : List HttpEvent) :
    ∀ w ∈ arrivals fs n evs, w ≤ fs.length := by
  induction evs generalizing n with
  | nil => exact fun w hw => absurd hw List.not_mem_nil
  | cons e evs ih =>
      cases e with
      | read new answer =>
          intro w hw
          rcases List.mem_cons.mp hw with rfl | hw
          · exact wholeIn_le fs _
          · exact ih _ w hw
      | sendResponse resp => exact ih n

theorem arrivals_sorted (fs : List Bytes) (n : Nat) (evs : List HttpEvent) :
    (wholeIn fs n :: arrivals fs n evs).Pairwise (· ≤ ·) := by
  induction evs generalizing n with
  | nil => exact List.pairwise_singleton _ _
  | cons e evs ih =>
      cases e with
      | read new answer =>
          have hnow : wholeIn fs n ≤ wholeIn fs (n + new.length) :=
            wholeIn_mono fs (Nat.le_add_right _ _)
          have hlater := ih (n + new.length)
          refine List.pairwise_cons.mpr ⟨fun w hw => ?_, hlater⟩
          rcases List.mem_cons.mp hw with rfl | hw
          · exact hnow
          · exact Nat.le_trans hnow ((List.pairwise_cons.mp hlater).1 w hw)
      | sendResponse resp => exact ih n

/-! ## Runs in time -/

/-- `old` are the requests served, `got` is all that has arrived. -/
structure OnTime (old : List Bytes) (got : Bytes) (c : HttpConn) : Prop where
  served : c.served = requests 0 old
  fault : c.fault = false
  place : (c.pos = old.flatten.length ∧ ∃ b, got = old.flatten ++ b ∧ Waiting c b) ∨
    ∃ past f b, old = past ++ [f] ∧ c.pos = past.flatten.length ∧ got = old.flatten ++ b ∧
      Owing c f b

theorem onTime_fresh : OnTime [] [] fresh :=
  ⟨rfl, rfl, Or.inl ⟨rfl, [], rfl, waiting_clear rfl rfl rfl⟩⟩

theorem OnTime.sendResponse {old : List Bytes} {got : Bytes} {c : HttpConn}
    (h : OnTime old got c) (hold : ∀ f ∈ old, Whole f) (howed : 0 < c.unanswered) (resp : Bytes) :
    OnTime old got (c.sendResponse resp) := by
  rcases h.place with ⟨-, b, -, hwait⟩ | ⟨past, f, b, hpast, hpos, hgot, howing⟩
  · have hnone := hwait.unanswered
    omega
  · have hf : Whole f := hold f (by simp [hpast])
    obtain ⟨hwait, hpos', hfault, hserved⟩ := howing.sendResponse hf resp
    refine ⟨hserved.trans h.served, hfault.trans h.fault, Or.inl ⟨?_, b, hgot, hwait⟩⟩
    rw [hpos', hpos, hpast, List.flatten_append, List.length_append]
    simp

theorem OnTime.callback {old : List Bytes} {f b : Bytes} {c : HttpConn}
    (hserved : c.served = requests 0 old) (hfault : c.fault = false)
    (hpos : c.pos = old.flatten.length) (hreq : c.req = (cleared.tryDecode f true).msg)
    (hunanswered : c.unanswered = 0) (hlength : c.input.length = f.length + b.length)
    (hbehind : c.input.drop f.length = b) (hold : ∀ g ∈ old ++ [f], Whole g)
    (answer : Option Bytes) :
    OnTime (old ++ [f]) ((old ++ [f]).flatten ++ b) (c.callback answer) := by
  have hcalled : OnTime (old ++ [f]) ((old ++ [f]).flatten ++ b)
      { c with
        served := c.served ++ [(c.pos, c.req)]
        unanswered := c.unanswered + 1 } := by
    refine ⟨?_, hfault, Or.inr ⟨old, f, b, rfl, hpos, rfl, ?_, hreq, hlength, hbehind⟩⟩
    · rw [requests_append, Nat.zero_add, ← hserved, hpos, hreq]
      rfl
    · show c.unanswered + 1 = 1
      rw [hunanswered]
  unfold HttpConn.callback
  cases answer with
  | none => exact hcalled
  | some resp => exact hcalled.sendResponse hold (Nat.succ_pos _) resp

theorem OnTime.waits {old : List Bytes} {b chunk : Bytes} {c : HttpConn}
    (h : OnTime old (old.flatten ++ b) c) (hpos : c.pos = old.flatten.length)
    (hwait : Waiting c b) (hready : Readable (b ++ chunk))
    (hgoes : settled (cleared.tryDecode (b ++ chunk) true).outcome = false)
    (answer : Option Bytes) :
    OnTime old (old.flatten ++ b ++ chunk) (c.readAll chunk answer) := by
  obtain ⟨hwait', hpos', hfault, hserved⟩ := hwait.waits hready hgoes answer
  exact ⟨hserved.trans h.served, hfault.trans h.fault,
    Or.inl ⟨hpos'.trans hpos, b ++ chunk, List.append_assoc _ _ _, hwait'⟩⟩

theorem OnTime.serves {old : List Bytes} {b chunk f t : Bytes} {c : HttpConn}
    (h : OnTime old (old.flatten ++ b) c) (hpos : c.pos = old.flatten.length)
    (hwait : Waiting c b) (hold : ∀ g ∈ old ++ [f], Whole g) (hmore : b ++ chunk = f ++ t)
    (answer : Option Bytes) :
    OnTime (old ++ [f]) (old.flatten ++ b ++ chunk) (c.readAll chunk answer) := by
  have hf : Whole f := hold f (by simp)
  obtain ⟨c', hcall, hpos', hfault, hserved, hreq, hunanswered, hlength, hbehind⟩ :=
    hwait.serves hf hmore answer
  have hgot : old.flatten ++ b ++ chunk = (old ++ [f]).flatten ++ t := by
    rw [List.append_assoc, hmore, List.flatten_append, List.append_assoc]
    simp
  rw [hcall, hgot]
  exact OnTime.callback (hserved.trans h.served) (hfault.trans h.fault) (hpos'.trans hpos) hreq
    hunanswered hlength hbehind hold answer

/-- What has arrived holds all of the next request, or is waited on. -/
theorem next_cases {f b later rest : Bytes} (hf : Whole f) (h : b ++ later = f ++ rest) :
    (∃ t, b = f ++ t) ∨ b.length < f.length ∧ Readable b ∧
      settled (cleared.tryDecode b true).outcome = false := by
  rcases List.append_eq_append_iff.mp h with ⟨q, hq, -⟩ | ⟨t, ht, -⟩
  · by_cases hnil : q = []
    · rw [hnil, List.append_nil] at hq
      exact Or.inl ⟨[], by rw [hq, List.append_nil]⟩
    · have hready := hf.parsed.readable []
      have hpos := List.length_pos_of_ne_nil hnil
      rw [List.append_nil, hq] at hready
      refine Or.inr ⟨?_, hready.shorter, hf.parsed.waits b q hq.symm hnil⟩
      rw [hq, List.length_append]
      omega
  · exact Or.inl ⟨t, ht⟩

/-- A read event in time serves the next request if that is whole by then. -/
theorem OnTime.readAll {fs old new : List Bytes} {got chunk later : Bytes} {c : HttpConn}
    (h : OnTime old got c) (hfs : ∀ f ∈ fs, Whole f) (hsplit : old ++ new = fs)
    (hstream : got ++ chunk ++ later = fs.flatten) (hin : c.unanswered = 0)
    (answer : Option Bytes) :
    ∃ old' new', old' ++ new' = fs ∧
      old'.length = (if old.length < wholeIn fs (got.length + chunk.length) then old.length + 1
        else old.length) ∧
      OnTime old' (got ++ chunk) (c.readAll chunk answer) := by
  obtain ⟨hpos, b, rfl, hwait⟩ | ⟨_, f, _, -, -, -, howing⟩ := h.place
  · have hcount : wholeIn fs ((old.flatten ++ b).length + chunk.length) =
        old.length + wholeIn new (b ++ chunk).length := by
      rw [← hsplit, List.length_append, Nat.add_assoc, ← List.length_append, wholeIn_append]
    have hrest : (b ++ chunk) ++ later = new.flatten := by
      rw [← hsplit, List.flatten_append, List.append_assoc, List.append_assoc] at hstream
      rw [List.append_assoc]
      exact List.append_cancel_left hstream
    rw [hcount]
    cases new with
    | nil =>
        have hnil : b ++ chunk = [] := (List.append_eq_nil_iff.mp hrest).1
        refine ⟨old, [], hsplit, ?_, h.waits hpos hwait ?_ ?_ answer⟩
        · rw [wholeIn, if_neg (by omega)]
        · rw [hnil]
          exact Or.inl (by simp [Sized])
        · rw [hnil]
          decide +kernel
    | cons f new =>
        have hsplit' : (old ++ [f]) ++ new = fs := by rw [← List.append_cons, hsplit]
        have hold : ∀ g ∈ old ++ [f], Whole g := fun g hg =>
          hfs g (hsplit' ▸ List.mem_append_left new hg)
        have hf : Whole f := hold f (by simp)
        rw [List.flatten_cons] at hrest
        rcases next_cases hf hrest with ⟨t, ht⟩ | ⟨hshort, hready, hgoes⟩
        · have hwhole : f.length ≤ (b ++ chunk).length := by
            rw [ht, List.length_append]
            omega
          refine ⟨old ++ [f], new, hsplit', ?_, h.serves hpos hwait hold ht answer⟩
          rw [wholeIn, if_pos hwhole, if_pos (by omega), List.length_append]
          rfl
        · have hnone : wholeIn (f :: new) (b ++ chunk).length = 0 := if_neg (Nat.not_le.mpr hshort)
          refine ⟨old, f :: new, hsplit, ?_, h.waits hpos hwait hready hgoes answer⟩
          rw [hnone, if_neg (by omega)]
  · have hone := howing.unanswered
    omega

/-! ## Whole runs -/

theorem step_read {c : HttpConn} (h : c.fault = false) (new : Bytes) (answer : Option Bytes) :
    step c (.read new answer) = c.readAll new answer := by
  rw [step, h, if_neg Bool.false_ne_true]

theorem step_sendResponse {c : HttpConn} (h : c.fault = false) (resp : Bytes) :
    step c (.sendResponse resp) = c.sendResponse resp := by
  rw [step, h, if_neg Bool.false_ne_true]

/-- In a run in time the requests are served as jobs of which each read event
takes one. -/
theorem OnTime.run {fs : List Bytes} (hfs : ∀ f ∈ fs, Whole f) {evs : List HttpEvent}
    {old new : List Bytes} {got : Bytes} {c : HttpConn} (h : OnTime old got c)
    (hsplit : old ++ new = fs) (hstream : got ++ received evs = fs.flatten)
    (howed : Driven.Along step Owed c evs) (hin : Driven.Along step InTime c evs) :
    ∃ old' new', old' ++ new' = fs ∧
      old'.length = Backlog.done old.length (arrivals fs got.length evs) ∧
      OnTime old' fs.flatten (Driven.run step c evs) := by
  induction evs generalizing old new got c with
  | nil =>
      rw [received, List.append_nil] at hstream
      exact ⟨old, new, hsplit, rfl, hstream ▸ h⟩
  | cons e evs ih =>
      cases e with
      | read chunk answer =>
          rw [received, ← List.append_assoc] at hstream
          obtain ⟨old', new', hsplit', hlen, hnext⟩ :=
            h.readAll hfs hsplit hstream hin.1 answer
          rw [← step_read h.fault] at hnext
          obtain ⟨last, rest, hend, hdone, hlast⟩ := ih hnext hsplit' hstream howed.2 hin.2
          refine ⟨last, rest, hend, ?_, hlast⟩
          rw [hdone, hlen, arrivals, Backlog.done, List.length_append]
      | sendResponse resp =>
          have hold : ∀ f ∈ old, Whole f := fun f hf =>
            hfs f (hsplit ▸ List.mem_append_left new hf)
          have hnext := h.sendResponse hold howed.1 resp
          rw [← step_sendResponse h.fault] at hnext
          exact ih hnext hsplit hstream howed.2 hin.2

/-- With everything there and answered, nothing is left when all are served. -/
theorem OnTime.servedOnce_iff {fs old new : List Bytes} {c : HttpConn}
    (h : OnTime old fs.flatten c) (hsplit : old ++ new = fs) (hanswered : c.unanswered = 0) :
    ServedOnce fs c ↔ old.length = fs.length := by
  constructor
  · rintro ⟨hserved, -⟩
    have hsame := congrArg List.length (h.served.symm.trans hserved)
    rwa [length_requests, length_requests] at hsame
  · intro hlen
    have hnil : new = [] := by
      rw [← hsplit, List.length_append] at hlen
      exact List.length_eq_zero_iff.mp (by omega)
    rw [hnil, List.append_nil] at hsplit
    refine ⟨hsplit ▸ h.served, ?_⟩
    rcases h.place with ⟨-, b, hgot, hwait⟩ | ⟨_, _, _, -, -, -, howing⟩
    · have hb : b = [] := by
        rw [hsplit] at hgot
        simpa using hgot
      have hinput : c.input = [] := by
        rw [← List.length_eq_zero_iff, hwait.length, hb, List.length_nil]
      rw [hinput]
      decide +kernel
    · have hone := howing.unanswered
      omega

@[simp] theorem sendResponse_served (c : HttpConn) (resp : Bytes) :
    (c.sendResponse resp).served = c.served := by
  unfold HttpConn.sendResponse clearData consume
  simp only
  split <;> rfl

theorem callback_served (c : HttpConn) (answer : Option Bytes) :
    (c.callback answer).served = c.served ++ [(c.pos, c.req)] := by
  unfold HttpConn.callback
  cases answer with
  | none => rfl
  | some resp => simp

/-- A call of the callback cannot be taken back. -/
theorem served_grows (c : HttpConn) (e : HttpEvent) : c.served <+: (step c e).served := by
  unfold step
  split
  · exact List.prefix_rfl
  · cases e with
    | sendResponse resp =>
        simp only [sendResponse_served]
        exact List.prefix_rfl
    | read new answer =>
        simp only [readAll]
        split
        · exact List.prefix_rfl
        · unfold handleRead
          simp only
          split
          · exact List.prefix_rfl
          · exact List.prefix_rfl
          · exact List.prefix_rfl
          · rw [callback_served]
            exact List.prefix_append _ _
          · exact List.prefix_rfl

/-- A read event that comes while a response is owed calls the callback with the
same request. -/
theorem OnTime.late {old : List Bytes} {got : Bytes} {c : HttpConn} (h : OnTime old got c)
    (hold : ∀ f ∈ old, Whole f) (hlate : c.unanswered ≠ 0) (new : Bytes)
    (answer : Option Bytes) :
    (step c (.read new answer)).served = c.served ++ [(c.pos, c.req)] ∧
      c.pos ∈ c.served.map Prod.fst := by
  rcases h.place with ⟨-, b, -, hwait⟩ | ⟨past, f, b, hpast, hpos, -, howing⟩
  · exact absurd hwait.unanswered hlate
  · have hf : Whole f := hold f (by simp [hpast])
    have hcomplete : c.req.complete = true := by
      rw [howing.req]
      exact hf.parsed.complete
    have hne : c.input ++ new ≠ [] := by
      intro hnil
      have hzero := congrArg List.length hnil
      have hsize := List.length_pos_of_ne_nil hf.parsed.nonempty
      rw [List.length_append, howing.length, List.length_nil] at hzero
      omega
    constructor
    · rw [step_read h.fault, HttpConn.readAll]
      simp only [if_neg hne]
      unfold handleRead
      simp only [tryDecode_again hcomplete]
      exact callback_served _ answer
    · rw [h.served, hpast, requests_append, Nat.zero_add, hpos]
      simp [requests]

/-- Serving each request once takes being in time: what was served twice stays
served twice. -/
theorem OnTime.inTime {fs : List Bytes} (hfs : ∀ f ∈ fs, Whole f) {evs : List HttpEvent}
    {old new : List Bytes} {got : Bytes} {c : HttpConn} (h : OnTime old got c)
    (hsplit : old ++ new = fs) (hstream : got ++ received evs = fs.flatten)
    (howed : Driven.Along step Owed c evs)
    (hserved : (Driven.run step c evs).served = requests 0 fs) :
    Driven.Along step InTime c evs := by
  induction evs generalizing old new got c with
  | nil => trivial
  | cons e evs ih =>
      have hold : ∀ f ∈ old, Whole f := fun f hf => hfs f (hsplit ▸ List.mem_append_left new hf)
      cases e with
      | sendResponse resp =>
          have hnext := h.sendResponse hold howed.1 resp
          rw [← step_sendResponse h.fault] at hnext
          exact ⟨trivial, ih hnext hsplit hstream howed.2 hserved⟩
      | read chunk answer =>
          by_cases hin : c.unanswered = 0
          · rw [received, ← List.append_assoc] at hstream
            obtain ⟨old', new', hsplit', -, hnext⟩ := h.readAll hfs hsplit hstream hin answer
            rw [← step_read h.fault] at hnext
            exact ⟨hin, ih hnext hsplit' hstream howed.2 hserved⟩
          · obtain ⟨htwice, hbefore⟩ := h.late hold hin chunk answer
            have hgrows : ∀ evs c, c.served <+: (Driven.run step c evs).served := by
              intro evs
              induction evs with
              | nil => exact fun c => List.prefix_rfl
              | cons e evs ih => exact fun c => (served_grows c e).trans (ih _)
            have htold : c.served ++ [(c.pos, c.req)] <+: requests 0 fs := by
              rw [← htwice, ← hserved]
              exact hgrows evs _
            have hnodup := requests_nodup (fun f hf => (hfs f hf).parsed.nonempty) 0
            have honce := ((htold.map Prod.fst).sublist).nodup hnodup
            rw [List.map_append, List.nodup_append] at honce
            exact absurd rfl (honce.2.2 c.pos hbefore c.pos (by simp))

theorem wholeIn_zero {fs : List Bytes} (hfs : ∀ f ∈ fs, f ≠ []) : wholeIn fs 0 = 0 := by
  cases fs with
  | nil => rfl
  | cons f fs =>
      have hf := List.length_pos_of_ne_nil (hfs f List.mem_cons_self)
      rw [wholeIn, if_neg (by omega)]

/-- Every request is served once if and only if every response is sent before the
next read event, and at no point are more requests still to become whole than
read events to come. -/
theorem requests_served_once_iff (fs : List Bytes) (hfs : ∀ f ∈ fs, Whole f)
    (evs : List HttpEvent) (hs : Schedule fs evs) :
    ServedOnce fs (Driven.run step fresh evs) ↔
      Driven.Along step InTime fresh evs ∧
        Backlog.KeepsUp fs.length 0 (arrivals fs 0 evs) := by
  have hnonempty : ∀ f ∈ fs, f ≠ [] := fun f hf => (hfs f hf).parsed.nonempty
  have hsorted := arrivals_sorted fs 0 evs
  rw [wholeIn_zero hnonempty] at hsorted
  have hcount := Backlog.done_eq_iff (Nat.le_refl 0) (Nat.zero_le _) hsorted
    (arrivals_le fs 0 evs)
  have hiff : Driven.Along step InTime fresh evs →
      (ServedOnce fs (Driven.run step fresh evs) ↔
        Backlog.KeepsUp fs.length 0 (arrivals fs 0 evs)) := by
    intro hin
    obtain ⟨old, new, hsplit, hlen, hend⟩ :=
      onTime_fresh.run hfs (List.nil_append fs) hs.arrives hs.owed hin
    have hdone : old.length = Backlog.done 0 (arrivals fs 0 evs) := hlen
    rw [hend.servedOnce_iff hsplit hs.answered, hdone, hcount]
    exact ⟨fun h => h.2, fun h => ⟨h.le, h⟩⟩
  constructor
  · intro honce
    have hin : Driven.Along step InTime fresh evs :=
      onTime_fresh.inTime hfs (List.nil_append fs) hs.arrives hs.owed honce.1
    exact ⟨hin, (hiff hin).mp honce⟩
  · rintro ⟨hin, hkeeps⟩
    exact (hiff hin).mpr hkeeps

/-- `"G /\r\n\r\n"`. -/
def shortRequest : Bytes := [0x47, 0x20, 0x2f, 0x0d, 0x0a, 0x0d, 0x0a]

/-- `"G /a\r\nb: c\r\n\r\n"`. -/
def longerRequest : Bytes :=
  [0x47, 0x20, 0x2f, 0x61, 0x0d, 0x0a, 0x62, 0x3a, 0x20, 0x63, 0x0d, 0x0a, 0x0d, 0x0a]

/-- The second request begins in the read event that ends the first, whose
response comes later. -/
def answeredInTime : List HttpEvent :=
  [.read (shortRequest.take 4) none,
    .read (shortRequest.drop 4 ++ longerRequest.take 9) none,
    .sendResponse [0x61],
    .read (longerRequest.drop 9) (some [0x62])]

theorem requests_served_once_iff_in_time :
    ServedOnce [shortRequest, longerRequest] (Driven.run step fresh answeredInTime) :=
  (requests_served_once_iff [shortRequest, longerRequest] (by decide +kernel) answeredInTime
    (by decide +kernel)).mpr (by decide +kernel)

def pipelined : List HttpEvent := [.read (shortRequest ++ longerRequest) (some [0x61])]

/-- The response to the first request is sent after the second has come. -/
def deferred : List HttpEvent :=
  [.read shortRequest none, .read longerRequest none, .sendResponse [0x61], .sendResponse [0x62]]

/-- In the first run the second request is never served, in the second run the
first one is served twice instead. -/
theorem request_stranded :
    (Whole shortRequest ∧ Whole longerRequest) ∧
      (Schedule [shortRequest, longerRequest] pipelined ∧
        ¬ ServedOnce [shortRequest, longerRequest] (Driven.run step fresh pipelined)) ∧
      Schedule [shortRequest, longerRequest] deferred ∧
        ¬ ServedOnce [shortRequest, longerRequest] (Driven.run step fresh deferred) := by
  decide +kernel

end HttpConn

end Handy
