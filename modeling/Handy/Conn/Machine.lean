import Handy.Codec.Model

/-! # A connection and its event loop as a re-entrant machine

`TcpConn` calls user code from inside its handlers, and user code calls back
into the same connection, so a handler is not an atomic step. The machine keeps
the calls in progress on an explicit stack. A frame is the code still to run
when the call above it returns; a step runs the code of the topmost frame up to
its next call. With an empty stack the loop thread takes the next event.

What the source leaves to its surroundings is a `Choice`: the event, what a user
callback entered in this step is going to do, and the results of the system
calls. A callback is the list of calls it makes into the connection. Log lines
and the counters kept for them are not modelled; `fatalif` stops the process as
it does in the default build.

The log, `attempt`, `ended` and `pos` are bookkeeping no function of the source
reads.
-/

namespace Handy

/-- `TcpConn::State`. -/
inductive State where
  | invalid
  | handshaking
  | connected
  | closed
  | failed
deriving DecidableEq, Repr

/-- A `Channel`: whether `fd_ >= 0`, and the two bits of `events_`. -/
structure Channel where
  fdOpen : Bool
  readEnabled : Bool
  writeEnabled : Bool
deriving DecidableEq, Repr

/-- `readcb_`: null, a user's callback, or the lambda `onMsg` installs. -/
inductive ReadCb where
  | none
  | user
  | onMsg
deriving DecidableEq, Repr

/-- What `writeImp` can return: a positive count (`n + 1`, or all that is left if
that is less), or `-1` with `errno`. `reset` is `ECONNRESET`, `ETIMEDOUT` or
`EPIPE`; `other` is any errno `isend` has no branch for. -/
inductive WriteOutcome where
  | wrote (n : Nat)
  | eintr
  | eagain
  | reset
  | other
deriving DecidableEq, Repr

/-- What `readImp` can return; `data` holds what the socket has, of which the
call takes at most the space it offers. -/
inductive ReadOutcome (α : Type) where
  | data (bytes : List α)
  | eintr
  | eagain
  | eof
  | error

/-- A call user code makes into its connection, with the write results it meets. -/
inductive Action (α : Type) where
  /-- `send(const char *, size_t)` -/
  | sendStr (bytes : List α) (ws : List WriteOutcome)
  /-- `send(Buffer &)` of a buffer of the caller's own -/
  | sendBuffer (buf : Buffer α) (ws : List WriteOutcome)
  /-- `send(getInput())` -/
  | sendInput (ws : List WriteOutcome)
  | sendMsg (msg : List α) (ws : List WriteOutcome)
  | closeNow
  | close
  /-- `getInput().consume(len)` -/
  | consume (len : Nat)
  | addIdleCB
  /-- `getBase()->exit()` -/
  | exit

def Action.isExit {α : Type} : Action α → Bool
  | .exit => true
  | _ => false

/-- The functions by which the owner of a connection sets a callback. -/
inductive Setter where
  | onRead
  | onWritable
  | onState
  | onMsg
deriving DecidableEq, Repr

/-- The rest of a call, to be run when the frames above it are gone. -/
inductive Frame (α : Type) where
  /-- a user callback that still makes these calls -/
  | user (todo : List (Action α))
  /-- `cleanup` from its start -/
  | cleanup
  /-- `cleanup` after `readcb_`: `state_`, the connect timer, `statecb_` -/
  | cleanupState
  /-- `cleanup` after `statecb_`: reconnect, or release everything -/
  | cleanupEnd
  /-- `reconnect` after `channel_->close()` -/
  | reconnectEnd
  /-- `handleRead` from its start -/
  | handleRead
  /-- the head of the `while` loop of `handleRead` -/
  | readLoop
  /-- `handleWrite` after `writablecb_` -/
  | writeEnd
  /-- the head of the `while (r)` loop of the `onMsg` lambda -/
  | decodeLoop
  /-- that loop after `cb(con, msg)` -/
  | decodeConsume (r : Nat)

inductive Fault where
  /-- a null `channel_` was dereferenced -/
  | nullChannel
  /-- `consume(len)` with `len > size()` -/
  | consumePastEnd
  /-- a `fatalif` fired, or an `assert` -/
  | fatal
  /-- `attach` found a `channel_` to delete; the calls its destructor makes are
  not followed -/
  | reattached
deriving DecidableEq, Repr

/-- What the loop thread can be told to do between two handlers. -/
inductive Event (α : Type) where
  /-- `connect(base, host, port, timeout)`; `timeout` is whether it is not 0 -/
  | connect (port : UInt16) (timeout : Bool)
  /-- `attach` of an accepted socket -/
  | attach
  | readable
  | writable (ws : List WriteOutcome)
  /-- a call from code outside any handler of this connection -/
  | call (act : Action α)
  /-- a task queued by `close()` -/
  | closeTask
  | connectTimer
  | reconnectTimer
  /-- The owner sets a callback when an attempt is over. What is set before the
  first one is given to `fresh`; a callback set in mid-attempt is not followed. -/
  | set (cb : Setter)
  /-- the part of `EventsImp::loop` behind its `while` -/
  | shutdown
  /-- `~PollerEpoll` closing what is still live -/
  | destroyPoller

/-- The events that run `attach`. -/
def Event.attaches {α : Type} : Event α → Bool
  | .connect _ _ | .attach | .reconnectTimer => true
  | _ => false

/-- The events that close the channel from outside a handler. -/
def Event.shuts {α : Type} : Event α → Bool
  | .closeTask | .connectTimer | .destroyPoller => true
  | _ => false

structure Choice (α : Type) where
  event : Event α := .readable
  /-- the calls of the user callback entered in this step -/
  body : List (Action α) := []
  read : ReadOutcome α := .eagain
  /-- `poll` of the handshake finds the socket writable and nothing else -/
  pollout : Bool := true

/-- The default choice, for a step that needs none. -/
def Choice.go {α : Type} : Choice α where

/-- What the log records; `k` is the number of the attempt. -/
inductive Ev (α : Type) where
  /-- attempt `k` begins, with a `statecb_` or without one -/
  | attached (k : Nat) (statecb : Bool)
  | cleanup (k : Nat)
  /-- `statecb_` ran and `getState()` was `st` -/
  | report (k : Nat) (st : State)
  | unregister (id : Nat)
  | update (id : Nat)
  /-- `readcb_` or the codec looks at `input_` -/
  | sees (k : Nat) (input : List α)
  | read (k : Nat) (bytes : List α)
  | wrote (k : Nat) (bytes : List α)
  /-- bytes passed to `send` or, as a frame, by `sendMsg`, for attempt `k` -/
  | passed (k : Nat) (bytes : List α)
  /-- what the argument of `send(Buffer &)` held afterwards -/
  | leftover (bytes : List α)
  /-- `cb(con, msg)` for the frame at stream position `at` -/
  | deliver (pos : Nat) (msg : Slice)
  /-- `getInput().consume(r)` with that many bytes there, after `cb` -/
  | consume (r size : Nat)
deriving DecidableEq

/-- The members of `TcpConn` its functions use. `timeoutPending` says whether the
timer `timeoutId_` is in the timer store. -/
structure TcpConn (α : Type) where
  channel : Option Channel
  input : Buffer α
  output : Buffer α
  state : State
  readcb : ReadCb
  writablecb : Bool
  statecb : Bool
  idleIds : List Nat
  timeoutPending : Bool
  destPort : Int
  connectTimeout : Bool
  reconnectInterval : Int

/-- What the connection's `EventBase` holds for it. -/
structure Base where
  exited : Bool
  inReconnectConns : Bool
  reconnectTimers : Nat
  closeTasks : Nat
  nextIdle : Nat

/-- A connection, its base, the calls in progress and the bookkeeping. -/
structure Conn (α : Type) extends TcpConn α, Base where
  stack : List (Frame α)
  fault : Option Fault
  attempt : Nat
  ended : Nat
  pos : Nat
  log : List (Ev α)

namespace Conn

variable {α : Type}

/-- `TcpConn::TcpConn`, with the callbacks its owner sets. -/
def fresh (readcb : ReadCb) (writablecb statecb : Bool) (reconnectInterval : Int) : Conn α where
  channel := none
  input := .new
  output := .new
  state := .invalid
  readcb := readcb
  writablecb := writablecb
  statecb := statecb
  idleIds := []
  timeoutPending := false
  destPort := -1
  connectTimeout := false
  reconnectInterval := reconnectInterval
  exited := false
  inReconnectConns := false
  reconnectTimers := 0
  closeTasks := 0
  nextIdle := 0
  stack := []
  fault := none
  attempt := 0
  ended := 0
  pos := 0
  log := []

/-- A connection whose handshake is over, with nothing read or sent yet. -/
def opened (readcb : ReadCb) (writablecb statecb : Bool) (reconnectInterval : Int) : Conn α :=
  { fresh readcb writablecb statecb reconnectInterval with
    channel := some ⟨true, true, false⟩
    state := .connected
    destPort := 80
    attempt := 1 }

def emit (s : Conn α) (e : Ev α) : Conn α := { s with log := s.log ++ [e] }

def push (s : Conn α) (f : Frame α) : Conn α := { s with stack := f :: s.stack }

def raise (s : Conn α) (f : Fault) : Conn α := { s with fault := some f }

/-- `Channel::enableWrite`; `epoll_ctl` fails on a closed descriptor, and
`updateChannel` is fatal on that. -/
def enableWrite (s : Conn α) (c : Channel) (enable : Bool) : Conn α :=
  { s with
    channel := some { c with writeEnabled := enable }
    fault := if c.fdOpen then s.fault else some .fatal }

/-- `Channel::close` on `channel_`: the first call runs `handleRead`. -/
def closeChannel (s : Conn α) (c : Channel) : Conn α :=
  if c.fdOpen then
    { s with channel := some { c with fdOpen := false } }.push .handleRead
  else s

/-- The call `readcb_(con)`. -/
def callReadcb (s : Conn α) (ch : Choice α) : Conn α :=
  match s.readcb with
  | .none => s
  | .user => (s.emit (.sees s.attempt s.input.contents)).push (.user ch.body)
  | .onMsg => s.push .decodeLoop

/-- The call `statecb_(con)`. -/
def callStatecb (s : Conn α) (ch : Choice α) : Conn α :=
  if s.statecb then (s.emit (.report s.attempt s.state)).push (.user ch.body) else s

/-! ## Writing -/

/-- Why `isend` left its loop. -/
inductive Stop where
  | done
  | again
  | reset
  | other
deriving DecidableEq, Repr

/-- What `isend` of `len` bytes got accepted. -/
structure Sent (len : Nat) where
  sended : Nat
  le : sended ≤ len
  stop : Stop

/-- The `while` loop of `isend`. A finite list of results stands for the calls
made; behind it the socket is full. -/
def isendLoop (len : Nat) : List WriteOutcome → (sended : Nat) → sended ≤ len → Sent len
  | ws, sended, h =>
      if len = sended then ⟨sended, h, .done⟩
      else
        match ws with
        | [] => ⟨sended, h, .again⟩
        | .wrote n :: ws => isendLoop len ws (sended + min (n + 1) (len - sended)) (by omega)
        | .eintr :: ws => isendLoop len ws sended h
        | .eagain :: _ => ⟨sended, h, .again⟩
        | .reset :: _ => ⟨sended, h, .reset⟩
        | .other :: _ => ⟨sended, h, .other⟩

/-- The writes of one `isend`; on a closed descriptor the first one is refused. -/
def trySend (c : Channel) (len : Nat) (ws : List WriteOutcome) : Sent len :=
  isendLoop len (if c.fdOpen then ws else [.other]) 0 (Nat.zero_le _)

/-- `isend` on a non-null `channel_`; it returns `-1` when `stop` is `reset`. -/
def isend (s : Conn α) (c : Channel) (buf : List α) (ws : List WriteOutcome) : Conn α :=
  let r := trySend c buf.length ws
  let s := s.emit (.wrote s.attempt (buf.take r.sended))
  if r.stop = .again ∧ c.writeEnabled = false then s.enableWrite c true else s

/-- `enableWrite(true)` unless it is on. -/
def ensureWrite (s : Conn α) : Conn α :=
  match s.channel with
  | none => s.raise .nullChannel
  | some c => if c.writeEnabled then s else s.enableWrite c true

variable [Inhabited α]

/-- `send(Buffer &)` from its second `if`; the second component is what the
buffer holds afterwards. -/
def sendRest (s : Conn α) (c : Channel) (buf : Buffer α) (ws : List WriteOutcome) :
    Conn α × Buffer α :=
  if buf.size = 0 then (s, buf)
  else
    let r := trySend c buf.size ws
    let s := s.isend c buf.contents ws
    if r.stop = .reset then (s.push .cleanup, buf)
    else
      let buf := buf.consume r.sended r.le
      if buf.size = 0 then (s, buf)
      else
        let (out, buf) := s.output.absorb buf
        ({ s with output := out }.ensureWrite, buf)

/-- `send(Buffer &buf)` for a buffer other than `output_`. -/
def sendBuffer (s : Conn α) (buf : Buffer α) (ws : List WriteOutcome) : Conn α × Buffer α :=
  match s.channel with
  | none => (s, buf)
  | some c =>
      if c.writeEnabled then
        let (out, buf) := s.output.absorb buf
        { s with output := out }.sendRest c buf ws
      else s.sendRest c buf ws

omit [Inhabited α] in
/-- `sendOutput()`, that is `send(output_)`: `absorb` of a buffer into itself
does nothing. -/
def sendOutput (s : Conn α) (ws : List WriteOutcome) : Conn α :=
  match s.channel with
  | none => s
  | some c =>
      let out := s.output
      if out.size = 0 then s
      else
        let r := trySend c out.size ws
        let s := s.isend c out.contents ws
        if r.stop = .reset then s.push .cleanup
        else
          let out := out.consume r.sended r.le
          let s := { s with output := out }
          if out.size = 0 then s else s.ensureWrite

/-- `send(const char *buf, size_t len)`. -/
def sendStr (s : Conn α) (bytes : List α) (ws : List WriteOutcome) : Conn α :=
  match s.channel with
  | none => s
  | some c =>
      if s.output.empty then
        let r := trySend c bytes.length ws
        let s := s.isend c bytes ws
        if r.stop = .reset then s.push .cleanup
        else
          let rest := bytes.drop r.sended
          if rest.length = 0 then s else { s with output := s.output.append rest }
      else if bytes.length = 0 then s
      else { s with output := s.output.append bytes }

/-- `sendMsg`: encode into `output_`, then send it. -/
def sendMsg (codec : Codec α) (s : Conn α) (msg : List α) (ws : List WriteOutcome) : Conn α :=
  { s with output := codec.encode msg s.output }.sendOutput ws

/-- One call of user code. -/
def perform (codec : Codec α) (s : Conn α) : Action α → Conn α
  | .sendStr bytes ws => (s.emit (.passed (s.ended + 1) bytes)).sendStr bytes ws
  | .sendBuffer buf ws =>
      let (s, left) := (s.emit (.passed (s.ended + 1) buf.contents)).sendBuffer buf ws
      s.emit (.leftover left.contents)
  | .sendInput ws =>
      let held := s.input.size
      let (s, left) := (s.emit (.passed (s.ended + 1) s.input.contents)).sendBuffer s.input ws
      { s with input := left, pos := s.pos + (held - left.size) }.emit (.leftover left.contents)
  | .sendMsg msg ws => (s.emit (.passed (s.ended + 1) (codec.frame msg))).sendMsg codec msg ws
  | .closeNow =>
      match s.channel with
      | none => s
      | some c => s.closeChannel c
  | .close => if s.channel.isSome then { s with closeTasks := s.closeTasks + 1 } else s
  | .consume len =>
      if h : len ≤ s.input.size then
        { s with input := s.input.consume len h, pos := s.pos + len }
      else s.raise .consumePastEnd
  | .addIdleCB =>
      if s.channel.isSome then
        { s with idleIds := s.idleIds ++ [s.nextIdle], nextIdle := s.nextIdle + 1 }
      else s
  | .exit => { s with exited := true }

/-! ## Handlers -/

omit [Inhabited α] in
/-- `handleHandshake`, with the frames that run when it returns 0. -/
def handleHandshake (s : Conn α) (ch : Choice α) (next : List (Frame α)) : Conn α :=
  match s.channel with
  | none => s.raise .nullChannel
  | some c =>
      if c.fdOpen ∧ ch.pollout then
        { s with
          channel := some { c with readEnabled := true, writeEnabled := false }
          state := .connected
          stack := next ++ s.stack }.callStatecb ch
      else s.push .cleanup

omit [Inhabited α] in
/-- `handleWrite` of a live channel. -/
def handleWrite (s : Conn α) (c : Channel) (ch : Choice α) (ws : List WriteOutcome) : Conn α :=
  match s.state with
  | .handshaking => s.handleHandshake ch []
  | .connected =>
      let out := s.output
      let r := trySend c out.size ws
      let s := s.isend c out.contents ws
      if r.stop = .reset then s.push .cleanup
      else
        let out := out.consume r.sended r.le
        let s := { s with output := out }.push .writeEnd
        if out.empty ∧ s.writablecb then s.push (.user ch.body) else s
  | _ => s

/-- One iteration of the loop of `handleRead`. -/
def readLoop (s : Conn α) (ch : Choice α) : Conn α :=
  if s.state ≠ .connected then s
  else
    let x := s.input.makeRoomExp
    let s := { s with input := x }
    match s.channel with
    | none => s.raise .nullChannel
    | some c =>
        if c.fdOpen = false then s.push .cleanup
        else
          match ch.read with
          | .eintr => s.push .readLoop
          | .eagain =>
              let s := { s with log := s.log ++ s.idleIds.map .update }
              if s.input.size = 0 then s else s.callReadcb ch
          | .eof => s.push .cleanup
          | .error => s.push .cleanup
          | .data bytes =>
              let got := bytes.take x.space
              if got = [] then s.push .cleanup
              else
                ({ s with
                  input := x.fill got (by simp only [got, List.length_take]; omega) }.emit
                    (.read s.attempt got)).push .readLoop

omit [Inhabited α] in
/-- `cleanup` up to the return of `readcb_`. -/
def cleanup (s : Conn α) (ch : Choice α) : Conn α :=
  let s := (s.emit (.cleanup s.attempt)).push .cleanupState
  if s.input.size = 0 then s else s.callReadcb ch

omit [Inhabited α] in
/-- `cleanup` from there to the return of `statecb_`. -/
def cleanupState (s : Conn α) (ch : Choice α) : Conn α :=
  let t : Conn α := { s with
    state := if s.state = .handshaking then .failed else .closed
    timeoutPending := false
    stack := .cleanupEnd :: s.stack }
  t.callStatecb ch

omit [Inhabited α] in
/-- `reconnect` up to `channel_->close()`. -/
def reconnect (s : Conn α) : Conn α :=
  let s := { s with inReconnectConns := true, reconnectTimers := s.reconnectTimers + 1 }
  match s.channel with
  | none => s.raise .nullChannel
  | some c => (s.push .reconnectEnd).closeChannel c

omit [Inhabited α] in
/-- The end of `cleanup` when there is no reconnecting: the idle entries, the
callbacks and the channel go. -/
def release (s : Conn α) : Conn α :=
  let old := s.channel
  let s := { s with
    readcb := .none
    writablecb := false
    statecb := false
    channel := none
    ended := s.attempt
    log := s.log ++ s.idleIds.map .unregister }
  match old with
  | none => s
  | some c => if c.fdOpen then s.push .handleRead else s

omit [Inhabited α] in
/-- `cleanup` after `statecb_`. -/
def cleanupEnd (s : Conn α) : Conn α :=
  if 0 ≤ s.reconnectInterval ∧ s.exited = false then s.reconnect else s.release

omit [Inhabited α] in
/-- `attach`: a fresh channel with both interests on. -/
def attach (s : Conn α) : Conn α :=
  if (s.destPort ≤ 0 ∧ s.state ≠ .invalid) ∨ (0 ≤ s.destPort ∧ s.state ≠ .handshaking) then
    s.raise .fatal
  else
    match s.channel with
    | some _ => s.raise .reattached
    | none =>
        { s with
          channel := some ⟨true, true, true⟩
          state := .handshaking
          attempt := s.attempt + 1 }.emit (.attached (s.attempt + 1) s.statecb)

omit [Inhabited α] in
def connect (s : Conn α) (port : UInt16) (timeout : Bool) : Conn α :=
  if s.state ≠ .invalid ∧ s.state ≠ .closed ∧ s.state ≠ .failed then s.raise .fatal
  else
    let t : Conn α := { s with
      destPort := port.toNat
      connectTimeout := timeout
      state := .handshaking }
    let s := t.attach
    if timeout then { s with timeoutPending := true } else s

omit [Inhabited α] in
/-- One iteration of the `onMsg` lambda up to the return of `cb`. -/
def decodeLoop (codec : Codec α) (s : Conn α) (ch : Choice α) : Conn α :=
  let data := s.input.contents
  let (r, msg) := codec.tryDecode data
  let s := s.emit (.sees s.attempt data)
  if r < 0 then
    match s.channel with
    | none => s.raise .nullChannel
    | some c => s.closeChannel c
  else if r = 0 then s
  else ((s.emit (.deliver s.pos msg)).push (.decodeConsume r.toNat)).push (.user ch.body)

omit [Inhabited α] in
/-- The rest of that iteration. -/
def decodeConsume (s : Conn α) (r : Nat) : Conn α :=
  let s := s.emit (.consume r s.input.size)
  if h : r ≤ s.input.size then
    { s with input := s.input.consume r h, pos := s.pos + r }.push .decodeLoop
  else s.raise .consumePastEnd

/-! ## The step -/

/-- Run the topmost frame, which is off the stack already. -/
def resume (codec : Codec α) (s : Conn α) (ch : Choice α) : Frame α → Conn α
  | .user [] => s
  | .user (act :: todo) => (s.push (.user todo)).perform codec act
  | .cleanup => s.cleanup ch
  | .cleanupState => s.cleanupState ch
  | .cleanupEnd => s.cleanupEnd
  | .reconnectEnd => { s with channel := none, ended := s.attempt }
  | .handleRead =>
      match s.state with
      | .handshaking => s.handleHandshake ch [.readLoop]
      | .connected => s.push .readLoop
      | _ => s
  | .readLoop => s.readLoop ch
  | .writeEnd =>
      if s.output.empty then
        match s.channel with
        | none => s.raise .nullChannel
        | some c => if c.writeEnabled then s.enableWrite c false else s
      else s
  | .decodeLoop => s.decodeLoop codec ch
  | .decodeConsume r => s.decodeConsume r

omit [Inhabited α] in
/-- `onRead`, `onMsg`, `onWritable` or `onState`; the first two assert that
`readcb_` is null. -/
def set (s : Conn α) : Setter → Conn α
  | .onRead => if s.readcb = .none then { s with readcb := .user } else s.raise .fatal
  | .onMsg => if s.readcb = .none then { s with readcb := .onMsg } else s.raise .fatal
  | .onWritable => { s with writablecb := true }
  | .onState => { s with statecb := true }

/-- An event of the loop thread. -/
def dispatch (codec : Codec α) (s : Conn α) (ch : Choice α) : Conn α :=
  match ch.event with
  | .connect port timeout => s.connect port timeout
  | .attach => s.attach
  | .readable =>
      match s.channel with
      | some c => if c.fdOpen then s.push .handleRead else s
      | none => s
  | .writable ws =>
      match s.channel with
      | some c => if c.fdOpen then s.handleWrite c ch ws else s
      | none => s
  | .call act => s.perform codec act
  | .closeTask =>
      if s.closeTasks = 0 then s
      else
        let s := { s with closeTasks := s.closeTasks - 1 }
        match s.channel with
        | some c => s.closeChannel c
        | none => s
  | .connectTimer =>
      if s.timeoutPending then
        let s := { s with timeoutPending := false }
        match s.channel with
        | none => s.raise .nullChannel
        | some c => if s.state = .handshaking then s.closeChannel c else s
      else s
  | .reconnectTimer =>
      if s.reconnectTimers = 0 then s
      else
        { s with
          reconnectTimers := s.reconnectTimers - 1
          inReconnectConns := false }.connect (.ofInt s.destPort) s.connectTimeout
  | .set cb =>
      if s.channel = none ∧ (s.state = .closed ∨ s.state = .failed) then s.set cb else s
  | .shutdown =>
      if s.exited then
        let s := { s with timeoutPending := false, reconnectTimers := 0 }
        if s.inReconnectConns then s.push .cleanup else s
      else s
  | .destroyPoller =>
      match s.channel with
      | some c => if s.exited then s.closeChannel c else s
      | none => s

/-- One step; a faulted process makes none. -/
def step (codec : Codec α) (s : Conn α) (ch : Choice α) : Conn α :=
  if s.fault.isSome then s
  else
    match s.stack with
    | [] => s.dispatch codec ch
    | f :: rest => { s with stack := rest }.resume codec ch f

end Conn

end Handy
