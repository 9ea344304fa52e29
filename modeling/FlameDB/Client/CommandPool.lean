import Mathlib.Data.List.Basic
import Mathlib.Order.Nat

/-!
# The client's command pool

A command of the Kotlin client leases a connection, hands the socket work to a blocking worker and
suspends.  Four parties touch a request: the caller, the worker, whoever cancels the suspended call
(a timeout, an enclosing coroutine, the closing pool) and the code that closes connections.

The model interleaves them.  An event is one step of one party; a block under a lock is one step,
except the cancellation handler, which sets the flag and closes the socket in two steps with the
operation lock held in between, because the worker reads the flag without that lock.  Timers, the
network and the server are events that may happen whenever the code allows it, so every schedule of
the code is a run of the model.
-/

namespace FlameDB.Client

/-! ## Failures -/

/-- The kinds of failures a caller can tell apart. -/
inductive ErrorKind where
  | overloaded | poolWaitTimeout | connection | authentication | serverRejection | invalidResponse
  | responseTooLarge | requestTimeout | requestFailed | requestCancelled | clientClosed
  deriving DecidableEq

/-- How far a request got. -/
inductive Phase where
  | poolWait | connect | authenticate | request
  deriving DecidableEq

/-- What a caller may conclude about the execution of a failed command. -/
inductive ExecutionStatus where
  | notSent | unknown | responseReceived | notApplicable
  deriving DecidableEq

/-- The failure as a caller sees it. -/
structure FlameDBException where
  message : String
  kind : ErrorKind
  command : String
  mutating : Bool
  executionStatus : ExecutionStatus
  phase : Phase
  deriving DecidableEq

/-- What the client records about a request; the status of a failure is read off it. -/
structure RequestState where
  name : String
  read : Bool
  phase : Phase := .poolWait
  sent : Bool := false
  received : Bool := false
  workerStarted : Bool := false
  deriving DecidableEq

/-- What the request knows about its execution when it fails. -/
def RequestState.status (st : RequestState) : ExecutionStatus :=
  if !st.sent then .notSent
  else if st.read then .notApplicable
  else if st.received then .responseReceived
  else .unknown

/-- The failure of a request in its present state. -/
def RequestState.failure (st : RequestState) (kind : ErrorKind) (message : String) :
    FlameDBException :=
  ⟨message, kind, st.name, !st.read, st.status, st.phase⟩

/-- Errors of the socket, of its deadline and of the response reader. -/
inductive SocketError where
  | timeout (message : String)
  | protocol (kind : ErrorKind) (message : String)
  | other (message : String)
  deriving DecidableEq

def SocketError.message : SocketError → String
  | .timeout message => message
  | .protocol _ message => message
  | .other message => message

/-- What the worker may throw. -/
inductive Thrown where
  | flame (e : FlameDBException)
  | cancellation
  | socket (e : SocketError)
  /-- an `Error`, which no `catch` of an `Exception` sees -/
  | error (message : String)
  deriving DecidableEq

/-- What `remaining` throws once the deadline has passed. -/
def deadlineExceeded : Thrown := .socket (.timeout "total command deadline exceeded")

/-- The lower-case name of a kind, as it appears in messages. -/
def ErrorKind.lowercase : ErrorKind → String
  | .overloaded => "overloaded"
  | .poolWaitTimeout => "pool_wait_timeout"
  | .connection => "connection"
  | .authentication => "authentication"
  | .serverRejection => "server_rejection"
  | .invalidResponse => "invalid_response"
  | .responseTooLarge => "response_too_large"
  | .requestTimeout => "request_timeout"
  | .requestFailed => "request_failed"
  | .requestCancelled => "request_cancelled"
  | .clientClosed => "client_closed"

/-- The kind of an error that is not a client exception yet. -/
def errorKind (closed : Bool) (st : RequestState) (error : SocketError) : ErrorKind :=
  if closed then .clientClosed
  else match error, st.phase with
    | .protocol kind _, _ => kind
    | _, .connect => .connection
    | _, .authenticate => .authentication
    | .timeout _, _ => .requestTimeout
    | .other _, _ => .requestFailed

/-- The pool's `failure` for such an error; a client exception is passed on as it is. -/
def failure (closed : Bool) (st : RequestState) (error : SocketError) : FlameDBException :=
  let kind := errorKind closed st error
  st.failure kind <| match kind with
    | .clientClosed => "FlameDB client is closed"
    | .connection => "FlameDB connect/reconnect failed; command was not sent"
    | .authentication => "FlameDB auth failed; command was not sent"
    | _ => "FlameDB " ++ kind.lowercase ++ ": " ++ error.message ++ "; not retried"

/-! ## The state -/

abbrev RequestId := ℕ

abbrev ConnectionId := ℕ

abbrev SocketId := ℕ

/-- The blocking worker of a request. -/
inductive Worker where
  /-- not dispatched, or the dispatcher refused it -/
  | absent
  | queued
  /-- started, about to enter `dial` -/
  | dialing
  /-- `dial` stored a new socket and connects and authenticates on it -/
  | connecting (s : SocketId)
  /-- `dial` failed and is about to discard the connection -/
  | discarding (e : Thrown)
  /-- `dial` returned the transport of a socket -/
  | ready (s : SocketId)
  /-- the flag was read as unset -/
  | checked (s : SocketId)
  /-- `sent` is set; the text is still to be written -/
  | writing (s : SocketId) (text : List Char)
  /-- `Connection.command` caught an error -/
  | failing (e : Thrown)
  /-- the result is known, the connection not yet returned -/
  | finishing (result : Option Thrown)
  /-- the connection is returned, the caller not yet resumed -/
  | resuming (result : Option Thrown)
  | done
  deriving DecidableEq

/-- The continuation of the suspended call. -/
inductive Continuation where
  | active
  | cancelled
  | resumed (result : Option Thrown)
  deriving DecidableEq

/-- The cancellation handler; it holds the operation lock while it is `marked`. -/
inductive Handler where
  | idle | called | marked | finished
  deriving DecidableEq

/-- The suspended caller of a command. -/
inductive Caller where
  /-- no command yet -/
  | absent
  | acquiring
  /-- has a connection and is inside `blocking` -/
  | leased
  | succeeded
  | failed (e : FlameDBException)
  /-- an `Error` was thrown -/
  | crashed (message : String)
  deriving DecidableEq

/-- A command, or a handshake when it has no lines.  `acquired` is set once the request was given
its connection. -/
structure Request where
  lines : List String := []
  state : RequestState := { name := "", read := false }
  acquired : Bool := false
  connection : ConnectionId := 0
  caller : Caller := .absent
  continuation : Continuation := .active
  handler : Handler := .idle
  cancelled : Bool := false
  finished : Bool := false
  dispatched : Bool := false
  worker : Worker := .absent

/-- A pooled connection. The transport is the socket once `dial` has returned. -/
structure Connection where
  permanentlyClosed : Bool := false
  socket : Option SocketId := none
  transport : Option SocketId := none
  deriving DecidableEq

/-- The pools' connections; without reserved ones reads use the write connections. -/
structure PoolConfig where
  reads : List ConnectionId
  writes : List ConnectionId

/-- The pool, its requests and the sockets.  `wire` lists what was written to open sockets. -/
structure Pool where
  closed : Bool := false
  requests : RequestId → Request := fun _ => {}
  connections : ConnectionId → Connection := fun _ => {}
  idle : ConnectionId → Bool := fun _ => true
  isOpen : SocketId → Bool := fun _ => false
  nextSocket : SocketId := 0
  wire : List (SocketId × RequestId × List Char) := []

/-- The open sockets once the given one is closed. -/
def closeSocket (isOpen : SocketId → Bool) : Option SocketId → SocketId → Bool
  | some s => Function.update isOpen s false
  | none => isOpen

namespace Pool

def setRequest (p : Pool) (r : RequestId) (q : Request) : Pool :=
  { p with requests := Function.update p.requests r q }

def setConnection (p : Pool) (c : ConnectionId) (k : Connection) : Pool :=
  { p with connections := Function.update p.connections c k }

/-- `Connection.invalidate`. -/
def invalidate (p : Pool) (c : ConnectionId) : Pool :=
  let k := p.connections c
  { p with
    isOpen := closeSocket p.isOpen k.socket
    connections := Function.update p.connections c { k with socket := none, transport := none } }

/-- `Connection.close`. -/
def closeConnection (p : Pool) (c : ConnectionId) : Pool :=
  (p.setConnection c { p.connections c with permanentlyClosed := true }).invalidate c

end Pool

/-! ## The steps

Each step is what happens between two moments at which another thread can be seen. The order of the
checks inside a step is the order of the source. -/

/-- The commands that change nothing on the server. -/
def readCommands : List String :=
  ["GET", "LEADERBOARD", "GROUP_LEADERBOARD", "STATS", "METRICS", "PREVIEW_DELETE", "RANK", "SCORE",
    "AROUND", "LEADERBOARD_COUNT"]

/-- The first word of the first line. -/
def commandName (lines : List String) : String :=
  String.ofList (((lines.headD "").toList).takeWhile (· ≠ ' '))

/-- The check before anything else: no line is missing or could be read as several. -/
def validFraming (lines : List String) : Bool :=
  lines ≠ [] && lines.all fun line =>
    line.toList.all fun c => c ∉ ['\r', '\n', Char.ofNat 0, Char.ofNat 0x1F]

/-- The text of a command on the socket. -/
def commandText (lines : List String) : List Char := lines.flatMap fun line => line.toList ++ ['\n']

/-- How the wait for a connection may end without one. -/
inductive Refusal where
  | clientClosed | queueFull (limit : ℕ) | timeout | cancelled

/-- The failure of a call whose deadline passed. -/
def timeoutFailure (q : Request) : FlameDBException :=
  let st := q.state
  if q.lines = [] then
    if !st.workerStarted then
      st.failure .requestTimeout "FlameDB IO dispatch timeout; handshake was not started"
    else st.failure (if st.phase = .authenticate then .authentication else .connection)
      "FlameDB connect timeout; command was not sent"
  else
    let kind : ErrorKind :=
      if q.acquired ∧ !st.workerStarted then .requestTimeout
      else match st.phase with
        | .poolWait => .poolWaitTimeout
        | .connect => .connection
        | .authenticate => .authentication
        | .request => .requestTimeout
    st.failure kind (if !q.acquired then "FlameDB pool wait timeout; command was not sent"
      else if !st.workerStarted then "FlameDB IO dispatch timeout; command was not sent"
      else "FlameDB command timeout; not retried")

/-- The failure of a cancelled call. -/
def cancelFailure (closed : Bool) (q : Request) : FlameDBException :=
  if q.lines = [] then q.state.failure .requestCancelled "FlameDB connect cancelled"
  else if closed then q.state.failure .clientClosed "FlameDB client is closed"
  else q.state.failure .requestCancelled "FlameDB command cancelled; not retried"

/-- The failure of a request that gets no connection. -/
def refusal (closed : Bool) (q : Request) : Refusal → FlameDBException
  | .clientClosed => q.state.failure .clientClosed "FlameDB client is closed"
  | .queueFull limit => q.state.failure .overloaded
      ("FlameDB " ++ (if q.state.read then "read" else "write") ++ " queue full (limit="
        ++ toString limit ++ "); command was not sent")
  | .timeout => timeoutFailure q
  | .cancelled => cancelFailure closed q

/-- What the server's answer turns into. -/
inductive Answer where
  | result
  /-- the answer was decoded, then the deadline was found to have passed -/
  | lateResult
  | rejected (message : String)
  /-- a malformed or late answer, or none -/
  | broken (e : SocketError)

/-- Everything that can happen next: a step of a caller, a worker, a timer or the socket. -/
inductive Event where
  | call (r : RequestId) (lines : List String)
  | connect (r : RequestId)
  | refuse (r : RequestId) (why : Refusal)
  | acquire (r : RequestId) (c : ConnectionId)
  | dispatch (r : RequestId)
  | dispatchRefused (r : RequestId) (message : String)
  /-- someone cancels the suspended call -/
  | cancel (r : RequestId)
  /-- the handler takes the lock and sets the flag -/
  | handlerMark (r : RequestId)
  /-- the handler closes the socket of a running worker and leaves the lock -/
  | handlerFinish (r : RequestId)
  /-- the worker starts; `late` when its deadline has passed -/
  | start (r : RequestId) (late : Bool)
  | dialEnter (r : RequestId)
  | authenticate (r : RequestId)
  | dialFail (r : RequestId) (e : SocketError)
  /-- an unexpected challenge, or the key was refused -/
  | authRefused (r : RequestId) (message : String)
  | dialCommit (r : RequestId)
  | discard (r : RequestId)
  | check (r : RequestId) (late : Bool) (thrown : Option SocketError)
  | markSent (r : RequestId)
  | write (r : RequestId) (n : ℕ)
  | writeFail (r : RequestId) (message : String)
  | answer (r : RequestId) (a : Answer)
  | caught (r : RequestId)
  /-- an `Error` leaves `dial` and `Connection.command` -/
  | crash (r : RequestId) (message : String)
  | finish (r : RequestId)
  | resume (r : RequestId)
  /-- the cancelled call goes on; `late` when its own deadline cancelled it -/
  | cancelledReturn (r : RequestId) (late : Bool)
  /-- the resumed call goes on, unless it is cancelled at the last moment -/
  | resumedReturn (r : RequestId) (late : Option Bool)
  | close
  | closeConnection (c : ConnectionId)

/-- `blocking` could not dispatch the worker: the connection goes back at once. -/
def dispatchRefused (p : Pool) (r : RequestId) (message : String) : Pool :=
  let q := p.requests r
  let p := { p with idle := Function.update p.idle q.connection true }
  p.setRequest r { q with
    finished := true, dispatched := true
    continuation := if q.continuation = .active then .resumed (some (.socket (.other message)))
      else q.continuation }

/-- The end of the worker's `synchronized` start. -/
def startWorker (late : Bool) (q : Request) : Request :=
  if q.cancelled then { q with worker := .finishing (some .cancellation) }
  else if late then
    { q with worker := .finishing (some (.flame (q.state.failure .requestTimeout
        "FlameDB IO dispatch timeout; command was not sent"))) }
  else { q with worker := .dialing, state := { q.state with workerStarted := true } }

/-- The first lock of `dial`. -/
def dialEnter (p : Pool) (r : RequestId) : Pool :=
  let q := p.requests r
  let q := { q with state := { q.state with phase := .connect } }
  let k := p.connections q.connection
  if k.permanentlyClosed || p.closed then
    p.setRequest r { q with
      worker := .failing (.flame (q.state.failure .clientClosed "FlameDB client is closed")) }
  else if q.cancelled then p.setRequest r { q with worker := .failing .cancellation }
  else match k.transport with
    | some s => p.setRequest r { q with worker := .ready s }
    | none =>
        let s := p.nextSocket
        let p := { p with nextSocket := s + 1, isOpen := Function.update p.isOpen s true }
        (p.setConnection q.connection { k with socket := some s }).setRequest r
          { q with worker := .connecting s }

/-- The second lock of `dial`. -/
def dialCommit (p : Pool) (r : RequestId) (s : SocketId) : Pool :=
  let q := p.requests r
  let k := p.connections q.connection
  if k.socket ≠ some s ∨ k.permanentlyClosed ∨ q.cancelled then
    p.setRequest r { q with worker := .discarding .cancellation }
  else (p.setConnection q.connection { k with transport := some s }).setRequest r
    { q with worker := .ready s }

/-- After `dial`: a handshake is complete, a command looks at the flag and its deadline once more
and sets the timeout of the socket, which throws where another party has closed it. -/
def checkSend (late : Bool) (thrown : Option SocketError) (q : Request) (s : SocketId) : Request :=
  if q.lines = [] then { q with worker := .finishing none }
  else { q with
    state := { q.state with phase := .request }
    worker := if q.cancelled then .failing .cancellation
      else if late then .failing deadlineExceeded
      else thrown.elim (.checked s) fun e => .failing (.socket e) }

/-- What an answer makes of the worker. -/
def answered (q : Request) : Answer → Request
  | .result => { q with state := { q.state with received := true }, worker := .finishing none }
  | .lateResult => { q with
      state := { q.state with received := true }, worker := .failing deadlineExceeded }
  | .rejected message => { q with
      worker := .failing (.flame (q.state.failure .serverRejection message)) }
  | .broken e => { q with worker := .failing (.socket e) }

/-- The worker is inside `dial` or `Connection.command`. -/
def Worker.inCommand : Worker → Bool
  | .dialing | .connecting _ | .discarding _ | .ready _ | .checked _ | .writing _ _ | .failing _ =>
      true
  | _ => false

/-- A rejection leaves the connection usable. -/
def Thrown.isRejection : Thrown → Bool
  | .flame e => e.kind = .serverRejection
  | _ => false

/-- The outcome of a resumed call. -/
def returned (closed : Bool) (q : Request) : Option Thrown → Caller
  | none => .succeeded
  | some (.flame e) => .failed e
  | some .cancellation => .failed (cancelFailure closed q)
  | some (.socket e) => .failed (failure closed q.state e)
  | some (.error message) => .crashed message

/-- One step of one party, `none` when the party is not at that point. -/
def step (cfg : PoolConfig) (p : Pool) : Event → Option Pool
  | .call r lines =>
      if (p.requests r).caller = .absent ∧ validFraming lines then
        let name := commandName lines
        some <| p.setRequest r
          { lines := lines, state := { name := name, read := name ∈ readCommands }
            caller := .acquiring }
      else none
  | .connect r =>
      if (p.requests r).caller = .absent then
        some <| p.setRequest r { state := { name := "AUTH", read := true }, caller := .acquiring }
      else none
  | .refuse r why =>
      let q := p.requests r
      if q.caller = .acquiring then
        some <| p.setRequest r { q with caller := .failed (refusal p.closed q why) }
      else none
  | .acquire r c =>
      let q := p.requests r
      let pool := if q.state.read ∧ q.lines ≠ [] ∧ cfg.reads ≠ [] then cfg.reads else cfg.writes
      if q.caller = .acquiring ∧ c ∈ pool ∧ p.idle c then
        some <| { p with idle := Function.update p.idle c false }.setRequest r
          { q with
            caller := .leased, acquired := true, connection := c
            state := { q.state with phase := .connect } }
      else none
  | .dispatch r =>
      let q := p.requests r
      if q.caller = .leased ∧ !q.dispatched then
        some <| p.setRequest r { q with worker := .queued, dispatched := true }
      else none
  | .dispatchRefused r message =>
      let q := p.requests r
      if q.caller = .leased ∧ !q.dispatched ∧ q.handler ≠ .marked then
        some <| dispatchRefused p r message
      else none
  | .cancel r =>
      let q := p.requests r
      if q.caller = .leased ∧ q.continuation = .active then
        some <| p.setRequest r { q with continuation := .cancelled, handler := .called }
      else none
  | .handlerMark r =>
      let q := p.requests r
      if q.handler = .called then
        some <| p.setRequest r { q with handler := .marked, cancelled := true }
      else none
  | .handlerFinish r =>
      let q := p.requests r
      if q.handler = .marked then
        let p := if !q.finished ∧ q.state.workerStarted then p.invalidate q.connection else p
        some <| p.setRequest r { q with handler := .finished }
      else none
  | .start r late =>
      let q := p.requests r
      if q.worker = .queued ∧ q.handler ≠ .marked then some <| p.setRequest r (startWorker late q)
      else none
  | .dialEnter r => if (p.requests r).worker = .dialing then some <| dialEnter p r else none
  | .authenticate r =>
      let q := p.requests r
      match q.worker with
      | .connecting _ =>
          some <| p.setRequest r { q with state := { q.state with phase := .authenticate } }
      | _ => none
  | .dialFail r e =>
      let q := p.requests r
      match q.worker with
      | .connecting _ => some <| p.setRequest r { q with worker := .discarding (.socket e) }
      | _ => none
  | .authRefused r message =>
      let q := p.requests r
      match q.worker with
      | .connecting _ =>
          some <| p.setRequest r { q with
            worker := .discarding (.flame (q.state.failure .authentication message)) }
      | _ => none
  | .dialCommit r =>
      match (p.requests r).worker with
      | .connecting s => some <| dialCommit p r s
      | _ => none
  | .discard r =>
      let q := p.requests r
      match q.worker with
      | .discarding e =>
          some <| (p.invalidate q.connection).setRequest r { q with worker := .failing e }
      | _ => none
  | .check r late thrown =>
      let q := p.requests r
      match q.worker with
      | .ready s => some <| p.setRequest r (checkSend late thrown q s)
      | _ => none
  | .markSent r =>
      let q := p.requests r
      match q.worker with
      | .checked s =>
          some <| p.setRequest r { q with
            state := { q.state with sent := true }, worker := .writing s (commandText q.lines) }
      | _ => none
  | .write r n =>
      let q := p.requests r
      match q.worker with
      | .writing s text =>
          if p.isOpen s then
            some <| { p with wire := p.wire ++ [(s, r, text.take n)] }.setRequest r
              { q with worker := .writing s (text.drop n) }
          else
            some <| p.setRequest r { q with
              worker := .failing (.socket (.other "Socket closed")) }
      | _ => none
  | .writeFail r message =>
      let q := p.requests r
      match q.worker with
      | .writing _ _ =>
          some <| p.setRequest r { q with worker := .failing (.socket (.other message)) }
      | _ => none
  | .answer r a =>
      let q := p.requests r
      match q.worker with
      | .writing _ [] => some <| p.setRequest r (answered q a)
      | _ => none
  | .caught r =>
      let q := p.requests r
      match q.worker with
      | .failing e =>
          let p := if q.state.sent ∧ !e.isRejection then p.invalidate q.connection else p
          some <| p.setRequest r { q with worker := .finishing (some e) }
      | _ => none
  | .crash r message =>
      let q := p.requests r
      if q.worker.inCommand then
        some <| p.setRequest r { q with worker := .finishing (some (.error message)) }
      else none
  | .finish r =>
      let q := p.requests r
      match q.worker with
      | .finishing result =>
          if q.handler ≠ .marked then
            some <| { p with idle := Function.update p.idle q.connection true }.setRequest r
              { q with finished := true, worker := .resuming result }
          else none
      | _ => none
  | .resume r =>
      let q := p.requests r
      match q.worker with
      | .resuming result =>
          some <| p.setRequest r { q with
            worker := .done
            continuation := if q.continuation = .active then .resumed result else q.continuation }
      | _ => none
  | .cancelledReturn r late =>
      let q := p.requests r
      if q.caller = .leased ∧ q.dispatched ∧ q.continuation = .cancelled ∧
        q.handler = .finished then
        some <| p.setRequest r { q with
          caller := .failed (if late then timeoutFailure q else cancelFailure p.closed q) }
      else none
  | .resumedReturn r late =>
      let q := p.requests r
      match q.continuation with
      | .resumed result =>
          if q.caller = .leased ∧ q.dispatched then
            some <| p.setRequest r { q with
              caller := match late with
                | some true => .failed (timeoutFailure q)
                | some false => .failed (cancelFailure p.closed q)
                | none => returned p.closed q result }
          else none
      | _ => none
  | .close => some { p with closed := true }
  | .closeConnection c => if p.closed then some <| p.closeConnection c else none

end FlameDB.Client
