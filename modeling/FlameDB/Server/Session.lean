import FlameDB.Server.Request

/-!
# A session

After the handshake the server reads a connection line by line.  `Conn` is its side of a session:
where it is in its loops, whether the connection is open, and the trace of what it read and wrote. 
A body of a WRITE_BATCH is read by an inner loop over the same lines.

Closing the connection inside the inner loop does not end the outer one, which goes on with the
lines already received; what it answers to them reaches nobody.

`Duty` says what a server owes its client at each point of a trace: one reply for each request, and
the reply before the connection is closed.
-/

namespace FlameDB

open Go KV

def newline : UInt8 := byte '\n'

/-- A line of text, without the newline that ends it. -/
abbrev Line := { b : Bytes // newline ∉ b }

/-- What is seen on a connection. -/
inductive Traffic where
  | received (token : Bytes)
  | ended
  | wrote (line : Line)
  | closed
  deriving DecidableEq

/-- Where the server is: reading commands, reading the body of a batch, or done. -/
inductive Phase where
  | commands
  | body (header : Bytes) (lines : List Bytes) (size : ℕ)
  | returned
  deriving DecidableEq

/-- A connection of a session with its trace. -/
structure Conn where
  server : ServerState
  phase : Phase := .commands
  isOpen : Bool := true
  trace : List Traffic := []
  actions : List Action := []

/-- The outside of one line of input: what other sessions have done to the node since the last one,
and the outside of the request. -/
structure Moment where
  others : ServerState → ServerState := id
  env : RequestEnv

/-- The lines that open a batch. -/
def isBatchHeader (line : Bytes) : Bool :=
  equalFold line (bs "WRITE_BATCH") || equalFold line (bs "WRITE_BATCH QUORUM")

def isBatchEnd (line : Bytes) : Bool := equalFold line (bs "END")

/-- The four kinds of lines outside a batch. -/
inductive LineKind where
  | frame | batch | cluster | query
  deriving DecidableEq

/-- The tests in the order of the source. -/
def lineKind (line : Bytes) : LineKind :=
  if frameHead <+: line then .frame
  else if isBatchHeader line then .batch
  else if clusterHead <+: toUpper line then .cluster
  else .query

namespace Conn

variable (cfg : ServerConfig) (text : Reply → Line) (session : Session)

/-- A reply on an open connection.  The connection of an API node replaces a reply over the limit,
and the failed write closes it. -/
def write (c : Conn) (r : Reply) : Conn :=
  if !c.isOpen then c
  else if cfg.shared ∧ cfg.responseLimit < (text r).1.length + 1 then
    { c with
      isOpen := false
      trace := c.trace ++ [.wrote (text (.error (bs "response limit exceeded"))), .closed] }
  else { c with trace := c.trace ++ [.wrote (text r)] }

/-- Closes the connection once. -/
def close (c : Conn) : Conn :=
  if c.isOpen then { c with isOpen := false, trace := c.trace ++ [.closed] } else c

/-- Answer and close. -/
def refuse (c : Conn) (msg : Bytes) : Conn := (c.write cfg text (.error msg)).close

/-- Writes the replies of a handler and records its actions. -/
def serve (c : Conn) (served : Served) : Conn :=
  served.replies.foldl (write cfg text)
    { c with server := served.state, actions := c.actions ++ served.actions }

/-- The longest line; internal connections carry whole frames. -/
def lineLimit : ℕ := if session.internal ∧ !cfg.shared then 9 * 2 ^ 20 else cfg.requestLimit

/-- The header of a batch; the body is read by the lines that follow. -/
def startBatch (c : Conn) (line : Bytes) : Conn :=
  if !session.write then
    { c.refuse cfg text (bs "permission denied: write required") with phase := .returned }
  else { c with phase := .body line [] 0 }

/-- A line that is neither empty nor too long. -/
def dispatch (env : RequestEnv) (c : Conn) (line : Bytes) : Conn :=
  match lineKind line with
  | .frame => c.serve cfg text (handleReplBatch cfg env session c.server line)
  | .batch => c.startBatch cfg text session line
  | .cluster => c.serve cfg text (handleCluster cfg env session c.server line)
  | .query => c.serve cfg text (handleQuery cfg env session c.server line)

/-- The body of the outer loop. -/
def stepCommand (env : RequestEnv) (c : Conn) (line : Bytes) : Conn :=
  if lineLimit cfg session < line.length then
    { c.refuse cfg text (bs "command too large") with phase := .returned }
  else if line = [] then c
  else c.dispatch cfg text session env line

/-- The body of the inner loop. -/
def stepBody (env : RequestEnv) (c : Conn) (header : Bytes) (lines : List Bytes) (size : ℕ)
    (line : Bytes) : Conn :=
  if isBatchEnd line then
    { c with phase := .commands }.serve cfg text (serveBatch cfg env session c.server header lines)
  else if line = [] then c
  else if cfg.batchLimit ≤ lines.length ∨ cfg.requestLimit < size + line.length then
    { c with phase := .commands }.refuse cfg text (bs "batch limit exceeded")
  else { c with phase := .body header (lines ++ [line]) (size + line.length) }

/-- One line of input. -/
def step (m : Moment) (c : Conn) (token : Bytes) : Conn :=
  let heard : Conn := { c with server := m.others c.server, trace := c.trace ++ [.received token] }
  match c.phase with
  | .returned => c
  | .commands => heard.stepCommand cfg text session m.env (trimSpace token)
  | .body header lines size =>
      heard.stepBody cfg text session m.env header lines size (trimSpace token)

/-- The end of the input. -/
def finish (c : Conn) : Conn :=
  let heard : Conn := { c with phase := .returned, trace := c.trace ++ [.ended] }
  match c.phase with
  | .returned => c
  | .commands => heard.close
  | .body _ _ _ => heard.refuse cfg text (bs "incomplete batch")

/-- A session: one token after the other. -/
def run (moments : ℕ → Moment) : ℕ → List Bytes → Conn → Conn
  | _, [], c => c
  | i, token :: rest, c => run moments (i + 1) rest (c.step cfg text session (moments i) token)

/-- The trace of a whole session on a node in state `s`. -/
def sessionTrace (moments : ℕ → Moment) (s : ServerState) (tokens : List Bytes) : List Traffic :=
  ((run cfg text session moments 0 tokens { server := s }).finish cfg text).trace

end Conn

/-! ## The duties of a server

The specification of a session, token by token. -/

/-- What is owed: nothing, nothing after a reply, the rest of a body, a reply, a close after a reply
in the middle of a body; and the end. -/
inductive Duty where
  | ready | answered | body | owed | early | over
  deriving DecidableEq

namespace Duty

/-- A new request, or a blank line. -/
def hear (line : Bytes) : Duty :=
  if line = [] then .ready else if isBatchHeader line then .body else .owed

/-- The events allowed, and the duty they leave. -/
def next : Duty → Traffic → Option Duty
  | .ready, .received token => some (hear (trimSpace token))
  | .ready, .ended => some .over
  | .answered, .received token => some (hear (trimSpace token))
  | .answered, .ended => some .over
  | .answered, .closed => some .over
  | .body, .received token => some (if isBatchEnd (trimSpace token) then .owed else .body)
  | .body, .ended => some .owed
  | .body, .wrote _ => some .early
  | .owed, .wrote _ => some .answered
  | .early, .closed => some .over
  | .over, .received _ => some .over
  | .over, .ended => some .over
  | .over, .closed => some .over
  | _, _ => none

/-- The duty after a trace, if every event of it was allowed. -/
def after (trace : List Traffic) : Option Duty := trace.foldlM next .ready

end Duty

/-- Each request of the trace is answered with one line before the next is read, and the connection
is closed only after a request has been answered or the input has ended. -/
def MeetsDuties (trace : List Traffic) : Prop := Duty.after trace = some .over

end FlameDB
