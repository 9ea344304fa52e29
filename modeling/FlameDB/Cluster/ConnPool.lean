import FlameDB.Go.Scanner
import FlameDB.KV.OrdMap
import FlameDB.Machine

/-!
# Pooled connections to other nodes

A node sends its queries to another one over up to 64 shared connections.  A call of `Send` picks a
connection first and takes its lock later, so a connection can be evicted or closed while others
wait for it.

* `ConnPool.step` — the calls, interleaved at every lock they take, with the network and the closing
  of the pool.  A query is any text, a line or a whole batch; the peer answers the requests it
  receives on a connection once and in order.
* `PooledConn.Ok` — a connection nobody uses has no bytes on the wire in either direction, unless a
  call has failed on it, and then it is closed.
* `PooledConn.Ok.scan_token` — so a line the scanner returns is the whole reply to the caller's
  request.
-/

namespace FlameDB

open Go KV

/-- A request on its way to the peer, with the calls whose bytes it has.  It is what was written up
to the line feed that ends a query: one line, or the lines of a batch from its header to `END`. -/
structure WireRequest where
  text : Bytes
  senders : List ℕ
  deriving DecidableEq

/-- Why a call fails. -/
inductive SendError where
  | poolClosed
  | dial
  | write
  | response
  deriving DecidableEq

/-- Where the call that holds the lock of a connection is. -/
inductive HoldStage where
  | writing
  | scanning
  | evicting (error : SendError)
  | removing (error : SendError) (pool : ℕ)
  deriving DecidableEq

/-- The call that holds the mutex of a connection. -/
structure LockHolder where
  id : ℕ
  node : Bytes
  query : Bytes
  stage : HoldStage
  deriving DecidableEq

/-- `pooledConn` with its two directions.  `unfinished` is what was written behind the last request,
`replies` are the peer's answers to `requests`, and `arriving` the bytes of them that were not yet
read. `failed` and `reused` record that a call failed on the connection and that another wrote to it
afterwards. -/
structure PooledConn where
  node : Bytes
  isOpen : Bool
  mu : Option LockHolder
  unfinished : WireRequest
  requests : List WireRequest
  replies : List Bytes
  arriving : Bytes
  buffer : Bytes
  scanErr : Bool
  failed : Bool
  reused : Bool

/-- How the write of a query ends: as a whole, or after some bytes of the query. -/
inductive WriteOutcome where
  | complete
  | torn (n : ℕ)
  deriving DecidableEq

/-- The number of connections to one node. -/
def connsPerNode : ℕ := 64

/-- The longest reply a scanner accepts. -/
def scannerMaxTokenSize : ℕ := 64 * 2 ^ 20

namespace PooledConn

/-- A connection after the handshake. -/
def dialed (node : Bytes) : PooledConn :=
  ⟨node, true, none, ⟨[], []⟩, [], [], [], [], false, false, false⟩

/-- A connection that was never made. -/
def absent : PooledConn := { dialed [] with isOpen := false }

/-- Writes a request. After a short write the bytes stay on the wire in front of the next request.
-/
def write (c : PooledConn) (h : LockHolder) : WriteOutcome → Option PooledConn
  | .complete =>
      if c.isOpen = true then
        some { c with
          unfinished := ⟨[], []⟩
          requests := c.requests ++ [⟨c.unfinished.text ++ h.query, c.unfinished.senders ++ [h.id]⟩]
          reused := c.reused || c.failed
          mu := some { h with stage := .scanning } }
      else none
  | .torn n =>
      if c.isOpen = true ∨ n = 0 then
        some { c with
          unfinished := if n = 0 then c.unfinished
            else ⟨c.unfinished.text ++ h.query.take n, c.unfinished.senders ++ [h.id]⟩
          reused := c.reused || (c.failed && n ≠ 0)
          failed := true
          mu := some { h with stage := .evicting .write } }
      else none

/-- The scanner has no line and has to read. -/
def Reads (c : PooledConn) : Prop :=
  scanLines c.buffer c.scanErr = none ∧ c.scanErr = false ∧ c.buffer.length < scannerMaxTokenSize

instance (c : PooledConn) : Decidable c.Reads := inferInstanceAs (Decidable (_ ∧ _))

/-- The scanner takes bytes that have arrived. -/
def receive (c : PooledConn) (n : ℕ) : Option PooledConn :=
  if c.Reads ∧ c.isOpen = true ∧ 1 ≤ n ∧ n ≤ c.arriving.length ∧
      c.buffer.length + n ≤ scannerMaxTokenSize then
    some { c with buffer := c.buffer ++ c.arriving.take n, arriving := c.arriving.drop n }
  else none

/-- A read ends in a timeout, at the end of the stream or because the connection is closed. -/
def readError (c : PooledConn) : Option PooledConn :=
  if c.Reads then some { c with scanErr := true } else none

/-- The connection after a failed `Scan`. -/
def scanFailed (c : PooledConn) (h : LockHolder) : PooledConn :=
  { c with failed := true, mu := some { h with stage := .evicting .response } }

/-- `Scan`: a line, a failure, or neither before the next read. -/
def scan (c : PooledConn) (h : LockHolder) : Option (PooledConn × Option Bytes) :=
  match scanLines c.buffer c.scanErr with
  | some (token, rest) => some ({ c with buffer := rest, mu := none }, some token)
  | none =>
      if c.scanErr = true then some (scanFailed { c with buffer := [] } h, none)
      else if scannerMaxTokenSize ≤ c.buffer.length then
        some (scanFailed { c with scanErr := true } h, none)
      else none

/-- The peer answers the next request, with one line. -/
def answer (c : PooledConn) (reply : Bytes) : Option PooledConn :=
  if IsLine reply ∧ c.replies.length < c.requests.length then
    some { c with
      replies := c.replies ++ [reply]
      arriving := c.arriving ++ (reply ++ [lineFeed]) }
  else none

end PooledConn

/-! ## The pool

Calls run concurrently; each step is one that the mutexes do not make atomic with its neighbours. -/

/-- The connections to one node and the round-robin counter. -/
structure NodePool where
  node : Bytes
  closed : Bool
  next : UInt64
  conns : List ℕ

/-- Where a call is before it has the lock of a connection, and how it returned. -/
inductive SendPhase where
  | fresh
  | lookup (node query : Bytes)
  | insert (node query : Bytes)
  | inPool (node query : Bytes) (pool : ℕ)
  | waiting (node query : Bytes) (conn : ℕ)
  | holding
  | returned (node query : Bytes) (result : Except SendError Bytes)

/-- `ConnPool` with the node pools and connections it has made; `taken` are the pools `CloseAll` has
taken and not yet closed. -/
structure ConnPool where
  pools : OrdMap Bytes ℕ
  closed : Bool
  taken : List ℕ
  nodePools : ℕ → NodePool
  poolCount : ℕ
  conns : ℕ → PooledConn
  connCount : ℕ
  sends : ℕ → SendPhase

/-- The steps of concurrent calls and of the network. -/
inductive PoolEvent where
  | send (i : ℕ) (node query : Bytes)
  | lookup (i : ℕ)
  | insert (i : ℕ)
  | pick (i : ℕ) (dialed : Bool)
  | lock (i : ℕ)
  | write (c : ℕ) (outcome : WriteOutcome)
  | receive (c n : ℕ)
  | readError (c : ℕ)
  | scan (c : ℕ)
  | evict (c : ℕ)
  | remove (c : ℕ)
  | closeAll
  | closePool (p : ℕ)
  | answer (c : ℕ) (reply : Bytes)

namespace ConnPool

/-- `NewConnPool`. -/
def new : ConnPool :=
  ⟨∅, false, [], fun _ => ⟨[], false, 0, []⟩, 0, fun _ => .absent, 0, fun _ => .fresh⟩

def setSend (s : ConnPool) (i : ℕ) (phase : SendPhase) : ConnPool :=
  { s with sends := Function.update s.sends i phase }

def setConn (s : ConnPool) (c : ℕ) (conn : PooledConn) : ConnPool :=
  { s with conns := Function.update s.conns c conn }

def setPool (s : ConnPool) (p : ℕ) (pool : NodePool) : ConnPool :=
  { s with nodePools := Function.update s.nodePools p pool }

/-- A new call, with any query. -/
def send (s : ConnPool) (i : ℕ) (node query : Bytes) : Option ConnPool :=
  match s.sends i with
  | .fresh => some (s.setSend i (.lookup node query))
  | _ => none

/-- `ConnPool.get` under the read lock. -/
def lookup (s : ConnPool) (i : ℕ) : Option ConnPool :=
  match s.sends i with
  | .lookup node query =>
      if s.closed = true then some (s.setSend i (.returned node query (.error .poolClosed)))
      else match s.pools.get? node with
        | some p => some (s.setSend i (.inPool node query p))
        | none => some (s.setSend i (.insert node query))
  | _ => none

/-- `ConnPool.get` under the write lock. -/
def insert (s : ConnPool) (i : ℕ) : Option ConnPool :=
  match s.sends i with
  | .insert node query =>
      if s.closed = true then some (s.setSend i (.returned node query (.error .poolClosed)))
      else match s.pools.get? node with
        | some p => some (s.setSend i (.inPool node query p))
        | none =>
            let s' := (s.setPool s.poolCount ⟨node, false, 0, []⟩).setSend i
              (.inPool node query s.poolCount)
            some { s' with pools := s.pools.set node s.poolCount, poolCount := s.poolCount + 1 }
  | _ => none

/-- The next connection in turn. -/
def pickNext (s : ConnPool) (i : ℕ) (node query : Bytes) (p : ℕ) : Option ConnPool :=
  let pool := s.nodePools p
  let next := pool.next + 1
  (pool.conns[next.toNat % pool.conns.length]?).map fun c =>
    (s.setPool p { pool with next := next }).setSend i (.waiting node query c)

/-- `nodePool.get`. -/
def pick (s : ConnPool) (i : ℕ) (dialed : Bool) : Option ConnPool :=
  match s.sends i with
  | .inPool node query p =>
      let pool := s.nodePools p
      if pool.closed = true then some (s.setSend i (.returned node query (.error .poolClosed)))
      else if connsPerNode ≤ pool.conns.length then s.pickNext i node query p
      else if dialed = true then
        let s' := (s.setPool p { pool with conns := pool.conns ++ [s.connCount] }).setSend i
          (.waiting node query s.connCount)
        some { s'.setConn s.connCount (.dialed node) with connCount := s.connCount + 1 }
      else if pool.conns = [] then some (s.setSend i (.returned node query (.error .dial)))
      else s.pickNext i node query p
  | _ => none

/-- A waiting call gets the mutex of its connection. -/
def lock (s : ConnPool) (i : ℕ) : Option ConnPool :=
  match s.sends i with
  | .waiting node query c =>
      if (s.conns c).mu = none then
        some ((s.setConn c { s.conns c with mu := some ⟨i, node, query,
          .writing⟩ }).setSend i .holding)
      else none
  | _ => none

def write (s : ConnPool) (c : ℕ) (outcome : WriteOutcome) : Option ConnPool :=
  match (s.conns c).mu with
  | some ⟨i, node, query, .writing⟩ =>
      ((s.conns c).write ⟨i, node, query, .writing⟩ outcome).map (s.setConn c)
  | _ => none

def receive (s : ConnPool) (c n : ℕ) : Option ConnPool :=
  match (s.conns c).mu with
  | some ⟨_, _, _, .scanning⟩ => ((s.conns c).receive n).map (s.setConn c)
  | _ => none

def readError (s : ConnPool) (c : ℕ) : Option ConnPool :=
  match (s.conns c).mu with
  | some ⟨_, _, _, .scanning⟩ => (s.conns c).readError.map (s.setConn c)
  | _ => none

/-- The holder looks for a reply in the scanner's buffer. -/
def scan (s : ConnPool) (c : ℕ) : Option ConnPool :=
  match (s.conns c).mu with
  | some ⟨i, node, query, .scanning⟩ =>
      ((s.conns c).scan ⟨i, node, query, .scanning⟩).map fun r =>
        match r.2 with
        | some token => (s.setConn c r.1).setSend i (.returned node query (.ok token))
        | none => s.setConn c r.1
  | _ => none

/-- `evictConn` under the read lock of the pools. -/
def evict (s : ConnPool) (c : ℕ) : Option ConnPool :=
  match (s.conns c).mu with
  | some ⟨i, node, query, .evicting e⟩ =>
      match s.pools.get? node with
      | none =>
          some ((s.setConn c { s.conns c with mu := none }).setSend i
            (.returned node query (.error e)))
      | some p =>
          some (s.setConn c { s.conns c with mu := some ⟨i, node, query, .removing e p⟩ })
  | _ => none

/-- `evictConn` under the lock of the node's pool. -/
def remove (s : ConnPool) (c : ℕ) : Option ConnPool :=
  match (s.conns c).mu with
  | some ⟨i, node, query, .removing e p⟩ =>
      let pool := s.nodePools p
      let isOpen := (s.conns c).isOpen && !(c ∈ pool.conns)
      some (((s.setPool p { pool with conns := pool.conns.erase c }).setConn c
        { s.conns c with isOpen := isOpen, mu := none }).setSend i
          (.returned node query (.error e)))
  | _ => none

/-- `CloseAll` under the lock of the pools. -/
def closeAll (s : ConnPool) : ConnPool :=
  { s with closed := true, taken := s.taken ++ s.pools.entries.map Prod.snd, pools := ∅ }

/-- `CloseAll` under the lock of one of the pools it took. -/
def closePool (s : ConnPool) (p : ℕ) : Option ConnPool :=
  if p ∈ s.taken then
    let pool := s.nodePools p
    let s' := s.setPool p { pool with closed := true, conns := [] }
    some { s' with
      taken := s.taken.erase p
      conns := fun c => if c ∈ pool.conns then { s.conns c with isOpen := false } else s.conns c }
  else none

def step (s : ConnPool) : PoolEvent → Option ConnPool
  | .send i node query => s.send i node query
  | .lookup i => s.lookup i
  | .insert i => s.insert i
  | .pick i dialed => s.pick i dialed
  | .lock i => s.lock i
  | .write c outcome => s.write c outcome
  | .receive c n => s.receive c n
  | .readError c => s.readError c
  | .scan c => s.scan c
  | .evict c => s.evict c
  | .remove c => s.remove c
  | .closeAll => some s.closeAll
  | .closePool p => s.closePool p
  | .answer c reply => ((s.conns c).answer reply).map (s.setConn c)

end ConnPool

/-! ## A connection by itself

What the holder of a connection does to the bytes in both directions. -/

namespace PooledConn

variable {c c' : PooledConn} {h : LockHolder}

/-- Nothing is on the wire in either direction. -/
structure Quiet (c : PooledConn) : Prop where
  unfinished : c.unfinished = ⟨[], []⟩
  answered : c.replies.length = c.requests.length
  arriving : c.arriving = []
  buffer : c.buffer = []
  scanErr : c.scanErr = false

/-- Nobody waits for a reply, and after a failure the connection is closed. -/
def Idle (c : PooledConn) : Prop := c.failed = false ∧ c.Quiet ∨ c.failed = true ∧ c.isOpen = false

/-- The reply to the last request is on its way: not written, or in part read. -/
def Replying (c : PooledConn) (before : List WireRequest) : Prop :=
  (c.replies.length = before.length ∧ c.buffer = [] ∧ c.arriving = []) ∨
    ∃ replies reply, c.replies = replies ++ [reply] ∧ replies.length = before.length ∧
      IsLine reply ∧ c.buffer ++ c.arriving = reply ++ [lineFeed]

/-- The last request is the query of the call that holds the lock. -/
structure Asked (c : PooledConn) (h : LockHolder) : Prop where
  unfinished : c.unfinished = ⟨[], []⟩
  request : ∃ before, c.requests = before ++ [⟨h.query, [h.id]⟩] ∧ c.Replying before
  scanErr : c.scanErr = true → c.buffer = []

/-- The state of a connection, by the stage of the call that holds it. -/
def StageOk (c : PooledConn) (h : LockHolder) : Prop :=
  match h.stage with
  | .writing => c.Idle
  | .scanning => c.failed = false ∧ c.Asked h
  | .evicting _ => c.failed = true
  | .removing _ _ => c.failed = true

/-- The peer gave this reply to the query of the call, which is a request of its own. -/
def Answered (c : PooledConn) (i : ℕ) (query reply : Bytes) : Prop :=
  ∃ k : ℕ, c.requests[k]? = some (WireRequest.mk query [i]) ∧ c.replies[k]? = some reply

/-- **The invariant of a connection.** -/
structure Ok (c : PooledConn) : Prop where
  reused : c.reused = false
  idle : c.mu = none → c.Idle
  stage : ∀ h, c.mu = some h → c.StageOk h

lemma ok_dialed (node : Bytes) : (dialed node).Ok :=
  ⟨rfl, fun _ => Or.inl ⟨rfl, rfl, rfl, rfl, rfl, rfl⟩, fun _ hmu => absurd hmu (by simp [dialed])⟩

lemma ok_absent : absent.Ok :=
  ⟨rfl, fun _ => Or.inl ⟨rfl, rfl, rfl, rfl, rfl, rfl⟩, fun _ hmu =>
    absurd hmu (by simp [absent, dialed])⟩

lemma Idle.setMu (hc : c.Idle) (mu : Option LockHolder) : Idle { c with mu := mu } := by
  rcases hc with ⟨hf, hq⟩ | hdead
  · exact Or.inl ⟨hf, hq.unfinished, hq.answered, hq.arriving, hq.buffer, hq.scanErr⟩
  · exact Or.inr hdead

lemma Ok.lock (hc : c.Ok) (hmu : c.mu = none) (i : ℕ) (node query : Bytes) :
    Ok { c with mu := some ⟨i, node, query, .writing⟩ } := by
  refine ⟨hc.reused, fun hnone => absurd hnone (by simp), fun h hh => ?_⟩
  obtain rfl := Option.some.inj hh
  exact (hc.idle hmu).setMu _

lemma Ok.close (hc : c.Ok) : Ok { c with isOpen := false } := by
  have hidle : c.Idle → Idle { c with isOpen := false } := by
    rintro (⟨hf, hq⟩ | ⟨hf, -⟩)
    · exact Or.inl ⟨hf, hq.unfinished, hq.answered, hq.arriving, hq.buffer, hq.scanErr⟩
    · exact Or.inr ⟨hf, rfl⟩
  refine ⟨hc.reused, fun hmu => hidle (hc.idle hmu), fun h hmu => ?_⟩
  have hstage := hc.stage h hmu
  unfold StageOk at hstage ⊢
  cases hs : h.stage with
  | writing =>
      rw [hs] at hstage
      exact hidle hstage
  | scanning =>
      rw [hs] at hstage
      exact ⟨hstage.1, hstage.2.unfinished, hstage.2.request, hstage.2.scanErr⟩
  | evicting e =>
      rw [hs] at hstage
      exact hstage
  | removing e p =>
      rw [hs] at hstage
      exact hstage

/-- A call that failed on a closed connection gives the lock back. -/
lemma Ok.unlock (hc : c.Ok) (hfailed : c.failed = true) (hclosed : c.isOpen = false) :
    Ok { c with mu := none } :=
  ⟨hc.reused, fun _ => Or.inr ⟨hfailed, hclosed⟩, fun _ hmu => absurd hmu (by simp)⟩

/-- A request is on the wire, whole or in part. -/
lemma Ok.write {outcome : WriteOutcome} (hc : c.Ok) (hmu : c.mu = some h) (hs : h.stage = .writing)
    (hwrite : c.write h outcome = some c') : c'.Ok := by
  have hidle : c.Idle := by
    have hstage := hc.stage h hmu
    rwa [StageOk, hs] at hstage
  cases outcome with
  | complete =>
      rw [PooledConn.write] at hwrite
      by_cases hopen : c.isOpen = true
      · rw [if_pos hopen] at hwrite
        obtain rfl := Option.some.inj hwrite
        obtain ⟨hf, hq⟩ : c.failed = false ∧ c.Quiet :=
          hidle.resolve_right fun hdead => by simp [hopen] at hdead
        refine ⟨by simp [hc.reused, hf], fun hnone => absurd hnone (by simp), fun h' hh => ?_⟩
        obtain rfl := Option.some.inj hh
        refine ⟨hf, rfl, ⟨c.requests, ?_, Or.inl ⟨hq.answered, hq.buffer, hq.arriving⟩⟩, ?_⟩
        · simp [hq.unfinished]
        · intro herr
          exact hq.buffer
      · rw [if_neg hopen] at hwrite
        exact absurd hwrite (by simp)
  | torn n =>
      rw [PooledConn.write] at hwrite
      by_cases hopen : c.isOpen = true ∨ n = 0
      · rw [if_pos hopen] at hwrite
        obtain rfl := Option.some.inj hwrite
        have hreused : (c.failed && decide (n ≠ 0)) = false := by
          rcases hidle with ⟨hf, -⟩ | ⟨-, hclosed⟩
          · rw [hf, Bool.false_and]
          · have hn : n = 0 := hopen.resolve_left (by simp [hclosed])
            simp [hn]
        refine ⟨by simp only [hc.reused, hreused, Bool.or_self],
          fun hnone => absurd hnone (by simp),
          fun h' hh => ?_⟩
        obtain rfl := Option.some.inj hh
        rfl
      · rw [if_neg hopen] at hwrite
        exact absurd hwrite (by simp)

lemma Ok.asked (hc : c.Ok) (hmu : c.mu = some h) (hs : h.stage = .scanning) :
    c.failed = false ∧ c.Asked h := by
  have hstage := hc.stage h hmu
  rwa [StageOk, hs] at hstage

/-- A connection on which a call waits for its reply. -/
lemma ok_of_asked (hreused : c.reused = false) (hmu : c.mu = some h) (hs : h.stage = .scanning)
    (hf : c.failed = false) (hasked : c.Asked h) : c.Ok := by
  refine ⟨hreused, fun hnone => absurd (hnone.symm.trans hmu) (by simp), fun h' hh => ?_⟩
  obtain rfl : h = h' := Option.some.inj (hmu.symm.trans hh)
  rw [StageOk, hs]
  exact ⟨hf, hasked⟩

lemma Ok.receive {n : ℕ} (hc : c.Ok) (hmu : c.mu = some h) (hs : h.stage = .scanning)
    (hreceive : c.receive n = some c') : c'.Ok := by
  obtain ⟨hf, hasked⟩ := hc.asked hmu hs
  rw [PooledConn.receive] at hreceive
  split_ifs at hreceive with hguard
  obtain rfl := Option.some.inj hreceive
  obtain ⟨⟨-, hnoErr, -⟩, -, hpos, hle, -⟩ := hguard
  refine ok_of_asked hc.reused hmu hs hf ⟨hasked.unfinished, ?_, fun herr => ?_⟩
  · obtain ⟨before, hlines, hreply⟩ := hasked.request
    refine ⟨before, hlines, ?_⟩
    rcases hreply with ⟨-, -, hnil⟩ | ⟨replies, reply, hreplies, hlen, hline, hbytes⟩
    · rw [hnil, List.length_nil] at hle
      omega
    · refine Or.inr ⟨replies, reply, hreplies, hlen, hline, ?_⟩
      show c.buffer ++ c.arriving.take n ++ c.arriving.drop n = reply ++ [lineFeed]
      rw [List.append_assoc, List.take_append_drop, hbytes]
  · exact absurd (herr.symm.trans hnoErr) (by simp)

/-- A read fails and no part of the reply was read before. -/
lemma Ok.readError (hc : c.Ok) (hmu : c.mu = some h) (hs : h.stage = .scanning)
    (hbuffer : c.buffer = []) (hread : c.readError = some c') : c'.Ok := by
  obtain ⟨hf, hasked⟩ := hc.asked hmu hs
  rw [PooledConn.readError] at hread
  split_ifs at hread
  obtain rfl := Option.some.inj hread
  exact ok_of_asked hc.reused hmu hs hf ⟨hasked.unfinished, hasked.request, fun _ => hbuffer⟩

lemma ok_scanFailed (hreused : c.reused = false) (h : LockHolder) : (c.scanFailed h).Ok := by
  refine ⟨hreused, fun hnone => absurd hnone (by simp [scanFailed]), fun h' hh => ?_⟩
  obtain rfl := Option.some.inj hh
  rfl

/-- **A line the scanner returns** is the whole reply to the caller's request, and the connection
is quiet again. -/
lemma Ok.scan_token {token rest : Bytes} (hc : c.Ok) (hmu : c.mu = some h)
    (hs : h.stage = .scanning) (hscan : scanLines c.buffer c.scanErr = some (token, rest)) :
    Ok { c with buffer := rest, mu := none } ∧
      c.Answered h.id h.query token := by
  obtain ⟨hf, hasked⟩ := hc.asked hmu hs
  have hne : c.buffer ≠ [] := by
    intro hnil
    rw [hnil, scanLines_nil] at hscan
    exact absurd hscan (by simp)
  have herr : c.scanErr = false := by
    by_contra herr
    exact hne (hasked.scanErr (by simpa using herr))
  have hmem : lineFeed ∈ c.buffer := by
    by_contra hmem
    rw [herr, scanLines_of_notMem hmem] at hscan
    exact absurd hscan (by simp)
  obtain ⟨before, hlines, hreply⟩ := hasked.request
  obtain ⟨replies, reply, hreplies, hlen, hline, hbytes⟩ :=
    hreply.resolve_left fun hnone => hne hnone.2.1
  obtain ⟨hbuffer, harriving⟩ := eq_of_lineFeed_mem hline.lineFeed_notMem hbytes hmem
  rw [hbuffer, scanLines_line hline] at hscan
  obtain ⟨rfl, rfl⟩ := Prod.mk.inj (Option.some.inj hscan)
  refine ⟨⟨hc.reused, fun _ => Or.inl ⟨hf, hasked.unfinished, ?_, harriving, rfl, herr⟩,
    fun _ hsome => absurd hsome (by simp)⟩, before.length, ?_, ?_⟩
  · show c.replies.length = c.requests.length
    rw [hreplies, hlines, List.length_append, List.length_append, hlen]
    rfl
  · rw [hlines, List.getElem?_concat_length]
  · rw [hreplies, ← hlen, List.getElem?_concat_length]

/-- The peer answers the next request. -/
lemma Ok.answer {reply : Bytes} (hc : c.Ok) (hanswer : c.answer reply = some c') : c'.Ok := by
  rw [PooledConn.answer] at hanswer
  split_ifs at hanswer with hguard
  obtain rfl := Option.some.inj hanswer
  obtain ⟨hline, hlt⟩ := hguard
  -- a quiet connection has no request left to answer
  have hidle : c.Idle → Idle { c with
      replies := c.replies ++ [reply], arriving := c.arriving ++ (reply ++ [lineFeed]) } := by
    rintro (⟨-, hq⟩ | hdead)
    · have := hq.answered
      omega
    · exact Or.inr hdead
  refine ⟨hc.reused, fun hmu => hidle (hc.idle hmu), fun h hmu => ?_⟩
  have hstage := hc.stage h hmu
  unfold StageOk at hstage ⊢
  cases hs : h.stage with
  | writing =>
      rw [hs] at hstage
      exact hidle hstage
  | scanning =>
      rw [hs] at hstage
      obtain ⟨hf, hasked⟩ := hstage
      refine ⟨hf, hasked.unfinished, ?_, hasked.scanErr⟩
      obtain ⟨before, hlines, hreply⟩ := hasked.request
      refine ⟨before, hlines, ?_⟩
      rcases hreply with ⟨hlen, hbuffer, harriving⟩ | ⟨replies, r, hreplies, hlen, -⟩
      · refine Or.inr ⟨c.replies, reply, rfl, hlen, hline, ?_⟩
        show c.buffer ++ (c.arriving ++ (reply ++ [lineFeed])) = reply ++ [lineFeed]
        rw [hbuffer, harriving, List.nil_append, List.nil_append]
      · rw [hreplies, hlines, List.length_append, List.length_append, hlen] at hlt
        exact absurd hlt (lt_irrefl _)
  | evicting e =>
      rw [hs] at hstage
      exact hstage
  | removing e p =>
      rw [hs] at hstage
      exact hstage

/-- What was written and answered stays, and nothing is opened again. -/
structure Kept (c c' : PooledConn) : Prop where
  requests : c.requests <+: c'.requests
  replies : c.replies <+: c'.replies
  node : c'.node = c.node
  isOpen : c'.isOpen = true → c.isOpen = true

lemma getElem?_of_prefix {α : Type} {l l' : List α} (h : l <+: l') {k : ℕ} {a : α}
    (ha : l[k]? = some a) : l'[k]? = some a := by
  obtain ⟨t, rfl⟩ := h
  obtain ⟨hk, -⟩ := List.getElem?_eq_some_iff.mp ha
  rw [List.getElem?_append_left hk, ha]

lemma Answered.kept {i : ℕ} {query reply : Bytes} (ha : c.Answered i query reply)
    (hk : c.Kept c') : c'.Answered i query reply := by
  obtain ⟨k, hline, hreply⟩ := ha
  exact ⟨k, getElem?_of_prefix hk.requests hline, getElem?_of_prefix hk.replies hreply⟩

lemma kept_setMu (c : PooledConn) (mu : Option LockHolder) : c.Kept { c with mu := mu } :=
  ⟨List.prefix_rfl, List.prefix_rfl, rfl, id⟩

/-- A write changes nothing that other calls rely on. -/
lemma kept_write {outcome : WriteOutcome} (hwrite : c.write h outcome = some c') :
    c.Kept c' ∧ ∃ stage, c'.mu = some { h with stage := stage } ∧ ∀ e p, stage ≠ .removing e p := by
  cases outcome with
  | complete =>
      rw [PooledConn.write] at hwrite
      split_ifs at hwrite
      obtain rfl := Option.some.inj hwrite
      exact ⟨⟨List.prefix_append _ _, List.prefix_rfl, rfl, id⟩, _, rfl, by simp⟩
  | torn n =>
      rw [PooledConn.write, Option.ite_none_right_eq_some] at hwrite
      obtain ⟨-, heq⟩ := hwrite
      obtain rfl := Option.some.inj heq
      exact ⟨⟨List.prefix_rfl, List.prefix_rfl, rfl, id⟩, _, rfl, by simp⟩

lemma kept_receive {n : ℕ} (hreceive : c.receive n = some c') : c.Kept c' ∧ c'.mu = c.mu := by
  rw [PooledConn.receive] at hreceive
  split_ifs at hreceive
  obtain rfl := Option.some.inj hreceive
  exact ⟨⟨List.prefix_rfl, List.prefix_rfl, rfl, id⟩, rfl⟩

lemma kept_readError (hread : c.readError = some c') : c.Kept c' ∧ c'.mu = c.mu := by
  rw [PooledConn.readError] at hread
  split_ifs at hread
  obtain rfl := Option.some.inj hread
  exact ⟨⟨List.prefix_rfl, List.prefix_rfl, rfl, id⟩, rfl⟩

lemma kept_answer {reply : Bytes} (hanswer : c.answer reply = some c') :
    c.Kept c' ∧ c'.mu = c.mu := by
  rw [PooledConn.answer] at hanswer
  split_ifs at hanswer
  obtain rfl := Option.some.inj hanswer
  exact ⟨⟨List.prefix_rfl, List.prefix_append _ _, rfl, id⟩, rfl⟩

/-- The two ways in which `Scan` ends. -/
lemma scan_cases {r : PooledConn × Option Bytes} (hscan : c.scan h = some r) :
    (∃ token rest, scanLines c.buffer c.scanErr = some (token, rest) ∧
      r = ({ c with buffer := rest, mu := none }, some token)) ∨
    ∃ x : PooledConn, c.Kept x ∧ x.reused = c.reused ∧ r = (x.scanFailed h, none) := by
  unfold scan at hscan
  cases hlines : scanLines c.buffer c.scanErr with
  | some found =>
      rw [hlines] at hscan
      exact Or.inl ⟨found.1, found.2, rfl, (Option.some.inj hscan).symm⟩
  | none =>
      rw [hlines] at hscan
      dsimp only at hscan
      split_ifs at hscan
      · exact Or.inr ⟨{ c with buffer := [] }, ⟨List.prefix_rfl, List.prefix_rfl, rfl, id⟩, rfl,
          (Option.some.inj hscan).symm⟩
      · exact Or.inr ⟨{ c with scanErr := true }, ⟨List.prefix_rfl, List.prefix_rfl, rfl, id⟩, rfl,
          (Option.some.inj hscan).symm⟩

end PooledConn

end FlameDB
