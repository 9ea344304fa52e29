import FlameDB.Cluster.Replication
import FlameDB.Query.BatchAccounting
import FlameDB.Query.Parser
import FlameDB.Server.ReplicaLine

/-!
# WRITE_BATCH on a clustered node

`handleWriteBatch` splits the body of a batch: lines it refuses, lines of metrics whose primary is
another node, and lines it executes itself.  Each group leaves its share in one reply, under the
positions the lines have in the body.

The outside enters through a `BatchEnv`: the time, the ring, new operation ids, the answers of other
nodes, the outcome of the local commit and of replication.
-/

namespace FlameDB

open Go KV

/-- `query.BatchResult` as it is sent. -/
structure BatchReply where
  ok : Bool := true
  accepted : ℤ := 0
  failed : ℤ := 0
  errors : List (ℤ × Bytes) := []
  deriving DecidableEq

/-- One more failed line. -/
def BatchReply.fail (r : BatchReply) (index : ℤ) (msg : Bytes) : BatchReply :=
  { r with failed := r.failed + 1, errors := r.errors ++ [(index, msg)] }

/-- What came of sending a batch to another node. -/
inductive Upstream where
  | unreachable (msg : Bytes)
  | refused (msg : Bytes)
  | garbled
  | reply (r : BatchReply)

/-- The result of `SendToNode` and `upstreamBatchResult`. -/
def upstreamBatchResult : Upstream → Except Bytes (ℤ × List (ℤ × Bytes))
  | .unreachable msg => .error msg
  | .refused msg => .error msg
  | .garbled => .error (bs "invalid upstream response")
  | .reply r => .ok (r.accepted, r.errors)

/-- A line for another node, with its place in the batch. -/
structure RemoteItem where
  index : ℕ
  line : Bytes
  deriving DecidableEq

/-- A write for this node, with its place in the batch. -/
structure LocalItem where
  index : ℕ
  line : Bytes
  query : Query
  deriving DecidableEq

/-- The outside of one request.  The ring may change between two lines, and again before the lines
are replicated. -/
structure BatchEnv where
  now : ℕ → Int64
  cluster : ℕ → Cluster
  operationID : ℕ → Bytes
  send : Node → List Bytes → Upstream
  clock : ℕ → Int64
  commit : Option Bytes
  later : ℕ → Cluster
  replicating : Cluster
  weather : Weather

/-- The node's own state: its database and its replication. -/
structure ServerState where
  exec : Executor
  replicator : Replicator

/-! ## Routing

Each line is parsed, checked and given to the node that owns its metric. -/

/-- What becomes of a line. -/
inductive Routed where
  | rejected (msg : Bytes)
  | remote (node : Node) (line : Bytes)
  | executed (q : Query)

def internalFlags : Bytes := bs "internal flags require internal permission"

/-- The part of the loop body that decides what happens to line `i`. -/
def routeItem (env : BatchEnv) (internal quorum : Bool) (i : ℕ) (line : Bytes) : Routed :=
  match parse (env.now i) line with
  | .error msg => .rejected msg
  | .ok q =>
      let c := env.cluster i
      if (q.isReplica ∨ q.forceLocal ∨ q.operationID ≠ []) ∧ !internal then .rejected internalFlags
      else if q.type ≠ .write then .rejected (bs "WRITE_BATCH only supports WRITE items")
      else
        let q := if quorum then { q with quorum := true } else q
        if !q.isReplica ∧ !c.isPrimaryFor q.metric then
          match c.getPrimaryNode q.metric with
          | none => .rejected (bs "no primary found")
          | some node => .remote node line
        else if !q.forceLocal ∧ !c.isLocal q.metric then
          match c.getWriteNode q.metric with
          | none => .rejected (bs "no write node found")
          | some node => .remote node (line ++ bs " __local")
        else if !q.isReplica ∧ q.operationID = [] then
          .executed { q with operationID := env.operationID i }
        else .executed q

/-- The groups of a batch, with the reply so far. -/
structure BatchWork where
  reply : BatchReply := {}
  localItems : List LocalItem := []
  remote : List (Node × List RemoteItem) := []

/-- The items of each remote node, in the order the nodes were met. -/
def addRemote (node : Node) (item : RemoteItem) :
    List (Node × List RemoteItem) → List (Node × List RemoteItem)
  | [] => [(node, [item])]
  | (n, items) :: rest =>
      if n.id = node.id then (node, items ++ [item]) :: rest
      else (n, items) :: addRemote node item rest

/-- Routes the lines of a batch in order. -/
def routeLines (env : BatchEnv) (internal quorum : Bool) : ℕ → List Bytes → BatchWork → BatchWork
  | _, [], work => work
  | i, line :: rest, work =>
      routeLines env internal quorum (i + 1) rest <|
        match routeItem env internal quorum i line with
        | .rejected msg => { work with reply := work.reply.fail i msg }
        | .remote node line => { work with remote := addRemote node ⟨i, line⟩ work.remote }
        | .executed q => { work with localItems := work.localItems ++ [⟨i, line, q⟩] }

/-- The batch sent to a node. -/
def batchLines (header : Bytes) (items : List RemoteItem) : List Bytes :=
  header :: items.map RemoteItem.line ++ [bs "END"]

/-- The position in the body of a position in the batch sent on. -/
def remapIndex (items : List RemoteItem) (i : ℤ) : ℤ :=
  if 0 ≤ i then
    match items[i.toNat]? with
    | some item => item.index
    | none => i
  else i

/-- Sends each node its lines and puts the errors of the replies back in place. -/
def sendRemote (env : BatchEnv) (header : Bytes) :
    List (Node × List RemoteItem) → BatchReply → BatchReply
  | [], r => r
  | (node, items) :: rest, r =>
      sendRemote env header rest <|
        match upstreamBatchResult (env.send node (batchLines header items)) with
        | .error msg => items.foldl (fun r item => r.fail item.index msg) r
        | .ok (accepted, errors) =>
            { r with
              accepted := r.accepted + accepted
              failed := r.failed + (items.length - accepted)
              errors := r.errors ++ errors.map fun e => (remapIndex items e.1, e.2) }

/-! ## Lines of this node -/

/-- The queries given to `ExecuteBatch`, with the clock readings it may take. -/
def localQueries (env : BatchEnv) (items : List LocalItem) : List (Int64 × Option Query) :=
  items.map fun item => (env.clock item.index, some item.query)

/-- The place in the batch of the `k`-th write for this node. -/
def localIndex (items : List LocalItem) (k : ℕ) : ℕ := (items[k]?.map LocalItem.index).getD 0

/-- The items with the timestamps `ExecuteBatch` has assigned. -/
def stampedItems (env : BatchEnv) (s : Executor) (items : List LocalItem) : List LocalItem :=
  let plan := planBatch 0 (localQueries env items) { clock := s.clock }
  items.mapIdx fun k item =>
    match plan.valid.find? fun v => v.index = k with
    | some v => { item with query := v.query }
    | none => item

/-- Whether an executed line is replicated from here. -/
def replicatesHere (env : BatchEnv) (failed : List ℕ) (item : LocalItem) : Bool :=
  item.index ∉ failed ∧ !item.query.isReplica ∧
    ((env.later item.index).isPrimaryFor item.query.metric ∨
    (!item.query.updateLB ∧ item.query.lbEntities.entries = []))

/-- A write as it is handed to replication. -/
def replicationItem (item : LocalItem) : ReplicationItem :=
  ⟨item.query.metric, replicaLine item.line item.query, item.query.quorum⟩

/-- The result of the local execution in the numbering of the body. -/
def localErrors (items : List LocalItem) (result : BatchResult) : List (ℕ × Bytes) :=
  result.errors.map fun e => (localIndex items e.1, e.2)

/-- The executed lines to replicate. -/
def replicationItems (env : BatchEnv) (s : Executor) (items : List LocalItem) : List LocalItem :=
  let result := (executeBatch env.commit s (localQueries env items)).2
  (stampedItems env s items).filter (replicatesHere env ((localErrors items result).map Prod.fst))

/-- Executes the writes of this node, replicates those that committed and reports both. -/
def runLocal (env : BatchEnv) (s : ServerState) (items : List LocalItem) (r : BatchReply) :
    ServerState × BatchReply :=
  if items = [] then (s, r)
  else
    let (exec, result) := executeBatch env.commit s.exec (localQueries env items)
    let r :=
      { r with
        accepted := r.accepted + result.accepted
        failed := r.failed + result.failed
        errors := r.errors ++ (localErrors items result).map fun e => ((e.1 : ℤ), e.2) }
    let replicated := replicationItems env s.exec items
    let (replicator, err) :=
      replicateBatch env.replicating env.weather s.replicator (replicated.map replicationItem)
    (⟨exec, replicator⟩,
      match err with
      | none => r
      | some msg => replicated.foldl (fun r item =>
          { r.fail item.index msg with accepted := r.accepted - 1 }) r)

/-- `handleWriteBatch` for the non-empty lines of a complete body. -/
def handleWriteBatch (env : BatchEnv) (s : ServerState) (header : Bytes) (lines : List Bytes)
    (internal : Bool) : ServerState × BatchReply :=
  let quorum := contains (toUpper header) (bs "QUORUM")
  let work := routeLines env internal quorum 0 lines {}
  let r := sendRemote env header work.remote work.reply
  let (s, r) := runLocal env s work.localItems r
  (s, if 0 < r.failed then { r with ok := false } else r)

end FlameDB
