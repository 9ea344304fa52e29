import FlameDB.Server.Replicated
import FlameDB.Server.Shared

/-!
# One request

What the server does with one line of a session that is not part of a batch body: a replication
frame, a cluster message or a query.  `Served` holds what comes of it: the state of the node, what
the request made it do, and the replies it wrote.

A query is checked against the permissions of the session and then routed.  Mutations go to the
primary of their metric, other queries to any node that has it; a GET of several metrics is put
together from one line per metric.

Everything outside the node enters through a `RequestEnv`: the ring at each look, the answers of
other nodes and of the shared backend, and the text of JSON values, which are not taken apart here.
-/

namespace FlameDB

open Go KV

/-- The permissions of an authenticated session. -/
structure Session where
  read : Bool
  write : Bool
  internal : Bool
  deriving DecidableEq

/-- The configured limits of a server. -/
structure ServerConfig where
  shared : Bool := false
  requestLimit : ℕ := 8 * 2 ^ 20
  batchLimit : ℕ := 10000
  responseLimit : ℕ := 64 * 2 ^ 20

/-- The fields of a cluster message that the answers depend on. -/
structure DiscoveryMessage where
  type : Bytes
  metric : Bytes := []
  propagate : Bool := false
  deriving DecidableEq

/-- Which node answers a read. -/
inductive ReadPolicy where
  | roundRobin | primary | localFirst
  deriving DecidableEq

/-- The node a read goes to; `counter` is the round-robin counter. -/
def Cluster.getReadNode (c : Cluster) (policy : ReadPolicy) (counter : ℕ) (metric : Bytes) : Node :=
  let route := c.getRoute metric
  match policy with
  | .primary => (c.getPrimaryNode metric).getD c.self
  | .localFirst => if route.isLocal then c.self else (c.getPrimaryNode metric).getD c.self
  | .roundRobin => (route.nodes[counter % route.nodes.length]?).getD c.self

/-- What a request makes the node do besides answering. -/
inductive Action where
  | execute (q : Query)
  | send (node : Node) (line : Bytes)
  | sendBatch (node : Node) (lines : List Bytes)
  | replicate (item : ReplicationItem)
  deriving DecidableEq

/-- The replies of a server before they become JSON. -/
inductive Reply where
  | error (msg : Bytes)
  | clusterOK
  | json (text : Bytes)
  | mutation (result : MutationResult)
  | batch (result : BatchReply)
  | metricKeys (keys : List Bytes)
  | gathered (results : OrdMap Bytes Bytes)
  | forwarded (line : Bytes)
  deriving DecidableEq

/-- The outside of one request. -/
structure RequestEnv where
  batch : BatchEnv
  /-- the ring when it is looked at for the `n`-th time -/
  ring : ℕ → Cluster
  policy : ReadPolicy
  counter : ℕ → ℕ
  nodes : List Node
  send : Node → Bytes → Except Bytes Bytes
  /-- the outcome of the commit of each record of a frame -/
  commits : ℕ → Option Bytes
  /-- the local engine's answer to a read -/
  query : Executor → Query → Except Bytes Bytes
  listMetrics : Executor → Query → Except Bytes (List Bytes)
  exportMetric : Executor → Bytes → Except Bytes Bytes
  /-- the error or the result in another node's answer -/
  upstreamResult : Bytes → Except Bytes Bytes
  upstreamKeys : Bytes → Except Bytes (List Bytes)
  decode : Bytes → Option DiscoveryMessage
  encode : DiscoveryMessage → Bytes
  /-- topology, statistics, local metrics and peers -/
  report : Bytes → Bytes
  shared : SharedEnv
  backend : Query → Except Bytes Bytes
  backendKeys : Query → Except Bytes (List Bytes)

/-- What came of a request. -/
structure Served where
  state : ServerState
  actions : List Action := []
  replies : List Reply

/-- One reply and no action. -/
def Served.reply (s : ServerState) (r : Reply) : Served := { state := s, replies := [r] }

def Served.fail (s : ServerState) (msg : Bytes) : Served := .reply s (.error msg)

section Handlers

variable (cfg : ServerConfig) (env : RequestEnv) (session : Session)

/-! ## Replication frames -/

/-- The records of a frame as queries, or the first error. -/
def parseRecords : ℕ → List Bytes → Except Bytes (List Query)
  | _, [] => .ok []
  | i, item :: rest => do
      let q ← parse (env.batch.now i) item
      let queries ← parseRecords (i + 1) rest
      return { q with isReplica := true, forceLocal := true } :: queries

/-- `Execute` for a mutation, with the outcome of its commit. -/
def executeCommit (now : Int64) (commit : Option Bytes) (s : Executor) (q : Query) :
    Executor × Except Bytes MutationResult :=
  match executeMutation now s q, commit with
  | (exec, .ok _), some msg => ({ exec with db := s.db }, .error msg)
  | result, _ => result

/-- The loop over a frame that is not all WRITE, up to the first error, with the queries
executed. -/
def executeEach : ℕ → List Query → Executor → Executor × List Query × Option Bytes
  | _, [], s => (s, [], none)
  | i, q :: rest, s =>
      match executeCommit (env.batch.clock i) (env.commits i) s q with
      | (s, .error msg) => (s, [q], some msg)
      | (s, .ok _) =>
          let (s, done, err) := executeEach (i + 1) rest s
          (s, q :: done, err)

/-- `%v` of the errors of a batch. -/
def formatErrors (errors : List (ℕ × Bytes)) : Bytes :=
  bs "[" ++ joinSpace (errors.map fun e => bs "\x7b" ++ formatNat e.1 ++
    byte ' ' :: e.2 ++ bs "\x7d")
    ++ bs "]"

/-- A frame whose records have been parsed. -/
def executeRecords (s : Executor) (records : List Query) : Executor × List Query × Option Bytes :=
  if ∃ q ∈ records, ¬ q.IsMutation then (s, [], some (bs "invalid replica operation"))
  else if ∀ q ∈ records, q.type = .write then
    let items := records.mapIdx fun i q => (env.batch.clock i, some q)
    let (exec, result) := executeBatch env.batch.commit s items
    (exec, records, if 0 < result.failed then
      some (bs "replication batch failed: " ++ formatErrors result.errors) else none)
  else executeEach env 0 records s

def frameHead : Bytes := bs "REPL_BATCH "

/-- `REPL_BATCH`: the records are separated by the unit separator. -/
def handleReplBatch (s : ServerState) (line : Bytes) : Served :=
  if !session.internal then .fail s (bs "internal permission required")
  else if cfg.shared then
    .fail s (bs "legacy replication is unavailable with shared storage")
  else
    match parseRecords env 0 (split unitSep (trimSpace (line.drop frameHead.length))) with
    | .error msg => .fail s msg
    | .ok records =>
        let (exec, done, err) := executeRecords env s.exec records
        { state := { s with exec := exec }
          actions := done.map .execute
          replies := [match err with
            | some msg => .error msg
            | none => .clusterOK] }

/-! ## Cluster messages -/

def clusterHead : Bytes := bs "CLUSTER "

/-- The administration commands of a cluster message. -/
def administer (s : ServerState) (msg : DiscoveryMessage) : Served :=
  if msg.type = bs "CLUSTER_REPLICATION_STATS" ∨ msg.type = bs "CLUSTER_METRICS" ∨
      msg.type = bs "JOIN" then
    .reply s (.json (env.report msg.type))
  else if msg.type = bs "SET_CONFIG" then
    { state := s
      actions :=
        if msg.propagate then
          (env.nodes.filter fun node => node.id ≠ (env.ring 0).self.id).map fun node =>
            .send node (clusterHead ++ env.encode { msg with propagate := false })
        else []
      replies := [.clusterOK] }
  else if msg.type = bs "CLUSTER_EXPORT" then
    if trimSpace msg.metric = [] then .fail s (bs "missing metric")
    else
      match env.exportMetric s.exec (trimSpace msg.metric) with
      | .error err => .fail s err
      | .ok text => .reply s (.json text)
  -- The switch of the source has no default case.
  else { state := s, replies := [] }

/-- A line of the cluster protocol, under the permissions of the session. -/
def handleCluster (s : ServerState) (line : Bytes) : Served :=
  match env.decode (trimSpace (line.drop clusterHead.length)) with
  | none => .fail s (bs "invalid cluster message")
  | some msg =>
      if msg.type = bs "CLUSTER_TOPOLOGY" then
        if !session.read ∧ !session.write then .fail s (bs "permission denied")
        else .reply s (.json (env.report msg.type))
      else if !session.internal then .fail s (bs "internal permission required")
      else if cfg.shared then
        .fail s (bs "legacy cluster administration is unavailable with shared storage")
      else administer env s msg

/-! ## Queries -/

def localFlag : Bytes := bs " __local"

/-- The loop of `listMetrics` over the other nodes. -/
def gatherKeys (line : Bytes) : List Node → OrdMap Bytes Unit →
    List Action × Except Bytes (OrdMap Bytes Unit)
  | [], seen => ([], .ok seen)
  | node :: rest, seen =>
      if node.id = (env.ring 0).self.id then gatherKeys line rest seen
      else
        let action := Action.send node (line ++ localFlag)
        match env.send node (line ++ localFlag) >>= env.upstreamKeys with
        | .error msg => ([action], .error msg)
        | .ok keys =>
            let (actions, result) := gatherKeys line rest (keys.foldl (fun m k => m.set k ()) seen)
            (action :: actions, result)

/-- METRICS: the names of this node and of all others. -/
def serveMetrics (s : ServerState) (line : Bytes) (q : Query) : Served :=
  match env.listMetrics s.exec q with
  | .error msg => { Served.fail s msg with actions := [.execute q] }
  | .ok keys =>
      let seen := keys.foldl (fun m k => m.set k ()) (∅ : OrdMap Bytes Unit)
      let (actions, result) := gatherKeys env line (if q.forceLocal then [] else env.nodes) seen
      { state := s
        actions := .execute q :: actions
        replies := [match result with
          | .error msg => .error msg
          | .ok seen => .metricKeys (seen.entries.map Prod.fst)] }

def isBlank (b : UInt8) : Bool := b = byte ' ' || b = byte '\t'

/-- What follows the metric list of a GET, if a blank ends the command. -/
def getSuffix (line : Bytes) : Option Bytes :=
  match line.dropWhile fun b => !isBlank b with
  | [] => none
  | rest => some ((rest.dropWhile isBlank).dropWhile fun b => !isBlank b)

/-- The line of one metric of a GET. -/
def metricLine (metric suffix : Bytes) : Bytes := bs "GET " ++ metric ++ suffix

/-- The loop over the metrics of a GET. -/
def gatherMetrics (s : Executor) (q : Query) (suffix : Bytes) : ℕ → List Bytes →
    OrdMap Bytes Bytes → List Action × Except Bytes (OrdMap Bytes Bytes)
  | _, [], out => ([], .ok out)
  | i, metric :: rest, out =>
      let c := env.ring i
      let node := c.getReadNode env.policy (env.counter i) metric
      let single := { q with metric := metric, metrics := [] }
      let line := metricLine metric suffix ++ localFlag
      let (action, result) :=
        if node.id = c.self.id then (Action.execute single, env.query s single)
        else (Action.send node line, env.send node line >>= env.upstreamResult)
      match result with
      | .error msg => ([action], .error msg)
      | .ok text =>
          let (actions, result) := gatherMetrics s q suffix (i + 1) rest (out.set metric text)
          (action :: actions, result)

/-- GET of several metrics: each is answered where it lives. -/
def serveMetricList (s : ServerState) (line : Bytes) (q : Query) : Served :=
  match getSuffix line with
  | none => .fail s (bs "invalid query")
  | some suffix =>
      let (actions, result) := gatherMetrics env s.exec q suffix 0 q.metrics ∅
      { state := s
        actions := actions
        replies := [match result with
          | .error msg => .error msg
          | .ok out => .gathered out] }

/-- `ForwardToPrimary`. -/
def forwardToPrimary (c : Cluster) (metric line : Bytes) : List Action × Except Bytes Bytes :=
  match c.getPrimaryNode metric with
  | none => ([], .error (bs "no primary found for metric: " ++ metric))
  | some node =>
      if node.id = c.self.id then ([], .error (bs "self is primary, should not forward"))
      else ([.send node line], env.send node line)

/-- `strings.Fields(line)[0]` for a line that does not start with a space. -/
def firstField : Bytes → Bytes
  | [] => []
  | b :: rest => if ∃ w ∈ spaces, w <+: b :: rest then [] else b :: firstField rest

/-- The commands that are not sent to a second node. -/
def isMutationCommand (line : Bytes) : Bool :=
  let command := toUpper (firstField line)
  command = bs "WRITE" || command = bs "SET" || command = bs "DELETE"

/-- The loop of `ForwardWithFailover`, with the last error. -/
def forwardWithFailover (self : Node) (line : Bytes) : List Node → Option Bytes →
    List Action × Except Bytes Bytes
  | [], lastErr => ([], .error (bs "all nodes failed: " ++ lastErr.getD (bs "<nil>")))
  | node :: rest, lastErr =>
      if node.id = self.id then forwardWithFailover self line rest lastErr
      else
        let action := Action.send node (line ++ localFlag)
        match env.send node (line ++ localFlag) with
        | .ok data => ([action], .ok data)
        | .error err =>
            if isMutationCommand line then ([action], .error err)
            else
              let (actions, result) := forwardWithFailover self line rest (some err)
              (action :: actions, result)

/-- The answer of another node, or the error of reaching it. -/
def relay (s : ServerState) (outcome : List Action × Except Bytes Bytes) : Served where
  state := s
  actions := outcome.1
  replies := [match outcome.2 with
    | .error msg => .error msg
    | .ok data => .forwarded data]

/-- `executeLocal` and its reply; a query without an operation id gets one. -/
def serveLocal (s : ServerState) (line : Bytes) (q : Query) : Served :=
  let q := if !q.isReplica ∧ q.operationID = [] then
    { q with operationID := env.batch.operationID 0 }
    else q
  if q.IsMutation then
    let (state, result) := executeLocal env.batch.replicating env.batch.weather (env.batch.clock 0)
      env.batch.commit s line q
    { state := state
      actions := .execute q ::
        (committedMutation (env.batch.clock 0) env.batch.commit s line q).map .replicate
      replies := [match result with
        | .error msg => .error msg
        | .ok r => .mutation r] }
  else
    { state := s
      actions := [.execute q]
      replies := [match env.query s.exec q with
        | .error msg => .error msg
        | .ok text => .json text] }

/-- The reads that are spread over the nodes of a metric. -/
def readsAnywhere (q : Query) : Bool :=
  q.type = .get || q.type = .leaderboard || q.type = .stats || q.type = .groupLeaderboard

/-- The end of the loop body: route a query of one metric. -/
def serveRouted (s : ServerState) (line : Bytes) (q : Query) : Served :=
  if q.IsMutation ∧ !q.isReplica ∧ !(env.ring 0).isPrimaryFor q.metric then
    relay s (forwardToPrimary env (env.ring 1) q.metric line)
  else if !q.forceLocal ∧ !(env.ring 2).isLocal q.metric then
    relay s (forwardWithFailover env (env.ring 3).self line ((env.ring 3).getRoute q.metric).nodes
      none)
  else
    let node := (env.ring 4).getReadNode env.policy (env.counter 0) q.metric
    if readsAnywhere q ∧ !q.forceLocal ∧ node.id ≠ (env.ring 4).self.id then
      match env.send node (line ++ localFlag) with
      | .ok data => relay s ([.send node (line ++ localFlag)], .ok data)
      | .error _ =>
          let served := serveLocal env s line q
          { served with actions := .send node (line ++ localFlag) :: served.actions }
    else serveLocal env s line q

/-- `executeShared` and its reply. -/
def serveShared (s : ServerState) (q : Query) : Served :=
  match env.shared.refusal with
  | some msg => .fail s msg
  | none =>
      { state := s
        actions := [.execute q]
        replies := [
          if q.type = .metrics then
            match env.backendKeys q with
            | .error msg => .error msg
            | .ok keys => .metricKeys keys
          else
            match env.backend q with
            | .error msg => .error msg
            | .ok text => .json text] }

/-- A query line: permissions first, then routing and execution. -/
def handleQuery (s : ServerState) (line : Bytes) : Served :=
  match parse (env.batch.now 0) line with
  | .error msg => .fail s msg
  | .ok q =>
      if (q.isReplica ∨ q.forceLocal ∨ q.operationID ≠ []) ∧ !session.internal then
        .fail s internalFlags
      else if q.IsMutation ∧ !session.write then
        .fail s (bs "permission denied: write required")
      else if ¬ q.IsMutation ∧ !session.read then
        .fail s (bs "permission denied: read required")
      else if cfg.shared then serveShared env s q
      else if q.type = .metrics then serveMetrics env s line q
      else if q.type = .get ∧ 1 < q.metrics.length then serveMetricList env s line q
      else serveRouted env s line q

/-! ## Batches -/

/-- The queries and lines a batch makes the node execute, send and replicate. -/
def batchActions (s : ServerState) (header : Bytes) (lines : List Bytes) : List Action :=
  let quorum := contains (toUpper header) (bs "QUORUM")
  let work := routeLines env.batch session.internal quorum 0 lines {}
  work.remote.map (fun group => .sendBatch group.1 (batchLines header group.2)) ++
    work.localItems.map (fun item => .execute item.query) ++
    (replicationItems env.batch s.exec work.localItems).map fun item =>
      .replicate (replicationItem item)

/-- The end of `handleWriteBatch`, once the body is complete. -/
def serveBatch (s : ServerState) (header : Bytes) (lines : List Bytes) : Served :=
  let quorum := contains (toUpper header) (bs "QUORUM")
  if lines = [] then .reply s (.batch {})
  else if cfg.shared then
    { state := s
      actions := if env.shared.refusal = none then
          (checkShared env.shared quorum session.internal 0 lines {} []).2.map fun iq =>
            .execute iq.2
        else []
      replies := [.batch (handleSharedBatch env.shared lines quorum session.internal)] }
  else
    let (state, result) := handleWriteBatch env.batch s header lines session.internal
    { state := state
      actions := batchActions env session s header lines
      replies := [.batch result] }

end Handlers

end FlameDB
