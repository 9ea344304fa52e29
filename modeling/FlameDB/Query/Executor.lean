import FlameDB.Aggregates.Leaderboard
import FlameDB.Query.Query
import FlameDB.Storage.Storage

/-!
# Executing single mutations

WRITE, SET and DELETE all run through `executeMutation`: one atomic batch that holds the event, its
references, the scores of every board named by the query and, on a replica, the receipt of the
operation.  An error inside the batch discards it.

The automatic timestamp is taken from the executor's clock before the batch is opened, so a query
that fails still moves the clock.
-/

namespace FlameDB

open Go KV

/-- The executor: its clock and the database. -/
structure Executor where
  clock : Int64
  db : Store
  deriving DecidableEq

/-- The reply to DELETE and PREVIEW_DELETE. -/
structure DeleteResult where
  dryRun : Bool
  events : ℕ
  leaderboardEntries : ℕ
  deriving DecidableEq

/-- `nextTimestamp` for a clock reading `now`: strictly after the last one handed out. -/
def nextTimestamp (now previous : Int64) : Int64 := if now ≤ previous then previous + 1 else now

/-- The boards a query updates and the entity on each; the unnamed board has the empty name. -/
def boardsOf (q : Query) : OrdMap Bytes Bytes :=
  q.lbEntities.entries.foldl (fun m kv => m.set kv.1 kv.2)
    (if q.updateLB then (∅ : OrdMap Bytes Bytes).set [] q.lbEntityID else ∅)

/-- Assign the automatic timestamp of a WRITE that carries none. -/
def assignTimestamp (now : Int64) (s : Executor) (q : Query) : Executor × Query :=
  if q.timestamp = 0 ∧ q.type = .write then
    let ts := nextTimestamp now s.clock
    ({ s with clock := ts }, { q with timestamp := ts })
  else (s, q)

/-- The event of a write. -/
def eventOf (q : Query) : Event := ⟨q.timestamp, q.metric, q.value, q.tags⟩

/-- A replica operation leaves a receipt under its id. -/
def hasReceipt (q : Query) : Bool := q.isReplica && q.operationID ≠ []

/-- The board loop of a WRITE: each score is read from the database and increased. -/
def stageWriteBoards (db : Store) (q : Query) (batch : Store) : Except Bytes Store :=
  (boardsOf q).entries.foldlM (fun batch kv =>
    let metric := boardMetric q.metric kv.1
    let current := Leaderboard.get db metric kv.2
    Leaderboard.stageValueFromCurrent batch metric kv.2 current (current + q.value) false) batch

/-- The board loop of a SET. -/
def stageSetBoards (db : Store) (q : Query) (batch : Store) : Except Bytes Store :=
  (boardsOf q).entries.foldlM (fun batch kv =>
    Leaderboard.stageValue db batch (boardMetric q.metric kv.1) kv.2 q.value false) batch

/-- One board of a DELETE.  A dry run only counts. -/
def deleteBoard (db : Store) (q : Query) (acc : Store × ℕ) (kv : Bytes × Bytes) :
    Except Bytes (Store × ℕ) := do
  let metric := boardMetric q.metric kv.1
  let count := if Leaderboard.existsEntry db metric kv.2 then acc.2 + 1 else acc.2
  if q.dryRun then return (acc.1, count)
  return (← Leaderboard.stageValue db acc.1 metric kv.2 Float64.zero true, count)

/-- The board loop of a DELETE. -/
def stageDeleteBoards (db : Store) (q : Query) (batch : Store) : Except Bytes (Store × ℕ) :=
  (boardsOf q).entries.foldlM (deleteBoard db q) (batch, 0)

/-- The largest `int64`, the open end of a time range. -/
def maxInt64 : Int64 := 0x7FFFFFFFFFFFFFFF

/-- The end of a query's range, open when `TO` is missing. -/
def Query.stop (q : Query) : Int64 := if q.to_ = 0 then maxInt64 else q.to_

/-- The event part of a DELETE, run when no board is named or a filter is given. -/
def stageDeleteEvents (db : Store) (q : Query) (batch : Store) : Except Bytes (Store × ℕ) :=
  if (boardsOf q).entries = [] ∨ q.where_.entries ≠ [] then do
    let (target, count) ← scanDeleteWhere db (if q.dryRun then none else some batch) q.metric
      q.from_ q.stop q.where_
    return (target.getD batch, count)
  else return (batch, 0)

/-- The switch over the three kinds of mutation, inside the batch. -/
def stageMutation (db : Store) (q : Query) : Except Bytes (Store × DeleteResult) :=
  match q.type with
  | .write => do
      let batch ← stageEvent db (eventOf q)
      return (← stageWriteBoards db q batch, ⟨q.dryRun, 0, 0⟩)
  | .set => do return (← stageSetBoards db q db, ⟨q.dryRun, 0, 0⟩)
  | .delete => do
      let (batch, entries) ← stageDeleteBoards db q db
      let (batch, events) ← stageDeleteEvents db q batch
      return (batch, ⟨q.dryRun, events, entries⟩)
  | _ => return (db, ⟨q.dryRun, 0, 0⟩)

/-- The whole batch: nothing for an operation already applied, else the mutation and its receipt. -/
def mutationBatch (db : Store) (q : Query) : Except Bytes (Store × DeleteResult) :=
  if hasReceipt q ∧ (db.get? (receiptKey q.operationID)).isSome then .ok (db, ⟨q.dryRun, 0, 0⟩)
  else do
    let (batch, deleted) ← stageMutation db q
    return (if hasReceipt q then batch.set (receiptKey q.operationID) (.bytes [1]) else batch,
      deleted)

/-- The answer to a mutation: only a DELETE reports counts. -/
abbrev MutationResult := Option DeleteResult

/-- One mutation: its time, one batch, one commit. A failure changes nothing but the clock. -/
def executeMutation (now : Int64) (s : Executor) (q : Query) :
    Executor × Except Bytes MutationResult :=
  let (s, q) := assignTimestamp now s q
  match mutationBatch s.db q with
  | .error msg => (s, .error msg)
  | .ok (db, deleted) =>
      ({ s with db := db }, .ok (if q.type = .delete then some deleted else none))

end FlameDB
