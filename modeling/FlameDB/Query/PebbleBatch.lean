import FlameDB.Aggregates.BatchLookup
import FlameDB.Query.Executor

/-!
# Executing a batch of writes

`executeWriteBatch` runs a list of WRITE queries in one batch.  It keeps the running score of every
entity it meets and writes each final score once, at the end; an item whose score overflows is
rejected alone.

The first loop checks the items, assigns timestamps and collects the entities to lock; the second
stages the accepted items.  Both are written as recursions over the list of items.
-/

namespace FlameDB

open Go KV

/-- A board's ranking name and an entity on it. -/
abbrev ScoreKey := Bytes ×ₗ Bytes

/-- A score during a batch: as stored, and as it will be written. -/
structure ScoreState where
  initial : Float64
  current : Float64
  changed : Bool
  deriving DecidableEq

/-- One item that passed the first loop. -/
structure BatchItem where
  index : ℕ
  query : Query
  deriving DecidableEq

/-- The outcome of the first loop. -/
structure BatchPlan where
  clock : Int64
  targets : OrdMap Bytes (OrdMap Bytes Unit) := ∅
  valid : List BatchItem := []
  errors : List (ℕ × Bytes) := []

/-- The reply to a batch; errors carry the place of their item. -/
structure BatchResult where
  ok : Bool
  accepted : ℕ
  failed : ℕ
  errors : List (ℕ × Bytes)
  deriving DecidableEq

/-- One entity of a board, added to the locked ones. -/
def addTarget (m : Bytes) (targets : OrdMap Bytes (OrdMap Bytes Unit)) (kv : Bytes × Bytes) :
    OrdMap Bytes (OrdMap Bytes Unit) :=
  let metric := boardMetric m kv.1
  targets.set metric (((targets.get? metric).getD ∅).set kv.2 ())

/-- The entities of one query's boards, added to the locked ones. -/
def addTargets (q : Query) (targets : OrdMap Bytes (OrdMap Bytes Unit)) :
    OrdMap Bytes (OrdMap Bytes Unit) :=
  (boardsOf q).entries.foldl (addTarget q.metric) targets

/-- The first loop.  Each item comes with the clock reading an automatic timestamp would use. -/
def planBatch : ℕ → List (Int64 × Option Query) → BatchPlan → BatchPlan
  | _, [], plan => plan
  | i, (_, none) :: rest, plan =>
      planBatch (i + 1) rest
        { plan with errors := plan.errors ++ [(i, bs "batch only supports WRITE")] }
  | i, (now, some q) :: rest, plan =>
      if q.type ≠ .write then
        planBatch (i + 1) rest
          { plan with errors := plan.errors ++ [(i, bs "batch only supports WRITE")] }
      else if !q.value.isFinite ∨ q.timestamp < 0 then
        planBatch (i + 1) rest
          { plan with errors := plan.errors ++ [(i, bs "invalid write value or timestamp")] }
      else
        let ts := nextTimestamp now plan.clock
        let q' := if q.timestamp = 0 then { q with timestamp := ts } else q
        planBatch (i + 1) rest
          { plan with
            clock := if q.timestamp = 0 then ts else plan.clock
            targets := addTargets q' plan.targets
            valid := plan.valid ++ [⟨i, q'⟩] }

/-- The state of the second loop. -/
structure BatchState where
  batch : Store
  reader : LockedBatchLookup
  scores : OrdMap ScoreKey ScoreState := ∅
  accepted : List ℕ := []
  errors : List (ℕ × Bytes)

/-- The checks of one item's boards: the lookups made, and the new scores or `none` if one of them
is not finite. -/
structure BoardCheck where
  reader : LockedBatchLookup
  scores : OrdMap ScoreKey ScoreState
  next : Option (List (ScoreKey × Float64))

/-- The running score of an entity, read from the database the first time. -/
def readScore (db : Store) (reader : LockedBatchLookup) (scores : OrdMap ScoreKey ScoreState)
    (key : ScoreKey) : Except Bytes (LockedBatchLookup × OrdMap ScoreKey ScoreState × ScoreState) :=
  match scores.get? key with
  | some state => .ok (reader, scores, state)
  | none => do
      let (reader, current) ← reader.get db (ofLex key).1 (ofLex key).2
      let state := ⟨current, current, false⟩
      return (reader, scores.set key state, state)

/-- The loop over one item's boards, left at the first score that is not finite. -/
def checkBoards (db : Store) (q : Query) :
    List (Bytes × Bytes) → LockedBatchLookup → OrdMap ScoreKey ScoreState →
      List (ScoreKey × Float64) → Except Bytes BoardCheck
  | [], reader, scores, next => .ok ⟨reader, scores, some next⟩
  | (board, entity) :: rest, reader, scores, next => do
      let key := toLex (boardMetric q.metric board, entity)
      let (reader, scores, state) ← readScore db reader scores key
      let value := state.current + q.value
      if value.isFinite then
        checkBoards db q rest reader scores (next ++ [(key, value.canonical)])
      else return ⟨reader, scores, none⟩

/-- Record the new running scores of an accepted item. -/
def applyScores (scores : OrdMap ScoreKey ScoreState) (next : List (ScoreKey × Float64)) :
    OrdMap ScoreKey ScoreState :=
  next.foldl (fun scores kv =>
    let state := (scores.get? kv.1).getD ⟨Float64.zero, Float64.zero, false⟩
    scores.set kv.1 { state with current := kv.2, changed := true }) scores

/-- An error that ends the batch, with the items rejected before it. -/
structure BatchFailure where
  msg : Bytes
  errors : List (ℕ × Bytes)

/-- One item of the second loop. -/
def stageItem (db : Store) (s : BatchState) (item : BatchItem) : Except BatchFailure BatchState :=
  let q := item.query
  if hasReceipt q ∧ (s.batch.get? (receiptKey q.operationID)).isSome then
    .ok { s with accepted := s.accepted ++ [item.index] }
  else do
    let check ← (checkBoards db q (boardsOf q).entries s.reader s.scores []).mapError
      fun msg => ⟨msg, s.errors⟩
    match check.next with
    | none =>
        return { s with
          reader := check.reader, scores := check.scores
          errors := s.errors ++ [(item.index, Leaderboard.mustBeFinite)] }
    | some next =>
        let batch ← (stageEvent s.batch (eventOf q)).mapError fun msg => ⟨msg, s.errors⟩
        return {
          batch := if hasReceipt q then batch.set (receiptKey q.operationID) (.bytes [1]) else batch
          reader := check.reader
          scores := applyScores check.scores next
          accepted := s.accepted ++ [item.index]
          errors := s.errors }

/-- Write every score that changed, once. -/
def flushScores (scores : OrdMap ScoreKey ScoreState) (batch : Store) : Except Bytes Store :=
  scores.entries.foldlM (fun batch kv =>
    if kv.2.changed then
      Leaderboard.stageValueFromCurrent batch (ofLex kv.1).1
        (ofLex kv.1).2 kv.2.initial kv.2.current
        false
    else .ok batch) batch

/-- The batch callback: stage the items in order, then the scores. -/
def stageBatch (db : Store) (plan : BatchPlan) : Except BatchFailure (Store × BatchState) := do
  let s ← plan.valid.foldlM (stageItem db)
    { batch := db, reader := ⟨plan.targets, ∅⟩, errors := plan.errors }
  let batch ← (flushScores s.scores s.batch).mapError fun msg => ⟨msg, s.errors⟩
  return (batch, s)

/-- Report an error for every position that has none yet. -/
def failAll (errors : List (ℕ × Bytes)) (items : List BatchItem) (msg : Bytes) :
    List (ℕ × Bytes) :=
  items.foldl (fun errors item =>
    if errors.any fun e => e.1 = item.index then errors else errors ++ [(item.index, msg)]) errors

/-- The batch: plan, stage, commit once. An error of the store fails every staged item. -/
def executeWriteBatch (s : Executor) (items : List (Int64 × Option Query)) :
    Executor × BatchResult :=
  let plan := planBatch 0 items { clock := s.clock }
  if plan.valid = [] then
    ({ s with clock := plan.clock }, ⟨plan.errors = [], 0, plan.errors.length, plan.errors⟩)
  else
    match stageBatch s.db plan with
    | .error failure =>
        let errors := failAll failure.errors plan.valid failure.msg
        ({ s with clock := plan.clock }, ⟨errors = [], 0, errors.length, errors⟩)
    | .ok (db, state) =>
        ({ clock := plan.clock, db := db },
          ⟨state.errors = [], state.accepted.length, state.errors.length, state.errors⟩)

end FlameDB
