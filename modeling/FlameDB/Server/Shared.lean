import FlameDB.Analytics.Batch
import FlameDB.Server.WriteBatch

/-!
# WRITE_BATCH on an API node

An API node checks the lines of a batch and hands the WRITEs among them to the shared backend in one
piece; the positions in the result are translated back to the positions of the body.
-/

namespace FlameDB

open Go KV

/-- The outside of a batch on an API node: the time, a refusal of `startShared`, the backend. -/
structure SharedEnv where
  now : ℕ → Int64
  refusal : Option Bytes
  settings : Analytics.BatchSettings
  transactions : Analytics.Transactions

/-- The checks of one line. -/
def checkSharedItem (env : SharedEnv) (quorum internal : Bool) (i : ℕ) (line : Bytes) :
    Except Bytes Query :=
  match parse (env.now i) line with
  | .error msg => .error msg
  | .ok q =>
      if (q.isReplica ∨ q.forceLocal ∨ q.operationID ≠ []) ∧ !internal then .error internalFlags
      else if q.type ≠ .write then .error (bs "WRITE_BATCH only supports WRITE items")
      else .ok { q with quorum := q.quorum || quorum }

/-- The loop over the lines: the reply so far and the queries kept, with their positions. -/
def checkShared (env : SharedEnv) (quorum internal : Bool) :
    ℕ → List Bytes → BatchReply → List (ℕ × Query) → BatchReply × List (ℕ × Query)
  | _, [], out, kept => (out, kept)
  | i, line :: rest, out, kept =>
      match checkSharedItem env quorum internal i line with
      | .error msg => checkShared env quorum internal (i + 1) rest (out.fail i msg) kept
      | .ok q => checkShared env quorum internal (i + 1) rest out (kept ++ [(i, q)])

/-- The position in the body of a position among the kept queries. -/
def sharedIndex (kept : List (ℕ × Query)) (k : ℕ) : ℕ := (kept[k]?.map Prod.fst).getD k

/-- The batch of the shared backend; its writes go to PostgreSQL in one call. -/
def handleSharedBatch (env : SharedEnv) (lines : List Bytes) (quorum internal : Bool) :
    BatchReply :=
  let (out, kept) := checkShared env quorum internal 0 lines {} []
  let out :=
    if kept = [] then out
    else
      match env.refusal with
      | some msg => kept.foldl (fun out iq => out.fail iq.1 msg) out
      | none =>
          let result := Analytics.executeBatchContext env.settings env.transactions
            (kept.map fun iq => some iq.2)
          { out with
            accepted := out.accepted + result.accepted
            failed := out.failed + result.failed
            errors := out.errors ++ result.errors.map fun e => ((sharedIndex kept e.1 : ℤ), e.2) }
  { out with
    errors := out.errors.insertionSort fun a b => a.1 ≤ b.1
    ok := out.failed = 0 }

end FlameDB
