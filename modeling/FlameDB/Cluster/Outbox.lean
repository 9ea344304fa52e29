import FlameDB.Go.Strconv
import FlameDB.Go.Utf8
import FlameDB.Keyspace
import FlameDB.KV.OrdMap

/-!
# The outbox

Before a mutation is answered, the lines for its replicas are put into the outbox, from where
workers deliver them to other nodes.  A record lies under a key with the id of its node and a
running number; a node that starts takes its clock for the last number, or the highest number it
finds in a key.

* `OutboxState` — the number, the rows of the database, and the records put and not yet deleted.
* `OutboxState.records_putBatch` — a batch adds its records behind the others.
-/

namespace FlameDB

open Go KV

/-- A member of the cluster. -/
structure Node where
  id : Bytes
  addr : Bytes
  deriving DecidableEq

/-- A record on its way to a node; `ack` is the quorum call that waits for it. -/
structure ReplicationRecord where
  node : Node
  query : Bytes
  outboxKey : Bytes := []
  ack : Option ℕ := none
  deriving DecidableEq

/-- What the database keeps of a record. -/
structure OutboxEntry where
  node : Node
  query : Bytes
  deriving DecidableEq

/-- The key of the record with the given sequence number. -/
def recordKey (node : Node) (seq : ℕ) : Bytes :=
  outboxKey (node.id ++ colon :: fixedDecimal 20 seq)

/-- Entries are kept as JSON, which replaces invalid UTF-8. -/
def marshalOutboxEntry (record : ReplicationRecord) : OutboxEntry :=
  ⟨⟨toValidUtf8 record.node.id, toValidUtf8 record.node.addr⟩, toValidUtf8 record.query⟩

/-- The number after the last colon of a key. -/
def keySeq (key : Bytes) : Option ℕ :=
  let digits := (key.reverse.takeWhile (· ≠ colon)).reverse
  if colon ∈ key ∧ digits ≠ [] ∧ digits.all isDigit ∧ decimalValue digits < 2 ^ 64 then
    some (decimalValue digits)
  else none

/-! ## The operations

The operations of `replicationOutbox`.  Numbers are 64 bits wide and wrap around; whether the batch
of a `putBatch` is committed is up to the database. -/

/-- `replicationOutbox` with its part of the database.  `surviving` are the records put and not yet
deleted, oldest first, with their numbers. -/
structure OutboxState where
  seq : UInt64
  entries : OrdMap Bytes OutboxEntry
  surviving : List (UInt64 × ReplicationRecord)

/-- The operations on the outbox; a restart reads its sequence number back. -/
inductive OutboxEvent where
  | put (records : List ReplicationRecord) (commits : Bool)
  | delete (keys : List Bytes)
  | restart (clock : Int64)

/-- The key under which a numbered record is stored. -/
def numberedKey (p : UInt64 × ReplicationRecord) : Bytes := recordKey p.2.node p.1.toNat

/-- The numbers a batch gets. -/
def numbered (seq : UInt64) : List ReplicationRecord → List (UInt64 × ReplicationRecord)
  | [] => []
  | record :: rest => (seq + 1, record) :: numbered (seq + 1) rest

namespace OutboxState

/-- Stores a record under the next number. -/
def putRecord (s : OutboxState) (record : ReplicationRecord) : OutboxState :=
  let seq := s.seq + 1
  ⟨seq, s.entries.set (recordKey record.node seq.toNat) (marshalOutboxEntry record),
    s.surviving ++ [(seq, record)]⟩

/-- `putBatch`; the numbers are used up even if the batch is not committed. -/
def putBatch (s : OutboxState) (records : List ReplicationRecord) (commits : Bool) : OutboxState :=
  if commits then records.foldl putRecord s
  else { s with seq := records.foldl (fun seq _ => seq + 1) s.seq }

/-- Removes delivered records. -/
def deleteBatch (s : OutboxState) (keys : List Bytes) : OutboxState :=
  let keys := keys.filter fun key => key ≠ []
  { s with
    entries := keys.foldl (fun entries key => entries.erase key) s.entries
    surviving := s.surviving.filter fun p => numberedKey p ∉ keys }

/-- One key of the scan at the start: the number grows to the one it has. -/
def scanKey (seq : UInt64) (key : Bytes) : UInt64 :=
  match keySeq key with
  | some n => if seq.toNat < n then UInt64.ofNat n else seq
  | none => seq

/-- The largest number found in the keys. -/
def scanSeq (seq : UInt64) (keys : List Bytes) : UInt64 := keys.foldl scanKey seq

/-- `newReplicationOutbox`: the clock counts nanoseconds since 1970, as an unsigned number. -/
def reopen (s : OutboxState) (clock : Int64) : OutboxState :=
  { s with seq := scanSeq clock.toUInt64 (s.entries.entries.map Prod.fst) }

/-- The outbox of a node that never had one. -/
def new (clock : Int64) : OutboxState := ⟨clock.toUInt64, ∅, []⟩

/-- `recoverReplicationOutbox`. -/
def recover (s : OutboxState) : List ReplicationRecord :=
  s.entries.entries.map fun row => ⟨row.2.node, row.2.query, row.1, none⟩

/-- One operation. -/
def step (s : OutboxState) : OutboxEvent → Option OutboxState
  | .put records commits => some (s.putBatch records commits)
  | .delete keys => some (s.deleteBatch keys)
  | .restart clock => some (s.reopen clock)

end OutboxState

/-- The store after a batch has the batch's records behind the others. -/
lemma surviving_putBatch (s : OutboxState) (records : List ReplicationRecord) :
    (s.putBatch records true).surviving = s.surviving ++ numbered s.seq records := by
  show (records.foldl OutboxState.putRecord s).surviving = _
  induction records generalizing s with
  | nil => exact (List.append_nil _).symm
  | cons record rest ih =>
      rw [List.foldl_cons, ih]
      exact List.append_assoc _ _ _

lemma map_snd_numbered (seq : UInt64) (records : List ReplicationRecord) :
    (numbered seq records).map Prod.snd = records := by
  induction records generalizing seq with
  | nil => rfl
  | cons record rest ih => exact congrArg (record :: ·) (ih (seq + 1))

/-- The records put and not yet deleted, oldest first. -/
def OutboxState.records (s : OutboxState) : List ReplicationRecord := s.surviving.map Prod.snd

@[simp] lemma OutboxState.records_putBatch (s : OutboxState) (records : List ReplicationRecord) :
    (s.putBatch records true).records = s.records ++ records := by
  rw [OutboxState.records, surviving_putBatch, List.map_append, map_snd_numbered]
  rfl

end FlameDB
