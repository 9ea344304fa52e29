import FlameDB.Storage.Event

/-!
# Leaderboards

A board keeps two keys per entity: an entity key holding the score, and a ranking key that sorts by
the inverted score.  Nothing in the store ties the two together; `stageValueFromCurrent` has to
remove the ranking key of the score the caller believes to be current.

`Get` falls back to a scan of the ranking keys for boards written before entity keys existed.
-/

namespace FlameDB

open Go KV

def encodeFloat64 (v : Float64) : Bytes := beBytes 8 v.bits.toNat

/-- A score is exactly eight bytes; anything else is treated as missing. -/
def decodeFloat64 : Value → Option Float64
  | .bytes b => if b.length = 8 then some (Float64.ofBits (beNat b)) else none
  | _ => none

/-- The ranking keys of a board: the scan from `lb:<board>:` to `lb:<board>;`. -/
def rankRows (db : Store) (metric : Bytes) : List (Bytes × Value) :=
  db.range (bs "lb" ++ colon :: (component metric ++ [colon]))
    (bs "lb" ++ colon :: (component metric ++ [0x3b]))

/-- The rows of a scan that hold a readable entry. -/
def legacyEntries (db : Store) (metric : Bytes) : List LeaderboardEntry :=
  (rankRows db metric).filterMap fun row => (unmarshalEntry row.2).toOption

/-- The fallback of `Get`: the first ranking row that names the entity. -/
def legacyScan (db : Store) (metric entityID : Bytes) : Float64 :=
  match (legacyEntries db metric).find? fun e => e.entityID = entityID with
  | some e => e.value
  | none => Float64.zero

namespace Leaderboard

/-- The score of an entity: its entity key, or the legacy scan where that key is missing. -/
def get (db : Store) (metric entityID : Bytes) : Float64 :=
  match (db.get? (lbEntityKey metric entityID)).bind decodeFloat64 with
  | some v => v
  | none => legacyScan db metric entityID

/-- `Exists` distinguishes missing entries from entries with a score of zero. -/
def existsEntry (db : Store) (metric entityID : Bytes) : Bool :=
  (db.get? (lbEntityKey metric entityID)).isSome

def mustBeFinite : Bytes := bs "leaderboard value must be finite"

/-- Replaces the score `current`: its rank key goes, and both keys of the new score are written
unless the entity is removed. -/
def stageValueFromCurrent (batch : Store) (metric entityID : Bytes) (current value : Float64)
    (remove : Bool) : Except Bytes Store :=
  let batch := batch.erase (lbKey metric entityID current)
  if remove then .ok (batch.erase (lbEntityKey metric entityID))
  else if value.isFinite then do
    let value := value.canonical
    let data ← marshalEntry ⟨entityID, value⟩
    return (batch.set (lbKey metric entityID value) data).set (lbEntityKey metric entityID)
      (.bytes (encodeFloat64 value))
  else .error mustBeFinite

/-- The current score is read from the database, not from the batch. -/
def stageValue (db batch : Store) (metric entityID : Bytes) (value : Float64) (remove : Bool) :
    Except Bytes Store :=
  stageValueFromCurrent batch metric entityID (get db metric entityID) value remove

/-- One pass of `TopN` over its rows.  The result says what is left of the offset. -/
def topLoop (limit : ℕ) : List (Bytes × Value) → ℕ → List LeaderboardEntry →
    Except Bytes (ℕ × List LeaderboardEntry)
  | [], offset, results => .ok (offset, results)
  | row :: rows, offset, results => do
      let entry ← unmarshalEntry row.2
      let (offset, results) :=
        if 0 < offset then (offset - 1, results) else (offset, results ++ [entry])
      if 0 < limit ∧ limit ≤ results.length then return (offset, results)
      topLoop limit rows offset results

/-- Non-negative scores are scanned forward, negative ones backward. -/
def topN (db : Store) (metric : Bytes) (limit offset : ℤ) :
    Except Bytes (List LeaderboardEntry) :=
  if limit < 0 ∨ offset < 0 then .error (bs "invalid pagination")
  else do
    let front := bs "lb" ++ colon :: (component metric ++ [colon])
    let split := front ++ [0x80]
    let (offset, results) ← topLoop limit.toNat
      (db.range split (bs "lb" ++ colon :: (component metric ++ [0x3b]))) offset.toNat []
    if 0 < limit.toNat ∧ limit.toNat ≤ results.length then return results
    let (_, results) ← topLoop limit.toNat (db.range front split).reverse offset results
    return results

end Leaderboard

end FlameDB
