import FlameDB.Analytics.Encoding
import FlameDB.Go.Strconv
import FlameDB.Query.Result

/-!
# Ranking reads of the shared backend

A ranking read is answered from the Redis projection of the board, or from the `flame_scores` table
if Redis has nothing current.  Both reads are modelled as the source has them: the Lua script with
its staleness checks and byte limit, and the SQL statements with their order, offset and limit.

* `readProjection`, `cachedBoard` — the read from Redis.
* `sqlEntries`, `sqlBoard` — the read from the table.
-/

namespace FlameDB.Analytics

open Go KV

/-! ## Redis

Sorted sets in which all members have the score zero: their order is the byte order of the members.
-/

/-- The part of Redis in use: hashes, and sorted sets whose scores are all zero. -/
structure Redis where
  hashes : OrdMap Bytes (OrdMap Bytes Bytes)
  zsets : OrdMap Bytes (OrdMap Bytes Unit)
  deriving DecidableEq

namespace Redis

/-- The hash at a key, empty when there is none. -/
def hash (r : Redis) (key : Bytes) : OrdMap Bytes Bytes := (r.hashes.get? key).getD ∅

/-- The sorted set at a key, empty when there is none. -/
def zset (r : Redis) (key : Bytes) : OrdMap Bytes Unit := (r.zsets.get? key).getD ∅

def hget (r : Redis) (key field : Bytes) : Option Bytes := (r.hash key).get? field

def hlen (r : Redis) (key : Bytes) : ℕ := (r.hash key).entries.length

/-- The members of a sorted set; with equal scores they come in byte order. -/
def members (r : Redis) (key : Bytes) : List Bytes := (r.zset key).entries.map Prod.fst

def zcard (r : Redis) (key : Bytes) : ℕ := (r.members key).length

/-- The position of a member in the order of its set. -/
def zrank (r : Redis) (key member : Bytes) : Option ℕ :=
  (r.members key).findIdx? fun m => m = member

end Redis

/-- `tonumber` on the decimal counts the scripts store. -/
def tonumber (s : Bytes) : Option ℤ := (parseInt s).map Int64.toInt

/-- The limits of the engine: `max` entries and `maxBytes` bytes in an answer. -/
structure Engine where
  max : ℤ
  maxBytes : ℤ

section Keys

-- SHA-256; nothing but its being a function is used.
variable (sha256 : Bytes → Bytes)

/-- The hash tag in the braces keeps the keys of a metric in one slot. -/
def metricKey (metric : Bytes) : Bytes :=
  bs "flamedb:\x7b" ++ (hexEncode (sha256 metric) ++ bs "\x7d")

def boardKey (metric board : Bytes) : Bytes :=
  metricKey sha256 metric ++ (bs ":board:" ++ hexEncode (sha256 board))

/-- The epoch and version of the projection of a metric. -/
def metaKey (metric : Bytes) : Bytes := metricKey sha256 metric ++ bs ":meta"

/-- The sorted set of rank members of a board. -/
def zKey (metric board : Bytes) : Bytes := boardKey sha256 metric board ++ bs ":z"

/-- The hash from entities to rank members of a board. -/
def hKey (metric board : Bytes) : Bytes := boardKey sha256 metric board ++ bs ":h"

end Keys

/-- Collect items while their sizes, each with 64 bytes of overhead, stay within a limit. -/
def collect {α : Type} (limit : ℤ) (exceeded : Bytes) (size : α → ℕ) :
    ℤ → List α → Except Bytes (List α)
  | _, [] => .ok []
  | bytes, x :: xs =>
      let bytes := bytes + size x + 64
      if limit < bytes then .error exceeded
      else (collect limit exceeded size bytes xs).map fun tail => x :: tail

/-- What the `readProjection` script returns. -/
structure Projection where
  size : ℤ
  rank : ℤ
  member : Bytes
  start : ℤ
  members : List Bytes

def rankingBytes : Bytes := bs "ranking exceeds configured byte limit"

/-- The `readProjection` script; `none` is its answer `false`.  The loop
`for i=start,min(stop,size-1)` over single positions is a slice of the members. -/
def readProjection (r : Redis) (metaK zK hK epoch version board : Bytes) (type : QueryType)
    (offset limit : ℤ) (entity : Bytes) (radius maxBytes : ℤ) : Except Bytes (Option Projection) :=
  if r.hget metaK (bs "epoch") ≠ some epoch ∨ r.hget metaK (bs "version") ≠ some version then
    .ok none
  else
    let size := r.zcard zK
    let expected := tonumber ((r.hget metaK board).getD (bs "0"))
    if some (size : ℤ) ≠ expected ∨ some (r.hlen hK : ℤ) ≠ expected then .ok none
    else
      let ranked := type ≠ .leaderboard ∧ type ≠ .leaderboardCount
      let member := if ranked then (r.hget hK entity).getD [] else []
      let found := r.zrank zK member
      if member ≠ [] ∧ found = none then .ok none
      else
        let rank : ℤ := if member ≠ [] then (found.getD 0 : ℕ) else -1
        let start := if ranked then max 0 (rank - radius) else offset
        let stop := if ranked then rank + radius else offset + limit - 1
        let bytes : ℤ := member.length + 128
        if maxBytes < bytes then .error rankingBytes
        else if type = .leaderboard ∨ (type = .around ∧ 0 ≤ rank) then
          let slice := ((r.members zK).drop start.toNat).take (stop + 1 - start).toNat
          match collect maxBytes rankingBytes List.length bytes slice with
          | .error e => .error e
          | .ok members => .ok (some ⟨size, rank, member, start, members⟩)
        else .ok (some ⟨size, rank, member, start, []⟩)

def errStaleProjection : Bytes := bs "Redis ranking projection needs rebuilding"

def leaderboardMax : Bytes := bs "leaderboard result exceeds configured limit"

/-- The page size of a LEADERBOARD without a limit: one more than may be returned. -/
def pageLimit (e : Engine) (q : Query) : ℤ := if q.limit = 0 then e.max + 1 else q.limit

/-- The entries around a rank, numbered from the first one. -/
def rankedFrom (start : ℤ) (entries : List LeaderboardEntry) : List RankedEntry :=
  entries.mapIdx fun i entry => ⟨entry.entityID, entry.value, start + i + 1⟩

/-- The answer `cachedBoard` builds from the reply of the script. -/
def cachedResult (e : Engine) (q : Query) (reply : Projection) : Except Bytes BoardResult :=
  if q.type = .leaderboard then
    if e.max < reply.members.length then .error leaderboardMax
    else (reply.members.mapM decodeMember).map .leaderboard
  else
    let result : RankingResult :=
      { count := reply.size, around := if q.type = .around then some [] else none }
    if q.type = .leaderboardCount ∨ reply.rank < 0 then .ok (.ranking result)
    else
      match decodeMember reply.member with
      | .error err => .error err
      | .ok entry =>
          let result := { result with rank := some (reply.rank + 1), score := some entry.value }
          if q.type = .around then
            (reply.members.mapM decodeMember).map fun entries =>
              .ranking { result with around := some (rankedFrom reply.start entries) }
          else .ok (.ranking result)

/-- Answers from Redis. A projection of another epoch or version is not read but reported as stale.
-/
def cachedBoard (sha256 : Bytes → Bytes) (e : Engine) (r : Redis) (q : Query) (epoch : Bytes)
    (version : Int64) : Except Bytes BoardResult :=
  match readProjection r (metaKey sha256 q.metric) (zKey sha256 q.metric q.board)
      (hKey sha256 q.metric q.board) epoch (formatInt version) (boardKey sha256 q.metric q.board)
      q.type q.offset (pageLimit e q) q.entityID q.radius e.maxBytes with
  | .error err => .error err
  | .ok none => .error errStaleProjection
  | .ok (some reply) => cachedResult e q reply

/-! ## PostgreSQL

The score table with the `ORDER BY` of the queries. -/

/-- `flame_scores`: the score under an encoded metric, board and entity. -/
abbrev ScoreTable := OrdMap (Bytes ×ₗ Bytes ×ₗ Bytes) Float64

/-- The primary key of the score table. -/
def scoreKey (metric board entity : Bytes) : Bytes ×ₗ Bytes ×ₗ Bytes :=
  toLex (encodeString metric, toLex (encodeString board, encodeString entity))

/-- The rows of a board: encoded entity and score. -/
def boardRows (scores : ScoreTable) (metric board : Bytes) : List (Bytes × Float64) :=
  (scores.entries.filter fun row => (ofLex row.1).1 = encodeString metric ∧
    (ofLex (ofLex row.1).2).1 = encodeString board).map fun row =>
      ((ofLex (ofLex row.1).2).2, row.2)

/-- The SQL order `scoreOrder`. -/
def scoreOrder (a b : Bytes × Float64) : Bool :=
  b.2.units < a.2.units ∨ (a.2.units = b.2.units ∧
    if a.2.units < 0 then flameEntityBytes b.1 ≤ flameEntityBytes a.1
    else flameEntityBytes a.1 ≤ flameEntityBytes b.1)

/-- `ORDER BY`. -/
def ordered (rows : List (Bytes × Float64)) : List (Bytes × Float64) :=
  rows.insertionSort fun a b => scoreOrder a b = true

def leaderboardBytes : Bytes := bs "leaderboard exceeds configured byte limit"

/-- `sqlEntries`: one page of the ordered rows, with the entities decoded. -/
def sqlEntries (e : Engine) (scores : ScoreTable) (q : Query) (offset limit : ℤ) :
    Except Bytes (List LeaderboardEntry) :=
  let rows := (ordered (boardRows scores q.metric q.board)).drop offset.toNat
  match collect e.maxBytes leaderboardBytes (fun row : Bytes × Float64 => row.1.length) 0
      (rows.take limit.toNat) with
  | .error err => .error err
  | .ok rows => rows.mapM fun row => (decodeString row.1).map fun entity => ⟨entity, row.2⟩

/-- The rows the rank statement counts: a higher score, or the same score earlier in its order. -/
def ranksBefore (value : Float64) (entity : Bytes) (row : Bytes × Float64) : Bool :=
  value.units < row.2.units ∨ (row.2.units = value.units ∧
    ((0 ≤ value.units ∧ flameEntityBytes row.1 < flameEntityBytes (encodeString entity)) ∨
      (value.units < 0 ∧ flameEntityBytes (encodeString entity) < flameEntityBytes row.1)))

/-- Answers from PostgreSQL. -/
def sqlBoard (e : Engine) (scores : ScoreTable) (q : Query) : Except Bytes BoardResult :=
  if q.type = .leaderboard then
    match sqlEntries e scores q q.offset (pageLimit e q) with
    | .error err => .error err
    | .ok entries =>
        if e.max < entries.length then .error leaderboardMax else .ok (.leaderboard entries)
  else
    let rows := boardRows scores q.metric q.board
    let result : RankingResult :=
      { count := rows.length, around := if q.type = .around then some [] else none }
    if q.type = .leaderboardCount then .ok (.ranking result)
    else
      match scores.get? (scoreKey q.metric q.board q.entityID) with
      | none => .ok (.ranking result)
      | some value =>
          let rank : ℤ := (rows.countP (ranksBefore value q.entityID) : ℕ) + 1
          let result := { result with rank := some rank, score := some value }
          if q.type = .around then
            let offset := max 0 (rank - 1 - q.radius)
            let limit := rank - 1 + q.radius - offset + 1
            (sqlEntries e scores q offset limit).map fun entries =>
              .ranking { result with around := some (rankedFrom offset entries) }
          else .ok (.ranking result)

end FlameDB.Analytics
