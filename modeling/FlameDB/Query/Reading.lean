import FlameDB.Aggregates.Leaderboard
import FlameDB.Query.Executor
import FlameDB.Query.Parser
import FlameDB.Storage.Windowed

/-!
# Executing reads

GET reads the events of one or more metrics and returns them, one aggregate of them, or a series of
aggregates over buckets of time.  LEADERBOARD returns a page of a stored board, or of the sums of a
window when the query has a time range.  GROUP_LEADERBOARD ranks groups of entities by the sum of
their members.  STATS returns the number of values each tag has had.
-/

namespace Go.Float64

/-- `float64(n)`. -/
def ofNat (n : ℕ) : Float64 := ofLow false (roundUnits (n * 2 ^ 1074) 1)

/-- `x / float64(n)` for a positive count that a `float64` holds exactly. -/
def divNat (x : Float64) (n : ℕ) : Float64 :=
  if x.isNaN then nan else if x.isInf then x else ofLow x.negative (roundUnits x.units.natAbs n)

end Go.Float64

namespace FlameDB

open Go KV

/-- A bucket of a series. -/
structure SeriesPoint where
  ts : Int64
  value : Float64
  count : ℕ
  deriving DecidableEq

/-- The value of an aggregate, with the number of events behind it. -/
structure AggregateResult where
  type : AggType
  value : Float64
  count : ℕ
  deriving DecidableEq

/-- The answer for one metric. -/
inductive GetAnswer where
  | events (events : List Event)
  | aggregate (result : AggregateResult)
  | series (points : List SeriesPoint)
  deriving DecidableEq

/-- One answer, or one for each of several metrics. -/
inductive GetResult where
  | single (answer : GetAnswer)
  | multi (answers : OrdMap Bytes GetAnswer)
  deriving DecidableEq

/-- The sum in the order of the list; floating-point addition depends on it. -/
def sumValues (events : List Event) : Float64 :=
  events.foldl (fun sum e => sum + e.value) Float64.zero

/-- The aggregate of events; the mean of none is their empty sum. -/
def aggregateValue (agg : Option AggType) (events : List Event) : Float64 :=
  match agg with
  | some .count => Float64.ofNat events.length
  | some .avg => if events = [] then sumValues events else (sumValues events).divNat events.length
  | _ => sumValues events

def addCalendar (t : ℤ) (spec : DurSpec) : ℤ := applyCalendarOffset t spec 1

/-- Move a bucket forward until it ends after `ts`; a calendar unit has at least a day. -/
def advanceBucket (spec : DurSpec) (ts : ℤ) : (fuel : ℕ) → ℤ × ℤ → ℤ × ℤ
  | 0, bucket => bucket
  | fuel + 1, (start, stop) =>
      if stop ≤ ts then advanceBucket spec ts fuel (stop, addCalendar stop spec) else (start, stop)

/-- The bucket of an event, counted from the epoch or from the last calendar bucket. -/
def bucketOf (spec : DurSpec) (ts : ℤ) (last : ℤ × ℤ) : ℤ × ℤ :=
  if spec.years = 0 ∧ spec.months = 0 then
    let start := ts - ts.tmod spec.dur
    (start, start + spec.dur)
  else advanceBucket spec ts (ts / nanosPerDay + 2).toNat last

/-- The bucket contains the event. -/
def inBucket (bucket : ℤ × ℤ) (e : Event) : Bool :=
  bucket.1 ≤ e.timestamp.toInt ∧ e.timestamp.toInt < bucket.2

/-- The loop of `aggregateSeriesUTC`; every round takes the events of one bucket. -/
def seriesLoop (spec : DurSpec) (agg : Option AggType) :
    (fuel : ℕ) → List Event → ℤ × ℤ → List SeriesPoint
  | 0, _, _ => []
  | _, [], _ => []
  | fuel + 1, e :: rest, last =>
      let bucket := bucketOf spec e.timestamp.toInt last
      let inside := (e :: rest).takeWhile (inBucket bucket)
      ⟨unixNano bucket.1, aggregateValue agg inside, inside.length⟩ ::
        if bucket.1 = bucket.2 then []
        else seriesLoop spec agg fuel ((e :: rest).dropWhile (inBucket bucket)) bucket

/-- The series of events in time order. -/
def aggregateSeriesUTC (events : List Event) (spec : Bytes) (agg : Option AggType) :
    List SeriesPoint :=
  match parseCalendarSpec spec with
  | .error _ => []
  | .ok dur => seriesLoop dur agg events.length events (0, 0)

/-- What is returned for the events of a metric. -/
def answerOf (q : Query) (events : List Event) : GetAnswer :=
  if q.groupBySpec ≠ [] then .series (aggregateSeriesUTC events q.groupBySpec q.aggregate)
  else
    match q.aggregate with
    | some agg => .aggregate ⟨agg, aggregateValue q.aggregate events, events.length⟩
    | none => .events events

/-- Whether a GET needs all events, not a page of them. -/
def Query.aggregates (q : Query) : Bool := q.groupBySpec ≠ [] || q.aggregate.isSome

/-- The events a GET reads of a metric. -/
def getEvents (db : Store) (q : Query) (metric : Bytes) : Except Bytes (List Event) :=
  if q.aggregates then readPage db metric q.from_ q.stop q.where_ 0 0 false
  else readPage db metric q.from_ q.stop q.where_ q.limit q.offset (q.order = bs "DESC")

/-- The metrics of a GET. -/
def Query.targets (q : Query) : List Bytes := if q.metrics = [] then [q.metric] else q.metrics

/-- Each metric in turn; a later one of the same name replaces the earlier answer. -/
def getLoop (db : Store) (q : Query) : List Bytes → OrdMap Bytes GetAnswer →
    Except Bytes (OrdMap Bytes GetAnswer)
  | [], out => .ok out
  | metric :: rest, out => do
      let events ← getEvents db q metric
      getLoop db q rest (out.set metric (answerOf q events))

/-- GET of one metric or several. -/
def executeGet (db : Store) (q : Query) : Except Bytes GetResult :=
  match q.targets with
  | [metric] => do return .single (answerOf q (← getEvents db q metric))
  | metrics => do return .multi (← getLoop db q metrics ∅)

/-- Whether the query has a time range, as far as its two numbers show. -/
def Query.windowed (q : Query) : Bool := q.from_ ≠ 0 || q.to_ ≠ 0

/-- With a time range the events are summed up; without one a stored board is read. -/
def executeLeaderboard (db : Store) (q : Query) : Except Bytes (List LeaderboardEntry) :=
  if q.windowed then
    if q.entityTag = [] then .error (bs "LEADERBOARD mit FROM/TO erfordert ENTITY <tag-key>")
    else windowedLeaderboard db q.metric q.entityTag q.from_ q.stop q.limit q.offset
  else Leaderboard.topN db (boardMetric q.metric q.board) q.limit q.offset

/-- The members of all groups, each once, in the order they are first named. -/
def groupMembers (groups : List GroupDef) : List Bytes :=
  (groups.flatMap (·.members)).foldl (fun seen m => if m ∈ seen then seen else seen ++ [m]) []

/-- One entry per group: the sum over its members. -/
def groupEntries (groups : List GroupDef) (score : Bytes → Float64) : List LeaderboardEntry :=
  groups.map fun g => ⟨g.name, g.members.foldl (fun sum member => sum + score member) Float64.zero⟩

/-- The page of the entries in a stable order. -/
def groupPage (entries : List LeaderboardEntry) (limit offset : ℕ) : List LeaderboardEntry :=
  let entries := entries.insertionSort fun a b => !leaderboardBefore b a
  if entries.length ≤ offset then []
  else
    let entries := entries.drop offset
    if 0 < limit ∧ limit < entries.length then entries.take limit else entries

/-- The sums of groups, over all time or a window. -/
def executeGroupLeaderboard (db : Store) (q : Query) : Except Bytes (List LeaderboardEntry) :=
  if q.groups = [] then .ok []
  else if q.windowed then
    if q.entityTag = [] then
      .error (bs "GROUP_LEADERBOARD mit FROM/TO erfordert ENTITY <tag-key>")
    else do
      let sums ← windowedEntitySums db q.metric q.entityTag (groupMembers q.groups) q.from_ q.stop
      return groupPage (groupEntries q.groups fun m => (sums.get? m).getD Float64.zero)
        q.limit.toNat q.offset.toNat
  else
    .ok (groupPage (groupEntries q.groups fun m =>
      Leaderboard.get db (boardMetric q.metric q.board) m)
      q.limit.toNat q.offset.toNat)

/-- `GetTagStats`: each tag key with the number of its values. -/
def getTagStats (db : Store) (metric : Bytes) (tagKeys : List Bytes) : List (Bytes × ℕ) :=
  tagKeys.map fun k => (k, getCardinality db metric k)

def executeStats (db : Store) (q : Query) : List (Bytes × ℕ) := getTagStats db q.metric q.tagKeys

end FlameDB
