import FlameDB.Go.Time
import FlameDB.Parsing.ArgLoop
import FlameDB.Query.Query
import FlameDB.Query.Tokenize

/-!
# The query parser

`parse` reads one command line at a given time.  A line is checked for framing characters, an
operation id at its end is cut off, the rest is tokenized and every token with a quote must be a
quoted string (`prepare`); then the command decides how the arguments are read.

The argument loops of the commands all do the same few things with a token: set a flag, read a
value, read a `WHERE` clause, read `key = value`.  `Arg` names these, and each command is a table
`Query → Bytes → Arg` from the token at hand to what is done with it.
-/

namespace FlameDB

open Go KV

/-- The value of a token, without its quotes where it has any. -/
def tokenValue (token : Bytes) : Bytes :=
  if token.head? = some (byte '"') then (unquote token).getD token else token

/-- A duration: calendar years and months, and nanoseconds. -/
structure DurSpec where
  years : ℤ := 0
  months : ℤ := 0
  dur : ℤ := 0
  deriving DecidableEq

/-- The unit at the front of what follows a number. -/
def durationUnit (rest : Bytes) : Bytes :=
  if (bs "min").isPrefixOf rest then bs "min"
  else if (bs "mo").isPrefixOf rest then bs "mo"
  else rest.take 1

/-- The units that are a number of nanoseconds. -/
def unitScale (hasCalendar : Bool) (unit : Bytes) : Option ℤ :=
  if unit = bs "m" ∧ ¬ hasCalendar ∨ unit = bs "min" then some 60000000000
  else if unit = bs "w" then some 604800000000000
  else if unit = bs "d" then some 86400000000000
  else if unit = bs "h" then some 3600000000000
  else if unit = bs "s" then some 1000000000
  else none

/-- One number and its unit, added to `out`. -/
def addUnit (hasCalendar : Bool) (out : DurSpec) (num : ℤ) (unit : Bytes) : Except Bytes DurSpec :=
  match unitScale hasCalendar unit with
  | some scale =>
      if (2 ^ 63 - 1 - out.dur) / scale < num then .error (bs "duration overflow")
      else .ok { out with dur := out.dur + num * scale }
  | none =>
      if unit = bs "y" then
        if 290 < num then .error (bs "duration too large")
        else .ok { out with years := out.years + num }
      else if unit = bs "mo" ∨ unit = bs "m" then
        if 3480 < num then .error (bs "duration too large")
        else .ok { out with months := out.months + num }
      else .error (bs "invalid duration unit: " ++ unit)

/-- The loop of `parseCalendarSpec`; every round reads at least two bytes. -/
def calendarLoop (spec : Bytes) (hasCalendar : Bool) : ℕ → DurSpec → Bytes → Except Bytes DurSpec
  | _, out, [] => .ok out
  | 0, out, _ => .ok out
  | fuel + 1, out, s =>
      let digits := s.takeWhile isDigit
      let rest := s.dropWhile isDigit
      if digits = [] ∨ rest = [] then .error (bs "invalid duration: " ++ spec)
      else
        match parseInt digits with
        | none =>
            .error (bs "strconv.ParseInt: parsing \"" ++ digits ++ bs "\": value out of range")
        | some num => do
            let out ← addUnit hasCalendar out num.toInt (durationUnit rest)
            calendarLoop spec hasCalendar fuel out (rest.drop (durationUnit rest).length)

/-- The duration of a whole text; only a text with `y` or `mo` reads `m` as months. -/
def parseCalendarSpec (spec : Bytes) : Except Bytes DurSpec := do
  let hasCalendar := contains spec (bs "y") || contains spec (bs "mo")
  let out ← calendarLoop spec hasCalendar spec.length {} spec
  if out = {} then .error (bs "duration must be positive") else .ok out

/-- The fixed part of a duration. -/
def parseDurationSpec (spec : Bytes) : Except Bytes Int64 := do
  let d ← parseCalendarSpec spec
  return Int64.ofInt d.dur

/-- `applyCalendarOffset`, with the operator as a sign. -/
def applyCalendarOffset (base : ℤ) (spec : DurSpec) (sign : ℤ) : ℤ :=
  let base := if spec.years ≠ 0 ∨ spec.months ≠ 0 then
    addDate base (sign * spec.years) (sign * spec.months) else base
  if spec.dur ≠ 0 then base + sign * spec.dur else base

/-- The instant a time argument names, read at the instant `base`. -/
def timeInstant (base : ℤ) (token : Bytes) : Except Bytes ℤ :=
  let token := tokenValue token
  if (bs "now").isPrefixOf token then
    if token = bs "now" then .ok base
    else if token.length < 5 then .error (bs "invalid relative time: " ++ token)
    else
      let op := token.getD 3 0
      if op ≠ byte '-' ∧ op ≠ byte '+' then .error (bs "invalid relative time: " ++ token)
      else do
        let d ← parseCalendarSpec (token.drop 4)
        return applyCalendarOffset base d (if op = byte '-' then -1 else 1)
  else
    match parseRFC3339Nano token with
    | some t => .ok t
    | none =>
        match parseDateOnly token with
        | some t => .ok t
        | none => .error (bs "invalid date: " ++ token)

/-- A time argument, read at any instant: whatever it names is put into 64 bits. -/
def parseTimeAt (base : ℤ) (token : Bytes) : Except Bytes Int64 :=
  (timeInstant base token).map unixNano

/-- A time argument, read at the time `now`. -/
def parseTimeValue (now : Int64) (token : Bytes) : Except Bytes Int64 := parseTimeAt now.toInt token

/-- The parts of a comma-separated list that are not blank. -/
def splitMetrics (s : Bytes) : List Bytes :=
  ((split (byte ',') s).map trimSpace).filter (· ≠ [])

/-- The group `name:a,b`. -/
def parseGroupSpec (spec : Bytes) : Except Bytes GroupDef :=
  match cut (byte ':') spec with
  | none => .error (bs "invalid GROUP spec: " ++ spec)
  | some (name, members) =>
      if trimSpace name = [] then .error (bs "invalid GROUP spec: " ++ spec)
      else if splitMetrics members = [] then
        .error (bs "GROUP has no members: " ++ trimSpace name)
      else .ok ⟨trimSpace name, splitMetrics members⟩

/-! ## Arguments

A command's arguments are described by a table from keys to readers; one loop runs all tables. -/

/-- What a command does with the token at hand. -/
inductive Arg where
  /-- a word that stands alone -/
  | flag (q : Query)
  /-- a word followed by a value -/
  | value (missing : Bytes) (f : Bytes → Except Bytes Query)
  /-- `GROUP BY` and its value -/
  | groupBy (f : Bytes → Except Bytes Query)
  /-- `WHERE` and its clauses, starting from the filters known so far -/
  | clauses (fold : Bool) (where_ : Tags) (incomplete : Bytes) (noEq : Bytes → Bytes)
      (f : Tags → Query)
  /-- a key followed by `=` and a value; without a message for a missing `=` the loop breaks -/
  | assign (incomplete : Bytes) (noEq : Option Bytes) (f : Bytes → Except Bytes Query)
  | fail (msg : Bytes)

/-- `AND` is recognised by `EqualFold` in some loops and by `ToUpper` in others. -/
def isAnd (fold : Bool) (token : Bytes) : Bool :=
  if fold then equalFold token (bs "AND") else toUpper token = bs "AND"

/-- The loop after `WHERE`: `key = value`, then again after `AND`. -/
def whereLoop (fold : Bool) (incomplete : Bytes) (noEq : Bytes → Bytes) :
    Tags → List Bytes → Except Bytes (Tags × List Bytes)
  | w, key :: eq :: value :: rest =>
      if eq ≠ bs "=" then .error (noEq key)
      else
        match rest with
        | [] => .ok (w.set key (tokenValue value), [])
        | and :: rest' =>
            if isAnd fold and then
              whereLoop fold incomplete noEq (w.set key (tokenValue value)) rest'
            else .ok (w.set key (tokenValue value), and :: rest')
  | _, _ => .error incomplete

/-- One round of an argument loop, past the token at hand. -/
def Arg.read : Arg → List Bytes → Except Bytes (Option (Query × List Bytes))
  | .flag q, rest => .ok (some (q, rest))
  | .value missing f, rest =>
      match rest with
      | [] => .error missing
      | v :: rest => do return some (← f v, rest)
  | .groupBy f, rest =>
      match rest with
      | [] => .error (bs "expected GROUP BY")
      | by_ :: rest =>
          if toUpper by_ ≠ bs "BY" then .error (bs "expected GROUP BY")
          else
            match rest with
            | [] => .error (bs "missing GROUP BY value")
            | v :: rest => do return some (← f v, rest)
  | .clauses fold w incomplete noEq f, rest => do
      let (w, rest) ← whereLoop fold incomplete noEq w rest
      return some (f w, rest)
  | .assign incomplete noEq f, rest =>
      match rest with
      | eq :: v :: rest =>
          if eq = bs "=" then do return some (← f (tokenValue v), rest)
          else
            match noEq with
            | some msg => .error msg
            | none => .ok none
      | _ => .error incomplete
  | .fail msg, _ => .error msg

/-- The argument loop of a command given by its table. -/
def argStep (table : Query → Bytes → Arg) : ArgLoop.Step Query Bytes Bytes
  | _, [] => .ok none
  | q, key :: rest => (table q key).read rest

/-- `lb = entity`, `lb.board = entity` or `tag = value`. -/
def Query.assign (q : Query) (key value : Bytes) : Query :=
  if key = bs "lb" then { q with updateLB := true, lbEntityID := value }
  else if (bs "lb.").isPrefixOf key then
    { q with lbEntities := q.lbEntities.set (key.drop 3) value }
  else { q with tags := q.tags.set key value }

/-- `FROM` and `TO`. -/
def timeArg (now : Int64) (missing : Bytes) (set : Int64 → Query) : Arg :=
  .value missing fun v => do return set (← parseTimeValue now v)

/-- `LIMIT` and `OFFSET`. -/
def intArg (name : Bytes) (set : ℤ → Query) : Arg :=
  .value (bs "missing " ++ name ++ bs " value") fun v =>
    match parseInt v with
    | none => .error (bs "invalid " ++ name ++ bs ": " ++ v)
    | some n => .ok (set n.toInt)

/-- `BOARD`. -/
def boardArg (q : Query) : Arg :=
  .value (bs "missing BOARD value") fun v =>
    if tokenValue v = [] then .error (bs "BOARD requires a name")
    else .ok { q with board := tokenValue v }

/-- The arguments of WRITE; every other key is a tag. -/
def writeArg (q : Query) (key : Bytes) : Arg :=
  if toUpper key = bs "QUORUM" then .flag { q with quorum := true }
  else if toUpper key = bs "__REPLICA" then .flag { q with isReplica := true }
  else if toUpper key = bs "__LOCAL" then .flag { q with forceLocal := true }
  else .assign (bs "incomplete WRITE argument") (some (bs "expected =")) fun value =>
    if key = bs "ts" then
      match parseInt value with
      | none => .error (bs "invalid ts: " ++ value)
      | some ts => .ok { q with timestamp := ts }
    else .ok (q.assign key value)

/-- The arguments of SET. -/
def setArg (q : Query) (key : Bytes) : Arg :=
  if toUpper key = bs "__REPLICA" then .flag { q with isReplica := true }
  else if toUpper key = bs "__LOCAL" then .flag { q with forceLocal := true }
  else .assign (bs "incomplete SET argument") none fun value => .ok (q.assign key value)

/-- The arguments of DELETE. -/
def deleteArg (now : Int64) (q : Query) (key : Bytes) : Arg :=
  if toUpper key = bs "WHERE" then
    .clauses true q.where_ (bs "invalid DELETE WHERE clause")
      (fun _ => bs "invalid DELETE WHERE clause") fun w => { q with where_ := w }
  else if toUpper key = bs "DRY_RUN" then .flag { q with dryRun := true }
  else if toUpper key = bs "QUORUM" then .flag { q with quorum := true }
  else if toUpper key = bs "__REPLICA" then .flag { q with isReplica := true }
  else if toUpper key = bs "__LOCAL" then .flag { q with forceLocal := true }
  else if toUpper key = bs "FROM" then
    timeArg now (bs "missing FROM value") fun ts => { q with from_ := ts }
  else if toUpper key = bs "TO" then
    timeArg now (bs "missing TO value") fun ts => { q with to_ := ts }
  else
    let unexpected := bs "unexpected DELETE argument: " ++ key
    .assign unexpected (some unexpected) fun value => .ok (q.assign key value)

/-- GET and LEADERBOARD share one loop. -/
def getArg (now : Int64) (q : Query) (key : Bytes) : Arg :=
  if toUpper key = bs "__LOCAL" then .flag { q with forceLocal := true }
  else if toUpper key = bs "GROUP" then
    .groupBy fun v => do
      let dur ← parseDurationSpec (tokenValue v)
      return { q with groupBySpec := tokenValue v, groupBy := dur }
  else if toUpper key = bs "WHERE" then
    .clauses false q.where_ (bs "invalid WHERE clause") (fun k => bs "expected = after " ++ k)
      fun w => { q with where_ := w }
  else if toUpper key = bs "FROM" then
    timeArg now (bs "missing FROM value") fun ts => { q with from_ := ts }
  else if toUpper key ∈ [bs "COUNT", bs "SUM", bs "AVG"] ∧ q.type ≠ .get then
    .fail (toUpper key ++ bs " is only valid for GET")
  else if toUpper key = bs "COUNT" then .flag { q with aggregate := some .count }
  else if toUpper key = bs "SUM" then .flag { q with aggregate := some .sum }
  else if toUpper key = bs "AVG" then .flag { q with aggregate := some .avg }
  else if toUpper key = bs "TO" then
    timeArg now (bs "missing TO value") fun ts => { q with to_ := ts }
  else if toUpper key = bs "LIMIT" then intArg (bs "LIMIT") fun n => { q with limit := n }
  else if toUpper key = bs "OFFSET" then intArg (bs "OFFSET") fun n => { q with offset := n }
  else if toUpper key = bs "ORDER" then
    .value (bs "missing ORDER value") fun v => .ok { q with order := toUpper v }
  else if toUpper key = bs "ENTITY" then
    if q.type ≠ .leaderboard ∧ q.type ≠ .groupLeaderboard then
      .fail (bs "ENTITY is only valid for LEADERBOARD")
    else .value (bs "missing ENTITY value") fun v => .ok { q with entityTag := tokenValue v }
  else if toUpper key = bs "BOARD" then
    if q.type ≠ .leaderboard then .fail (bs "BOARD is only valid for LEADERBOARD") else boardArg q
  else .fail (bs "unknown keyword: " ++ key)

/-- The arguments of GROUP_LEADERBOARD. -/
def groupLeaderboardArg (now : Int64) (q : Query) (key : Bytes) : Arg :=
  if toUpper key = bs "__LOCAL" then .flag { q with forceLocal := true }
  else if toUpper key = bs "GROUP" then
    .value (bs "missing GROUP spec") fun v => do
      let g ← parseGroupSpec (tokenValue v)
      return { q with groups := q.groups ++ [g] }
  else if toUpper key = bs "FROM" then
    timeArg now (bs "missing FROM value") fun ts => { q with from_ := ts }
  else if toUpper key = bs "TO" then
    timeArg now (bs "missing TO value") fun ts => { q with to_ := ts }
  else if toUpper key = bs "LIMIT" then intArg (bs "LIMIT") fun n => { q with limit := n }
  else if toUpper key = bs "OFFSET" then intArg (bs "OFFSET") fun n => { q with offset := n }
  else if toUpper key = bs "ORDER" then
    .value (bs "missing ORDER value") fun v => .ok { q with order := toUpper v }
  else if toUpper key = bs "ENTITY" then
    .value (bs "missing ENTITY value") fun v => .ok { q with entityTag := tokenValue v }
  else if toUpper key = bs "BOARD" then boardArg q
  else .fail (bs "unknown keyword: " ++ key)

/-- Run the argument loop of a command; tokens behind a `break` are ignored. -/
def readArgs (table : Query → Bytes → Arg) (q : Query) (args : List Bytes) : Except Bytes Query :=
  do return (← ArgLoop.loop (argStep table) q args).1

/-! ## Commands -/

/-- The optional `WHERE` of METRICS. -/
def metricsWhere (w : Tags) : List Bytes → Except Bytes (Tags × List Bytes)
  | [] => .ok (w, [])
  | key :: rest =>
      if equalFold key (bs "WHERE") then
        whereLoop true (bs "invalid METRICS WHERE clause")
          (fun _ => bs "invalid METRICS WHERE clause") w rest
      else .ok (w, key :: rest)

/-- METRICS. -/
def parseMetrics (q : Query) (args : List Bytes) : Except Bytes Query := do
  let (w, rest) ← metricsWhere q.where_ args
  let q := { q with where_ := w }
  match rest with
  | [] => return q
  | key :: rest =>
      if equalFold key (bs "__LOCAL") ∧ rest = [] then return { q with forceLocal := true }
      else .error (bs "unexpected METRICS argument")

/-- Without `TAGS` the arguments of STATS are ignored. -/
def parseStats (q : Query) : List Bytes → Except Bytes Query
  | [] => .error (bs "STATS requires metric")
  | metric :: args =>
      let q := { q with metric := metric }
      match args with
      | tags :: keys =>
          if toUpper tags = bs "TAGS" then
            let isLocal := fun key => toUpper key = bs "__LOCAL"
            .ok { q with
              forceLocal := keys.any isLocal, tagKeys := keys.filter fun key => ¬ isLocal key }
          else .ok q
      | [] => .ok q

/-- WRITE and SET: a metric, a value, and their arguments. -/
def parseValue (usage : Bytes) (table : Query → Bytes → Arg) (q : Query) :
    List Bytes → Except Bytes Query
  | metric :: value :: args =>
      match parseFloat value with
      | none => .error (bs "invalid value: " ++ value)
      | some v => readArgs table { q with metric := metric, value := v } args
  | _ => .error usage

/-- GROUP_LEADERBOARD and DELETE: a metric and its arguments. -/
def parseMetric (usage : Bytes) (table : Query → Bytes → Arg) (q : Query) :
    List Bytes → Except Bytes Query
  | [] => .error usage
  | metric :: args => readArgs table { q with metric := metric } args

/-- GET; its first argument lists metrics. -/
def parseGet (now : Int64) (q : Query) : List Bytes → Except Bytes Query
  | [] => .error (bs "missing metric")
  | token :: args =>
      match splitMetrics token with
      | [] => .error (bs "missing metric")
      | metric :: metrics =>
          readArgs (getArg now) { q with metric := metric, metrics := metric :: metrics } args

/-- LEADERBOARD, with a single metric. -/
def parseLeaderboard (now : Int64) (q : Query) : List Bytes → Except Bytes Query
  | [] => .error (bs "missing metric")
  | token :: args =>
      if byte ',' ∈ token then .error (bs "multiple metrics only supported for GET")
      else readArgs (getArg now) { q with metric := token } args

/-- The commands of the `switch`; PREVIEW_DELETE is a DELETE. -/
inductive Command where
  | metrics | stats | groupLeaderboard | write | set | delete | get | leaderboard
  deriving DecidableEq

/-- The commands that share the reader of arguments. -/
def commandOf (cmd : Bytes) : Option Command :=
  [(bs "METRICS", Command.metrics), (bs "STATS", .stats),
    (bs "GROUP_LEADERBOARD", .groupLeaderboard), (bs "WRITE", .write), (bs "SET", .set),
    (bs "DELETE", .delete), (bs "PREVIEW_DELETE", .delete), (bs "GET", .get),
    (bs "LEADERBOARD", .leaderboard)].lookup (toUpper cmd)

def Command.type : Command → QueryType
  | .metrics => .metrics
  | .stats => .stats
  | .groupLeaderboard => .groupLeaderboard
  | .write => .write
  | .set => .set
  | .delete => .delete
  | .get => .get
  | .leaderboard => .leaderboard

/-- The query a command starts from. -/
def Command.start (c : Command) (op cmd : Bytes) : Query where
  operationID := op
  type := c.type
  dryRun := c = .delete && equalFold cmd (bs "PREVIEW_DELETE")

/-- The branches of the `switch`. -/
def Command.parse (now : Int64) : Command → Query → List Bytes → Except Bytes Query
  | .metrics => parseMetrics
  | .stats => parseStats
  | .groupLeaderboard => parseMetric (bs "missing metric") (groupLeaderboardArg now)
  | .write => parseValue (bs "WRITE requires metric and value") writeArg
  | .set => parseValue (bs "SET requires metric and value") setArg
  | .delete => parseMetric (bs "DELETE requires metric") (deleteArg now)
  | .get => parseGet now
  | .leaderboard => parseLeaderboard now

/-- The arguments behind a command word. -/
def parseCommand (now : Int64) (op cmd : Bytes) (args : List Bytes) : Except Bytes Query :=
  match commandOf cmd with
  | some c => c.parse now (c.start op cmd) args
  | none => .error (bs "unknown command: " ++ cmd)

/-! ## Lines -/

/-- The operation id at the end of a line, if there is one, and the line without it. -/
def cutOperationID (input : Bytes) : Bytes × Bytes :=
  match lastIndex (bs " __op=") input with
  | none => ([], input)
  | some pos =>
      let candidate := input.drop (pos + 6)
      if candidate.length = 32 ∧ ∀ c ∈ candidate, IsHexDigit c then (candidate, input.take pos)
      else ([], input)

/-- Carriage return, line feed, NUL and the unit separator. -/
def framingChars : Bytes := [0x0D, 0x0A, 0x00, unitSep]

/-- The operation id, the command and its arguments. -/
def prepare (input : Bytes) : Except Bytes (Bytes × Bytes × List Bytes) := do
  failIf (containsAny input framingChars) (bs "invalid query framing or unterminated quote")
  let (op, line) := cutOperationID input
  let tokens := tokenize line
  failIf (∃ t ∈ tokens, byte '"' ∈ t ∧ unquote t = none) (bs "invalid quoted value")
  match tokens with
  | [] => .error (bs "empty query")
  | cmd :: args => return (op, cmd, args)

/-- `Parse` of a command that is not a ranking command. -/
def parsePlain (now : Int64) (input : Bytes) : Except Bytes Query := do
  let (op, cmd, args) ← prepare input
  let q ← parseCommand now op cmd args
  validateQuery q
  return q

/-- The four ranking commands, which have a reader of their own. -/
def rankingType (cmd : Bytes) : Option QueryType :=
  [(bs "RANK", QueryType.rank), (bs "SCORE", .score), (bs "AROUND", .around),
    (bs "LEADERBOARD_COUNT", .leaderboardCount)].lookup (toUpper cmd)

/-- The entity, the radius and the arguments left of a ranking command. -/
def rankingArgs (cmd : Bytes) (type : QueryType) (args : List Bytes) :
    Except Bytes (Bytes × ℤ × List Bytes) :=
  if type = .leaderboardCount then .ok ([], 0, args)
  else
    match args with
    | [] => .error (toUpper cmd ++ bs " requires entity")
    | entity :: args =>
        if tokenValue entity = [] then .error (toUpper cmd ++ bs " requires entity")
        else if type ≠ .around then .ok (tokenValue entity, 0, args)
        else
          match args with
          | [] => .error (bs "AROUND requires radius")
          | token :: args =>
              match parseInt token with
              | none => .error (bs "invalid radius")
              | some radius =>
                  if radius.toInt < 0 ∨ 100000 < radius.toInt then .error (bs "invalid radius")
                  else .ok (tokenValue entity, radius.toInt, args)

/-- A ranking command is a leaderboard query about one entity: what is left of its arguments is put
together again and parsed as LEADERBOARD. -/
def parseRanking (now : Int64) (cmd : Bytes) (type : QueryType) :
    List Bytes → Except Bytes Query
  | [] => .error (toUpper cmd ++ bs " requires metric")
  | metric :: args => do
      let (entity, radius, tail) ← rankingArgs cmd type args
      let q ← parsePlain now (bs "LEADERBOARD " ++ metric ++ bs " " ++ joinSpace tail)
      return { q with type := type, entityID := entity, radius := radius }

/-- Ranking commands are parsed on their own, and without the operation id of the line. -/
def parseTokens (now : Int64) (op cmd : Bytes) (args : List Bytes) : Except Bytes Query :=
  match rankingType cmd with
  | some type => parseRanking now cmd type args
  | none => parseCommand now op cmd args

/-- What `Parse` returns before its deferred `validateQuery`. -/
def parseUnchecked (now : Int64) (input : Bytes) : Except Bytes Query := do
  let (op, cmd, args) ← prepare input
  parseTokens now op cmd args

/-- `Parse`, at the time `now`. -/
def parse (now : Int64) (input : Bytes) : Except Bytes Query := do
  let q ← parseUnchecked now input
  validateQuery q
  return q

example : parse 0 (bs "write hits 2.5 lb=\"bob\" ts=7") =
    .ok { type := .write, metric := bs "hits", value := Float64.ofBits 0x4004000000000000,
          updateLB := true, lbEntityID := bs "bob", timestamp := 7 } := by decide +kernel

end FlameDB
