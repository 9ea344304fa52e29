import FlameDB.Go.Run
import FlameDB.Query.Parser

/-!
# The parser with its cursors

`Parse` as the source has it: every loop over tokens or bytes keeps an index, looks ahead behind a
bounds check of its own, and would crash on an index out of range.  The ranking commands call
`Parse` again on a line they put together.  A loop is given as many rounds as its text has bytes or
tokens, and one more; the calls of `Parse` in each other are counted by `depth`.

Only what indexes or slices is spelled out again.  What a command does with a token once it has it
is in the tables of `FlameDB.Query.Parser`.
-/

namespace FlameDB.Cursor

open Go KV

/-- `for j < len(spec) && spec[j] >= '0' && spec[j] <= '9' { j++ }`. -/
def digitsEnd (spec : Bytes) : (rounds : ℕ) → ℕ → Run ℕ
  | 0, _ => .crash
  | rounds + 1, j =>
      if j < spec.length then do
        let c ← index spec j
        if isDigit c then digitsEnd spec rounds (j + 1) else .ok j
      else .ok j

/-- The unit whose first byte is at `j`, and the place behind it. -/
def unitAt (spec : Bytes) (j : ℕ) : Run (Bytes × ℕ) := do
  let unit ← slice spec j (j + 1)
  let j := j + 1
  let rest ← sliceFrom spec (j - 1)
  if (bs "min").isPrefixOf rest then return (bs "min", j + 2)
  else if (bs "mo").isPrefixOf rest then return (bs "mo", j + 1)
  else return (unit, j)

/-- The loop of `parseCalendarSpec`. -/
def calendarRounds (spec : Bytes) (hasCalendar : Bool) : (rounds : ℕ) → ℕ → DurSpec → Run DurSpec
  | 0, _, _ => .crash
  | rounds + 1, i, out =>
      if i < spec.length then do
        let j ← digitsEnd spec (spec.length + 1) i
        if j = i ∨ j = spec.length then .error (bs "invalid duration: " ++ spec)
        else do
          let digits ← slice spec i j
          match parseInt digits with
          | none =>
              .error (bs "strconv.ParseInt: parsing \"" ++ digits ++ bs "\": value out of range")
          | some num => do
              let (unit, j) ← unitAt spec j
              let out ← Run.ofExcept (addUnit hasCalendar out num.toInt unit)
              calendarRounds spec hasCalendar rounds j out
      else .ok out

/-- The duration of a whole text. -/
def parseCalendarSpec (spec : Bytes) : Run DurSpec := do
  let hasCalendar := contains spec (bs "y") || contains spec (bs "mo")
  let out ← calendarRounds spec hasCalendar (spec.length + 1) 0 {}
  if out = {} then .error (bs "duration must be positive") else .ok out

def parseDurationSpec (spec : Bytes) : Run Int64 := do
  let d ← parseCalendarSpec spec
  return Int64.ofInt d.dur

/-- A time argument: `now`, an offset from it, or a written instant. -/
def parseTimeValue (now : Int64) (token : Bytes) : Run Int64 :=
  let token := tokenValue token
  if (bs "now").isPrefixOf token then
    if token = bs "now" then .ok now
    else if token.length < 5 then .error (bs "invalid relative time: " ++ token)
    else do
      let op ← index token 3
      if op ≠ byte '-' ∧ op ≠ byte '+' then .error (bs "invalid relative time: " ++ token)
      else do
        let spec ← sliceFrom token 4
        let d ← parseCalendarSpec spec
        return unixNano (applyCalendarOffset now.toInt d (if op = byte '-' then -1 else 1))
  else
    match parseRFC3339Nano token with
    | some t => .ok (unixNano t)
    | none =>
        match parseDateOnly token with
        | some t => .ok (unixNano t)
        | none => .error (bs "invalid date: " ++ token)

/-- `strings.SplitN(spec, ":", 2)`. -/
def splitColon (spec : Bytes) : List Bytes :=
  match cut (byte ':') spec with
  | none => [spec]
  | some (name, rest) => [name, rest]

/-- The group `name:a,b`. -/
def parseGroupSpec (spec : Bytes) : Run GroupDef := do
  let parts := splitColon spec
  if parts.length ≠ 2 then .error (bs "invalid GROUP spec: " ++ spec)
  else do
    let name ← index parts 0
    if trimSpace name = [] then .error (bs "invalid GROUP spec: " ++ spec)
    else do
      let members := splitMetrics (← index parts 1)
      if members = [] then .error (bs "GROUP has no members: " ++ trimSpace name)
      else .ok ⟨trimSpace name, members⟩

/-! ## Arguments -/

/-- What a command does with the token at hand, where reading a value may itself index. -/
inductive CursorArg where
  | flag (q : Query)
  | value (missing : Bytes) (f : Bytes → Run Query)
  | groupBy (f : Bytes → Run Query)
  | clauses (fold : Bool) (where_ : Tags) (incomplete : Bytes) (noEq : Bytes → Bytes)
      (f : Tags → Query)
  | assign (incomplete : Bytes) (noEq : Option Bytes) (f : Bytes → Run Query)
  | fail (msg : Bytes)

/-- An argument that reads its value without an index. -/
def lift : Arg → CursorArg
  | .flag q => .flag q
  | .value missing f => .value missing fun v => Run.ofExcept (f v)
  | .groupBy f => .groupBy fun v => Run.ofExcept (f v)
  | .clauses fold w incomplete noEq f => .clauses fold w incomplete noEq f
  | .assign incomplete noEq f => .assign incomplete noEq fun v => Run.ofExcept (f v)
  | .fail msg => .fail msg

/-- The loop after `WHERE`, with its cursor on the first key. -/
def whereRounds (fold : Bool) (incomplete : Bytes) (noEq : Bytes → Bytes) (tokens : List Bytes) :
    (rounds : ℕ) → ℕ → Tags → Run (Tags × ℕ)
  | 0, _, _ => .crash
  | rounds + 1, i, w =>
      if tokens.length ≤ i + 2 then .error incomplete
      else do
        let key ← index tokens i
        let eq ← index tokens (i + 1)
        if eq ≠ bs "=" then .error (noEq key)
        else do
          let value ← index tokens (i + 2)
          let w := w.set key (tokenValue value)
          let i := i + 3
          if tokens.length ≤ i then return (w, i)
          else do
            let and ← index tokens i
            if isAnd fold and then whereRounds fold incomplete noEq tokens rounds (i + 1) w
            else return (w, i)

/-- One round of an argument loop with the cursor on the token at hand: `none` is a `break`. -/
def CursorArg.readAt (tokens : List Bytes) (i : ℕ) : CursorArg → Run (Option (Query × ℕ))
  | .flag q => .ok (some (q, i + 1))
  | .value missing f =>
      if tokens.length ≤ i + 1 then .error missing
      else do
        let q ← f (← index tokens (i + 1))
        return some (q, i + 2)
  | .groupBy f =>
      if tokens.length ≤ i + 1 then .error (bs "expected GROUP BY")
      else do
        let by_ ← index tokens (i + 1)
        if toUpper by_ ≠ bs "BY" then .error (bs "expected GROUP BY")
        else if tokens.length ≤ i + 2 then .error (bs "missing GROUP BY value")
        else do
          let q ← f (← index tokens (i + 2))
          return some (q, i + 3)
  | .clauses fold w incomplete noEq f => do
      let (w, i) ← whereRounds fold incomplete noEq tokens (tokens.length + 1) (i + 1) w
      return some (f w, i)
  | .assign incomplete noEq f =>
      if tokens.length ≤ i + 2 then .error incomplete
      else do
        let eq ← index tokens (i + 1)
        if eq = bs "=" then do
          let q ← f (tokenValue (← index tokens (i + 2)))
          return some (q, i + 3)
        else
          match noEq with
          | some msg => .error msg
          | none => .ok none
  | .fail msg => .error msg

/-- `for i < len(tokens)`. -/
def argRounds (table : Query → Bytes → CursorArg) (tokens : List Bytes) :
    (rounds : ℕ) → ℕ → Query → Run Query
  | 0, _, _ => .crash
  | rounds + 1, i, q =>
      if i < tokens.length then do
        let key ← index tokens i
        match ← (table q key).readAt tokens i with
        | none => .ok q
        | some (q', i') => argRounds table tokens rounds i' q'
      else .ok q

/-- The loop over the arguments from position `i`. -/
def readArgs (table : Query → Bytes → CursorArg) (tokens : List Bytes) (i : ℕ)
    (q : Query) : Run Query :=
  argRounds table tokens (tokens.length + 1) i q

/-- `FROM` and `TO`. -/
def timeArg (now : Int64) (missing : Bytes) (set : Int64 → Query) : CursorArg :=
  .value missing fun v => do return set (← parseTimeValue now v)

def writeArg (q : Query) (key : Bytes) : CursorArg := lift (FlameDB.writeArg q key)

def setArg (q : Query) (key : Bytes) : CursorArg := lift (FlameDB.setArg q key)

def deleteArg (now : Int64) (q : Query) (key : Bytes) : CursorArg :=
  if toUpper key = bs "FROM" then
    timeArg now (bs "missing FROM value") fun ts => { q with from_ := ts }
  else if toUpper key = bs "TO" then
    timeArg now (bs "missing TO value") fun ts => { q with to_ := ts }
  else lift (FlameDB.deleteArg now q key)

def getArg (now : Int64) (q : Query) (key : Bytes) : CursorArg :=
  if toUpper key = bs "GROUP" then
    .groupBy fun v => do
      let dur ← parseDurationSpec (tokenValue v)
      return { q with groupBySpec := tokenValue v, groupBy := dur }
  else if toUpper key = bs "FROM" then
    timeArg now (bs "missing FROM value") fun ts => { q with from_ := ts }
  else if toUpper key = bs "TO" then
    timeArg now (bs "missing TO value") fun ts => { q with to_ := ts }
  else lift (FlameDB.getArg now q key)

def groupLeaderboardArg (now : Int64) (q : Query) (key : Bytes) : CursorArg :=
  if toUpper key = bs "GROUP" then
    .value (bs "missing GROUP spec") fun v => do
      let g ← parseGroupSpec (tokenValue v)
      return { q with groups := q.groups ++ [g] }
  else if toUpper key = bs "FROM" then
    timeArg now (bs "missing FROM value") fun ts => { q with from_ := ts }
  else if toUpper key = bs "TO" then
    timeArg now (bs "missing TO value") fun ts => { q with to_ := ts }
  else lift (FlameDB.groupLeaderboardArg now q key)

/-! ## Commands -/

/-- `i < len(tokens) && strings.EqualFold(tokens[i], word)`. -/
def isWordAt (tokens : List Bytes) (i : ℕ) (word : Bytes) : Run Bool :=
  if i < tokens.length then do return equalFold (← index tokens i) word else .ok false

/-- The optional `WHERE` of METRICS. -/
def metricsWhere (tokens : List Bytes) (w : Tags) : Run (Tags × ℕ) := do
  if ← isWordAt tokens 1 (bs "WHERE") then
    whereRounds true (bs "invalid METRICS WHERE clause") (fun _ =>
      bs "invalid METRICS WHERE clause")
      tokens (tokens.length + 1) 2 w
  else return (w, 1)

/-- METRICS. -/
def parseMetrics (tokens : List Bytes) (q : Query) : Run Query := do
  let (w, i) ← metricsWhere tokens q.where_
  let isLocal ← isWordAt tokens i (bs "__LOCAL")
  let i := if isLocal then i + 1 else i
  if i ≠ tokens.length then .error (bs "unexpected METRICS argument")
  else return { q with where_ := w, forceLocal := isLocal || q.forceLocal }

/-- STATS. -/
def parseStats (tokens : List Bytes) (q : Query) : Run Query :=
  if tokens.length < 2 then .error (bs "STATS requires metric")
  else do
    let q := { q with metric := ← index tokens 1 }
    if 2 < tokens.length then do
      if toUpper (← index tokens 2) = bs "TAGS" then do
        let keys ← sliceFrom tokens 3
        let isLocal := fun key => toUpper key = bs "__LOCAL"
        return { q with
          forceLocal := keys.any isLocal, tagKeys := keys.filter fun key => ¬ isLocal key }
      else return q
    else return q

/-- WRITE and SET. -/
def parseValue (usage : Bytes) (table : Query → Bytes → CursorArg)
    (tokens : List Bytes) (q : Query) :
    Run Query :=
  if tokens.length < 3 then .error usage
  else do
    let metric ← index tokens 1
    let value ← index tokens 2
    match parseFloat value with
    | none => .error (bs "invalid value: " ++ value)
    | some v => readArgs table tokens 3 { q with metric := metric, value := v }

/-- GROUP_LEADERBOARD and DELETE. -/
def parseMetric (usage : Bytes) (table : Query → Bytes → CursorArg)
    (tokens : List Bytes) (q : Query) :
    Run Query :=
  if tokens.length < 2 then .error usage
  else do
    let metric ← index tokens 1
    readArgs table tokens 2 { q with metric := metric }

/-- GET. -/
def parseGet (now : Int64) (tokens : List Bytes) (q : Query) : Run Query :=
  if tokens.length < 2 then .error (bs "missing metric")
  else do
    let metrics := splitMetrics (← index tokens 1)
    if metrics.length = 0 then .error (bs "missing metric")
    else do
      let metric ← index metrics 0
      readArgs (getArg now) tokens 2 { q with metric := metric, metrics := metrics }

/-- LEADERBOARD. -/
def parseLeaderboard (now : Int64) (tokens : List Bytes) (q : Query) : Run Query :=
  if tokens.length < 2 then .error (bs "missing metric")
  else do
    let metric ← index tokens 1
    if byte ',' ∈ metric then .error (bs "multiple metrics only supported for GET")
    else readArgs (getArg now) tokens 2 { q with metric := metric }

/-- The branches of the `switch`. -/
def parseArgs (now : Int64) : Command → List Bytes → Query → Run Query
  | .metrics => parseMetrics
  | .stats => parseStats
  | .groupLeaderboard => parseMetric (bs "missing metric") (groupLeaderboardArg now)
  | .write => parseValue (bs "WRITE requires metric and value") writeArg
  | .set => parseValue (bs "SET requires metric and value") setArg
  | .delete => parseMetric (bs "DELETE requires metric") (deleteArg now)
  | .get => parseGet now
  | .leaderboard => parseLeaderboard now

/-! ## Lines -/

/-- `input[pos+6:]` and `input[:pos]`, around the last ` __op=`. -/
def cutOperationID (input : Bytes) : Run (Bytes × Bytes) :=
  match lastIndex (bs " __op=") input with
  | none => .ok ([], input)
  | some pos => do
      let candidate ← sliceFrom input (pos + 6)
      if candidate.length = 32 ∧ ∀ c ∈ candidate, IsHexDigit c then do
        return (candidate, ← slice input 0 pos)
      else .ok ([], input)

/-- The entity, the radius and the place of the arguments left of a ranking command. -/
def rankingArgs (cmd : Bytes) (type : QueryType) (tokens : List Bytes) : Run (Bytes × ℤ × ℕ) :=
  if type = .leaderboardCount then .ok ([], 0, 2)
  else if tokens.length < 3 then .error (toUpper cmd ++ bs " requires entity")
  else do
    let entity := tokenValue (← index tokens 2)
    if entity = [] then .error (toUpper cmd ++ bs " requires entity")
    else if type ≠ .around then .ok (entity, 0, 3)
    else if tokens.length < 4 then .error (bs "AROUND requires radius")
    else do
      match parseInt (← index tokens 3) with
      | none => .error (bs "invalid radius")
      | some radius =>
          if radius.toInt < 0 ∨ 100000 < radius.toInt then .error (bs "invalid radius")
          else .ok (entity, radius.toInt, 4)

/-- `Parse` on `tokens[tail:]`, put together behind `LEADERBOARD`. -/
def parseRanking (parse : Bytes → Run Query) (cmd : Bytes) (type : QueryType)
    (tokens : List Bytes) :
    Run Query :=
  if tokens.length < 2 then .error (toUpper cmd ++ bs " requires metric")
  else do
    let (entity, radius, tail) ← rankingArgs cmd type tokens
    let metric ← index tokens 1
    let rest ← sliceFrom tokens tail
    let q ← parse (bs "LEADERBOARD " ++ metric ++ bs " " ++ joinSpace rest)
    return { q with type := type, entityID := entity, radius := radius }

/-- `Parse` before the deferred check. -/
def parseLine (now : Int64) (parse : Bytes → Run Query) (input : Bytes) : Run Query :=
  if containsAny input framingChars then .error (bs "invalid query framing or unterminated quote")
  else do
    let (op, line) ← cutOperationID input
    let tokens := tokenize line
    if ∃ t ∈ tokens, byte '"' ∈ t ∧ unquote t = none then .error (bs "invalid quoted value")
    else if tokens.length = 0 then .error (bs "empty query")
    else do
      let cmd ← index tokens 0
      match rankingType cmd with
      | some type => parseRanking parse cmd type tokens
      | none =>
          match commandOf cmd with
          | some c => parseArgs now c tokens (c.start op cmd)
          | none => .error (bs "unknown command: " ++ cmd)

/-- `Parse`, with at most `depth` calls in each other. -/
def parse (now : Int64) : (depth : ℕ) → Bytes → Run Query
  | 0, _ => .crash
  | depth + 1, input => do
      let q ← parseLine now (parse now depth) input
      Run.ofExcept (validateQuery q)
      return q

end FlameDB.Cursor
