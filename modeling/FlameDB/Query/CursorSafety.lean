import FlameDB.Query.Cursor
import FlameDB.Query.Duration
import FlameDB.Query.Lines

/-!
# The parser's cursors stay in range

The parser with its cursors computes what the parser on lists computes, and so it neither indexes
out of range nor loops.  Each loop is followed by the part of the text that is left in front of its
cursor.

* `parseTimeValue_eq`, `parseGroupSpec_eq` — the loops over bytes.
* `readArgs_eq` — the argument loops.
* `parse_eq` — the whole parser; two calls in each other are enough.
* `parse_ends_valid` — **`Parse` ends on every string of bytes without a crash, and what it returns
  keeps the rules of `validateQuery`.**
-/

namespace FlameDB.Cursor

open Go KV

/-- The digits end where no digit follows. -/
lemma digitsEnd_eq {spec rest : Bytes} {j : ℕ} (hat : At spec j rest) {rounds : ℕ}
    (hrounds : rest.length < rounds) :
    digitsEnd spec rounds j = .ok (j + (rest.takeWhile isDigit).length) := by
  induction rounds generalizing j rest with
  | zero => omega
  | succ rounds ih =>
      have hlen := hat.length
      cases rest with
      | nil =>
          rw [digitsEnd, if_neg (by simp at hlen; omega)]
          rfl
      | cons c rest =>
          rw [List.length_cons] at hlen hrounds
          rw [digitsEnd, if_pos (by omega), hat.index_eq]
          by_cases hc : isDigit c = true
          · simp only [Run.ok_bind, if_pos hc, List.takeWhile_cons_of_pos hc, List.length_cons]
            rw [ih hat.next (by omega)]
            congr 1
            omega
          · simp only [Run.ok_bind, if_neg hc, List.takeWhile_cons_of_neg hc, List.length_nil,
              Nat.add_zero]

/-- The unit at a position. -/
lemma unitAt_eq {spec rest : Bytes} {j : ℕ} (hat : At spec j rest) (hne : rest ≠ []) :
    unitAt spec j = .ok (durationUnit rest, j + (durationUnit rest).length) := by
  obtain ⟨c, rest, rfl⟩ := List.exists_cons_of_ne_nil hne
  have hslice : slice spec j (j + 1) = .ok [c] :=
    @At.slice_eq _ spec rest j [c] (by simpa using hat)
  simp only [unitAt, hslice, Run.ok_bind, Nat.add_sub_cancel, hat.sliceFrom_eq, durationUnit]
  by_cases hmin : (bs "min").isPrefixOf (c :: rest) = true
  · simp only [if_pos hmin]
    rfl
  · by_cases hmo : (bs "mo").isPrefixOf (c :: rest) = true
    · simp only [if_neg hmin, if_pos hmo]
      rfl
    · simp only [if_neg hmin, if_neg hmo]
      rfl

lemma durationUnit_ne_nil {rest : Bytes} (h : rest ≠ []) : durationUnit rest ≠ [] := by
  obtain ⟨c, rest, rfl⟩ := List.exists_cons_of_ne_nil h
  unfold durationUnit
  split_ifs
  · decide
  · decide
  · simp

/-- The loop of a duration, with a position in place of the rest. -/
lemma calendarRounds_eq (spec : Bytes) (hasCalendar : Bool) {rest : Bytes} {i : ℕ}
    (hat : At spec i rest) {rounds fuel : ℕ} (hrounds : rest.length < rounds)
    (hfuel : rest.length ≤ fuel) (out : DurSpec) :
    calendarRounds spec hasCalendar rounds i out =
      Run.ofExcept (calendarLoop spec hasCalendar fuel out rest) := by
  induction rounds generalizing i rest fuel out with
  | zero => omega
  | succ rounds ih =>
      have hlen := hat.length
      by_cases hrest : rest = []
      · subst hrest
        rw [calendarRounds, if_neg (by simp at hlen; omega)]
        cases fuel <;> rfl
      have hpos := List.length_pos_of_ne_nil hrest
      obtain ⟨fuel, rfl⟩ : ∃ n, fuel = n + 1 := ⟨fuel - 1, by omega⟩
      have hsplit := @List.takeWhile_append_dropWhile _ isDigit rest
      have hlens := congrArg List.length hsplit
      rw [List.length_append] at hlens
      rw [calendarRounds, if_pos (by omega), digitsEnd_eq hat (by omega),
        calendarLoop.eq_3 _ _ _ _ _ (fun h => hrest h)]
      have hcond : (i + (rest.takeWhile isDigit).length = i ∨
          i + (rest.takeWhile isDigit).length = spec.length) ↔
          (rest.takeWhile isDigit = [] ∨ rest.dropWhile isDigit = []) := by
        rw [← List.length_eq_zero_iff, ← List.length_eq_zero_iff]
        omega
      simp only [Run.ok_bind, hcond]
      by_cases hempty : rest.takeWhile isDigit = [] ∨ rest.dropWhile isDigit = []
      · rw [if_pos hempty, if_pos hempty]
        rfl
      rw [if_neg hempty, if_neg hempty]
      have hat' : At spec i (rest.takeWhile isDigit ++ rest.dropWhile isDigit) := by rwa [hsplit]
      rw [hat'.slice_eq, Run.ok_bind]
      cases parseInt (rest.takeWhile isDigit) with
      | none => rfl
      | some num =>
          have hne := (not_or.mp hempty).2
          have hunit := durationUnit_append_drop (rest.dropWhile isDigit)
          have hunitPos := List.length_pos_of_ne_nil (durationUnit_ne_nil hne)
          have hdrop := congrArg List.length hunit
          rw [List.length_append] at hdrop
          simp only [unitAt_eq hat'.skip hne, Run.ok_bind, Run.ofExcept_bind]
          have hnext : At spec
              (i + (rest.takeWhile isDigit).length + (durationUnit (rest.dropWhile isDigit)).length)
              ((rest.dropWhile isDigit).drop (durationUnit (rest.dropWhile isDigit)).length) :=
            At.skip (by rw [hunit]; exact hat'.skip)
          congr 1
          funext out'
          exact ih hnext (by omega) (by omega) out'

/-- Reading a duration by positions never leaves the text and finds what the list reader finds. -/
theorem parseCalendarSpec_eq (spec : Bytes) :
    parseCalendarSpec spec = Run.ofExcept (FlameDB.parseCalendarSpec spec) := by
  simp only [parseCalendarSpec, FlameDB.parseCalendarSpec, Run.ofExcept_bind,
    calendarRounds_eq spec _ (At.start spec) (Nat.lt_succ_self _) (le_refl _)]
  congr 1
  funext out
  split_ifs <;> rfl

lemma parseDurationSpec_eq (spec : Bytes) :
    parseDurationSpec spec = Run.ofExcept (FlameDB.parseDurationSpec spec) := by
  rw [parseDurationSpec, parseCalendarSpec_eq, FlameDB.parseDurationSpec, Run.ofExcept_bind]
  rfl

/-- The same for times. -/
theorem parseTimeValue_eq (now : Int64) (token : Bytes) :
    parseTimeValue now token = Run.ofExcept (FlameDB.parseTimeValue now token) := by
  simp only [parseTimeValue, FlameDB.parseTimeValue, parseTimeAt, timeInstant]
  generalize tokenValue token = token
  by_cases hnow : (bs "now").isPrefixOf token = true
  · rw [if_pos hnow, if_pos hnow]
    by_cases hself : token = bs "now"
    · rw [if_pos hself, if_pos hself, Except.map, unixNano, Int64.ofInt_toInt]
      rfl
    rw [if_neg hself, if_neg hself]
    by_cases hlen : token.length < 5
    · rw [if_pos hlen, if_pos hlen]
      rfl
    rw [if_neg hlen, if_neg hlen, index_of_lt (by omega : 3 < token.length),
      List.getD_eq_getElem _ _ (by omega : 3 < token.length)]
    simp only [Run.ok_bind]
    by_cases hop : token[3] ≠ byte '-' ∧ token[3] ≠ byte '+'
    · rw [if_pos hop, if_pos hop]
      rfl
    · rw [if_neg hop, if_neg hop, sliceFrom_of_le (by omega), Run.ok_bind, parseCalendarSpec_eq]
      cases FlameDB.parseCalendarSpec (token.drop 4) <;> rfl
  · rw [if_neg hnow, if_neg hnow]
    cases parseRFC3339Nano token with
    | some t => rfl
    | none => cases parseDateOnly token <;> rfl

/-- The same for groups. -/
theorem parseGroupSpec_eq (spec : Bytes) :
    parseGroupSpec spec = Run.ofExcept (FlameDB.parseGroupSpec spec) := by
  cases hcut : cut (byte ':') spec with
  | none =>
      have hparts : splitColon spec = [spec] := by simp only [splitColon, hcut]
      simp only [parseGroupSpec, FlameDB.parseGroupSpec, hparts, hcut]
      rfl
  | some parts =>
      obtain ⟨name, rest⟩ := parts
      have hparts : splitColon spec = [name, rest] := by simp only [splitColon, hcut]
      have hname : index [name, rest] 0 = .ok name := rfl
      have hrest : index [name, rest] 1 = .ok rest := rfl
      simp only [parseGroupSpec, FlameDB.parseGroupSpec, hparts, hcut, List.length_cons,
        List.length_nil, hname, hrest, Run.ok_bind, Nat.zero_add, Nat.reduceAdd, ne_eq,
        not_true_eq_false, if_false]
      split_ifs <;> rfl

/-! ## Arguments

Positions and remaining tokens correspond, and every index that is read is in range. -/

/-- A loop over tokens that ends like the loop over what is left: with the same error, or with the
same result and the cursor in front of the same rest. -/
def Follows {α : Type} (tokens : List Bytes) (x : Except Bytes (α × List Bytes)) (r : Run (α × ℕ)) :
    Prop :=
  match x with
  | .error msg => r = .error msg
  | .ok (a, rest) => ∃ i, r = .ok (a, i) ∧ At tokens i rest

/-- The loop of a filter. -/
lemma whereRounds_follows (fold : Bool) (incomplete : Bytes) (noEq : Bytes → Bytes)
    {tokens rest : List Bytes} {i : ℕ} (hat : At tokens i rest) {rounds : ℕ}
    (hrounds : rest.length < rounds) (w : Tags) :
    Follows tokens (whereLoop fold incomplete noEq w rest)
      (whereRounds fold incomplete noEq tokens rounds i w) := by
  induction rounds generalizing i rest w with
  | zero => omega
  | succ rounds ih =>
      have hlen := hat.length
      rcases rest with _ | ⟨key, _ | ⟨eq, _ | ⟨value, rest⟩⟩⟩
      case cons.cons.cons =>
        simp only [List.length_cons] at hlen hrounds
        rw [whereRounds, if_neg (by omega), hat.index_eq, hat.next.index_eq,
          hat.next.next.index_eq]
        simp only [Run.ok_bind]
        have hnext := hat.next.next.next
        by_cases heq : eq = bs "="
        · rw [if_neg (not_not.mpr heq)]
          cases rest with
          | nil =>
              rw [if_pos (by simp at hlen; omega)]
              simp only [whereLoop, heq, ne_eq, not_true_eq_false, if_false]
              exact ⟨i + 3, rfl, hnext⟩
          | cons and rest =>
              simp only [List.length_cons] at hlen hrounds
              rw [if_neg (by omega), hnext.index_eq]
              simp only [Run.ok_bind, whereLoop, heq, ne_eq, not_true_eq_false, if_false]
              by_cases hand : isAnd fold and = true
              · rw [if_pos hand, if_pos hand]
                exact ih hnext.next (by omega) _
              · rw [if_neg hand, if_neg hand]
                exact ⟨i + 3, rfl, hnext⟩
        · rw [if_pos heq]
          cases rest <;> simp only [whereLoop, heq, ne_eq, not_false_eq_true, if_true] <;> rfl
      all_goals
        simp only [List.length_cons, List.length_nil] at hlen
        rw [whereRounds, if_pos (by omega)]
        rfl

/-- The rounds of two argument loops: both fail, both break, or both go on. -/
def FollowsArg (tokens : List Bytes) (i : ℕ) (x : Except Bytes (Option (Query × List Bytes)))
    (r : Run (Option (Query × ℕ))) : Prop :=
  match x with
  | .error msg => r = .error msg
  | .ok none => r = .ok none
  | .ok (some (q, rest)) => ∃ j, r = .ok (some (q, j)) ∧ At tokens j rest ∧ i < j

/-- One argument, by the kinds of table entries. -/
lemma readAt_follows (a : Arg) {tokens rest : List Bytes} {i : ℕ} (hat : At tokens (i + 1) rest) :
    FollowsArg tokens i (a.read rest) ((lift a).readAt tokens i) := by
  have hlen := hat.length
  cases a with
  | flag q => exact ⟨i + 1, rfl, hat, by omega⟩
  | value missing f =>
      cases rest with
      | nil =>
          simp only [List.length_nil] at hlen
          simp only [lift, CursorArg.readAt, if_pos (by omega : tokens.length ≤ i + 1)]
          rfl
      | cons v rest =>
          simp only [List.length_cons] at hlen
          simp only [lift, CursorArg.readAt, if_neg (by omega : ¬ tokens.length ≤ i + 1),
            hat.index_eq, Run.ok_bind, Arg.read]
          cases f v with
          | error msg => rfl
          | ok q => exact ⟨i + 2, rfl, hat.next, by omega⟩
  | groupBy f =>
      rcases rest with _ | ⟨by_, rest⟩
      · simp only [List.length_nil] at hlen
        simp only [lift, CursorArg.readAt, if_pos (by omega : tokens.length ≤ i + 1)]
        rfl
      simp only [List.length_cons] at hlen
      simp only [lift, CursorArg.readAt, if_neg (by omega : ¬ tokens.length ≤ i + 1),
        hat.index_eq, Run.ok_bind, Arg.read]
      by_cases hby : toUpper by_ ≠ bs "BY"
      · rw [if_pos hby, if_pos hby]
        rfl
      rw [if_neg hby, if_neg hby]
      rcases rest with _ | ⟨v, rest⟩
      · simp only [List.length_nil] at hlen
        rw [if_pos (by omega)]
        rfl
      simp only [List.length_cons] at hlen
      rw [if_neg (by omega), hat.next.index_eq]
      simp only [Run.ok_bind]
      cases f v with
      | error msg => rfl
      | ok q => exact ⟨i + 3, rfl, hat.next.next, by omega⟩
  | clauses fold w incomplete noEq f =>
      have hfollows := whereRounds_follows fold incomplete noEq hat
        (by omega : rest.length < tokens.length + 1) w
      simp only [lift, CursorArg.readAt, Arg.read]
      cases hloop : whereLoop fold incomplete noEq w rest with
      | error msg =>
          rw [hloop] at hfollows
          rw [show whereRounds fold incomplete noEq tokens (tokens.length + 1) (i + 1) w =
            .error msg from hfollows]
          rfl
      | ok p =>
          obtain ⟨w', rest'⟩ := p
          rw [hloop] at hfollows
          obtain ⟨j, hj, hat'⟩ := hfollows
          have hshort := (whereLoop_spec hloop).1
          have hlen' := hat'.length
          rw [hj]
          exact ⟨j, rfl, hat', by omega⟩
  | assign incomplete noEq f =>
      rcases rest with _ | ⟨eq, _ | ⟨v, rest⟩⟩
      · simp only [List.length_nil] at hlen
        simp only [lift, CursorArg.readAt, if_pos (by omega : tokens.length ≤ i + 2)]
        rfl
      · simp only [List.length_cons, List.length_nil] at hlen
        simp only [lift, CursorArg.readAt, if_pos (by omega : tokens.length ≤ i + 2)]
        rfl
      simp only [List.length_cons] at hlen
      simp only [lift, CursorArg.readAt, if_neg (by omega : ¬ tokens.length ≤ i + 2),
        hat.index_eq, hat.next.index_eq, Run.ok_bind, Arg.read]
      by_cases heq : eq = bs "="
      · rw [if_pos heq, if_pos heq]
        cases f (tokenValue v) with
        | error msg => rfl
        | ok q => exact ⟨i + 3, rfl, hat.next.next, by omega⟩
      · rw [if_neg heq, if_neg heq]
        cases noEq <;> rfl
  | fail msg => rfl

/-- **The argument loops** with a cursor are those over what is left. -/
lemma argRounds_eq {table : Query → Bytes → Arg} {tokens rest : List Bytes} {i : ℕ}
    (hat : At tokens i rest) {rounds : ℕ} (hrounds : rest.length < rounds) (q : Query) :
    argRounds (fun q key => lift (table q key)) tokens rounds i q =
      Run.ofExcept (FlameDB.readArgs table q rest) := by
  induction rounds generalizing i rest q with
  | zero => omega
  | succ rounds ih =>
      have hlen := hat.length
      cases rest with
      | nil =>
          rw [argRounds, if_neg (by simp at hlen; omega)]
          rfl
      | cons key rest =>
          simp only [List.length_cons] at hlen hrounds
          rw [argRounds, if_pos (by omega), hat.index_eq, readArgs_cons]
          simp only [Run.ok_bind]
          have hround := readAt_follows (table q key) hat.next
          cases hread : (table q key).read rest with
          | error msg =>
              rw [hread] at hround
              rw [show (lift (table q key)).readAt tokens i = .error msg from hround]
              rfl
          | ok o =>
              rw [hread] at hround
              rcases o with _ | ⟨q', rest'⟩
              · rw [show (lift (table q key)).readAt tokens i = .ok none from hround]
                rfl
              · obtain ⟨j, hj, hat', hlt⟩ := hround
                have hlen' := hat'.length
                rw [hj]
                simp only [Run.ok_bind]
                exact ih hat' (by omega) q'

lemma readArgs_eq {table : Query → Bytes → Arg} {tokens rest : List Bytes} {i : ℕ}
    (hat : At tokens i rest) (q : Query) :
    readArgs (fun q key => lift (table q key)) tokens i q =
      Run.ofExcept (FlameDB.readArgs table q rest) :=
  argRounds_eq hat (by have := hat.length; omega) q

lemma timeArg_eq (now : Int64) (missing : Bytes) (set : Int64 → Query) :
    timeArg now missing set = lift (FlameDB.timeArg now missing set) := by
  simp only [timeArg, FlameDB.timeArg, lift, parseTimeValue_eq, Run.ofExcept_bind]
  rfl

lemma deleteArg_eq (now : Int64) :
    deleteArg now = fun q key => lift (FlameDB.deleteArg now q key) := by
  funext q key
  unfold deleteArg
  split_ifs with hfrom hto
  · have hwords : bs "FROM" ∉ [bs "WHERE", bs "DRY_RUN", bs "QUORUM", bs "__REPLICA",
      bs "__LOCAL"] := by
      decide
    simp only [List.mem_cons, List.not_mem_nil, or_false, not_or] at hwords
    simp only [FlameDB.deleteArg, hfrom, hwords, if_false, if_true, timeArg_eq]
  · have hwords : bs "TO" ∉
        [bs "WHERE", bs "DRY_RUN", bs "QUORUM", bs "__REPLICA", bs "__LOCAL", bs "FROM"] := by
      decide
    simp only [List.mem_cons, List.not_mem_nil, or_false, not_or] at hwords
    simp only [FlameDB.deleteArg, hto, hwords, if_false, if_true, timeArg_eq]
  · rfl

lemma getArg_eq (now : Int64) : getArg now = fun q key => lift (FlameDB.getArg now q key) := by
  funext q key
  unfold getArg
  split_ifs with hgroup hfrom hto
  · have hne : bs "GROUP" ≠ bs "__LOCAL" := by decide
    simp only [FlameDB.getArg, hgroup, hne, if_false, if_true, lift, parseDurationSpec_eq,
      Run.ofExcept_bind]
    rfl
  · have hwords : bs "FROM" ∉ [bs "__LOCAL", bs "GROUP", bs "WHERE"] := by decide
    simp only [List.mem_cons, List.not_mem_nil, or_false, not_or] at hwords
    simp only [FlameDB.getArg, hfrom, hwords, if_false, if_true, timeArg_eq]
  · have hwords : bs "TO" ∉ [bs "__LOCAL", bs "GROUP", bs "WHERE", bs "FROM", bs "COUNT", bs "SUM",
        bs "AVG"] := by decide
    simp only [List.mem_cons, List.not_mem_nil, or_false, not_or] at hwords
    simp only [FlameDB.getArg, hto, hwords, List.mem_cons, List.not_mem_nil, or_self, false_and,
      if_false, if_true, timeArg_eq]
  · rfl

lemma groupLeaderboardArg_eq (now : Int64) :
    groupLeaderboardArg now = fun q key => lift (FlameDB.groupLeaderboardArg now q key) := by
  funext q key
  unfold groupLeaderboardArg
  split_ifs with hgroup hfrom hto
  · have hne : bs "GROUP" ≠ bs "__LOCAL" := by decide
    simp only [FlameDB.groupLeaderboardArg, hgroup, hne, if_false, if_true, lift, parseGroupSpec_eq,
      Run.ofExcept_bind]
    rfl
  · have hwords : bs "FROM" ∉ [bs "__LOCAL", bs "GROUP"] := by decide
    simp only [List.mem_cons, List.not_mem_nil, or_false, not_or] at hwords
    simp only [FlameDB.groupLeaderboardArg, hfrom, hwords, if_false, if_true, timeArg_eq]
  · have hwords : bs "TO" ∉ [bs "__LOCAL", bs "GROUP", bs "FROM"] := by decide
    simp only [List.mem_cons, List.not_mem_nil, or_false, not_or] at hwords
    simp only [FlameDB.groupLeaderboardArg, hto, hwords, if_false, if_true, timeArg_eq]
  · rfl

/-! ## Commands -/

section Commands

variable {cmd : Bytes} {args : List Bytes} (q : Query)

lemma at_args (cmd : Bytes) (args : List Bytes) : At (cmd :: args) 1 args := (At.start _).next

lemma parseValue_eq (usage : Bytes) (table : Query → Bytes → Arg) :
    parseValue usage (fun q key => lift (table q key)) (cmd :: args) q =
      Run.ofExcept (FlameDB.parseValue usage table q args) := by
  have hat := at_args cmd args
  rcases args with _ | ⟨metric, _ | ⟨value, args⟩⟩
  · rfl
  · rfl
  · rw [parseValue, if_neg (by simp), hat.index_eq, hat.next.index_eq]
    simp only [Run.ok_bind, FlameDB.parseValue]
    cases parseFloat value with
    | none => rfl
    | some v => exact readArgs_eq hat.next.next _

lemma parseMetric_eq (usage : Bytes) (table : Query → Bytes → Arg) :
    parseMetric usage (fun q key => lift (table q key)) (cmd :: args) q =
      Run.ofExcept (FlameDB.parseMetric usage table q args) := by
  have hat := at_args cmd args
  rcases args with _ | ⟨metric, args⟩
  · rfl
  · rw [parseMetric, if_neg (by simp), hat.index_eq]
    exact readArgs_eq hat.next _

lemma parseGet_eq (now : Int64) :
    parseGet now (cmd :: args) q = Run.ofExcept (FlameDB.parseGet now q args) := by
  have hat := at_args cmd args
  rcases args with _ | ⟨token, args⟩
  · rfl
  · rw [parseGet, if_neg (by simp), hat.index_eq]
    simp only [Run.ok_bind, FlameDB.parseGet]
    rcases splitMetrics token with _ | ⟨metric, metrics⟩
    · rfl
    · rw [if_neg (by simp), (At.start (metric :: metrics)).index_eq]
      simp only [Run.ok_bind, getArg_eq]
      exact readArgs_eq hat.next _

lemma parseLeaderboard_eq (now : Int64) :
    parseLeaderboard now (cmd :: args) q = Run.ofExcept (FlameDB.parseLeaderboard now q args) := by
  have hat := at_args cmd args
  rcases args with _ | ⟨token, args⟩
  · rfl
  · rw [parseLeaderboard, if_neg (by simp), hat.index_eq]
    simp only [Run.ok_bind, FlameDB.parseLeaderboard, getArg_eq]
    split_ifs
    · rfl
    · exact readArgs_eq hat.next _

lemma parseStats_eq : parseStats (cmd :: args) q = Run.ofExcept (FlameDB.parseStats q args) := by
  have hat := at_args cmd args
  rcases args with _ | ⟨metric, _ | ⟨tags, keys⟩⟩
  · rfl
  · rfl
  · rw [parseStats, if_neg (by simp), hat.index_eq]
    simp only [Run.ok_bind]
    rw [if_pos (by simp), hat.next.index_eq]
    simp only [Run.ok_bind, FlameDB.parseStats]
    split_ifs
    · rw [hat.next.next.sliceFrom_eq]
      rfl
    · rfl

lemma isWordAt_eq {tokens rest : List Bytes} {i : ℕ} (hat : At tokens i rest) (word : Bytes) :
    isWordAt tokens i word = .ok (rest.head?.any fun t => equalFold t word) := by
  have hlen := hat.length
  cases rest with
  | nil =>
      rw [isWordAt, if_neg (by simp at hlen; omega)]
      rfl
  | cons t rest =>
      rw [isWordAt, if_pos (by simp at hlen; omega), hat.index_eq]
      rfl

lemma metricsWhere_follows (w : Tags) :
    Follows (cmd :: args) (FlameDB.metricsWhere w args) (metricsWhere (cmd :: args) w) := by
  have hat := at_args cmd args
  rw [metricsWhere, isWordAt_eq hat]
  cases args with
  | nil => exact ⟨1, rfl, hat⟩
  | cons key rest =>
      simp only [Run.ok_bind, List.head?_cons, Option.any_some, FlameDB.metricsWhere]
      split_ifs with hwhere
      · exact whereRounds_follows _ _ _ hat.next (by simp; omega) _
      · exact ⟨1, rfl, hat⟩

lemma parseMetrics_eq : parseMetrics (cmd :: args) q =
    Run.ofExcept (FlameDB.parseMetrics q args) := by
  have hfollows := @metricsWhere_follows cmd args q.where_
  rw [parseMetrics, FlameDB.parseMetrics]
  cases hwhere : FlameDB.metricsWhere q.where_ args with
  | error msg =>
      rw [hwhere] at hfollows
      rw [show metricsWhere (cmd :: args) q.where_ = .error msg from hfollows]
      rfl
  | ok p =>
      obtain ⟨w, rest⟩ := p
      rw [hwhere] at hfollows
      obtain ⟨i, hi, hat⟩ := hfollows
      have hlen := hat.length
      rw [hi]
      simp only [Run.ofExcept_bind, Run.ofExcept_ok, Run.ok_bind, isWordAt_eq hat]
      rcases rest with _ | ⟨key, rest⟩
      · simp only [List.length_nil, Nat.add_zero] at hlen
        simp only [List.head?_nil, Option.any_none, Bool.false_eq_true, if_false,
          Bool.false_or, hlen,
          ne_eq, not_true_eq_false]
        rfl
      · simp only [List.length_cons] at hlen
        simp only [List.head?_cons, Option.any_some]
        by_cases hlocal : equalFold key (bs "__LOCAL") = true
        · simp only [hlocal, if_true, Bool.true_or, true_and]
          by_cases hrest : rest = []
          · rw [if_neg (by rw [hrest] at hlen; simp at hlen ⊢; omega), if_pos hrest]
            rfl
          · have hpos := List.length_pos_of_ne_nil hrest
            rw [if_pos (by simp; omega), if_neg hrest]
            rfl
        · simp only [hlocal, Bool.false_eq_true, if_false, false_and]
          rw [if_pos (by simp; omega)]
          rfl

lemma parseArgs_eq (now : Int64) (c : Command) :
    parseArgs now c (cmd :: args) q = Run.ofExcept (c.parse now q args) := by
  cases c with
  | metrics => exact parseMetrics_eq q
  | stats => exact parseStats_eq q
  | groupLeaderboard =>
      simp only [parseArgs, groupLeaderboardArg_eq]
      exact parseMetric_eq q _ _
  | write => exact parseValue_eq q _ _
  | set => exact parseValue_eq q _ _
  | delete =>
      simp only [parseArgs, deleteArg_eq]
      exact parseMetric_eq q _ _
  | get => exact parseGet_eq q now
  | leaderboard => exact parseLeaderboard_eq q now

end Commands

/-! ## Lines -/

/-- The operation id is cut off inside the line. -/
lemma cutOperationID_eq (input : Bytes) :
    cutOperationID input = .ok (FlameDB.cutOperationID input) := by
  unfold cutOperationID FlameDB.cutOperationID
  cases hpos : lastIndex (bs " __op=") input with
  | none => rfl
  | some pos =>
      have hlen := congrArg List.length (lastIndex_spec hpos)
      simp only [List.length_append, List.length_take, List.length_drop,
        show (bs " __op=").length = 6 from rfl] at hlen
      have hslice : slice input 0 pos = .ok (input.take pos) := by
        rw [slice, if_pos ⟨Nat.zero_le _, by omega⟩]
        rfl
      simp only [sliceFrom_of_le (by omega : pos + 6 ≤ input.length), Run.ok_bind, hslice]
      split_ifs <;> rfl

/-- What a ranking command takes from its tokens, and where it goes on. -/
lemma rankingArgs_follows (cmd metric : Bytes) (type : QueryType) (args : List Bytes) :
    match FlameDB.rankingArgs cmd type args with
    | .error msg => rankingArgs cmd type (cmd :: metric :: args) = .error msg
    | .ok (entity, radius, rest) => ∃ tail, rankingArgs cmd type (cmd :: metric :: args) =
        .ok (entity, radius, tail) ∧ At (cmd :: metric :: args) tail rest := by
  have hat := (at_args cmd (metric :: args)).next
  unfold rankingArgs FlameDB.rankingArgs
  by_cases hcount : type = .leaderboardCount
  · rw [if_pos hcount, if_pos hcount]
    exact ⟨2, rfl, hat⟩
  rw [if_neg hcount, if_neg hcount]
  rcases args with _ | ⟨entity, args⟩
  · rfl
  rw [if_neg (by simp), hat.index_eq]
  simp only [Run.ok_bind]
  by_cases hentity : tokenValue entity = []
  · rw [if_pos hentity, if_pos hentity]
  rw [if_neg hentity, if_neg hentity]
  by_cases haround : type ≠ .around
  · rw [if_pos haround, if_pos haround]
    exact ⟨3, rfl, hat.next⟩
  rw [if_neg haround, if_neg haround]
  rcases args with _ | ⟨token, args⟩
  · rfl
  rw [if_neg (by simp), hat.next.index_eq]
  simp only [Run.ok_bind]
  cases parseInt token with
  | none => rfl
  | some radius =>
      simp only
      split_ifs with hradius
      · rfl
      · exact ⟨4, rfl, hat.next.next⟩

lemma parseRanking_eq {now : Int64} {f : Bytes → Run Query}
    (hf : ∀ rest, f (bs "LEADERBOARD " ++ rest) = Run.ofExcept
      (parsePlain now (bs "LEADERBOARD " ++ rest)))
    (cmd : Bytes) (type : QueryType) (args : List Bytes) :
    parseRanking f cmd type (cmd :: args) =
      Run.ofExcept (FlameDB.parseRanking now cmd type args) := by
  rcases args with _ | ⟨metric, args⟩
  · rfl
  have hfollows := rankingArgs_follows cmd metric type args
  rw [parseRanking, if_neg (by simp), FlameDB.parseRanking]
  cases hargs : FlameDB.rankingArgs cmd type args with
  | error msg =>
      rw [hargs] at hfollows
      rw [show rankingArgs cmd type (cmd :: metric :: args) = .error msg from hfollows]
      rfl
  | ok p =>
      obtain ⟨entity, radius, rest⟩ := p
      rw [hargs] at hfollows
      obtain ⟨tail, htail, hat⟩ := hfollows
      rw [htail]
      simp only [Run.ofExcept_bind, Run.ofExcept_ok, Run.ok_bind,
        (at_args cmd (metric :: args)).index_eq, hat.sliceFrom_eq, List.append_assoc, hf]
      rfl

/-- What `Parse` does with the tokens of a line. -/
def dispatch (now : Int64) (f : Bytes → Run Query) (op cmd : Bytes) (args : List Bytes) :
    Run Query :=
  match rankingType cmd with
  | some type => parseRanking f cmd type (cmd :: args)
  | none =>
      match commandOf cmd with
      | some c => parseArgs now c (cmd :: args) (c.start op cmd)
      | none => .error (bs "unknown command: " ++ cmd)

lemma parseLine_eq (now : Int64) (f : Bytes → Run Query) (input : Bytes) :
    parseLine now f input =
      (Run.ofExcept (prepare input) >>= fun p => dispatch now f p.1 p.2.1 p.2.2) := by
  simp only [parseLine, cutOperationID_eq, Run.ok_bind, prepare, failIf]
  by_cases hframe : containsAny input framingChars = true
  · rw [if_pos hframe, if_pos hframe]
    rfl
  rw [if_neg hframe, if_neg hframe]
  by_cases hquote : ∃ t ∈ tokenize (FlameDB.cutOperationID input).2, byte '"' ∈ t ∧ unquote t = none
  · rw [if_pos hquote, if_pos hquote]
    rfl
  rw [if_neg hquote, if_neg hquote]
  cases tokenize (FlameDB.cutOperationID input).2 with
  | nil => rfl
  | cons cmd args =>
      rw [if_neg (by simp), (At.start (cmd :: args)).index_eq]
      rfl

lemma dispatch_command (now : Int64) (f : Bytes → Run Query) (op : Bytes) {cmd : Bytes}
    (h : rankingType cmd = none) (args : List Bytes) :
    dispatch now f op cmd args = Run.ofExcept (parseCommand now op cmd args) := by
  simp only [dispatch, h, parseCommand]
  cases commandOf cmd with
  | none => rfl
  | some c => exact parseArgs_eq _ now c

/-- **The line put together for a ranking command** starts with a command that is none. -/
lemma rankingType_leaderboard {op cmd : Bytes} {rest : Bytes} {args : List Bytes}
    (h : prepare (bs "LEADERBOARD " ++ rest) = .ok (op, cmd, args)) : rankingType cmd = none := by
  have hword : PlainWord (bs "LEADERBOARD") := by decide +kernel
  obtain ⟨hclosed, hself⟩ := tokenize_plain hword
  obtain ⟨-, -, htokens, -⟩ := prepare_eq_ok_iff.mp h
  suffices hhead : (tokenize (FlameDB.cutOperationID (bs "LEADERBOARD " ++ rest)).2).head? =
      some (bs "LEADERBOARD") by
    rw [htokens] at hhead
    rw [Option.some.inj hhead]
    decide +kernel
  have hline : bs "LEADERBOARD " ++ rest = bs "LEADERBOARD" ++ byte ' ' :: rest := rfl
  have hblank : ∀ tail, tokenize (bs "LEADERBOARD" ++ byte ' ' :: tail) =
      bs "LEADERBOARD" :: tokenize tail := fun tail => by
    rw [tokenize_append hclosed, hself]
    rfl
  rcases cutOperationID_spec (bs "LEADERBOARD " ++ rest) with hcut | ⟨-, hcut⟩
  · rw [hcut, hline, hblank]
    rfl
  · -- the operation id starts with a blank, so it is cut off behind the command
    generalize (FlameDB.cutOperationID (bs "LEADERBOARD " ++ rest)).2 = line at hcut ⊢
    rw [hline, List.append_assoc] at hcut
    rcases List.append_eq_append_iff.mp hcut with ⟨tail, hfront, hback⟩ | ⟨tail, hfront, hback⟩
    · cases tail with
      | nil =>
          rw [hfront, List.append_nil, hself]
          rfl
      | cons c tail =>
          obtain rfl : byte ' ' = c := (List.cons.inj hback).1
          rw [hfront, hblank]
          rfl
    · cases tail with
      | nil =>
          rw [List.append_nil] at hfront
          rw [← hfront, hself]
          rfl
      | cons c tail =>
          obtain rfl : byte ' ' = c := (List.cons.inj hback).1
          have hmem : byte ' ' ∈ bs "LEADERBOARD" := by
            rw [hfront]
            simp
          exact absurd hmem (by decide)

/-- A line put together for a ranking command is parsed by one call. -/
lemma parse_leaderboard (now : Int64) (depth : ℕ) (rest : Bytes) :
    parse now (depth + 1) (bs "LEADERBOARD " ++ rest) =
      Run.ofExcept (parsePlain now (bs "LEADERBOARD " ++ rest)) := by
  rw [parse, parseLine_eq, parsePlain]
  cases hprep : prepare (bs "LEADERBOARD " ++ rest) with
  | error msg => rfl
  | ok p =>
      obtain ⟨op, cmd, args⟩ := p
      simp only [Run.ofExcept_ok, Run.ok_bind, Run.ofExcept_bind,
        dispatch_command now _ op (rankingType_leaderboard hprep)]
      rfl

/-- **The parser with its cursors is the parser**: it neither crashes nor runs on, and calls itself
at most once. -/
theorem parse_eq (now : Int64) {depth : ℕ} (hdepth : 2 ≤ depth) (input : Bytes) :
    parse now depth input = Run.ofExcept (FlameDB.parse now input) := by
  obtain ⟨depth, rfl⟩ : ∃ n, depth = n + 2 := ⟨depth - 2, by omega⟩
  rw [parse, parseLine_eq, FlameDB.parse, parseUnchecked]
  cases hprep : prepare input with
  | error msg => rfl
  | ok p =>
      obtain ⟨op, cmd, args⟩ := p
      have hdispatch : dispatch now (parse now (depth + 1)) op cmd args =
          Run.ofExcept (parseTokens now op cmd args) := by
        cases htype : rankingType cmd with
        | none =>
            rw [dispatch_command now _ op htype]
            simp only [parseTokens, htype]
        | some type =>
            simp only [dispatch, parseTokens, htype]
            exact parseRanking_eq (parse_leaderboard now depth) cmd type args
      simp only [Run.ofExcept_ok, Run.ok_bind, Run.ofExcept_bind, hdispatch]
      rfl

/-! ## What is returned -/

/-- The rules of `validateQuery`. -/
structure Valid (q : Query) : Prop where
  value_finite : q.value.isFinite = true
  range : 0 ≤ q.timestamp ∧ 0 ≤ q.from_ ∧ 0 ≤ q.to_ ∧ (q.to_ ≠ 0 → q.from_ ≤ q.to_)
  page : 0 ≤ q.limit ∧ q.limit ≤ 1000000 ∧ 0 ≤ q.offset ∧ (q.order = bs "ASC" ∨ q.order = bs "DESC")
  metrics : q.type ≠ .metrics → ∀ m ∈ q.metric :: q.metrics,
    m ≠ [] ∧ m ∉ Key.reserved ∧ containsAny m (bs ",=\" \t\r\n") = false
  keys : ∀ kv ∈ q.tags.entries ++ q.where_.entries, kv.1 ≠ [] ∧ containsAny kv.1
    (bs "=\" \t") = false
  boards : ∀ kv ∈ q.lbEntities.entries, kv.1 ≠ [] ∧ containsAny kv.1 boardChars = false ∧ kv.2 ≠ []
  board : q.board ≠ [] → containsAny q.board boardChars = false ∧ q.from_ = 0 ∧ q.to_ = 0
  entityTag : q.entityTag ≠ [] → containsAny q.entityTag (bs "=\" \t") = false
  lb : q.updateLB = true → q.lbEntityID ≠ []
  set : q.type = .set → q.updateLB = true ∨ q.lbEntities.entries ≠ []
  delete : q.type = .delete → q.tags.entries = []
  dryRun : q.dryRun = true → q.isReplica = false ∧ q.quorum = false

/-- What the checks of a query say, all together. -/
lemma valid_of_validateQuery {q : Query} (h : validateQuery q = .ok ()) : Valid q := by
  simp only [validateQuery, failIf_bind_eq_ok_iff, failIf_eq_ok_iff] at h
  obtain ⟨hdry, hpage, horder, hvalue, hrange, hmetric, hkeys, htag, hdelete, hboards, hboard,
    hboardRange, hlb, hset⟩ := h
  simp only [not_or, not_lt, Int64.not_lt] at hpage hrange
  simp only [Option.not_isSome_iff_eq_none] at hmetric
  refine ⟨not_not.mp hvalue, ⟨hrange.1, hrange.2.1, hrange.2.2.1, ?_⟩,
    ⟨hpage.1, hpage.2.2, hpage.2.1, ?_⟩, ?_, ?_, ?_, ?_, ?_, ?_, ?_, ?_, ?_⟩
  · intro hto
    exact Int64.not_lt.mp fun hlt => hrange.2.2.2 ⟨hto, hlt⟩
  · by_contra hnot
    exact horder (not_or.mp hnot)
  · intro hty m hm
    rw [badMetric, if_neg hty, List.find?_eq_none] at hmetric
    have hm := hmetric m hm
    simp only [invalidMetric, Bool.or_eq_true, decide_eq_true_eq, not_or, Bool.not_eq_true] at hm
    exact ⟨hm.1.1, hm.2, hm.1.2⟩
  · intro kv hkv
    have hkey := fun h => hkeys ⟨kv, hkv, h⟩
    simp only [invalidTagKey, Bool.or_eq_true, decide_eq_true_eq] at hkey
    exact ⟨fun h => hkey (.inl h), Bool.eq_false_iff.mpr fun h => hkey (.inr h)⟩
  · intro kv hkv
    exact ⟨fun h => hboards ⟨kv, hkv, .inl h⟩,
      Bool.eq_false_iff.mpr fun h => hboards ⟨kv, hkv, .inr (.inl h)⟩,
      fun h => hboards ⟨kv, hkv, .inr (.inr h)⟩⟩
  · intro hne
    refine ⟨Bool.eq_false_iff.mpr fun h => hboard ⟨hne, h⟩, ?_, ?_⟩
    · by_contra h
      exact hboardRange ⟨hne, .inl h⟩
    · by_contra h
      exact hboardRange ⟨hne, .inr h⟩
  · intro hne
    exact Bool.eq_false_iff.mpr fun h => htag ⟨hne, h⟩
  · intro hup hent
    exact hlb ⟨hup, hent⟩
  · intro hty
    by_contra hnot
    obtain ⟨hup, hent⟩ := not_or.mp hnot
    exact hset ⟨hty, hup, not_not.mp hent⟩
  · intro hty
    by_contra hne
    exact hdelete ⟨hty, hne⟩
  · intro hdryRun
    exact ⟨Bool.eq_false_iff.mpr fun h => hdry ⟨hdryRun, .inl h⟩,
      Bool.eq_false_iff.mpr fun h => hdry ⟨hdryRun, .inr h⟩⟩

/-- **`Parse` never crashes and always ends**, on every string of bytes and at every time, and every
query it returns keeps the rules. -/
theorem parse_ends_valid (now : Int64) (input : Bytes) :
    ∃ r : Except Bytes Query, (∀ depth, 2 ≤ depth → parse now depth input = Run.ofExcept r) ∧
      ∀ q, r = .ok q → Valid q := by
  refine ⟨FlameDB.parse now input, fun depth hdepth => parse_eq now hdepth input, ?_⟩
  intro q hq
  exact valid_of_validateQuery (parse_eq_ok_iff.mp hq).2

end FlameDB.Cursor
