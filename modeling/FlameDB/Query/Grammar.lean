import FlameDB.Query.Settings

/-!
# What the tokens of a line are for

A grammar of the command lines that knows nothing of cursors: a line is a command word, what the
command starts with, and clauses, each with its tokens and its settings.  A line is `Accounted` for
in a query if it has a reading in which every token has its place, and every setting of every clause
can be read off the query, the operation id included.

**Where tokens get lost.**  STATS looks at its arguments only behind `TAGS`, and SET stops at the
first argument that is no assignment (`Ignores`).  In every command a clause may be overwritten by a
later one (`Overwrites`).  A ranking command is parsed again without its operation id.

* `Reading.unique` — a line has at most one reading.
* **`accounted_iff`** — an accepted line is accounted for exactly if none of this happens.
-/

namespace FlameDB

open Go KV

/-- The tokens between the metric and the options: an entity, and for AROUND a radius in range. -/
inductive Subject : QueryType → List Bytes → Bytes → ℤ → Prop where
  | rank {e : Bytes} (he : tokenValue e ≠ []) : Subject .rank [e] (tokenValue e) 0
  | score {e : Bytes} (he : tokenValue e ≠ []) : Subject .score [e] (tokenValue e) 0
  | around {e r : Bytes} {n : Int64} (he : tokenValue e ≠ []) (hr : parseInt r = some n)
      (hn : 0 ≤ n.toInt ∧ n.toInt ≤ 100000) : Subject .around [e, r] (tokenValue e) n.toInt
  | count : Subject .leaderboardCount [] [] 0

namespace Grammar

/-! ## Clauses

A clause begins with a key.  The command and the key decide its form, and the form decides which
tokens follow; a key that is no word of the command is assigned a value. -/

/-- The tokens of `k = v AND k = v …` and the pairs they stand for. -/
inductive WherePairs (fold : Bool) : List Bytes → List (Bytes × Bytes) → Prop where
  | last (k v : Bytes) : WherePairs fold [k, bs "=", v] [(k, tokenValue v)]
  | more (k v : Bytes) {and : Bytes} {ts : List Bytes} {ps : List (Bytes × Bytes)}
      (hand : isAnd fold and = true) (h : WherePairs fold ts ps) :
      WherePairs fold (k :: bs "=" :: v :: and :: ts) ((k, tokenValue v) :: ps)

/-- What follows a word of a command. -/
inductive Form where
  /-- nothing -/
  | flag (s : Setting)
  /-- a value -/
  | value (f : Bytes → Option Setting)
  /-- `BY` and a bucket -/
  | groupBy
  /-- the pairs of a filter -/
  | pairs

/-- The setting of a time argument. -/
def timeSetting (now : Int64) (s : Int64 → Setting) (v : Bytes) : Option Setting :=
  (parseTimeValue now v).toOption.map s

/-- The setting of an integer argument. -/
def intSetting (s : ℤ → Setting) (v : Bytes) : Option Setting :=
  (parseInt v).map fun n => s n.toInt

def entitySetting (v : Bytes) : Option Setting := some (.entityTag (tokenValue v))

def boardSetting (v : Bytes) : Option Setting :=
  if tokenValue v = [] then none else some (.board (tokenValue v))

/-- The setting of a group. -/
def groupSetting (v : Bytes) : Option Setting :=
  (parseGroupSpec (tokenValue v)).toOption.map .group

/-- The words of the commands that return pages. -/
def pageWords (now : Int64) : List (Bytes × Form) :=
  [(bs "__LOCAL", .flag .forceLocal), (bs "FROM", .value (timeSetting now .from_)),
    (bs "TO", .value (timeSetting now .to_)), (bs "LIMIT", .value (intSetting .limit)),
    (bs "OFFSET", .value (intSetting .offset)),
    (bs "ORDER", .value fun v => some (.order (toUpper v)))]

/-- The words GET and LEADERBOARD have in common. -/
def sharedWords (now : Int64) : List (Bytes × Form) :=
  pageWords now ++ [(bs "GROUP", .groupBy), (bs "WHERE", .pairs)]

/-- The words of a command, in capitals. -/
def keywords (now : Int64) : Command → List (Bytes × Form)
  | .write =>
      [(bs "QUORUM", .flag .quorum), (bs "__REPLICA", .flag .isReplica),
        (bs "__LOCAL", .flag .forceLocal)]
  | .set => [(bs "__REPLICA", .flag .isReplica), (bs "__LOCAL", .flag .forceLocal)]
  | .delete =>
      [(bs "WHERE", .pairs), (bs "DRY_RUN", .flag .dryRun), (bs "QUORUM", .flag .quorum),
        (bs "__REPLICA", .flag .isReplica), (bs "__LOCAL", .flag .forceLocal),
        (bs "FROM", .value (timeSetting now .from_)), (bs "TO", .value (timeSetting now .to_))]
  | .get =>
      sharedWords now ++ [(bs "COUNT", .flag (.aggregate .count)),
        (bs "SUM", .flag (.aggregate .sum)), (bs "AVG", .flag (.aggregate .avg))]
  | .leaderboard =>
      sharedWords now ++ [(bs "ENTITY", .value entitySetting), (bs "BOARD", .value boardSetting)]
  | .groupLeaderboard =>
      pageWords now ++ [(bs "GROUP", .value groupSetting), (bs "ENTITY", .value entitySetting),
        (bs "BOARD", .value boardSetting)]
  | .metrics | .stats => []

/-- The words of METRICS, which are compared by `EqualFold`. -/
def metricsWords : List (Bytes × Form) :=
  [(foldCase (bs "WHERE"), .pairs), (foldCase (bs "__LOCAL"), .flag .forceLocal)]

/-- The form of the clause that begins with a key. -/
def form (now : Int64) (c : Command) (key : Bytes) : Option Form :=
  if c = .metrics then metricsWords.lookup (foldCase key)
  else (keywords now c).lookup (toUpper key)

/-- What a key that is no word of the command is assigned to. -/
def assignment (c : Command) (key value : Bytes) : Option Setting :=
  match c with
  | .write =>
      if key = bs "ts" then (parseInt value).map .timestamp else some (.assign key value)
  | .set | .delete => some (.assign key value)
  | _ => none

/-- The filters of DELETE and METRICS join their pairs by any spelling `EqualFold` accepts. -/
def foldsAnd (c : Command) : Bool := c = .delete || c = .metrics

/-- A clause of the given form: the tokens behind its key, the tokens of the line left behind it,
and what it sets.  A filter ends where no `AND` follows. -/
inductive Clause (c : Command) (key : Bytes) :
    Option Form → List Bytes → List Bytes → List Setting → Prop where
  | flag (s : Setting) (rest : List Bytes) : Clause c key (some (.flag s)) [] rest [s]
  | value {f : Bytes → Option Setting} {v : Bytes} {s : Setting} (hv : f v = some s)
      (rest : List Bytes) : Clause c key (some (.value f)) [v] rest [s]
  | groupBy {b v : Bytes} {d : Int64} (hb : toUpper b = bs "BY")
      (hv : parseDurationSpec (tokenValue v) = .ok d) (rest : List Bytes) :
      Clause c key (some .groupBy) [b, v] rest [.groupBy (tokenValue v) d]
  | pairs {ts rest : List Bytes} {ps : List (Bytes × Bytes)} (h : WherePairs (foldsAnd c) ts ps)
      (hstop : ∀ t ∈ rest.head?, isAnd (foldsAnd c) t = false) :
      Clause c key (some .pairs) ts rest (ps.map fun p => .where_ p.1 p.2)
  | assign {v : Bytes} {s : Setting} (h : assignment c key (tokenValue v) = some s)
      (rest : List Bytes) : Clause c key none [bs "=", v] rest [s]

/-- Clauses one after the other, and all they set. -/
inductive ClauseSeq (now : Int64) (c : Command) : List Bytes → List Setting → Prop where
  | nil : ClauseSeq now c [] []
  | cons {key : Bytes} {ts rest : List Bytes} {ss ss' : List Setting}
      (h : Clause c key (form now c key) ts rest ss) (hrest : ClauseSeq now c rest ss') :
      ClauseSeq now c (key :: (ts ++ rest)) (ss ++ ss')

lemma ClauseSeq.of_form {now : Int64} {c : Command} {key : Bytes} {ts rest : List Bytes}
    {ss ss' : List Setting} {f : Option Form} (hform : form now c key = f)
    (h : Clause c key f ts rest ss) (hrest : ClauseSeq now c rest ss') :
    ClauseSeq now c (key :: (ts ++ rest)) (ss ++ ss') := .cons (hform ▸ h) hrest

lemma ClauseSeq.flag {now : Int64} {c : Command} {key : Bytes} {rest : List Bytes} {s : Setting}
    {ss : List Setting} (hform : form now c key = some (.flag s))
      (hrest : ClauseSeq now c rest ss) :
    ClauseSeq now c (key :: rest) (s :: ss) := .of_form hform (.flag s rest) hrest

lemma ClauseSeq.value {now : Int64} {c : Command} {key v : Bytes} {rest : List Bytes} {s : Setting}
    {ss : List Setting} {f : Bytes → Option Setting} (hform : form now c key = some (.value f))
    (hv : f v = some s) (hrest : ClauseSeq now c rest ss) :
    ClauseSeq now c (key :: v :: rest) (s :: ss) := .of_form hform (.value hv rest) hrest

/-- What a command takes in front of its clauses, and the query it has then. -/
inductive Front (c : Command) (q : Query) : List Bytes → Query → Prop where
  | metrics (hc : c = .metrics) : Front c q [] q
  | value {metric v : Bytes} {x : Float64} (hc : c ∈ [.write, .set]) (hv : parseFloat v = some x) :
      Front c q [metric, v] { q with metric := metric, value := x }
  | metric {metric : Bytes} (hc : c ∈ [.delete, .leaderboard, .groupLeaderboard]) :
      Front c q [metric] { q with metric := metric }
  | get {token metric : Bytes} {metrics : List Bytes} (hc : c = .get)
      (htoken : splitMetrics token = metric :: metrics) :
      Front c q [token] { q with metric := metric, metrics := metric :: metrics }

/-- A reading of the tokens behind the command word in which each of them has its place: the query
the clauses start from, and all they set. -/
inductive Reading (now : Int64) (op cmd : Bytes) : List Bytes → Query → List Setting → Prop where
  | command {c : Command} {front args : List Bytes} {q : Query} {ss : List Setting}
      (hc : commandOf cmd = some c) (hfront : Front c (c.start op cmd) front q)
      (h : ClauseSeq now c args ss) : Reading now op cmd (front ++ args) q ss
  | stats {metric : Bytes} (hc : commandOf cmd = some .stats) :
      Reading now op cmd [metric] { Command.stats.start op cmd with metric := metric } []
  | statsTags {metric tags : Bytes} {keys : List Bytes} (hc : commandOf cmd = some .stats)
      (htags : toUpper tags = bs "TAGS") :
      Reading now op cmd (metric :: tags :: keys) { Command.stats.start op cmd with
        metric := metric
        forceLocal := keys.any fun key => toUpper key = bs "__LOCAL"
        tagKeys := keys.filter fun key => toUpper key ≠ bs "__LOCAL" } []
  | ranking {type : QueryType} {metric entity : Bytes} {radius : ℤ} {head args : List Bytes}
      {ss : List Setting} (hc : rankingType cmd = some type)
      (hhead : Subject type head entity radius) (h : ClauseSeq now .leaderboard args ss) :
      Reading now op cmd (metric :: (head ++ args))
        { Command.leaderboard.start [] (bs "LEADERBOARD") with
          metric := metric, type := type, entityID := entity, radius := radius } ss

/-- **Every token has its place, and its clause can be read off the query.** -/
def Accounted (now : Int64) (op cmd : Bytes) (args : List Bytes) (q : Query) : Prop :=
  q.operationID = op ∧ ∃ start ss, Reading now op cmd args start ss ∧ q = recordAll start ss ∧
    ∀ s ∈ ss, s.Holds q

/-! ## One reading

The key decides the form of a clause, the form how many tokens it takes, and a filter goes on as
long as there is an `AND`: there is no choice anywhere. -/

section Unique

variable {now : Int64} {c : Command} {ts ts' rest rest' : List Bytes}

/-- The pairs of a filter go on as long as AND follows. -/
lemma WherePairs.unique {fold : Bool} {ps ps' : List (Bytes × Bytes)} (h : WherePairs fold ts ps)
    (h' : WherePairs fold ts' ps') (hstop : ∀ t ∈ rest.head?, isAnd fold t = false)
    (hstop' : ∀ t ∈ rest'.head?, isAnd fold t = false) (heq : ts ++ rest = ts' ++ rest') :
    ps = ps' ∧ rest = rest' := by
  induction h generalizing ts' ps' with
  | last k v =>
      cases h' with
      | last k' v' =>
          obtain ⟨rfl, rfl, rfl⟩ := by simpa using heq
          exact ⟨rfl, rfl⟩
      | @more _ _ and _ _ hand _ =>
          obtain ⟨-, -, rfl⟩ := by simpa using heq
          simp [hstop and rfl] at hand
  | @more k v and _ _ hand _ ih =>
      cases h' with
      | last k' v' =>
          obtain ⟨-, -, rfl⟩ := by simpa using heq
          simp [hstop' and rfl] at hand
      | more k' v' hand' hps' =>
          obtain ⟨rfl, rfl, -, hrest⟩ := by simpa using heq
          obtain ⟨rfl, rfl⟩ := ih hps' hrest
          exact ⟨rfl, rfl⟩

/-- A clause cannot be cut off at two places. -/
lemma Clause.unique {key : Bytes} {f : Option Form} {ss ss' : List Setting}
    (h : Clause c key f ts rest ss) (h' : Clause c key f ts' rest' ss')
    (heq : ts ++ rest = ts' ++ rest') : ss = ss' ∧ rest = rest' := by
  cases h with
  | flag s => cases h'; exact ⟨rfl, heq⟩
  | value hv =>
      cases h' with
      | value hv' =>
          obtain ⟨rfl, rfl⟩ := by simpa using heq
          exact ⟨by rw [Option.some.inj (hv.symm.trans hv')], rfl⟩
  | groupBy _ hd =>
      cases h' with
      | groupBy _ hd' =>
          obtain ⟨-, rfl, rfl⟩ := by simpa using heq
          exact ⟨by rw [Except.ok.inj (hd.symm.trans hd')], rfl⟩
  | pairs hps hstop =>
      cases h' with
      | pairs hps' hstop' =>
          obtain ⟨rfl, rfl⟩ := hps.unique hps' hstop hstop' heq
          exact ⟨rfl, rfl⟩
  | assign hs =>
      cases h' with
      | assign hs' =>
          obtain ⟨rfl, rfl⟩ := by simpa using heq
          exact ⟨by rw [Option.some.inj (hs.symm.trans hs')], rfl⟩

/-- **A line of arguments has one reading.** -/
lemma ClauseSeq.unique {args : List Bytes} {ss ss' : List Setting} (h : ClauseSeq now c args ss)
    (h' : ClauseSeq now c args ss') : ss = ss' := by
  induction h generalizing ss' with
  | nil => cases h'; rfl
  | @cons key ts rest ss₁ ss₂ hclause _ ih =>
      generalize hargs : key :: (ts ++ rest) = args at h'
      cases h' with
      | nil => cases hargs
      | cons hclause' hrest' =>
          obtain ⟨rfl, htail⟩ := List.cons.inj hargs
          obtain ⟨rfl, rfl⟩ := hclause.unique hclause' htail
          rw [ih hrest']

/-- How many tokens a command takes in front of its clauses. -/
def arity : Command → ℕ
  | .metrics => 0
  | .write | .set => 2
  | _ => 1

lemma Front.length {q q' : Query} {front : List Bytes} (h : Front c q front q') :
    front.length = arity c := by
  cases h with
  | metrics hc => rw [hc]; rfl
  | value hc => simp at hc; rcases hc with rfl | rfl <;> rfl
  | metric hc => simp at hc; rcases hc with rfl | rfl | rfl <;> rfl
  | get hc => rw [hc]; rfl

lemma Front.ne_stats {q q' : Query} {front : List Bytes} (h : Front c q front q') : c ≠ .stats := by
  rintro rfl
  cases h with
  | metrics hc => cases hc
  | value hc => simp at hc
  | metric hc => simp at hc
  | get hc => cases hc

end Unique

lemma mem_of_lookup {α β : Type*} [BEq α] [LawfulBEq α] {l : List (α × β)} {a : α} {b : β}
    (h : l.lookup a = some b) : (a, b) ∈ l := by
  obtain ⟨l₁, l₂, rfl, -⟩ := List.lookup_eq_some_iff.mp h
  simp

lemma commandOf_ranking {cmd : Bytes} {type : QueryType} (h : rankingType cmd = some type) :
    commandOf cmd = none := by
  have hmem := mem_of_lookup h
  have hcmd : toUpper cmd ∈ [bs "RANK", bs "SCORE", bs "AROUND", bs "LEADERBOARD_COUNT"] := by
    simp only [List.mem_cons, Prod.mk.injEq, List.not_mem_nil, or_false] at hmem ⊢
    tauto
  have hall : ∀ w ∈ [bs "RANK", bs "SCORE", bs "AROUND", bs "LEADERBOARD_COUNT"],
      [(bs "METRICS", Command.metrics), (bs "STATS", .stats),
        (bs "GROUP_LEADERBOARD", .groupLeaderboard), (bs "WRITE", .write), (bs "SET", .set),
        (bs "DELETE", .delete), (bs "PREVIEW_DELETE", .delete), (bs "GET", .get),
        (bs "LEADERBOARD", .leaderboard)].lookup w = none := by decide +kernel
  exact hall _ hcmd

/-- **A line has at most one reading**, as far as its clauses go. -/
theorem Reading.unique {now : Int64} {op cmd : Bytes} {args : List Bytes} {q q' : Query}
    {ss ss' : List Setting} (h : Reading now op cmd args q ss)
    (h' : Reading now op cmd args q' ss') : ss = ss' := by
  have hone : ∀ {c d : Command}, commandOf cmd = some c → commandOf cmd = some d → c = d :=
    fun hc hd => Option.some.inj (hc.symm.trans hd)
  generalize hargs : args = args' at h'
  cases h with
  | command hc hfront hseq =>
      cases h' with
      | command hc' hfront' hseq' =>
          obtain rfl := hone hc hc'
          obtain ⟨-, rfl⟩ := List.append_inj hargs (hfront.length.trans hfront'.length.symm)
          exact hseq.unique hseq'
      | stats hc' => exact absurd (hone hc hc') hfront.ne_stats
      | statsTags hc' => exact absurd (hone hc hc') hfront.ne_stats
      | ranking hc' => simp [commandOf_ranking hc'] at hc
  | stats hc =>
      cases h' with
      | command hc' hfront' => exact absurd (hone hc' hc) hfront'.ne_stats
      | ranking hc' => simp [commandOf_ranking hc'] at hc
      | _ => rfl
  | statsTags hc =>
      cases h' with
      | command hc' hfront' => exact absurd (hone hc' hc) hfront'.ne_stats
      | ranking hc' => simp [commandOf_ranking hc'] at hc
      | _ => rfl
  | ranking hc hhead hseq =>
      have hcommand := commandOf_ranking hc
      cases h' with
      | command hc' => simp [hcommand] at hc'
      | stats hc' => simp [hcommand] at hc'
      | statsTags hc' => simp [hcommand] at hc'
      | ranking hc' hhead' hseq' =>
          obtain rfl := Option.some.inj (hc.symm.trans hc')
          obtain ⟨-, htail⟩ := List.cons.inj hargs
          have hlen : ∀ {t e e' r r'} {l l' : List Bytes}, Subject t l e r → Subject t l' e' r' →
              l.length = l'.length := by
            intro t e e' r r' l l' hl hl'
            cases hl <;> cases hl' <;> rfl
          obtain ⟨-, rfl⟩ := List.append_inj htail (hlen hhead hhead')
          exact hseq.unique hseq'

/-! ## Tables and clauses

The argument tables of the commands, one lemma for each kind of entry. -/

/-- Whatever is read at a key is a clause, with its settings in the query. -/
def ArgClause (now : Int64) (c : Command) (q : Query) (key : Bytes) (a : Arg) : Prop :=
  ∀ rest q' rest', a.Reads rest q' rest' → ∃ ts ss, rest = ts ++ rest' ∧
    Clause c key (form now c key) ts rest' ss ∧ q' = recordAll q ss

lemma wherePairs_of_whereLoop {fold : Bool} {i : Bytes} {n : Bytes → Bytes} {w w' : Tags}
    {rest rest' : List Bytes} (h : whereLoop fold i n w rest = .ok (w', rest')) :
    ∃ ts ps, rest = ts ++ rest' ∧ WherePairs fold ts ps ∧ w' = w.setRows ps ∧
      ∀ t ∈ rest'.head?, isAnd fold t = false := by
  fun_induction whereLoop fold i n w rest with
  | case1 => simp at h
  | case2 w key eq value heq =>
      obtain ⟨rfl, rfl⟩ : w.set key (tokenValue value) = w' ∧ [] = rest' := by simpa using h
      obtain rfl := not_not.mp heq
      exact ⟨_, _, rfl, .last key value, rfl, by simp⟩
  | case3 w key eq value heq and rest₀ hand ih =>
      obtain ⟨ts, ps, rfl, hps, rfl, hstop⟩ := ih h
      obtain rfl := not_not.mp heq
      exact ⟨_, _, rfl, .more key value hand hps, rfl, hstop⟩
  | case4 w key eq value heq and rest₀ hand =>
      obtain ⟨rfl, rfl⟩ : w.set key (tokenValue value) = w' ∧ and :: rest₀ = rest' := by
        simpa using h
      obtain rfl := not_not.mp heq
      exact ⟨[key, bs "=", value], _, rfl, .last key value, rfl, by simpa using hand⟩
  | case5 => simp at h

section Kinds

variable {now : Int64} {c : Command} {q : Query} {key : Bytes}

lemma ite_argClause {p : Prop} [Decidable p] {a b : Arg} (ha : p → ArgClause now c q key a)
    (hb : ¬ p → ArgClause now c q key b) : ArgClause now c q key (if p then a else b) := by
  split_ifs with hp
  · exact ha hp
  · exact hb hp

lemma argClause_flag {s : Setting} (h : form now c key = some (.flag s)) :
    ArgClause now c q key (.flag (s.record q)) := by
  intro rest _ rest' hr
  cases hr
  exact ⟨[], [s], rfl, h ▸ .flag s _, rfl⟩

lemma argClause_fail (msg : Bytes) : ArgClause now c q key (.fail msg) := by
  intro rest q' rest' hr
  cases hr

lemma argClause_value {missing : Bytes} {g : Bytes → Option Setting}
    (h : form now c key = some (.value g)) {f : Bytes → Except Bytes Query}
    (hf : ∀ v q', f v = .ok q' → ∃ s, g v = some s ∧ q' = s.record q) :
    ArgClause now c q key (.value missing f) := by
  intro rest q' rest' hr
  cases hr with
  | @value _ v _ _ _ hv =>
      obtain ⟨s, hs, rfl⟩ := hf v q' hv
      exact ⟨[v], [s], rfl, h ▸ .value hs _, rfl⟩

lemma argClause_ok {missing : Bytes} {g : Bytes → Setting}
    (h : form now c key = some (.value fun v => some (g v))) :
    ArgClause now c q key (.value missing fun v => .ok ((g v).record q)) :=
  argClause_value h fun v _ hv => ⟨g v, rfl, (Except.ok.inj hv).symm⟩

lemma argClause_time {missing : Bytes} {s : Int64 → Setting}
    (h : form now c key = some (.value (timeSetting now s))) :
    ArgClause now c q key (timeArg now missing fun t => (s t).record q) := by
  refine argClause_value h fun v q' hv => ?_
  obtain ⟨t, ht, hret⟩ := bind_eq_ok_iff.mp hv
  exact ⟨s t, by simp [timeSetting, ht, Except.toOption], (Except.ok.inj hret).symm⟩

lemma argClause_int {name : Bytes} {s : ℤ → Setting}
    (h : form now c key = some (.value (intSetting s))) :
    ArgClause now c q key (intArg name fun n => (s n).record q) := by
  refine argClause_value h fun v q' hv => ?_
  cases hn : parseInt v with
  | none => simp [hn] at hv
  | some n =>
      simp only [hn] at hv
      exact ⟨s n.toInt, by simp [intSetting, hn], (Except.ok.inj hv).symm⟩

lemma argClause_board (h : form now c key = some (.value boardSetting)) :
    ArgClause now c q key (boardArg q) := by
  refine argClause_value h fun v q' hv => ?_
  by_cases hempty : tokenValue v = []
  · rw [if_pos hempty] at hv
    cases hv
  · rw [if_neg hempty] at hv
    exact ⟨_, if_neg hempty, (Except.ok.inj hv).symm⟩

lemma argClause_where {i : Bytes} {n : Bytes → Bytes} (h : form now c key = some .pairs) :
    ArgClause now c q key (.clauses (foldsAnd c) q.where_ i n fun w => { q with where_ := w }) := by
  intro rest q' rest' hr
  cases hr with
  | clauses hloop =>
      obtain ⟨ts, ps, rfl, hps, rfl, hstop⟩ := wherePairs_of_whereLoop hloop
      exact ⟨ts, _, rfl, h ▸ .pairs hps hstop, (recordAll_where q ps).symm⟩

lemma argClause_groupBy (h : form now c key = some .groupBy) :
    ArgClause now c q key (.groupBy fun v => do
      let dur ← parseDurationSpec (tokenValue v)
      return { q with groupBySpec := tokenValue v, groupBy := dur }) := by
  intro rest q' rest' hr
  cases hr with
  | @groupBy b v _ _ _ hb hv =>
      obtain ⟨d, hd, hret⟩ := bind_eq_ok_iff.mp hv
      exact ⟨[b, v], [.groupBy (tokenValue v) d], rfl, h ▸ .groupBy hb hd _,
        (Except.ok.inj hret).symm⟩

lemma argClause_assign {i : Bytes} {n : Option Bytes} {f : Bytes → Except Bytes Query}
    (h : form now c key = none)
    (hf : ∀ v q', f v = .ok q' → ∃ s, assignment c key v = some s ∧ q' = s.record q) :
    ArgClause now c q key (.assign i n f) := by
  intro rest q' rest' hr
  cases hr with
  | @assign _ v _ _ _ _ hv =>
      obtain ⟨s, hs, rfl⟩ := hf _ q' hv
      exact ⟨[bs "=", v], [s], rfl, h ▸ .assign hs _, rfl⟩

end Kinds

section Words

variable {now : Int64} {c : Command} {key w : Bytes} {f : Form}

/-- A word of the command has the form the table of words says. -/
lemma form_word (hw : toUpper key = w) (hc : c ≠ .metrics)
    (h : (keywords now c).lookup w = some f) : form now c key = some f := by
  rw [form, if_neg hc, hw, h]

/-- A key that is none of the words is assigned to. -/
lemma form_none (hc : c ≠ .metrics) (h : ∀ p ∈ keywords now c, toUpper key ≠ p.1) :
    form now c key = none := by
  rw [form, if_neg hc, List.lookup_eq_none_iff]
  exact fun p hp => bne_iff_ne.mpr (h p hp)

end Words

lemma writeArg_clause (now : Int64) (q : Query) (key : Bytes) :
    ArgClause now .write q key (writeArg q key) := by
  refine ite_argClause (fun hw => argClause_flag (s := .quorum) (form_word hw (by simp) rfl))
    fun hquorum => ?_
  refine ite_argClause (fun hw => argClause_flag (s := .isReplica) (form_word hw (by simp) rfl))
    fun hreplica => ?_
  refine ite_argClause (fun hw => argClause_flag (s := .forceLocal) (form_word hw (by simp) rfl))
    fun hlocal => ?_
  have hform : form now .write key = none :=
    form_none (by simp) (by simp [keywords, hquorum, hreplica, hlocal])
  refine argClause_assign hform fun v q' hv => ?_
  by_cases hts : key = bs "ts"
  · rw [if_pos hts] at hv
    cases hn : parseInt v with
    | none => simp [hn] at hv
    | some n =>
        simp only [hn] at hv
        exact ⟨.timestamp n, by simp [assignment, hts, hn], (Except.ok.inj hv).symm⟩
  · rw [if_neg hts] at hv
    refine ⟨.assign key v, by simp [assignment, hts], ?_⟩
    rw [Setting.record_assign, Except.ok.inj hv]

lemma setArg_clause (now : Int64) (q : Query) (key : Bytes) :
    ArgClause now .set q key (setArg q key) := by
  refine ite_argClause (fun hw => argClause_flag (s := .isReplica) (form_word hw (by simp) rfl))
    fun hreplica => ?_
  refine ite_argClause (fun hw => argClause_flag (s := .forceLocal) (form_word hw (by simp) rfl))
    fun hlocal => ?_
  have hform : form now .set key = none :=
    form_none (by simp) (by simp [keywords, hreplica, hlocal])
  refine argClause_assign hform fun v q' hv => ⟨.assign key v, rfl, ?_⟩
  rw [Setting.record_assign, Except.ok.inj hv]

lemma deleteArg_clause (now : Int64) (q : Query) (key : Bytes) :
    ArgClause now .delete q key (deleteArg now q key) := by
  refine ite_argClause (fun hw => argClause_where (form_word hw (by simp) rfl)) fun hwhere => ?_
  refine ite_argClause (fun hw => argClause_flag (s := .dryRun) (form_word hw (by simp) rfl))
    fun hdry => ?_
  refine ite_argClause (fun hw => argClause_flag (s := .quorum) (form_word hw (by simp) rfl))
    fun hquorum => ?_
  refine ite_argClause (fun hw => argClause_flag (s := .isReplica) (form_word hw (by simp) rfl))
    fun hreplica => ?_
  refine ite_argClause (fun hw => argClause_flag (s := .forceLocal) (form_word hw (by simp) rfl))
    fun hlocal => ?_
  refine ite_argClause (fun hw => argClause_time (s := .from_) (form_word hw (by simp) rfl))
    fun hfrom => ?_
  refine ite_argClause (fun hw => argClause_time (s := .to_) (form_word hw (by simp) rfl))
    fun hto => ?_
  have hform : form now .delete key = none := by
    refine form_none (by simp) ?_
    simp [keywords, hwhere, hdry, hquorum, hreplica, hlocal, hfrom, hto]
  refine argClause_assign hform fun v q' hv => ⟨.assign key v, rfl, ?_⟩
  rw [Setting.record_assign, Except.ok.inj hv]

lemma form_shared {now : Int64} {c : Command} (hc : c ∈ [.get, .leaderboard]) {key w : Bytes}
    {f : Form} (hw : toUpper key = w) (h : (sharedWords now).lookup w = some f) :
    form now c key = some f := by
  have hmore : ∃ more, keywords now c = sharedWords now ++ more := by
    simp only [List.mem_cons, List.not_mem_nil, or_false] at hc
    rcases hc with rfl | rfl
    · exact ⟨_, rfl⟩
    · exact ⟨_, rfl⟩
  obtain ⟨more, hmore⟩ := hmore
  refine form_word hw (by rintro rfl; simp at hc) ?_
  rw [hmore, List.lookup_append, h]
  rfl

/-- One loop reads GET and LEADERBOARD; the words of only one of them are refused in the other. -/
lemma getArg_clause (now : Int64) {c : Command} (hc : c ∈ [.get, .leaderboard]) {q : Query}
    (hty : q.type = c.type) (key : Bytes) : ArgClause now c q key (getArg now q key) := by
  have hget : q.type = .get → c = .get := by
    simp only [List.mem_cons, List.not_mem_nil, or_false] at hc
    rcases hc with rfl | rfl
    · exact fun _ => rfl
    · rw [hty]
      decide
  have hlead : q.type = .leaderboard ∨ q.type = .groupLeaderboard → c = .leaderboard := by
    simp only [List.mem_cons, List.not_mem_nil, or_false] at hc
    rcases hc with rfl | rfl
    · rw [hty]
      decide
    · exact fun _ => rfl
  have hfold : foldsAnd c = false := by
    simp only [List.mem_cons, List.not_mem_nil, or_false] at hc
    rcases hc with rfl | rfl <;> rfl
  refine ite_argClause (fun hw => argClause_flag (s := .forceLocal) (form_shared hc hw rfl))
    fun _ => ?_
  refine ite_argClause (fun hw => argClause_groupBy (form_shared hc hw rfl)) fun _ => ?_
  refine ite_argClause (fun hw => hfold ▸ argClause_where (form_shared hc hw rfl)) fun _ => ?_
  refine ite_argClause (fun hw => argClause_time (s := .from_) (form_shared hc hw rfl))
    fun _ => ?_
  refine ite_argClause (fun _ => argClause_fail _) fun hagg => ?_
  have hagg : toUpper key ∈ [bs "COUNT", bs "SUM", bs "AVG"] → c = .get :=
    fun hmem => hget (by_contra fun hne => hagg ⟨hmem, hne⟩)
  refine ite_argClause (fun hw => ?_) fun _ => ?_
  · obtain rfl := hagg (by simp [hw])
    exact argClause_flag (s := .aggregate .count) (form_word hw (by simp) rfl)
  refine ite_argClause (fun hw => ?_) fun _ => ?_
  · obtain rfl := hagg (by simp [hw])
    exact argClause_flag (s := .aggregate .sum) (form_word hw (by simp) rfl)
  refine ite_argClause (fun hw => ?_) fun _ => ?_
  · obtain rfl := hagg (by simp [hw])
    exact argClause_flag (s := .aggregate .avg) (form_word hw (by simp) rfl)
  refine ite_argClause (fun hw => argClause_time (s := .to_) (form_shared hc hw rfl)) fun _ => ?_
  refine ite_argClause (fun hw => argClause_int (s := .limit) (form_shared hc hw rfl))
    fun _ => ?_
  refine ite_argClause (fun hw => argClause_int (s := .offset) (form_shared hc hw rfl))
    fun _ => ?_
  refine ite_argClause (fun hw => argClause_ok (g := fun v => .order (toUpper v))
    (form_shared hc hw rfl)) fun _ => ?_
  refine ite_argClause (fun hw => ?_) fun _ => ?_
  · refine ite_argClause (fun _ => argClause_fail _) fun hne => ?_
    rw [not_and_or, not_not, not_not] at hne
    obtain rfl := hlead hne
    exact argClause_ok (g := fun v => .entityTag (tokenValue v)) (form_word hw (by simp) rfl)
  refine ite_argClause (fun hw => ?_) fun _ => argClause_fail _
  refine ite_argClause (fun _ => argClause_fail _) fun hne => ?_
  obtain rfl := hlead (.inl (not_not.mp hne))
  exact argClause_board (form_word hw (by simp) rfl)

lemma groupLeaderboardArg_clause (now : Int64) (q : Query) (key : Bytes) :
    ArgClause now .groupLeaderboard q key (groupLeaderboardArg now q key) := by
  refine ite_argClause (fun hw => argClause_flag (s := .forceLocal) (form_word hw (by simp) rfl))
    fun _ => ?_
  refine ite_argClause (fun hw => argClause_value (g := groupSetting)
    (form_word hw (by simp) rfl) fun v q' hv => ?_) fun _ => ?_
  · obtain ⟨g, hg, hret⟩ := bind_eq_ok_iff.mp hv
    exact ⟨.group g, by simp [groupSetting, hg, Except.toOption], (Except.ok.inj hret).symm⟩
  refine ite_argClause (fun hw => argClause_time (s := .from_) (form_word hw (by simp) rfl))
    fun _ => ?_
  refine ite_argClause (fun hw => argClause_time (s := .to_) (form_word hw (by simp) rfl))
    fun _ => ?_
  refine ite_argClause (fun hw => argClause_int (s := .limit) (form_word hw (by simp) rfl))
    fun _ => ?_
  refine ite_argClause (fun hw => argClause_int (s := .offset) (form_word hw (by simp) rfl))
    fun _ => ?_
  refine ite_argClause (fun hw => argClause_ok (g := fun v => .order (toUpper v))
    (form_word hw (by simp) rfl)) fun _ => ?_
  refine ite_argClause (fun hw => argClause_ok (g := fun v => .entityTag (tokenValue v))
    (form_word hw (by simp) rfl)) fun _ => ?_
  exact ite_argClause (fun hw => argClause_board (form_word hw (by simp) rfl))
    fun _ => argClause_fail _

section Loops

variable {now : Int64} {c : Command} {table : Query → Bytes → Arg} {q q' : Query}
  {args : List Bytes}

/-- A loop that leaves nothing unread has read clauses. -/
lemma clauseSeq_of_loop (htable : ∀ q key, q.type = c.type → ArgClause now c q key (table q key))
    (hhead : ∀ q key, KeepsHead q (table q key)) (hq : q.type = c.type)
    (h : ArgLoop.loop (argStep table) q args = .ok (q', [])) :
    ∃ ss, ClauseSeq now c args ss ∧ q' = recordAll q ss := by
  have hw := ArgLoop.walks_of_loop argStep_consumes h
  clear h
  generalize hleft : ([] : List Bytes) = left at hw
  induction hw with
  | nil q => exact ⟨[], .nil, rfl⟩
  | stop _ => cases hleft
  | @next q q₁ q' key ts rest left hs _ ih =>
      have hread := Arg.reads_of_read hs
      have hkeep : q₁.head = q.head := hread.yields (hhead q key)
      obtain ⟨us, ss, rfl, hclause, rfl⟩ := htable q key hq _ _ _ hread
      obtain ⟨ss', hrest, rfl⟩ := ih ((congrArg Prod.fst hkeep).trans hq) hleft
      exact ⟨ss ++ ss', .cons hclause hrest, (recordAll_append q ss ss').symm⟩

lemma clauseSeq_of_readArgs
    (htable : ∀ q key, q.type = c.type → ArgClause now c q key (table q key))
    (hhead : ∀ q key, KeepsHead q (table q key)) (hgoes : ∀ q key, (table q key).Goes)
    (hq : q.type = c.type) (h : readArgs table q args = .ok q') :
    ∃ ss, ClauseSeq now c args ss ∧ q' = recordAll q ss := by
  obtain ⟨left, hloop⟩ := readArgs_eq_ok_iff.mp h
  obtain rfl := left_eq_nil hgoes hloop
  exact clauseSeq_of_loop htable hhead hq hloop

end Loops

/-! ## SET -/

/-- The arguments of SET are flags and assignments to their end. -/
def setComplete : List Bytes → Bool
  | [] => true
  | key :: rest =>
      if toUpper key = bs "__REPLICA" ∨ toUpper key = bs "__LOCAL" then setComplete rest
      else
        match rest with
        | eq :: _ :: rest => eq = bs "=" && setComplete rest
        | _ => false

/-- A word that stands alone in SET. -/
def SetFlag (key : Bytes) : Prop := toUpper key = bs "__REPLICA" ∨ toUpper key = bs "__LOCAL"

lemma setArg_of_flag {key : Bytes} (h : SetFlag key) (q : Query) :
    ∃ q', setArg q key = .flag q' := by
  by_cases hreplica : toUpper key = bs "__REPLICA"
  · exact ⟨_, if_pos hreplica⟩
  · rw [setArg, if_neg hreplica, if_pos (h.resolve_left hreplica)]
    exact ⟨_, rfl⟩

lemma setComplete_flag {key : Bytes} (h : SetFlag key) (rest : List Bytes) :
    setComplete (key :: rest) = setComplete rest := by
  rcases rest with _ | ⟨a, _ | ⟨b, rest⟩⟩ <;> exact if_pos h

lemma setComplete_assign {key : Bytes} (h : ¬ SetFlag key) (eq v : Bytes) (rest : List Bytes) :
    setComplete (key :: eq :: v :: rest) = (decide (eq = bs "=") && setComplete rest) := if_neg h

lemma setFlag_iff {now : Int64} {key : Bytes} : SetFlag key ↔ form now .set key ≠ none := by
  simp [SetFlag, form, keywords, List.lookup_eq_none_iff]
  tauto

lemma setComplete_of_clauseSeq {now : Int64} {args : List Bytes} {ss : List Setting}
    (h : ClauseSeq now .set args ss) : setComplete args = true := by
  induction h with
  | nil => rfl
  | @cons key ts rest ss ss' hclause _ ih =>
      generalize hform : form now .set key = f at hclause
      have hset := @setFlag_iff now key
      rw [hform] at hset
      cases hclause with
      | flag => exact (setComplete_flag (hset.mpr (by simp)) rest).trans ih
      | @assign v =>
          refine (setComplete_assign (hset.not.mpr (by simp)) (bs "=") v rest).trans ?_
          rw [ih, decide_eq_true rfl]
          rfl
      | value => exact absurd (mem_of_lookup hform) (by simp [keywords])
      | groupBy => exact absurd (mem_of_lookup hform) (by simp [keywords])
      | pairs => exact absurd (mem_of_lookup hform) (by simp [keywords])

/-- Complete arguments are read to their end. -/
lemma left_eq_nil_of_setComplete {q q' : Query} {args left : List Bytes}
    (hargs : setComplete args = true)
    (h : ArgLoop.loop (argStep setArg) q args = .ok (q', left)) : left = [] := by
  have hw := ArgLoop.walks_of_loop argStep_consumes h
  clear h
  induction hw with
  | nil q => rfl
  | @stop q key ts hs =>
      obtain ⟨i, f, eq, v, r, ha, rfl, heq⟩ := Arg.read_eq_none_iff.mp hs
      have hflag : ¬ SetFlag key := by
        intro h
        obtain ⟨q', hq'⟩ := setArg_of_flag h q
        rw [hq'] at ha
        cases ha
      simp [setComplete_assign hflag, heq] at hargs
  | @next q q₁ q' key ts rest left hs _ ih =>
      refine ih ?_
      have hread := Arg.reads_of_read hs
      by_cases hflag : SetFlag key
      · obtain ⟨q₂, hq₂⟩ := setArg_of_flag hflag q
        rw [hq₂] at hread
        cases hread
        rwa [setComplete_flag hflag] at hargs
      · have hassign : setArg q key =
            .assign (bs "incomplete SET argument") none fun value => .ok (q.assign key value) := by
          obtain ⟨hreplica, hlocal⟩ := not_or.mp hflag
          rw [setArg, if_neg hreplica, if_neg hlocal]
        rw [hassign] at hread
        cases hread
        rw [setComplete_assign hflag, Bool.and_eq_true] at hargs
        exact hargs.2

/-! ## Commands -/

/-- The tokens that are not looked at: arguments of STATS that do not start with `TAGS`, and
arguments of SET behind one that is no assignment. -/
def Ignores (cmd : Bytes) (args : List Bytes) : Prop :=
  commandOf cmd = some .stats ∧ (∃ first ∈ (args.drop 1).head?, toUpper first ≠ bs "TAGS") ∨
    commandOf cmd = some .set ∧ setComplete (args.drop 2) = false

/-- Two clauses of the line want different values in one place: `LIMIT 5 LIMIT 7`, two values for a
key of one filter, two entities for one board. -/
def Overwrites (now : Int64) (op cmd : Bytes) (args : List Bytes) : Prop :=
  ∃ start ss, Reading now op cmd args start ss ∧ ¬ Agree ss

section Commands

variable {now : Int64} {op cmd : Bytes} {args : List Bytes} {q : Query} {ss : List Setting}

/-- In a reading with a place for every token nothing is ignored. -/
lemma Reading.not_ignores (h : Reading now op cmd args q ss) : ¬ Ignores cmd args := by
  have hone : ∀ {c d : Command}, commandOf cmd = some c → commandOf cmd = some d → c = d :=
    fun hc hd => Option.some.inj (hc.symm.trans hd)
  rintro (⟨hcmd, first, hfirst, htags⟩ | ⟨hcmd, hset⟩)
  · cases h with
    | command hc hfront => exact hfront.ne_stats (hone hc hcmd)
    | stats => simp at hfirst
    | statsTags _ htags' =>
        obtain rfl := Option.some.inj hfirst
        exact htags htags'
    | ranking hc => simp [commandOf_ranking hc] at hcmd
  · cases h with
    | @command c front args q ss hc hfront hseq =>
        obtain rfl := hone hc hcmd
        have hlen : front.length = 2 := hfront.length
        rw [List.drop_left' hlen] at hset
        exact Bool.false_ne_true (hset.symm.trans (setComplete_of_clauseSeq hseq))
    | stats hc => cases hone hc hcmd
    | statsTags hc => cases hone hc hcmd
    | ranking hc => simp [commandOf_ranking hc] at hcmd

/-- A ranking command starts without the operation id of its line. -/
lemma Reading.operationID (h : Reading now op cmd args q ss) :
    q.operationID = if (rankingType cmd).isSome then [] else op := by
  have hplain : ∀ {c}, commandOf cmd = some c → (rankingType cmd).isSome = false := by
    intro c hc
    cases htype : rankingType cmd with
    | none => rfl
    | some type => simp [commandOf_ranking htype] at hc
  cases h with
  | command hc hfront =>
      rw [hplain hc]
      cases hfront <;> rfl
  | stats hc => rw [hplain hc]; rfl
  | statsTags hc => rw [hplain hc]; rfl
  | ranking hc => rw [hc]; rfl

/-- The parser found a reading of the line, and returns the query with its settings. -/
def Found (now : Int64) (op cmd : Bytes) (args : List Bytes) (q : Query) : Prop :=
  ∃ start ss, Reading now op cmd args start ss ∧ q = recordAll start ss

lemma found_parseMetrics (hcmd : commandOf cmd = some .metrics)
    (h : parseMetrics (Command.metrics.start op cmd) args = .ok q) : Found now op cmd args q := by
  obtain ⟨⟨w, rest⟩, hwhere, h⟩ := bind_eq_ok_iff.mp h
  have hlocalForm : ∀ {key}, equalFold key (bs "__LOCAL") = true →
      form now .metrics key = some (.flag .forceLocal) := by
    intro key hkey
    rw [form, if_pos rfl, of_decide_eq_true hkey]
    rfl
  have hrest : ∃ ss, ClauseSeq now .metrics rest ss ∧
      q = recordAll { Command.metrics.start op cmd with where_ := w } ss := by
    cases rest with
    | nil => exact ⟨[], .nil, (Except.ok.inj h).symm⟩
    | cons key rest =>
        dsimp only at h
        by_cases hlocal : equalFold key (bs "__LOCAL") = true ∧ rest = []
        · rw [if_pos hlocal] at h
          obtain ⟨hkey, rfl⟩ := hlocal
          exact ⟨[.forceLocal], .of_form (hlocalForm hkey) (.flag .forceLocal []) .nil,
            (Except.ok.inj h).symm⟩
        · rw [if_neg hlocal] at h
          cases h
  obtain ⟨ss, hseq, rfl⟩ := hrest
  have hfront : Front .metrics (Command.metrics.start op cmd) [] (Command.metrics.start op cmd) :=
    .metrics rfl
  cases args with
  | nil =>
      obtain ⟨rfl, rfl⟩ : ∅ = w ∧ [] = rest := by simpa [metricsWhere, Command.start] using hwhere
      exact ⟨_, ss, .command hcmd hfront hseq, rfl⟩
  | cons key args =>
      simp only [metricsWhere] at hwhere
      split_ifs at hwhere with hw
      · obtain ⟨ts, ps, rfl, hps, rfl, hstop⟩ := wherePairs_of_whereLoop hwhere
        have hform : form now .metrics key = some .pairs := by
          rw [form, if_pos rfl, of_decide_eq_true hw]
          rfl
        refine ⟨_, _, .command hcmd hfront (.of_form hform (.pairs hps hstop) hseq), ?_⟩
        rw [recordAll_append, recordAll_where]
      · obtain ⟨rfl, rfl⟩ : ∅ = w ∧ key :: args = rest := by simpa [Command.start] using hwhere
        exact ⟨_, ss, .command hcmd hfront hseq, rfl⟩

lemma found_parseStats (hcmd : commandOf cmd = some .stats) (hignores : ¬ Ignores cmd args)
    (h : parseStats (Command.stats.start op cmd) args = .ok q) : Found now op cmd args q := by
  rcases args with _ | ⟨metric, _ | ⟨tags, keys⟩⟩
  · simp [parseStats] at h
  · exact ⟨_, [], .stats hcmd, (Except.ok.inj h).symm⟩
  · simp only [parseStats] at h
    have htags : toUpper tags = bs "TAGS" := by
      by_contra htags
      exact hignores (.inl ⟨hcmd, tags, rfl, htags⟩)
    rw [if_pos htags] at h
    refine ⟨_, [], .statsTags hcmd htags, ?_⟩
    rw [← Except.ok.inj h]
    simp [recordAll]

lemma clauseSeq_parseLeaderboard {metric : Bytes}
    (h : parseLeaderboard now (Command.leaderboard.start op cmd) (metric :: args) = .ok q) :
    ∃ ss, ClauseSeq now .leaderboard args ss ∧
      q = recordAll { Command.leaderboard.start op cmd with metric := metric } ss := by
  simp only [parseLeaderboard] at h
  split_ifs at h
  exact clauseSeq_of_readArgs (fun q key hq => getArg_clause now (by simp) hq key) (getArg_head now)
    (getArg_goes now) rfl h

lemma Front.found {c : Command} {front : List Bytes} {start : Query}
    (hfront : Front c (c.start op cmd) front start) (hcmd : commandOf cmd = some c)
    (h : ∃ ss, ClauseSeq now c args ss ∧ q = recordAll start ss) :
    Found now op cmd (front ++ args) q := by
  obtain ⟨ss, hseq, rfl⟩ := h
  exact ⟨start, ss, .command hcmd hfront hseq, rfl⟩

/-- **A command is read with a place for every token**, unless it ignores some. -/
lemma found_command {c : Command} (hcmd : commandOf cmd = some c) (hignores : ¬ Ignores cmd args)
    (h : c.parse now (c.start op cmd) args = .ok q) : Found now op cmd args q := by
  cases c with
  | metrics => exact found_parseMetrics hcmd h
  | stats => exact found_parseStats hcmd hignores h
  | groupLeaderboard =>
      obtain ⟨metric, args, rfl, h⟩ := parseMetric_eq_ok_iff.mp h
      exact Front.found (.metric (by simp)) hcmd (clauseSeq_of_readArgs
        (fun q key _ => groupLeaderboardArg_clause now q key) (groupLeaderboardArg_head now)
        (groupLeaderboardArg_goes now) rfl h)
  | write =>
      obtain ⟨metric, value, args, v, rfl, hv, h⟩ := parseValue_eq_ok_iff.mp h
      exact Front.found (.value (by simp) hv) hcmd (clauseSeq_of_readArgs
        (fun q key _ => writeArg_clause now q key) writeArg_head writeArg_goes rfl h)
  | set =>
      obtain ⟨metric, value, args, v, rfl, hv, h⟩ := parseValue_eq_ok_iff.mp h
      obtain ⟨left, hloop⟩ := readArgs_eq_ok_iff.mp h
      have hcomplete : setComplete args = true := by
        by_contra hnot
        exact hignores (.inr ⟨hcmd, by simpa using hnot⟩)
      obtain rfl := left_eq_nil_of_setComplete hcomplete hloop
      exact Front.found (.value (by simp) hv) hcmd (clauseSeq_of_loop
        (fun q key _ => setArg_clause now q key) setArg_head rfl hloop)
  | delete =>
      obtain ⟨metric, args, rfl, h⟩ := parseMetric_eq_ok_iff.mp h
      exact Front.found (.metric (by simp)) hcmd (clauseSeq_of_readArgs
        (fun q key _ => deleteArg_clause now q key) (deleteArg_head now) (deleteArg_goes now) rfl h)
  | get =>
      cases args with
      | nil => simp [Command.parse, parseGet] at h
      | cons token args =>
          simp only [Command.parse, parseGet] at h
          cases hs : splitMetrics token with
          | nil => simp [hs] at h
          | cons metric metrics =>
              simp only [hs] at h
              exact Front.found (.get rfl hs) hcmd (clauseSeq_of_readArgs
                (fun q key hq => getArg_clause now (by simp) hq key) (getArg_head now)
                (getArg_goes now) rfl h)
  | leaderboard =>
      cases args with
      | nil => simp [Command.parse, parseLeaderboard] at h
      | cons token args =>
          exact Front.found (.metric (by simp)) hcmd (clauseSeq_parseLeaderboard h)

end Commands

/-! ## Ranking commands

The tokens left of a ranking command are joined by blanks and tokenized again; they come back as
they were. -/

/-- The subject stands in front of the options. -/
lemma rankingArgs_eq_ok {cmd entity : Bytes} {type : QueryType} {args tail : List Bytes}
    {radius : ℤ}
    (hr : type = .rank ∨ type = .score ∨ type = .around ∨ type = .leaderboardCount)
    (h : rankingArgs cmd type args = .ok (entity, radius, tail)) :
    ∃ head, args = head ++ tail ∧ Subject type head entity radius := by
  unfold rankingArgs at h
  by_cases hcount : type = .leaderboardCount
  · subst hcount
    obtain ⟨rfl, rfl, rfl⟩ : [] = entity ∧ 0 = radius ∧ args = tail := by simpa using h
    exact ⟨[], rfl, .count⟩
  rw [if_neg hcount] at h
  cases args with
  | nil => simp at h
  | cons e args =>
      by_cases he : tokenValue e = []
      · simp [he] at h
      simp only [if_neg he] at h
      by_cases haround : type = .around
      · subst haround
        cases args with
        | nil => simp at h
        | cons r args =>
            cases hn : parseInt r with
            | none => simp [hn] at h
            | some n =>
                simp only [ne_eq, not_true_eq_false, if_false, hn] at h
                split_ifs at h with hrange
                obtain ⟨rfl, rfl, rfl⟩ :
                    tokenValue e = entity ∧ n.toInt = radius ∧ args = tail := by simpa using h
                exact ⟨[e, r], rfl, .around he hn (by omega)⟩
      · rw [if_pos haround] at h
        obtain ⟨rfl, rfl, rfl⟩ : tokenValue e = entity ∧ 0 = radius ∧ args = tail := by
          simpa using h
        rcases hr with rfl | rfl | h | h
        · exact ⟨[e], rfl, .rank he⟩
        · exact ⟨[e], rfl, .score he⟩
        · exact absurd h haround
        · exact absurd h hcount

section Rejoined

variable {line op cmd metric : Bytes} {args tail : List Bytes}

/-- The line a ranking command is parsed as. -/
def rankingLine (metric : Bytes) (tail : List Bytes) : Bytes :=
  bs "LEADERBOARD " ++ metric ++ bs " " ++ joinSpace tail

lemma rankingLine_nil (metric : Bytes) :
    rankingLine metric [] = joinSpace [bs "LEADERBOARD", metric] ++ byte ' ' :: [] := by
  have hword : bs "LEADERBOARD " = bs "LEADERBOARD" ++ [byte ' '] := by decide
  have hblank : bs " " = [byte ' '] := by decide
  simp [rankingLine, joinSpace, hword, hblank]

lemma rankingLine_concat (metric : Bytes) (ts : List Bytes) (t : Bytes) :
    rankingLine metric (ts ++ [t]) = joinSpace (bs "LEADERBOARD" :: metric :: ts ++ [t]) := by
  have hword : bs "LEADERBOARD " = bs "LEADERBOARD" ++ [byte ' '] := by decide
  have hblank : bs " " = [byte ' '] := by decide
  have hcons : ∀ w, joinSpace (w :: ts ++ [t]) = w ++ byte ' ' :: joinSpace (ts ++ [t]) := by
    intro w
    cases ts <;> rfl
  rw [rankingLine, hword, List.cons_append, List.cons_append, joinSpace, ← List.cons_append, hcons]
  simp [hblank]

lemma leaderboard_word : Closed (bs "LEADERBOARD") ∧ tokenize (bs "LEADERBOARD") =
    [bs "LEADERBOARD"] :=
  tokenize_plain (by decide +kernel)

/-- The tokens left of a ranking command, put together again, come back; a metric at the end must
not leave a quote open. -/
lemma rankingLine_tokens (hp : prepare line = .ok (op, cmd, metric :: args)) (htail : tail <:+ args)
    (hclosed : tail = [] → Closed metric) :
    cutOperationID (rankingLine metric tail) = ([], rankingLine metric tail) ∧
      tokenize (rankingLine metric tail) = bs "LEADERBOARD" :: metric :: tail := by
  obtain ⟨-, hq, htok, -⟩ := prepare_eq_ok_iff.mp hp
  rcases List.eq_nil_or_concat tail with rfl | ⟨ts, t, rfl⟩
  · have hmetric : tokenize metric = [metric] :=
      tokenize_self (by rw [htok]; simp)
    obtain ⟨hjoined, htokens⟩ := @tokenize_tokens [bs "LEADERBOARD", metric] (by
      simp [leaderboard_word, hclosed rfl, hmetric])
    rw [rankingLine_nil]
    refine ⟨cutOperationID_of_last _ (by decide), ?_⟩
    rw [tokenize_append hjoined, htokens]
    rfl
  · rw [List.concat_eq_append] at *
    obtain ⟨pre, rfl⟩ := htail
    have hlast : tokenize (cutOperationID line).2 = (cmd :: metric :: (pre ++ ts)) ++ [t] := by
      rw [htok]
      simp
    obtain ⟨hfront, ht⟩ := tokenize_front hlast
    have hwords : ∀ w ∈ bs "LEADERBOARD" :: metric :: ts, Closed w ∧ tokenize w = [w] := by
      intro w hw
      rcases List.mem_cons.mp hw with rfl | hw
      · exact leaderboard_word
      · refine hfront w (List.mem_cons_of_mem _ ?_)
        simp only [List.mem_cons, List.mem_append] at hw ⊢
        tauto
    have hline := rankingLine_concat metric ts t
    have hcut := @cutOperationID_of_token _ (joinSpace (bs "LEADERBOARD" :: metric :: ts)) t
      (by rw [hlast]; simp) (hq t (by simp))
    rw [← joinSpace_concat (by simp), ← hline] at hcut
    refine ⟨hcut, ?_⟩
    rw [hline]
    exact tokenize_rejoin hwords ht

/-- With an open metric at its end the line is not accepted. -/
lemma closed_of_prepare_rankingLine
    {p : Bytes × Bytes × List Bytes} (h : prepare (rankingLine metric []) = .ok p) :
      Closed metric := by
  by_contra hopen
  have hcut : cutOperationID (rankingLine metric []) =
      ([], joinSpace [bs "LEADERBOARD", metric] ++ byte ' ' :: []) := by
    rw [rankingLine_nil]
    exact cutOperationID_of_last _ (by decide)
  have hjoined : ¬ Closed (joinSpace [bs "LEADERBOARD", metric]) := by
    intro hc
    exact hopen ((closed_append leaderboard_word.1 metric).mp hc)
  exact absurd h (prepare_append_open hjoined (by simp [PlainText]) rfl (by decide) hcut _)

/-- The tokens left of a ranking command are read as they are. -/
lemma prepare_rankingLine (hp : prepare line = .ok (op, cmd, metric :: args))
    (htail : tail <:+ args)
    {op' cmd' : Bytes} {args' : List Bytes}
    (h : prepare (rankingLine metric tail) = .ok (op', cmd', args')) :
    op' = [] ∧ cmd' = bs "LEADERBOARD" ∧ args' = metric :: tail := by
  have hclosed : tail = [] → Closed metric := by
    rintro rfl
    exact closed_of_prepare_rankingLine h
  obtain ⟨hcut, htokens⟩ := rankingLine_tokens hp htail hclosed
  obtain ⟨-, -, htok', hop'⟩ := prepare_eq_ok_iff.mp h
  rw [hcut] at htok' hop'
  obtain ⟨rfl, rfl⟩ := List.cons.inj (htokens.symm.trans htok')
  exact ⟨hop'.symm, rfl, rfl⟩

end Rejoined

/-- A ranking line is read through the LEADERBOARD line it is turned into. -/
lemma found_parseRanking {now : Int64} {line op cmd : Bytes} {type : QueryType}
    {args : List Bytes} {q : Query} (hp : prepare line = .ok (op, cmd, args))
    (htype : rankingType cmd = some type) (h : parseRanking now cmd type args = .ok q) :
    Found now op cmd args q := by
  obtain ⟨metric, rest, entity, radius, tail, q₀, rfl, hargs, hplain, rfl⟩ := parseRanking_eq_ok h
  obtain ⟨head, rfl, hhead⟩ := rankingArgs_eq_ok (rankingType_type htype) hargs
  obtain ⟨op', cmd', args', hp', hc, -⟩ := parsePlain_eq_ok_iff.mp hplain
  obtain ⟨rfl, rfl, rfl⟩ := prepare_rankingLine hp (List.suffix_append head tail) hp'
  obtain ⟨c, hcmd, hparse⟩ := parseCommand_eq_ok_iff.mp hc
  obtain rfl : c = .leaderboard := by
    have hword : commandOf (bs "LEADERBOARD") = some .leaderboard := by decide
    exact Option.some.inj (hcmd.symm.trans hword)
  obtain ⟨ss, hseq, rfl⟩ := clauseSeq_parseLeaderboard hparse
  exact ⟨_, ss, .ranking htype hhead hseq, (recordAll_subject _ ss type entity radius).symm⟩

/-! ## Lines -/

/-- A line that is parsed and ignores nothing was read with a place for every token. -/
lemma found_of_parse {now : Int64} {line op cmd : Bytes} {args : List Bytes} {q : Query}
    (hp : prepare line = .ok (op, cmd, args)) (hignores : ¬ Ignores cmd args)
    (h : parseTokens now op cmd args = .ok q) : Found now op cmd args q := by
  unfold parseTokens at h
  cases htype : rankingType cmd with
  | some type =>
      simp only [htype] at h
      exact found_parseRanking hp htype h
  | none =>
      simp only [htype] at h
      obtain ⟨c, hcmd, hparse⟩ := parseCommand_eq_ok_iff.mp h
      exact found_command hcmd hignores hparse

/-- **The tokens of an accepted line are all recorded in its query** exactly if the command looks
past none of them, no clause overwrites another one, and no ranking command drops an operation
id. -/
theorem accounted_iff {now : Int64} {line : Bytes} {q : Query} (h : parse now line = .ok q) :
    ∃ op cmd args, prepare line = .ok (op, cmd, args) ∧
      (Accounted now op cmd args q ↔ ¬ Ignores cmd args ∧ ¬ Overwrites now op cmd args ∧
        ((rankingType cmd).isSome → op = [])) := by
  obtain ⟨op, cmd, args, hp, htokens⟩ := parseUnchecked_eq_ok_iff.mp (parse_eq_ok_iff.mp h).1
  refine ⟨op, cmd, args, hp, ?_, ?_⟩
  · rintro ⟨hop, start, ss, hread, rfl, hholds⟩
    refine ⟨hread.not_ignores, ?_, fun hrank => ?_⟩
    · rintro ⟨start', ss', hread', hnot⟩
      rw [hread'.unique hread] at hnot
      exact hnot ((recordAll_holds_iff start ss).mp hholds)
    · rw [← hop, operationID_recordAll, hread.operationID, if_pos hrank]
  · rintro ⟨hignores, hover, hrank⟩
    obtain ⟨start, ss, hread, rfl⟩ := found_of_parse hp hignores htokens
    refine ⟨?_, start, ss, hread, rfl, (recordAll_holds_iff start ss).mpr ?_⟩
    · rw [operationID_recordAll, hread.operationID]
      split_ifs with htype
      · exact (hrank htype).symm
      · rfl
    · by_contra hnot
      exact hover ⟨start, ss, hread, hnot⟩

/-- The query of `GET hits,kills WHERE server=eu AND mode=duel LIMIT 5 ORDER asc SUM`. -/
def sampleQuery : Query where
  type := .get
  metric := bs "hits"
  metrics := [bs "hits", bs "kills"]
  where_ := (OrdMap.set ∅ (bs "server") (bs "eu")).set (bs "mode") (bs "duel")
  limit := 5
  order := bs "ASC"
  aggregate := some .sum

/-- Its arguments behind the metrics, read as clauses. -/
lemma clauseSeq_sampleQuery :
    ClauseSeq 0 .get [bs "WHERE", bs "server", bs "=", bs "eu", bs "AND", bs "mode", bs "=",
        bs "duel", bs "LIMIT", bs "5", bs "ORDER", bs "asc", bs "SUM"]
      [.where_ (bs "server") (bs "eu"), .where_ (bs "mode") (bs "duel"), .limit 5,
        .order (bs "ASC"), .aggregate .sum] := by
  have hpage : ClauseSeq 0 .get [bs "LIMIT", bs "5", bs "ORDER", bs "asc", bs "SUM"]
      [.limit 5, .order (bs "ASC"), .aggregate .sum] :=
    .value rfl rfl (.value rfl rfl (.flag rfl .nil))
  have hfilter : WherePairs (foldsAnd .get)
      [bs "server", bs "=", bs "eu", bs "AND", bs "mode", bs "=", bs "duel"]
      [(bs "server", bs "eu"), (bs "mode", bs "duel")] := .more _ _ (by decide) (.last _ _)
  exact @ClauseSeq.of_form 0 .get (bs "WHERE") _ _ _ _ _ rfl (.pairs hfilter (by decide)) hpage

/-- A line with clauses of several forms, all of which its query records. -/
theorem accounted_sampleQuery :
    parse 0 (bs "GET hits,kills WHERE server=eu AND mode=duel LIMIT 5 ORDER asc SUM") =
        .ok sampleQuery ∧
      ∃ args, prepare (bs "GET hits,kills WHERE server=eu AND mode=duel LIMIT 5 ORDER asc SUM") =
        .ok ([], bs "GET", args) ∧ Accounted 0 [] (bs "GET") args sampleQuery := by
  have hparse : parse 0
      (bs "GET hits,kills WHERE server=eu AND mode=duel LIMIT 5 ORDER asc SUM") =
        .ok sampleQuery := by decide +kernel
  have hprepare : prepare
      (bs "GET hits,kills WHERE server=eu AND mode=duel LIMIT 5 ORDER asc SUM") =
        .ok ([], bs "GET", [bs "hits,kills"] ++ [bs "WHERE", bs "server", bs "=", bs "eu", bs "AND",
          bs "mode", bs "=", bs "duel", bs "LIMIT", bs "5", bs "ORDER", bs "asc", bs "SUM"]) := by
    decide +kernel
  obtain ⟨op, cmd, args, hp, hiff⟩ := accounted_iff hparse
  rw [hprepare] at hp
  obtain ⟨rfl, rfl, rfl⟩ := Except.ok.inj hp
  refine ⟨hparse, _, hprepare, hiff.mpr ⟨?_, ?_, fun _ => rfl⟩⟩
  · rintro (⟨h, -⟩ | ⟨h, -⟩) <;> exact absurd h (by decide)
  · rintro ⟨start, ss, hread, hnot⟩
    have hsplit : splitMetrics (bs "hits,kills") = bs "hits" :: [bs "kills"] := by decide +kernel
    rw [hread.unique (.command (by decide) (.get rfl hsplit) clauseSeq_sampleQuery)] at hnot
    refine hnot ?_
    simp [Agree, Setting.Conflicts]
    decide

/-- The query knows nothing of some token of the line. -/
def Loses (line : Bytes) (q : Query) : Prop :=
  parse 0 line = .ok q ∧
    ∀ op cmd args, prepare line = .ok (op, cmd, args) → ¬ Accounted 0 op cmd args q

/-- **Accepted lines whose queries know nothing of some token**: SET stops at the first argument
that is no assignment, of two limits the first is lost, and RANK loses its operation id. -/
theorem tokens_lost :
    Loses (bs "SET hits 1 lb=a foo bar baz")
        { type := .set, metric := bs "hits", value := Float64.ofBits 0x3FF0000000000000,
          updateLB := true, lbEntityID := bs "a" } ∧
      Loses (bs "GET hits LIMIT 5 LIMIT 7")
        { type := .get, metric := bs "hits", metrics := [bs "hits"], limit := 7 } ∧
      Loses (bs "RANK hits bob __op=0123456789abcdef0123456789abcdef")
        { type := .rank, metric := bs "hits", entityID := bs "bob" } := by
  refine ⟨⟨by decide +kernel, fun op cmd args hp => ?_⟩,
    ⟨by decide +kernel, fun op cmd args hp => ?_⟩,
    by decide +kernel, fun op cmd args hp => ?_⟩
  · have hprepare : prepare (bs "SET hits 1 lb=a foo bar baz") = .ok ([], bs "SET",
        [bs "hits", bs "1", bs "lb", bs "=", bs "a", bs "foo", bs "bar", bs "baz"]) := by
      decide +kernel
    rw [hprepare] at hp
    obtain ⟨rfl, rfl, rfl⟩ := Except.ok.inj hp
    rintro ⟨-, start, ss, hread, -⟩
    exact hread.not_ignores (.inr (by decide +kernel))
  · have hprepare : prepare (bs "GET hits LIMIT 5 LIMIT 7") = .ok ([], bs "GET",
        [bs "hits"] ++ [bs "LIMIT", bs "5", bs "LIMIT", bs "7"]) := by decide +kernel
    rw [hprepare] at hp
    obtain ⟨rfl, rfl, rfl⟩ := Except.ok.inj hp
    rintro ⟨-, start, ss, hread, -, hholds⟩
    have hseq : ClauseSeq 0 .get [bs "LIMIT", bs "5", bs "LIMIT", bs "7"] [.limit 5, .limit 7] :=
      .value rfl rfl (.value rfl rfl .nil)
    have hsplit : splitMetrics (bs "hits") = bs "hits" :: [] := by decide +kernel
    rw [hread.unique (.command (by decide) (.get rfl hsplit) hseq)] at hholds
    have hlimit : (7 : ℤ) = 5 := hholds (.limit 5) (by simp)
    exact absurd hlimit (by decide)
  · have hprepare : prepare (bs "RANK hits bob __op=0123456789abcdef0123456789abcdef") =
        .ok (bs "0123456789abcdef0123456789abcdef", bs "RANK", [bs "hits", bs "bob"]) := by
      decide +kernel
    rw [hprepare] at hp
    obtain ⟨rfl, rfl, rfl⟩ := Except.ok.inj hp
    rintro ⟨hop, -⟩
    exact absurd hop (by decide)

end Grammar

end FlameDB
