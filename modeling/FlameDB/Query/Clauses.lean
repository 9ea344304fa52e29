import FlameDB.Query.Executor
import FlameDB.Query.Lines

/-!
# The time clauses of a line

What `FROM` and `TO` say, read off the line itself: an instant is an integer number of nanoseconds,
and a clause that is not given is absent.  The query that `parse` returns has only two 64-bit
numbers for this, where zero also stands for a missing clause.

* `clauses` — the clauses of a line, noted along the argument loop of its command.
* `Clauses.Admits` — the times the clauses speak of.
* `Clauses.Scans` — the times between the two numbers the query keeps.
* `clauses_readBy` — the two numbers are those of the clauses.
* `Clauses.misjudged_iff` — where the two readings differ, for the numbers the parser accepts.
-/

namespace FlameDB

open Go KV

/-- The instant a time argument names, before it is put into 64 bits. -/
def timeLiteral (now : Int64) (token : Bytes) : Option ℤ := (timeInstant now.toInt token).toOption

/-- What the parser keeps of a time argument. -/
lemma timeLiteral_of_parse {now t : Int64} {token : Bytes} (h : parseTimeValue now token = .ok t) :
    ∃ z, timeLiteral now token = some z ∧ t = unixNano z := by
  obtain ⟨z, hz, rfl⟩ := map_eq_ok_iff.mp h
  exact ⟨z, by rw [timeLiteral, hz]; rfl, rfl⟩

/-- The bounds a line writes, as unbounded instants. -/
structure Clauses where
  from_ : Option ℤ := none
  to_ : Option ℤ := none
  deriving DecidableEq

namespace Clauses

/-- The times the clauses speak of. -/
def Admits (c : Clauses) (t : Int64) : Prop :=
  (∀ z ∈ c.from_, z ≤ t.toInt) ∧ ∀ z ∈ c.to_, t.toInt < z

instance (c : Clauses) (t : Int64) : Decidable (c.Admits t) := inferInstanceAs (Decidable (_ ∧ _))

/-- The first number the query keeps. -/
def start (c : Clauses) : Int64 := c.from_.elim 0 unixNano

/-- The second one, with zero for a missing `TO`. -/
def bound (c : Clauses) : Int64 := c.to_.elim 0 unixNano

/-- The end of the range a command looks at, `math.MaxInt64` for an open one. -/
def stop (c : Clauses) : Int64 := if c.bound = 0 then maxInt64 else c.bound

/-- The times a command looks at. -/
def Scans (c : Clauses) (t : Int64) : Prop := c.start ≤ t ∧ t < c.stop

instance (c : Clauses) (t : Int64) : Decidable (c.Scans t) := inferInstanceAs (Decidable (_ ∧ _))

/-- The query keeps the numbers of the clauses. -/
structure ReadBy (c : Clauses) (q : Query) : Prop where
  from_eq : q.from_ = c.start
  to_eq : q.to_ = c.bound

lemma ReadBy.congr {c : Clauses} {q q' : Query} (h : c.ReadBy q)
    (hq : q'.from_ = q.from_ ∧ q'.to_ = q.to_) : c.ReadBy q' :=
  ⟨hq.1.trans h.from_eq, hq.2.trans h.to_eq⟩

/-- Note the clause that starts at `key`, if one does; a later clause replaces an earlier one. -/
def note (now : Int64) (c : Clauses) (key : Bytes) : List Bytes → Clauses
  | [] => c
  | v :: _ =>
      if toUpper key = bs "FROM" then { c with from_ := timeLiteral now v }
      else if toUpper key = bs "TO" then { c with to_ := timeLiteral now v }
      else c

lemma note_other {now : Int64} {c : Clauses} {key : Bytes} (hfrom : toUpper key ≠ bs "FROM")
    (hto : toUpper key ≠ bs "TO") (rest : List Bytes) : c.note now key rest = c := by
  cases rest with
  | nil => rfl
  | cons v rest => rw [note, if_neg hfrom, if_neg hto]

end Clauses

/-! ## The argument loop -/

/-- A round of the argument loop that also notes the clauses. -/
def clauseStep (now : Int64) (table : Query → Bytes → Arg) :
    ArgLoop.Step (Query × Clauses) Bytes Bytes
  | _, [] => .ok none
  | (q, c), key :: rest =>
      match (table q key).read rest with
      | .error msg => .error msg
      | .ok none => .ok none
      | .ok (some (q', left)) => .ok (some ((q', c.note now key rest), left))

/-- The bounds in the arguments of a command. -/
def argClauses (now : Int64) (table : Query → Bytes → Arg) (q : Query) (args : List Bytes) :
    Clauses :=
  match ArgLoop.loop (clauseStep now table) (q, {}) args with
  | .ok ((_, c), _) => c
  | .error _ => {}

/-- The clauses among the arguments of a command; only these three have a range of events. -/
def Command.clauses (now : Int64) : Command → Query → List Bytes → Clauses
  | .delete, q, metric :: args => argClauses now (deleteArg now) { q with metric := metric } args
  | .leaderboard, q, metric :: args => argClauses now (getArg now) { q with metric := metric } args
  | .get, q, token :: args =>
      match splitMetrics token with
      | [] => {}
      | metric :: others =>
          argClauses now (getArg now) { q with metric := metric, metrics := metric :: others } args
  | _, _, _ => {}

/-- The bounds of a line. -/
def clauses (now : Int64) (line : Bytes) : Clauses :=
  match prepare line with
  | .error _ => {}
  | .ok (op, cmd, args) =>
      match commandOf cmd with
      | none => {}
      | some c => c.clauses now (c.start op cmd) args

/-- The table of a command reads `FROM` and `TO` as time clauses and touches the range nowhere
else. -/
def ReadsClauses (now : Int64) (table : Query → Bytes → Arg) : Prop :=
  ∀ q key rest q' left (c : Clauses), (table q key).Reads rest q' left → c.ReadBy q →
    (c.note now key rest).ReadBy q'

lemma clauseStep_consumes {now : Int64} {table : Query → Bytes → Arg} :
    ArgLoop.Consumes (clauseStep now table) := by
  rintro ⟨q, c⟩ ts p rest h
  cases ts with
  | nil => simp [clauseStep] at h
  | cons key ts =>
    simp only [clauseStep] at h
    rcases hread : (table q key).read ts with _ | _ | ⟨q', left⟩
    · simp [hread] at h
    · simp [hread] at h
    · obtain ⟨-, rfl⟩ : _ ∧ left = rest := by simpa [hread] using h
      exact Nat.lt_succ_of_le (Arg.reads_of_read hread).length

lemma ReadsClauses.argClauses_readBy {now : Int64} {table : Query → Bytes → Arg}
    (htable : ReadsClauses now table) {q q' : Query} {args : List Bytes}
    (hq : ({} : Clauses).ReadBy q) (h : readArgs table q args = .ok q') :
    (argClauses now table q args).ReadBy q' := by
  obtain ⟨left, hloop⟩ := readArgs_eq_ok_iff.mp h
  have hconsumes : ArgLoop.Consumes (clauseStep now table) := clauseStep_consumes
  have hsim := ArgLoop.loop_simulation (R := fun q p => p.1 = q ∧ p.2.ReadBy q)
    argStep_consumes hconsumes ?_ ?_ hloop (p := (q, {})) ⟨rfl, hq⟩
  · obtain ⟨⟨q₁, c⟩, hghost, rfl, hc⟩ := hsim
    rw [argClauses, hghost]
    exact hc
  · rintro q ⟨_, c⟩ key ts q' rest ⟨rfl, hc⟩ hstep
    refine ⟨(q', c.note now key ts), ?_, rfl, htable _ _ _ _ _ c (Arg.reads_of_read hstep) hc⟩
    have hread : (table _ key).read ts = .ok (some (q', rest)) := hstep
    simp only [clauseStep, hread]
  · rintro q ⟨_, c⟩ key ts ⟨rfl, -⟩ hstep
    have hread : (table _ key).read ts = .ok none := hstep
    simp only [clauseStep, hread]

/-! ## The tables -/

lemma ite_yields_of {P : Query → Prop} {p : Prop} [Decidable p] {a b : Arg} (ha : p → a.Yields P)
    (hb : ¬ p → b.Yields P) : (if p then a else b).Yields P := by
  split_ifs with h
  · exact ha h
  · exact hb h

/-- The argument leaves the range alone. -/
abbrev KeepsRange (q : Query) : Arg → Prop :=
  Arg.Yields fun q' => q'.from_ = q.from_ ∧ q'.to_ = q.to_

lemma timeArg_reads {now : Int64} {missing : Bytes} {set : Int64 → Query} {rest left : List Bytes}
    {q' : Query} (h : (timeArg now missing set).Reads rest q' left) :
    ∃ v z, rest = v :: left ∧ timeLiteral now v = some z ∧ q' = set (unixNano z) := by
  cases h with
  | @value _ v _ _ _ hf =>
    obtain ⟨t, ht, hq'⟩ := bind_eq_ok_iff.mp hf
    obtain ⟨z, hz, rfl⟩ := timeLiteral_of_parse ht
    exact ⟨v, z, rfl, hz, (Except.ok.inj hq').symm⟩

/-- A table is described by its entries for the two words and for all others. -/
lemma readsClauses_of {now : Int64} {table : Query → Bytes → Arg}
    (hfrom : ∀ q key, toUpper key = bs "FROM" →
      table q key = timeArg now (bs "missing FROM value") fun ts => { q with from_ := ts })
    (hto : ∀ q key, toUpper key = bs "TO" →
      table q key = timeArg now (bs "missing TO value") fun ts => { q with to_ := ts })
    (hother : ∀ q key, toUpper key ≠ bs "FROM" → toUpper key ≠ bs "TO" →
      KeepsRange q (table q key)) : ReadsClauses now table := by
  intro q key rest q' left c hreads hc
  by_cases hf : toUpper key = bs "FROM"
  · rw [hfrom q key hf] at hreads
    obtain ⟨v, z, rfl, hz, rfl⟩ := timeArg_reads hreads
    rw [Clauses.note, if_pos hf]
    exact ⟨by rw [Clauses.start, hz]; rfl, hc.to_eq⟩
  · by_cases ht : toUpper key = bs "TO"
    · rw [hto q key ht] at hreads
      obtain ⟨v, z, rfl, hz, rfl⟩ := timeArg_reads hreads
      rw [Clauses.note, if_neg hf, if_pos ht]
      exact ⟨hc.from_eq, by rw [Clauses.bound, hz]; rfl⟩
    · rw [Clauses.note_other hf ht]
      exact hc.congr (hreads.yields (hother q key hf ht))

lemma assign_range (q : Query) (key value : Bytes) :
    (q.assign key value).from_ = q.from_ ∧ (q.assign key value).to_ = q.to_ := by
  unfold Query.assign
  split_ifs <;> exact ⟨rfl, rfl⟩

lemma deleteArg_readsClauses (now : Int64) : ReadsClauses now (deleteArg now) := by
  refine readsClauses_of (fun q key h => ?_) (fun q key h => ?_) fun q key hfrom hto => ?_
  · unfold deleteArg
    rw [h, if_neg (by decide), if_neg (by decide), if_neg (by decide), if_neg (by decide),
      if_neg (by decide), if_pos rfl]
  · unfold deleteArg
    rw [h, if_neg (by decide), if_neg (by decide), if_neg (by decide), if_neg (by decide),
      if_neg (by decide), if_neg (by decide), if_pos rfl]
  · exact ite_yields (fun _ => ⟨rfl, rfl⟩) <| ite_yields ⟨rfl, rfl⟩ <| ite_yields ⟨rfl, rfl⟩ <|
      ite_yields ⟨rfl, rfl⟩ <| ite_yields ⟨rfl, rfl⟩ <|
      ite_yields_of (fun h => absurd h hfrom) fun _ =>
        ite_yields_of (fun h => absurd h hto) fun _ =>
      assign_ok_yields fun v => assign_range q key v

lemma getArg_readsClauses (now : Int64) : ReadsClauses now (getArg now) := by
  refine readsClauses_of (fun q key h => ?_) (fun q key h => ?_) fun q key hfrom hto => ?_
  · unfold getArg
    rw [h, if_neg (by decide), if_neg (by decide), if_neg (by decide), if_pos rfl]
  · unfold getArg
    rw [h, if_neg (by decide), if_neg (by decide), if_neg (by decide), if_neg (by decide),
      if_neg (fun hc => absurd hc.1 (by decide)), if_neg (by decide), if_neg (by decide),
      if_neg (by decide), if_pos rfl]
  · have hgroup : KeepsRange q (.groupBy fun v => do
        let dur ← parseDurationSpec (tokenValue v)
        return { q with groupBySpec := tokenValue v, groupBy := dur }) := by
      intro v q' hq'
      obtain ⟨d, -, hq'⟩ := bind_eq_ok_iff.mp hq'
      rw [← Except.ok.inj hq']
      exact ⟨rfl, rfl⟩
    exact ite_yields ⟨rfl, rfl⟩ <| ite_yields hgroup <| ite_yields (fun _ => ⟨rfl, rfl⟩) <|
      ite_yields_of (fun h => absurd h hfrom) fun _ => ite_yields trivial <|
      ite_yields ⟨rfl, rfl⟩ <| ite_yields ⟨rfl, rfl⟩ <| ite_yields ⟨rfl, rfl⟩ <|
      ite_yields_of (fun h => absurd h hto) fun _ =>
      ite_yields (intArg_yields fun _ => ⟨rfl, rfl⟩) <|
      ite_yields (intArg_yields fun _ => ⟨rfl, rfl⟩) <|
      ite_yields (value_ok_yields fun _ => ⟨rfl, rfl⟩) <|
      ite_yields (ite_yields trivial (value_ok_yields fun _ => ⟨rfl, rfl⟩)) <|
      ite_yields (ite_yields trivial (boardArg_yields fun _ => ⟨rfl, rfl⟩)) trivial

/-- The commands that look at a range of events. -/
def QueryType.Ranged (type : QueryType) : Prop :=
  type = .get ∨ type = .leaderboard ∨ type = .delete

instance (type : QueryType) : Decidable type.Ranged := inferInstanceAs (Decidable (_ ∨ _ ∨ _))

/-- A command that takes a range reads the bounds of its arguments. -/
lemma Command.clauses_readBy {now : Int64} {c : Command} {op cmd : Bytes} {args : List Bytes}
    {q : Query} (hc : c.type.Ranged) (h : c.parse now (c.start op cmd) args = .ok q) :
    (c.clauses now (c.start op cmd) args).ReadBy q := by
  cases c with
  | delete =>
    obtain ⟨metric, args, rfl, h⟩ := parseMetric_eq_ok_iff.mp h
    exact (deleteArg_readsClauses now).argClauses_readBy ⟨rfl, rfl⟩ h
  | leaderboard =>
    cases args with
    | nil => simp [Command.parse, parseLeaderboard] at h
    | cons metric args =>
      simp only [Command.parse, parseLeaderboard] at h
      split_ifs at h
      exact (getArg_readsClauses now).argClauses_readBy ⟨rfl, rfl⟩ h
  | get =>
    cases args with
    | nil => simp [Command.parse, parseGet] at h
    | cons token args =>
      simp only [Command.parse, parseGet, Command.clauses] at h ⊢
      cases hm : splitMetrics token with
      | nil => simp [hm] at h
      | cons metric metrics =>
        rw [hm] at h
        exact (getArg_readsClauses now).argClauses_readBy ⟨rfl, rfl⟩ h
  | _ => exact absurd hc (by decide)

/-- **The query keeps the numbers of the line's clauses.** -/
theorem clauses_readBy {now : Int64} {line : Bytes} {q : Query} (h : parse now line = .ok q)
    (hr : q.type.Ranged) : (clauses now line).ReadBy q := by
  obtain ⟨c, cmd, args, hread⟩ := exists_readAs h (by
    rcases hr with hty | hty | hty <;> rw [hty] <;> decide)
  rw [clauses, hread.prepared]
  simp only [hread.command]
  exact Command.clauses_readBy (hread.type_eq ▸ hr) hread.parsed

/-! ## Where the readings differ

A literal names an instant of any year, and the query keeps its low 64 bits: an instant before 1970
or past the year 2262 that gets through has become one in between. -/

/-- **The times that are misjudged**, case by case. -/
inductive Clauses.Misjudged (c : Clauses) (t : Int64) : Prop where
  /-- a time before 1970, which no `FROM` excludes -/
  | early (hfrom : c.from_ = none) (ht : t < 0) (hto : ∀ z ∈ c.to_, t.toInt < z)
  /-- an early `FROM` whose number is behind the time -/
  | fromPast {z : ℤ} (hfrom : c.from_ = some z) (hz : z < 0) (ht : z ≤ t.toInt)
      (hstart : t < c.start) (hto : ∀ z ∈ c.to_, t.toInt < z)
  /-- a late `FROM`, which excludes every time -/
  | fromFuture {z : ℤ} (hfrom : c.from_ = some z) (hz : 2 ^ 63 ≤ z) (hscan : c.Scans t)
  /-- the last time of all, without a `TO` -/
  | last (hto : c.to_ = none) (ht : t = maxInt64) (hfrom : ∀ z ∈ c.from_, z ≤ t.toInt)
  /-- a late `TO`, which excludes no time -/
  | toFuture {z : ℤ} (hto : c.to_ = some z) (hz : 2 ^ 63 ≤ z) (hstop : c.stop ≤ t)
      (hfrom : ∀ z ∈ c.from_, z ≤ t.toInt)
  /-- a `TO` at the epoch, which is taken for no `TO` -/
  | epoch (hto : c.to_ = some 0) (ht : 0 ≤ t) (hscan : c.Scans t)
  /-- an early `TO` whose number is behind the time -/
  | toPast {z : ℤ} (hto : c.to_ = some z) (hz : z < 0) (ht : z ≤ t.toInt) (hscan : c.Scans t)

/-- An instant between 1970 and the end of 63 bits is kept as it is. -/
lemma toInt_unixNano {z : ℤ} (h0 : 0 ≤ z) (h1 : z < 2 ^ 63) : (unixNano z).toInt = z := by
  rw [unixNano, Int64.toInt_ofInt, Int.bmod_eq_of_le (by simp; omega) (by simp; omega)]

/-- **The two readings of a line differ at the misjudged times**, for numbers the parser accepts. -/
theorem Clauses.misjudged_iff {c : Clauses} (hstart : 0 ≤ c.start) (hbound : 0 ≤ c.bound)
    (t : Int64) : ¬ (c.Admits t ↔ c.Scans t) ↔ c.Misjudged t := by
  have hmax : maxInt64.toInt = 2 ^ 63 - 1 := by decide
  have hzero : (0 : Int64).toInt = 0 := rfl
  have ht := t.toInt_lt
  have hext : ∀ a b : Int64, a = b ↔ a.toInt = b.toInt := fun a b => Int64.toInt_inj.symm
  have hfrom : ∀ z ∈ c.from_, 0 ≤ z → z < 2 ^ 63 → c.start.toInt = z := by
    intro z hz h0 h1
    rw [start, Option.mem_def.mp hz]
    exact toInt_unixNano h0 h1
  have hto : ∀ z ∈ c.to_, 0 ≤ z → z < 2 ^ 63 → c.bound.toInt = z := by
    intro z hz h0 h1
    rw [bound, Option.mem_def.mp hz]
    exact toInt_unixNano h0 h1
  have hnoFrom : c.from_ = none → c.start.toInt = 0 := fun h => by rw [start, h]; rfl
  have hnoTo : c.to_ = none → c.bound.toInt = 0 := fun h => by rw [bound, h]; rfl
  have hstop : c.stop.toInt = if c.bound.toInt = 0 then 2 ^ 63 - 1 else c.bound.toInt := by
    by_cases h : c.bound = 0
    · simp [stop, h, hmax]
    · rw [stop, if_neg h, if_neg fun h' : c.bound.toInt = 0 => h ((hext _ _).mpr h')]
  simp only [Int64.le_iff_toInt_le, hzero] at hstart hbound
  constructor
  · intro hdiff
    by_contra hnot
    have h1 := fun hf h0 hb => hnot (.early hf h0 hb)
    have h2 := fun z hf hz ha hs hb => hnot (@Misjudged.fromPast c t z hf hz ha hs hb)
    have h3 := fun z hf hz hs => hnot (@Misjudged.fromFuture c t z hf hz hs)
    have h4 := fun hb hl hf => hnot (.last hb hl hf)
    have h5 := fun z hb hz hs hf => hnot (@Misjudged.toFuture c t z hb hz hs hf)
    have h6 := fun hb h0 hs => hnot (.epoch hb h0 hs)
    have h7 := fun z hb hz ha hs => hnot (@Misjudged.toPast c t z hb hz ha hs)
    simp only [Admits, Scans, Int64.le_iff_toInt_le, Int64.lt_iff_toInt_lt, hext, hzero, hmax] at *
    cases hf : c.from_ <;> cases hb : c.to_ <;> simp [hf, hb] at * <;> split_ifs at hstop <;> omega
  · intro h
    cases h <;>
      simp only [Admits, Scans, Int64.le_iff_toInt_le, Int64.lt_iff_toInt_lt, hext, hzero,
        hmax] at * <;>
      cases hf : c.from_ <;> cases hb : c.to_ <;> simp [hf,
        hb] at * <;> split_ifs at hstop <;> omega

end FlameDB
