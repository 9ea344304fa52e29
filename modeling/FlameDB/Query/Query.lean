import FlameDB.Storage.Event

/-!
# Queries

The parsed form of one command line, and `validateQuery`, the checks `Parse` runs on its result.
`Admitted` collects what the rest of the development may assume about an accepted query.
-/

namespace FlameDB

open Go KV

/-- The commands. -/
inductive QueryType where
  | metrics | get | leaderboard | write | set | delete | stats | groupLeaderboard
  | rank | score | around | leaderboardCount
  deriving DecidableEq

/-- The aggregates of GET. -/
inductive AggType where
  | count | sum | avg
  deriving DecidableEq

/-- A named group of entities. -/
structure GroupDef where
  name : Bytes
  members : List Bytes
  deriving DecidableEq

/-- A query.  Missing maps and empty maps are not distinguished; `aggregate` is `none` where the
source has the empty string. -/
structure Query where
  entityID : Bytes := []
  radius : ℤ := 0
  dryRun : Bool := false
  operationID : Bytes := []
  type : QueryType
  metric : Bytes := []
  metrics : List Bytes := []
  where_ : Tags := ∅
  timestamp : Int64 := 0
  from_ : Int64 := 0
  to_ : Int64 := 0
  limit : ℤ := 10
  offset : ℤ := 0
  order : Bytes := bs "DESC"
  value : Float64 := Float64.zero
  tags : Tags := ∅
  updateLB : Bool := false
  lbEntityID : Bytes := []
  lbEntities : OrdMap Bytes Bytes := ∅
  board : Bytes := []
  tagKeys : List Bytes := []
  quorum : Bool := false
  isReplica : Bool := false
  forceLocal : Bool := false
  groups : List GroupDef := []
  aggregate : Option AggType := none
  groupBy : Int64 := 0
  groupBySpec : Bytes := []
  entityTag : Bytes := []
  deriving DecidableEq

/-- The queries `executeMutation` is called with. -/
def Query.IsMutation (q : Query) : Prop := q.type = .write ∨ q.type = .set ∨ q.type = .delete

instance (q : Query) : Decidable q.IsMutation := inferInstanceAs (Decidable (_ ∨ _ ∨ _))

lemma Query.IsMutation.ne_metrics {q : Query} (h : q.IsMutation) : q.type ≠ .metrics := by
  rcases h with h | h | h <;> simp [h]

/-- `strings.ContainsAny` with an ASCII character set. -/
def containsAny (s chars : Bytes) : Bool := s.any fun c => c ∈ chars

/-- The metric names `validateQuery` rejects. -/
def invalidMetric (m : Bytes) : Bool :=
  m = [] || containsAny m (bs ",=\" \t\r\n") || m ∈ Key.reserved

def invalidTagKey (k : Bytes) : Bool := k = [] || containsAny k (bs "=\" \t")

/-- The characters a board name must not contain. -/
def boardChars : Bytes := bs ":=\" \t" ++ [unitSep]

/-- `if p { return fmt.Errorf(msg) }`. -/
def failIf (p : Prop) [Decidable p] (msg : Bytes) : Except Bytes Unit :=
  if p then .error msg else .ok ()

@[simp] lemma failIf_eq_ok_iff (p : Prop) [Decidable p] (msg : Bytes) (u : Unit) :
    failIf p msg = .ok u ↔ ¬ p := by
  unfold failIf
  split_ifs with h <;> simp [h]

@[simp] lemma failIf_bind_eq_ok_iff {α : Type} (p : Prop) [Decidable p] (msg : Bytes)
    (f : Unit → Except Bytes α) (a : α) : (failIf p msg >>= f) = .ok a ↔ ¬ p ∧ f () = .ok a := by
  unfold failIf
  split_ifs with h <;> simp [h, bind, Except.bind]

lemma bind_eq_ok_iff {ε α β : Type} {x : Except ε α} {f : α → Except ε β} {b : β} :
    (x >>= f) = .ok b ↔ ∃ a, x = .ok a ∧ f a = .ok b := by
  cases x <;> simp [bind, Except.bind]

lemma map_eq_ok_iff {α β : Type} {x : Except Bytes α} {f : α → β} {b : β} :
    x.map f = .ok b ↔ ∃ a, x = .ok a ∧ f a = b := by
  cases x <;> simp [Except.map]

/-- The first metric of the query that is not allowed; METRICS names none. -/
def badMetric (q : Query) : Option Bytes :=
  if q.type = .metrics then none else (q.metric :: q.metrics).find? fun m => invalidMetric m

/-- The checks every query passes, in the order of the source. -/
def validateQuery (q : Query) : Except Bytes Unit := do
  failIf (q.dryRun ∧ (q.isReplica ∨ q.quorum))
    (bs "DRY_RUN cannot be combined with replication flags or QUORUM")
  failIf (q.limit < 0 ∨ q.offset < 0 ∨ 1000000 < q.limit)
    (bs "invalid pagination (LIMIT must be between 0 and 1000000)")
  failIf (q.order ≠ bs "ASC" ∧ q.order ≠ bs "DESC") (bs "invalid ORDER")
  failIf (¬ q.value.isFinite) (bs "value must be finite")
  failIf (q.timestamp < 0 ∨ q.from_ < 0 ∨ q.to_ < 0 ∨ (q.to_ ≠ 0 ∧ q.to_ < q.from_))
    (bs "invalid time range")
  failIf ((badMetric q).isSome) (bs "invalid or reserved metric: " ++ (badMetric q).getD [])
  failIf (∃ kv ∈ q.tags.entries ++ q.where_.entries, invalidTagKey kv.1) (bs "invalid tag key")
  failIf (q.entityTag ≠ [] ∧ containsAny q.entityTag (bs "=\" \t")) (bs "invalid entity tag")
  failIf (q.type = .delete ∧ q.tags.entries ≠ [])
    (bs "DELETE supports WHERE, lb and time ranges only")
  failIf (∃ kv ∈ q.lbEntities.entries, kv.1 = [] ∨ containsAny kv.1 boardChars ∨ kv.2 = [])
    (bs "invalid leaderboard board or entity")
  failIf (q.board ≠ [] ∧ containsAny q.board boardChars) (bs "invalid leaderboard board")
  failIf (q.board ≠ [] ∧ (q.from_ ≠ 0 ∨ q.to_ ≠ 0))
    (bs "BOARD cannot be combined with FROM or TO")
  failIf (q.updateLB ∧ q.lbEntityID = []) (bs "lb requires an entity")
  failIf (q.type = .set ∧ ¬ q.updateLB ∧ q.lbEntities.entries = []) (bs "SET requires lb")

/-! ## What an accepted query guarantees -/

/-- A query as the parser returns it: it passed `validateQuery`, and its metric was read from a line
without separators. -/
structure Admitted (q : Query) : Prop where
  valid : validateQuery q = .ok ()
  metric_noSep : unitSep ∉ q.metric

/-- The part of an accepted mutation that staging relies on; it does not mention the timestamp. -/
structure Query.Stageable (q : Query) : Prop where
  metric_wf : q.metric ≠ [] ∧ q.metric ∉ Key.reserved
  metric_noSep : unitSep ∉ q.metric
  value_isFinite : q.value.isFinite = true

namespace Admitted

variable {q : Query} (h : Admitted q)

include h

lemma value_isFinite : q.value.isFinite = true := by
  have := h.valid
  simp only [validateQuery, failIf_bind_eq_ok_iff, not_not] at this
  exact this.2.2.2.1

lemma timestamp_nonneg : ¬ q.timestamp < 0 := by
  have := h.valid
  simp only [validateQuery, failIf_bind_eq_ok_iff, not_or] at this
  exact this.2.2.2.2.1.1

lemma metric_wf (hty : q.type ≠ .metrics) : q.metric ≠ [] ∧ q.metric ∉ Key.reserved := by
  have := h.valid
  simp only [validateQuery, failIf_bind_eq_ok_iff, Option.not_isSome_iff_eq_none] at this
  have hbad := this.2.2.2.2.2.1
  rw [badMetric, if_neg hty, List.find?_eq_none] at hbad
  have hm := hbad q.metric List.mem_cons_self
  simp only [invalidMetric, Bool.or_eq_true, decide_eq_true_eq, not_or] at hm
  exact ⟨hm.1.1, hm.2⟩

lemma stageable (hty : q.type ≠ .metrics) : q.Stageable :=
  ⟨h.metric_wf hty, h.metric_noSep, h.value_isFinite⟩

end Admitted

end FlameDB
