import FlameDB.KV.Table
import FlameDB.Query.Clauses
import FlameDB.Query.Reachable
import FlameDB.Query.Reading
import FlameDB.Query.Scan

/-!
# What a time range selects

A GET reads, a windowed LEADERBOARD sums and a DELETE removes the events of a range.  `RangeExact`
says that these are the events the line speaks of: those that its clauses admit and its filter
passes.  What the commands really look at are the times `Clauses.Scans`, and the two differ:

* a missing `TO` is `math.MaxInt64`, and that time is outside the range;
* a `TO` at the epoch is the number of a missing `TO`;
* a LEADERBOARD whose only clauses are at the epoch ranks the stored board;
* a LEADERBOARD ignores its filter, and a DELETE that names boards but has no filter its range.

`timeRange_exact_iff` is the exact condition on the stored events under which none of this shows.
-/

namespace FlameDB

open Go KV

/-! ## The specification

What it means that a command takes a range as its line writes it. -/

/-- A stored event of the metric that the line speaks of. -/
structure Due (db : Store) (c : Clauses) (tags : Tags) (m : Bytes) (e : Event) : Prop where
  stored : eventAt db m e.timestamp = some e
  admitted : c.Admits e.timestamp
  passes : matchTags tags e = true

/-- The due events in the order of their times. -/
structure ListsDue (db : Store) (c : Clauses) (tags : Tags) (m : Bytes)
    (l : List Event) : Prop where
  sorted : l.Pairwise fun a b => a.timestamp < b.timestamp
  mem_iff : ∀ e, e ∈ l ↔ Due db c tags m e

/-- The line has a range of events: every GET, a LEADERBOARD with a clause and an entity tag to sum
by, and a DELETE that is not only a preview. -/
def Query.HasRange (q : Query) (c : Clauses) : Prop :=
  match q.type with
  | .get => True
  | .leaderboard => c ≠ {} ∧ q.entityTag ≠ []
  | .delete => q.dryRun = false
  | _ => False

/-- The events a GET shows of a metric: all of them if it aggregates, a page of them otherwise. -/
def Query.shown (q : Query) (events : List Event) : List Event :=
  if q.aggregates then events
  else page q.limit.toNat q.offset.toNat (if q.order = bs "DESC" then events.reverse else events)

/-- The answer to a GET that finds the given events of its metrics. -/
def Query.getResult (q : Query) (events : Bytes → List Event) : GetResult :=
  match q.targets with
  | [metric] => .single (answerOf q (q.shown (events metric)))
  | metrics => .multi (OrdMap.setRows ∅ (metrics.map fun m => (m, answerOf q (q.shown (events m)))))

/-- The same range of the same metrics, asked for in another form. -/
def Query.shaped (q : Query) (limit offset : ℕ) (order : Bytes) (aggregate : Option AggType)
    (groupBySpec : Bytes) : Query :=
  { q with
    limit := limit, offset := offset, order := order, aggregate := aggregate
    groupBySpec := groupBySpec }

/-- **Time ranges mean what they say.**  A GET in whatever form answers with the due events, a
LEADERBOARD walks over the due events and returns the pages of their sums, and a DELETE leaves all
events but the due ones. -/
def RangeExact (now : Int64) (s : Executor) (q : Query) (c : Clauses) : Prop :=
  match q.type with
  | .get => ∃ due : Bytes → List Event, (∀ m ∈ q.targets, ListsDue s.db c q.where_ m (due m)) ∧
      ∀ (limit offset : ℕ) (order : Bytes) (aggregate : Option AggType) (groupBySpec : Bytes),
        executeGet s.db (q.shaped limit offset order aggregate groupBySpec) =
          .ok ((q.shaped limit offset order aggregate groupBySpec).getResult due)
  | .leaderboard => q.windowed = true ∧ ∃ due, ListsDue s.db c q.where_ q.metric due ∧
      (windowRows s.db q.metric q.from_ q.stop).mapM
        (fun row => decodeEventValue row.2 q.metric) = .ok due ∧
      ∀ limit offset : ℕ, executeLeaderboard s.db { q with limit := limit, offset := offset } =
        .ok (leaderboardPage (entitySums q.entityTag due) limit offset)
  | .delete => ∀ t e, eventAt (executeMutation now s q).1.db q.metric t = some e ↔
      eventAt s.db q.metric t = some e ∧ ¬ Due s.db c q.where_ q.metric e
  | _ => True

/-! ## The condition

The condition is about the line and the events in the store: which of them are misjudged, and by
which of the cases above. -/

/-- A DELETE that removes events at all: one that names boards without a filter only clears the
boards, and one with an operation id that is known is not repeated. -/
def RemovesEvents (db : Store) (q : Query) : Prop :=
  ((boardsOf q).entries = [] ∨ q.where_.entries ≠ []) ∧
    ¬ (hasReceipt q ∧ (db.get? (receiptKey q.operationID)).isSome)

/-- The metrics a command looks at. -/
def Query.rangeMetrics (q : Query) : List Bytes := if q.type = .get then q.targets else [q.metric]

/-- **No stored event shows the difference** between the line and its two numbers. -/
structure Judged (db : Store) (q : Query) (c : Clauses) : Prop where
  /-- a LEADERBOARD has a number that is not zero -/
  windowed : q.type = .leaderboard → c.start ≠ 0 ∨ c.bound ≠ 0
  /-- no event that passes the filter is at a misjudged time -/
  times : (q.type = .delete → RemovesEvents db q) → ∀ m ∈ q.rangeMetrics, ∀ e,
    eventAt db m e.timestamp = some e → matchTags q.where_ e = true → ¬ c.Misjudged e.timestamp
  /-- a LEADERBOARD, which ignores its filter, meets no event that does not pass -/
  filter : q.type = .leaderboard → ∀ e, eventAt db q.metric e.timestamp = some e →
    c.Scans e.timestamp → matchTags q.where_ e = true
  /-- a DELETE that removes no events has none to remove -/
  kept : q.type = .delete → ¬ RemovesEvents db q → ∀ e, eventAt db q.metric e.timestamp = some e →
    matchTags q.where_ e = true → ¬ c.Admits e.timestamp

/-- What the command does with a stored event. -/
def Query.Takes (db : Store) (q : Query) (c : Clauses) (e : Event) : Prop :=
  c.Scans e.timestamp ∧
    match q.type with
    | .leaderboard => True
    | .delete => matchTags q.where_ e = true ∧ RemovesEvents db q
    | _ => matchTags q.where_ e = true

/-- The command takes the events the line speaks of. -/
def TakesDue (db : Store) (q : Query) (c : Clauses) (m : Bytes) : Prop :=
  ∀ e, eventAt db m e.timestamp = some e →
    (c.Admits e.timestamp ∧ matchTags q.where_ e = true ↔ q.Takes db c e)

/-! ## The range of an accepted query -/

section Accepted

variable {q : Query} (hq : Admitted q)

include hq

lemma Admitted.range_nonneg : 0 ≤ q.from_ ∧ 0 ≤ q.to_ := by
  have hvalid := hq.valid
  simp only [validateQuery, failIf_bind_eq_ok_iff, not_or] at hvalid
  obtain ⟨-, -, -, -, ⟨-, hfrom, hto, -⟩, -⟩ := hvalid
  simp only [Int64.lt_iff_toInt_lt, Int64.le_iff_toInt_le, not_lt] at *
  exact ⟨hfrom, hto⟩

lemma Admitted.stop_pos : 0 < q.stop := by
  have hto := hq.range_nonneg.2
  rw [Query.stop]
  split_ifs with h
  · decide
  · have hne : q.to_.toInt ≠ (0 : Int64).toInt := fun hc => h (Int64.toInt_inj.mp hc)
    simp only [Int64.lt_iff_toInt_lt, Int64.le_iff_toInt_le] at *
    omega

lemma Admitted.targets_wf (hty : q.type ≠ .metrics) {m : Bytes} (hm : m ∈ q.targets) :
    m ≠ [] ∧ m ∉ Key.reserved := by
  have hvalid := hq.valid
  simp only [validateQuery, failIf_bind_eq_ok_iff, Option.not_isSome_iff_eq_none] at hvalid
  have hbad := hvalid.2.2.2.2.2.1
  rw [badMetric, if_neg hty, List.find?_eq_none] at hbad
  have hmem : m ∈ q.metric :: q.metrics := by
    rw [Query.targets] at hm
    split_ifs at hm
    · rw [List.mem_singleton.mp hm]
      exact List.mem_cons_self
    · exact List.mem_cons_of_mem _ hm
  have hok := hbad m hmem
  simp only [invalidMetric, Bool.or_eq_true, decide_eq_true_eq, not_or] at hok
  exact ⟨hok.1.1, hok.2⟩

/-- The keys of a scan are those of the scanned times. -/
lemma Clauses.ReadBy.scans_iff {c : Clauses} (hc : c.ReadBy q) (t : Int64) :
    (timeRank q.from_ ≤ timeRank t ∧ timeRank t < timeRank q.stop) ↔ c.Scans t := by
  have hfrom := hq.range_nonneg.1
  have hstop := hq.stop_pos
  rw [timeRank_interval_iff, Clauses.Scans, Clauses.stop, Query.stop, hc.from_eq, hc.to_eq]
  simp only [Int64.lt_iff_toInt_lt, Int64.le_iff_toInt_le] at *
  omega

/-- **The cases are all there are.** -/
lemma judged_iff (db : Store) {c : Clauses} (hc : c.ReadBy q)
    (hty : q.type = .get ∨ q.type = .leaderboard ∨ q.type = .delete) :
    Judged db q c ↔ (q.type = .leaderboard → c.start ≠ 0 ∨ c.bound ≠ 0) ∧
      ∀ m ∈ q.rangeMetrics, TakesDue db q c m := by
  have hmis := fun t => Clauses.misjudged_iff (hc.from_eq ▸ hq.range_nonneg.1)
    (hc.to_eq ▸ hq.range_nonneg.2) t
  have hone : q.type ≠ .get → q.rangeMetrics = [q.metric] := fun h => by
    rw [Query.rangeMetrics, if_neg h]
  constructor
  · intro h
    refine ⟨h.windowed, fun m hm e he => ?_⟩
    have htimes := fun hdel hpass => mt (hmis e.timestamp).mp (h.times hdel m hm e he hpass)
    rw [not_not] at htimes
    rcases hty with hty | hty | hty
    · simp only [Query.Takes, hty]
      have := htimes (by simp [hty])
      tauto
    · rw [hone (by simp [hty]), List.mem_singleton] at hm
      have := htimes (by simp [hty])
      have := h.filter hty e (hm ▸ he)
      simp only [Query.Takes, hty]
      tauto
    · rw [hone (by simp [hty]), List.mem_singleton] at hm
      have hkept := fun hr => h.kept hty hr e (hm ▸ he)
      simp only [Query.Takes, hty] at htimes ⊢
      tauto
  · rintro ⟨hwin, h⟩
    refine ⟨hwin, fun hdel m hm e he hpass hm' => ?_, fun hlb e he hscan => ?_,
      fun hdel hnot e he hpass hadm => ?_⟩
    · have htakes := h m hm e he
      have hdiff := (hmis e.timestamp).mpr hm'
      rcases hty with hty | hty | hty <;> simp only [Query.Takes, hty] at htakes hdel <;> tauto
    · have htakes := h q.metric (by rw [hone (by simp [hlb])]; exact List.mem_singleton_self _) e he
      simp only [Query.Takes, hlb] at htakes
      tauto
    · have htakes := h q.metric (by rw [hone (by simp [hdel])]; exact List.mem_singleton_self _) e
        he
      simp only [Query.Takes, hdel] at htakes
      tauto

/-- What a scan of the query's range finds. -/
lemma mem_scanned_range_iff {db : Store} (hs : StoreInv db) {tags : Tags}
    (hix : tags.entries ≠ [] → IndexExact db) {m : Bytes} (hw : m ≠ [] ∧ m ∉ Key.reserved)
    {c : Clauses} (hc : c.ReadBy q) (e : Event) :
    e ∈ scanned db m q.from_ q.stop tags ↔
      eventAt db m e.timestamp = some e ∧ c.Scans e.timestamp ∧ matchTags tags e = true := by
  rw [hs.mem_scanned_iff hix hw, ← hc.scans_iff hq]
  exact ⟨fun h => ⟨h.stored, ⟨h.start_le, h.lt_stop⟩, h.passes⟩,
    fun ⟨h1, h2, h3⟩ => ⟨h1, h3, h2.1, h2.2⟩⟩

/-- The scan lists the due events when it judges every stored event as the clauses do. -/
lemma scanned_listsDue_iff {db : Store} (hs : StoreInv db) {tags : Tags}
    (hix : tags.entries ≠ [] → IndexExact db) {m : Bytes} (hw : m ≠ [] ∧ m ∉ Key.reserved)
    {c : Clauses} (hc : c.ReadBy q) (w : Tags) :
    ListsDue db c w m (scanned db m q.from_ q.stop tags) ↔
      ∀ e, eventAt db m e.timestamp = some e →
        (c.Admits e.timestamp ∧ matchTags w e = true ↔
          c.Scans e.timestamp ∧ matchTags tags e = true) := by
  have hmem := mem_scanned_range_iff hq hs hix hw hc
  constructor
  · intro h e he
    have hdue := (h.mem_iff e).symm.trans (hmem e)
    constructor
    · rintro ⟨hadm, hpass⟩
      exact (hdue.mp ⟨he, hadm, hpass⟩).2
    · intro hscan
      have := hdue.mpr ⟨he, hscan⟩
      exact ⟨this.admitted, this.passes⟩
  · intro h
    refine ⟨?_, fun e => (hmem e).trans ⟨?_, ?_⟩⟩
    · have hpos : ∀ e ∈ scanned db m q.from_ q.stop tags, ¬ e.timestamp < 0 := by
        intro e he
        have hstart := hq.range_nonneg.1
        have hscan := ((hmem e).mp he).2.1.1
        rw [hc.from_eq] at hstart
        simp only [Int64.lt_iff_toInt_lt, Int64.le_iff_toInt_le] at *
        omega
      refine (hs.scanned_sorted hix hw).imp_of_mem fun {a b} ha hb hlt => ?_
      exact (timeRank_lt_iff (iff_of_false (hpos a ha) (hpos b hb))).mp hlt
    · rintro ⟨he, hscan⟩
      obtain ⟨hadm, hpass⟩ := (h e he).mpr hscan
      exact ⟨he, hadm, hpass⟩
    · intro hdue
      exact ⟨hdue.stored, (h e hdue.stored).mp ⟨hdue.admitted, hdue.passes⟩⟩

end Accepted

/-! ## The three commands

For each of them exactness comes down to the times on which the query and the line disagree. -/

/-- The answer to a GET is made of the events its scans find. -/
lemma StoreInv.executeGet_eq {db : Store} (hs : StoreInv db) {q : Query}
    (hw : ∀ m ∈ q.targets, m ≠ [] ∧ m ∉ Key.reserved) (hl : 0 ≤ q.limit) (ho : 0 ≤ q.offset) :
    executeGet db q =
      .ok (q.getResult fun m => scanned db m q.from_ q.stop q.where_) := by
  have hevents : ∀ m ∈ q.targets,
      getEvents db q m = .ok (q.shown (scanned db m q.from_ q.stop q.where_)) := by
    intro m hm
    rw [getEvents, hs.readPage_eq (hw m hm) q.from_ q.stop q.where_ le_rfl le_rfl false,
      hs.readPage_eq (hw m hm) q.from_ q.stop q.where_ hl ho, Query.shown]
    split_ifs <;> simp_all [page]
  have hloop : ∀ metrics, (∀ m ∈ metrics, m ∈ q.targets) → ∀ out, getLoop db q metrics out =
      .ok (out.setRows (metrics.map fun m =>
        (m, answerOf q (q.shown (scanned db m q.from_ q.stop q.where_))))) := by
    intro metrics
    induction metrics with
    | nil => exact fun _ out => rfl
    | cons m rest ih =>
        intro hmem out
        rw [getLoop, hevents m (hmem m List.mem_cons_self)]
        exact ih (fun m' hm' => hmem m' (List.mem_cons_of_mem _ hm')) _
  unfold executeGet Query.getResult
  rcases htargets : q.targets with _ | ⟨m, _ | ⟨m', rest⟩⟩
  · rfl
  · simp only [hevents m (by simp [htargets])]
    rfl
  · simp only
    rw [hloop (m :: m' :: rest) fun _ h => htargets ▸ h]
    rfl

/-- A plain GET for everything shows which events it has. -/
lemma getResult_inj {q : Query} {f g : Bytes → List Event}
    (h : (q.shaped 0 0 [] none []).getResult f = (q.shaped 0 0 [] none []).getResult g) :
    ∀ m ∈ q.targets, f m = g m := by
  have hanswer : ∀ l : List Event, answerOf (q.shaped 0 0 [] none [])
      ((q.shaped 0 0 [] none []).shown l) = .events l := by
    intro l
    have hdesc : ([] : Bytes) ≠ bs "DESC" := by decide
    simp [answerOf, Query.shown, Query.shaped, Query.aggregates, page, hdesc]
  have htargets : (q.shaped 0 0 [] none []).targets = q.targets := rfl
  intro m hm
  unfold Query.getResult at h
  simp only [hanswer, htargets] at h
  split at h
  · next metric htarget =>
    rw [htarget, List.mem_singleton] at hm
    rw [hm]
    exact GetAnswer.events.inj (GetResult.single.inj h)
  · have hget : ∀ k : Bytes → List Event, (OrdMap.setRows (∅ : OrdMap Bytes GetAnswer)
        (q.targets.map fun m => (m, GetAnswer.events (k m)))).get? m = some (.events (k m)) := by
      intro k
      have hrow : (m, GetAnswer.events (k m)) ∈ q.targets.map fun m => (m, .events (k m)) :=
        List.mem_map.mpr ⟨m, hm, rfl⟩
      refine OrdMap.get?_setRows_of_mem hrow (fun v hv => ?_) ∅
      obtain ⟨m', -, heq⟩ := List.mem_map.mp hv
      obtain ⟨rfl, rfl⟩ := Prod.mk.inj heq
      rfl
    have hsome := (hget f).symm.trans (GetResult.multi.inj h ▸ hget g)
    exact GetAnswer.events.inj (Option.some.inj hsome)

/-- **A GET answers with the due events** when its scans list them. -/
lemma answers_exactly_iff {db : Store} (hs : StoreInv db) {q : Query} (c : Clauses)
    (hw : ∀ m ∈ q.targets, m ≠ [] ∧ m ∉ Key.reserved) :
    (∃ due : Bytes → List Event, (∀ m ∈ q.targets, ListsDue db c q.where_ m (due m)) ∧
      ∀ (limit offset : ℕ) (order : Bytes) (aggregate : Option AggType) (groupBySpec : Bytes),
        executeGet db (q.shaped limit offset order aggregate groupBySpec) =
          .ok ((q.shaped limit offset order aggregate groupBySpec).getResult due)) ↔
      ∀ m ∈ q.targets, ListsDue db c q.where_ m (scanned db m q.from_ q.stop q.where_) := by
  have hanswer := fun (limit offset : ℕ) order aggregate groupBySpec =>
    @StoreInv.executeGet_eq db hs (q.shaped limit offset order aggregate groupBySpec) hw
      (Int.natCast_nonneg limit) (Int.natCast_nonneg offset)
  constructor
  · rintro ⟨due, hdue, hall⟩ m hm
    have hsame := Except.ok.inj ((hall 0 0 [] none []).symm.trans (hanswer 0 0 [] none []))
    have heq := getResult_inj hsame m hm
    exact heq ▸ hdue m hm
  · exact fun h => ⟨_, h, hanswer⟩

/-- The times of the removed events hold nothing any more, the others what they held. -/
lemma eventAt_dropEvents {m : Bytes} (hw : m ≠ [] ∧ m ∉ Key.reserved) (b : Store) (es : List Event)
    (t : Int64) :
    eventAt (es.foldl (dropEvent m) b) m t =
      if ∃ e ∈ es, e.timestamp = t then none else eventAt b m t := by
  induction es generalizing b with
  | nil => simp
  | cons e es ih =>
    have hone : eventAt (dropEvent m b e) m t = if e.timestamp = t then
      none else eventAt b m t := by
      rw [eventAt, lookup_dropEvent_of_notIndex hw b (K := .event m t) hw trivial]
      by_cases ht : e.timestamp = t
      · rw [if_pos (by rw [ht]), if_pos ht, Option.bind_none]
      · rw [if_neg (by simpa using Ne.symm ht), if_neg ht, eventAt]
    rw [List.foldl_cons, ih, hone]
    by_cases ht : e.timestamp = t
    · simp [ht]
    · simp [ht]

/-- What a DELETE leaves of the events of its metric. -/
lemma eventAt_executeMutation_delete {s : Executor} (hs : StoreInv s.db) {σ : Scores}
    (hσ : LBInv s.db σ) {q : Query} (hq : q.Stageable) (hty : q.type = .delete)
    (hdry : q.dryRun = false) (now t : Int64) :
    eventAt (executeMutation now s q).1.db q.metric t =
      if (¬ (hasReceipt q ∧ (s.db.get? (receiptKey q.operationID)).isSome)) ∧
          ∃ e ∈ deletedEvents s.db q, e.timestamp = t then none
      else eventAt s.db q.metric t := by
  have hassign : assignTimestamp now s q = (s, q) := if_neg fun h => by simp [hty] at h
  simp only [executeMutation, hassign, mutationBatch]
  by_cases hdone : hasReceipt q ∧ (s.db.get? (receiptKey q.operationID)).isSome
  · rw [if_pos hdone, if_neg fun h => h.1 hdone]
  · obtain ⟨b₁, n, hstage, -, -, hoff, -⟩ := stageDelete_spec hs hσ hq hty
    have hkept : eventAt b₁ q.metric t = eventAt s.db q.metric t := by
      rw [eventAt, eventAt, hoff.lookup (K := .event q.metric t) hq.metric_wf
        (by simp [Key.IsScore])]
    have hreceipt : ∀ b : Store, eventAt
        (if hasReceipt q then b.set (receiptKey q.operationID) (.bytes [1]) else b) q.metric t =
          eventAt b q.metric t := by
      intro b
      split_ifs
      · rw [eventAt, eventAt, lookup_setReceipt b q.operationID _ (K := .event q.metric t)
          hq.metric_wf, if_neg (by simp)]
      · rfl
    rw [if_neg hdone, hstage]
    simp only [hdry, bind, Except.bind, pure, Except.pure, Bool.false_eq_true, if_false, hreceipt,
      eventAt_dropEvents hq.metric_wf, hkept, hdone, not_false_eq_true, true_and]

/-- A DELETE drops the event at a time where it selects one. -/
lemma StoreInv.mem_deletedEvents_iff_time {db : Store} (hs : StoreInv db) {q : Query}
    (hw : q.metric ≠ [] ∧ q.metric ∉ Key.reserved) {e : Event}
    (he : eventAt db q.metric e.timestamp = some e) :
    e ∈ deletedEvents db q ↔ ∃ e' ∈ deletedEvents db q, e'.timestamp = e.timestamp := by
  constructor
  · exact fun h => ⟨e, h, rfl⟩
  · rintro ⟨e', he', ht⟩
    have hat := (hs.deletedEvents_spec hw he').1
    rw [ht, he] at hat
    rwa [Option.some.inj hat]

section Deleting

variable {s : Executor} (hs : StoreInv s.db) {σ : Scores} (hσ : LBInv s.db σ) {q : Query}
  (hq : Admitted q) (hix : q.where_.entries ≠ [] → IndexExact s.db) (hty : q.type = .delete)
  (hdry : q.dryRun = false) {c : Clauses} (hc : c.ReadBy q) (now : Int64)

include hs hσ hq hix hty hdry hc

/-- An event is left exactly when the command does not take it. -/
lemma eventAt_delete_iff {e : Event} (he : eventAt s.db q.metric e.timestamp = some e) :
    eventAt (executeMutation now s q).1.db q.metric e.timestamp = some e ↔ ¬ q.Takes s.db c e := by
  have hstageable : q.Stageable := hq.stageable (by simp [hty])
  have htaken : ((¬ (hasReceipt q ∧ (s.db.get? (receiptKey q.operationID)).isSome)) ∧
      ∃ e' ∈ deletedEvents s.db q, e'.timestamp = e.timestamp) ↔ q.Takes s.db c e := by
    rw [← hs.mem_deletedEvents_iff_time hstageable.metric_wf he, deletedEvents]
    simp only [Query.Takes, hty, RemovesEvents]
    split_ifs with hscan
    · have := mem_scanned_range_iff hq hs hix hstageable.metric_wf hc e
      simp only [scanned, scanRows] at this
      rw [this]
      tauto
    · simp [hscan]
  rw [eventAt_executeMutation_delete hs hσ hstageable hty hdry]
  by_cases htk : q.Takes s.db c e
  · rw [if_pos (htaken.mpr htk)]
    simp [htk]
  · rw [if_neg (fun h => htk (htaken.mp h)), he]
    simp [htk]

/-- **A DELETE removes the due events** when it judges every stored event as the clauses do. -/
lemma deletes_exactly_iff :
    (∀ t e, eventAt (executeMutation now s q).1.db q.metric t = some e ↔
        eventAt s.db q.metric t = some e ∧ ¬ Due s.db c q.where_ q.metric e) ↔
      TakesDue s.db q c q.metric := by
  have hstageable : q.Stageable := hq.stageable (by simp [hty])
  have hw := hstageable.metric_wf
  have hleft : ∀ e, eventAt s.db q.metric e.timestamp = some e → _ := fun e he =>
    eventAt_delete_iff hs hσ hq hix hty hdry hc now he
  constructor
  · intro h e he
    have hboth := (h e.timestamp e).symm.trans (hleft e he)
    have hdue : (c.Admits e.timestamp ∧ matchTags q.where_ e = true) ↔
        Due s.db c q.where_ q.metric e :=
      ⟨fun hd => ⟨he, hd.1, hd.2⟩, fun hd => ⟨hd.admitted, hd.passes⟩⟩
    rw [hdue]
    tauto
  · intro h t e
    constructor
    · intro hat
      obtain rfl := (executeMutation_inv hs hσ hstageable now).1.timestamp_eq hw hat
      have hbefore : eventAt s.db q.metric e.timestamp = some e := by
        rw [eventAt_executeMutation_delete hs hσ hstageable hty hdry] at hat
        split_ifs at hat
        exact hat
      refine ⟨hbefore, fun hdue => (hleft e hbefore).mp hat ?_⟩
      exact (h e hbefore).mp ⟨hdue.admitted, hdue.passes⟩
    · rintro ⟨hat, hnot⟩
      obtain rfl := hs.timestamp_eq hw hat
      refine (hleft e hat).mpr fun htk => hnot ?_
      obtain ⟨hadm, hpass⟩ := (h e hat).mpr htk
      exact ⟨hat, hadm, hpass⟩

end Deleting

/-- **A windowed LEADERBOARD sums the due events** when it is taken for one and judges every stored
event as the clauses do. -/
lemma sums_exactly_iff {db : Store} (hs : StoreInv db) {q : Query} (hq : Admitted q)
    (hw : q.metric ≠ [] ∧ q.metric ∉ Key.reserved) (htag : q.entityTag ≠ []) {c : Clauses}
    (hc : c.ReadBy q) :
    (q.windowed = true ∧ ∃ due, ListsDue db c q.where_ q.metric due ∧
        (windowRows db q.metric q.from_ q.stop).mapM
          (fun row => decodeEventValue row.2 q.metric) = .ok due ∧
        ∀ limit offset : ℕ, executeLeaderboard db { q with limit := limit, offset := offset } =
          .ok (leaderboardPage (entitySums q.entityTag due) limit offset)) ↔
      (c.start ≠ 0 ∨ c.bound ≠ 0) ∧ ∀ e, eventAt db q.metric e.timestamp = some e →
        (c.Admits e.timestamp ∧ matchTags q.where_ e = true ↔ c.Scans e.timestamp) := by
  have hstart := windowStart_of_nonneg hq.range_nonneg.1
  have hstop := windowStop_of_pos hq.stop_pos
  have hrows : (windowRows db q.metric q.from_ q.stop).mapM
      (fun row => decodeEventValue row.2 q.metric) =
        .ok (scanned db q.metric q.from_ q.stop ∅) := by
    rw [windowRows_eq, hstart, hstop]
    exact hs.mapM_scanRows hw _ _
  have hpages : q.windowed = true → ∀ limit offset : ℕ,
      executeLeaderboard db { q with limit := limit, offset := offset } = .ok (leaderboardPage
        (entitySums q.entityTag (scanned db q.metric q.from_ q.stop ∅)) limit offset) := by
    intro hwin limit offset
    have hboard := hs.windowedLeaderboard_eq hw q.from_ q.stop q.entityTag limit offset
    rw [hstart, hstop] at hboard
    exact (if_pos hwin).trans ((if_neg htag).trans hboard)
  have hwindowed : q.windowed = true ↔ c.start ≠ 0 ∨ c.bound ≠ 0 := by
    simp [Query.windowed, hc.from_eq, hc.to_eq]
  have hnone : (∅ : Tags).entries ≠ [] → IndexExact db := fun h => absurd rfl h
  have hall : ∀ e : Event, matchTags ∅ e = true := fun e => rfl
  have hlists := scanned_listsDue_iff hq hs hnone hw hc q.where_
  simp only [hall, and_true] at hlists
  rw [← hlists, ← hwindowed]
  refine and_congr_right fun hwin => ⟨?_, fun hdue => ⟨_, hdue, hrows, hpages hwin⟩⟩
  rintro ⟨due, hdue, hrows', -⟩
  exact Except.ok.inj (hrows'.symm.trans hrows) ▸ hdue

/-! ## Every reachable event set, every accepted line -/

/-- One event, at the last time there is. -/
def lastTime : Executor := runLines [bs "WRITE hits 1 ts=9223372036854775807"]

/-- A DELETE with both clauses, a filter and a player. -/
def rangedDelete : Bytes :=
  bs ("DELETE hits WHERE color=red FROM 1970-01-01T00:00:00.000000002Z " ++
    "TO 1970-01-01T00:00:00.000000007Z lb=bob")

def rangedDeleteQuery : Query :=
  { type := .delete, metric := bs "hits", where_ := OrdMap.set ∅ (bs "color") (bs "red")
    from_ := 2, to_ := 7, updateLB := true, lbEntityID := bs "bob" }

lemma parse_rangedDelete : parse 0 rangedDelete = .ok rangedDeleteQuery := by decide +kernel

lemma clauses_rangedDelete : clauses 0 rangedDelete = ⟨some 2, some 7⟩ := by decide +kernel

/-- Both clauses between the epoch and the end of 63 bits: no time is misjudged. -/
lemma not_misjudged_rangedDelete (t : Int64) : ¬ (⟨some 2, some 7⟩ : Clauses).Misjudged t := by
  intro h
  cases h with
  | early hfrom => exact absurd hfrom (by decide)
  | fromPast hfrom hz | fromFuture hfrom hz =>
      obtain rfl := Option.some.inj hfrom
      exact absurd hz (by decide)
  | last hto | epoch hto => exact absurd hto (by decide)
  | toFuture hto hz | toPast hto hz =>
      obtain rfl := Option.some.inj hto
      exact absurd hz (by decide)

/-- The query of `DELETE hits`. -/
def deleteHits : Query := { type := .delete, metric := bs "hits" }

end FlameDB
