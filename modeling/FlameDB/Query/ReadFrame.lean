import FlameDB.KV.Table
import FlameDB.Query.Isolation
import FlameDB.Query.Reading
import FlameDB.Storage.Cardinality

/-!
# What a read depends on

All metrics share one ordered key space, and reads walk over ranges of it.  Every range a read of a
metric walks over lies inside the keys of that metric, so two stores that agree on these keys give
every read the same answer.

* `Owned` — the keys of a metric: its events, their references, and both rows of its scores.
* `SameFor` — two stores agree on the keys of a metric and on the counts of its tags.
* `SameFor.readPage`, `SameFor.topN`, `SameFor.windowedEntitySums` — the walks.
* `Untouched.sameFor` — stores that hold the same items of a metric agree on its keys.
* **`metric_isolation`** — commands on one metric leave the reads of all others alone.
-/

namespace FlameDB

open Go KV

/-- The keys of a metric, as the bounds of its scans see them. -/
inductive Owned (m : Bytes) : Bytes → Prop where
  | event (rest : Bytes) : Owned m (component m ++ colon :: rest)
  | index (rest : Bytes) : Owned m (bs "idx" ++ colon :: (component m ++ colon :: rest))
  | rank (board rest : Bytes) :
      Owned m (bs "lb" ++ colon :: (component (boardMetric m board) ++ colon :: rest))
  | entity (board rest : Bytes) :
      Owned m (bs "lb-entity" ++ colon :: (component (boardMetric m board) ++ colon :: rest))

/-- The two stores have the same items of a metric. -/
structure SameFor (m : Bytes) (db db' : Store) : Prop where
  items : ∀ k, Owned m k → db'.get? k = db.get? k
  counts : ∀ tag, db'.get? (cardCountKey m tag) = db.get? (cardCountKey m tag)

lemma owned_of_between_eventKey {m k : Bytes} {t t' : Int64} (hlo : eventKey m t ≤ k)
    (hhi : k < eventKey m t') : Owned m k := by
  have hsplit : ∀ t, eventKey m t = (component m ++ [colon]) ++ timestampBytes t := by
    intro t
    simp [eventKey]
  rw [hsplit] at hlo hhi
  obtain ⟨rest, rfl, -, -⟩ := (between_iff _ _ _ _).mp ⟨hlo, hhi⟩
  rw [List.append_assoc]
  exact .event rest

lemma owned_of_between_indexKey {m tag v k : Bytes} {t t' : Int64} (hlo : indexKey m tag v t ≤ k)
    (hhi : k < indexKey m tag v t') : Owned m k := by
  have hsplit : ∀ t, indexKey m tag v t = (bs "idx" ++ colon :: (component m ++ [colon])) ++
      (component tag ++ colon :: (v ++ colon :: timestampBytes t)) := by
    intro t
    simp [indexKey]
  rw [hsplit] at hlo hhi
  obtain ⟨rest, rfl, -, -⟩ := (between_iff _ _ _ _).mp ⟨hlo, hhi⟩
  simp only [List.append_assoc, List.cons_append, List.nil_append]
  exact .index rest

/-- The front of the ranking keys of a board. -/
def rankFront (metric : Bytes) : Bytes := bs "lb" ++ colon :: (component metric ++ [colon])

lemma owned_rankFront (m board rest : Bytes) :
    Owned m (rankFront (boardMetric m board) ++ rest) := by
  simp only [rankFront, List.append_assoc, List.cons_append, List.nil_append]
  exact .rank board rest

lemma owned_of_between_rank {m board k : Bytes} (hlo : rankFront (boardMetric m board) ≤ k)
    (hhi : k < bs "lb" ++ colon :: (component (boardMetric m board) ++ [0x3b])) : Owned m k := by
  have hfront : rankFront (boardMetric m board) =
      (bs "lb" ++ colon :: component (boardMetric m board)) ++ [colon] := by simp [rankFront]
  have hupper : bs "lb" ++ colon :: (component (boardMetric m board) ++ [0x3b]) =
      (bs "lb" ++ colon :: component (boardMetric m board)) ++ [0x3b] := by simp
  rw [hfront] at hlo
  rw [hupper] at hhi
  obtain ⟨rest, rfl⟩ := (between_succ_iff _ colon 0x3b (by decide) k).mp ⟨hlo, hhi⟩
  rw [← hfront]
  exact owned_rankFront m board rest

/-! ## Walks

A read walks over ranges, and every key in these ranges belongs to the metric it asks for. -/

/-- A page only depends on where its rows lead. -/
lemma readLoop_congr {db db' : Store} {m : Bytes} {tags : Tags} {limit : ℕ}
    {rows : List (Bytes × Value)}
    (h : ∀ row ∈ rows, fetchRow db' m (tags.entries ≠ []) row = fetchRow db m
      (tags.entries ≠ []) row)
    (offset : ℕ) (events : List Event) :
    readLoop db' m tags limit rows offset events = readLoop db m tags limit rows offset events := by
  induction rows generalizing offset events with
  | nil => rfl
  | cons row rows ih =>
      have hrest := ih fun row hrow => h row (List.mem_cons_of_mem _ hrow)
      simp only [readLoop, h row List.mem_cons_self, hrest]

lemma sumReferences_congr {db db' : Store} {tag entity : Bytes} {length : ℕ}
    {rows : List (Bytes × Value)}
    (h : ∀ row ∈ rows, ∀ pk, row.2 = .bytes pk → db'.get? pk = db.get? pk) (sum : Float64) :
    sumReferences db' tag entity length rows sum = sumReferences db tag entity length rows sum := by
  induction rows generalizing sum with
  | nil => rfl
  | cons row rows ih =>
      have hrest := ih fun row hrow => h row (List.mem_cons_of_mem _ hrow)
      have hrow := h row List.mem_cons_self
      obtain ⟨key, value⟩ := row
      cases value with
      | bytes pk => simp only [sumReferences, hrow pk rfl, hrest]
      | eventDoc e => simp only [sumReferences, hrest]
      | entryDoc e => simp only [sumReferences, hrest]

/-- A reference holds the key of an event of its metric. -/
lemma StoreInv.reference {db : Store} (hs : StoreInv db) {m tag v : Bytes} {t t' : Int64}
    {row : Bytes × Value} (hrow : row ∈ db.range (indexKey m tag v t) (indexKey m tag v t')) :
    ∃ t, row.2 = .bytes (eventKey m t) := by
  obtain ⟨v', t, hkey⟩ := hs.keyed.index_of_mem_range hrow
  obtain ⟨key, value⟩ := row
  subst hkey
  exact ⟨t, hs.refs m tag v' t value ((OrdMap.mem_range_iff db _ _ _ value).mp hrow).1⟩

namespace SameFor

variable {m : Bytes} {db db' : Store} (h : SameFor m db db')

include h

lemma range {lo hi : Bytes} (hown : ∀ k, lo ≤ k → k < hi → Owned m k) :
    db'.range lo hi = db.range lo hi :=
  OrdMap.range_congr fun k hlo hhi => h.items k (hown k hlo hhi)

lemma eventRange (t t' : Int64) :
    db'.range (eventKey m t) (eventKey m t') = db.range (eventKey m t) (eventKey m t') :=
  h.range fun _ => owned_of_between_eventKey

lemma indexRange (tag v : Bytes) (t t' : Int64) :
    db'.range (indexKey m tag v t) (indexKey m tag v t') =
      db.range (indexKey m tag v t) (indexKey m tag v t') :=
  h.range fun _ => owned_of_between_indexKey

lemma getCardinality (tag : Bytes) : getCardinality db' m tag = getCardinality db m tag := by
  simp only [FlameDB.getCardinality, getCardCount, h.counts tag]

lemma scanBounds (start stop : Int64) (tags : Tags) :
    scanBounds db' m start stop tags = scanBounds db m start stop tags := by
  simp only [FlameDB.scanBounds, bestIndexTag, h.getCardinality]

lemma fetchRow (hs : StoreInv db) {start stop : Int64} {tags : Tags} {row : Bytes × Value}
    (hrow : row ∈ db.range (FlameDB.scanBounds db m start stop tags).1
      (FlameDB.scanBounds db m start stop tags).2) :
    fetchRow db' m (tags.entries ≠ []) row = fetchRow db m (tags.entries ≠ []) row := by
  by_cases hnil : tags.entries = []
  · simp [FlameDB.fetchRow, hnil]
  · rw [FlameDB.scanBounds, if_neg hnil] at hrow
    obtain ⟨t, ht⟩ := hs.reference hrow
    have hevent : db'.get? (eventKey m t) = db.get? (eventKey m t) := h.items _ (.event _)
    simp only [FlameDB.fetchRow, ht, hevent]

/-- **GET.** -/
theorem readPage (hs : StoreInv db) (start stop : Int64) (tags : Tags) (limit offset : ℤ)
    (desc : Bool) :
    readPage db' m start stop tags limit offset desc =
      readPage db m start stop tags limit offset desc := by
  have hrows : db'.range (FlameDB.scanBounds db m start stop tags).1
      (FlameDB.scanBounds db m start stop tags).2 =
        db.range (FlameDB.scanBounds db m start stop tags).1
          (FlameDB.scanBounds db m start stop tags).2 := by
    unfold FlameDB.scanBounds
    split_ifs
    · exact h.eventRange start stop
    · exact h.indexRange _ _ start stop
  have hloop := fun rows (hsub : ∀ row ∈ rows, row ∈ db.range
    (FlameDB.scanBounds db m start stop tags).1
      (FlameDB.scanBounds db m start stop tags).2) =>
    @readLoop_congr db db' m tags limit.toNat rows fun row hrow => h.fetchRow hs (hsub row hrow)
  unfold FlameDB.readPage
  rw [h.scanBounds]
  simp only [hrows]
  split_ifs
  · rfl
  · exact hloop _ (fun row hrow => List.mem_reverse.mp hrow) _ _
  · exact hloop _ (fun row hrow => hrow) _ _

lemma windowRows (start stop : Int64) :
    windowRows db' m start stop = windowRows db m start stop := by
  simp only [FlameDB.windowRows, h.eventRange]

lemma sumEntity (hs : StoreInv db) (entityTag : Bytes) (start stop : Int64)
    (sums : OrdMap Bytes Float64) (entityID : Bytes) :
    sumEntity db' m entityTag start stop sums entityID =
      sumEntity db m entityTag start stop sums entityID := by
  have hsum := @sumReferences_congr db db' entityTag entityID
    (indexKey m entityTag entityID start).length
    (db.range (indexKey m entityTag entityID start) (indexKey m entityTag entityID stop))
    (fun row hrow pk hpk => by
      obtain ⟨t, ht⟩ := hs.reference hrow
      obtain rfl : eventKey m t = pk := by simpa [ht] using hpk
      exact h.items _ (.event _)) Float64.zero
  simp only [FlameDB.sumEntity, h.indexRange, hsum]

/-- **Windowed sums.** -/
theorem windowedEntitySums (hs : StoreInv db) (entityTag : Bytes) (entityIDs : List Bytes)
    (start stop : Int64) : windowedEntitySums db' m entityTag entityIDs start stop =
      windowedEntitySums db m entityTag entityIDs start stop := by
  have hstep : FlameDB.sumEntity db' m entityTag (windowStart start) (windowStop stop) =
      FlameDB.sumEntity db m entityTag (windowStart start) (windowStop stop) :=
    funext fun sums => funext fun entityID => h.sumEntity hs entityTag _ _ sums entityID
  rw [FlameDB.windowedEntitySums, hstep]
  rfl

/-- **Boards.** -/
theorem topN (board : Bytes) (limit offset : ℤ) :
    Leaderboard.topN db' (boardMetric m board) limit offset =
      Leaderboard.topN db (boardMetric m board) limit offset := by
  have hfront : rankFront (boardMetric m board) ≤ rankFront (boardMetric m board) ++ [0x80] := by
    have hle := (append_le_append_iff (rankFront (boardMetric m board)) [] [0x80]).mpr (by decide)
    rwa [List.append_nil] at hle
  have hforward : db'.range (rankFront (boardMetric m board) ++ [0x80])
      (bs "lb" ++ colon :: (component (boardMetric m board) ++ [0x3b])) =
        db.range (rankFront (boardMetric m board) ++ [0x80])
          (bs "lb" ++ colon :: (component (boardMetric m board) ++ [0x3b])) :=
    h.range fun k hlo hhi => owned_of_between_rank (hfront.trans hlo) hhi
  have hbackward : db'.range (rankFront (boardMetric m board))
      (rankFront (boardMetric m board) ++ [0x80]) =
        db.range (rankFront (boardMetric m board)) (rankFront (boardMetric m board) ++ [0x80]) := by
    refine h.range fun k hlo hhi => ?_
    rw [← List.append_nil (rankFront _)] at hlo
    obtain ⟨rest, rfl, -, -⟩ := (between_iff _ _ _ _).mp ⟨hlo, hhi⟩
    exact owned_rankFront m board rest
  rw [rankFront] at hforward hbackward
  simp only [Leaderboard.topN, hforward, hbackward]

/-- **Scores.** -/
theorem score (board entityID : Bytes) : Leaderboard.get db' (boardMetric m board) entityID =
    Leaderboard.get db (boardMetric m board) entityID := by
  have hentity : db'.get? (lbEntityKey (boardMetric m board) entityID) =
      db.get? (lbEntityKey (boardMetric m board) entityID) := h.items _ (.entity board entityID)
  have hrows : rankRows db' (boardMetric m board) = rankRows db (boardMetric m board) :=
    h.range fun k hlo hhi => owned_of_between_rank hlo hhi
  simp only [Leaderboard.get, hentity, legacyScan, legacyEntries, hrows]

end SameFor

lemma executeGet_congr {db db' : Store} {q : Query}
    (h : ∀ metric ∈ q.targets, getEvents db' q metric = getEvents db q metric) :
    executeGet db' q = executeGet db q := by
  have hloop : ∀ metrics, (∀ metric ∈ metrics, getEvents db' q metric = getEvents db q metric) →
      ∀ out, getLoop db' q metrics out = getLoop db q metrics out := by
    intro metrics hmetrics
    induction metrics with
    | nil => exact fun _ => rfl
    | cons metric rest ih =>
        have hrest := ih fun metric hmetric => hmetrics metric (List.mem_cons_of_mem _ hmetric)
        simp only [getLoop, hmetrics metric List.mem_cons_self, hrest, implies_true]
  unfold executeGet
  split
  · next metric htargets => rw [h metric (by simp [htargets])]
  · rw [hloop _ h]

/-- Every read of a metric has the same answer. -/
structure SameReads (m : Bytes) (db db' : Store) : Prop where
  get : ∀ q : Query, getEvents db' q m = getEvents db q m
  leaderboard : ∀ q : Query, q.metric = m → executeLeaderboard db' q = executeLeaderboard db q
  groupLeaderboard : ∀ q : Query, q.metric = m →
    executeGroupLeaderboard db' q = executeGroupLeaderboard db q
  stats : ∀ q : Query, q.metric = m → executeStats db' q = executeStats db q
  score : ∀ board entityID, Leaderboard.get db' (boardMetric m board) entityID =
    Leaderboard.get db (boardMetric m board) entityID

/-- Reads of a metric depend on nothing but its items. -/
theorem SameFor.sameReads {m : Bytes} {db db' : Store} (h : SameFor m db db') (hs : StoreInv db) :
    SameReads m db db' where
  get q := by simp only [getEvents, h.readPage hs]
  leaderboard := by
    rintro q rfl
    simp only [executeLeaderboard, windowedLeaderboard, h.windowRows, h.topN]
  groupLeaderboard := by
    rintro q rfl
    simp only [executeGroupLeaderboard, h.windowedEntitySums hs, h.score]
  stats := by
    rintro q rfl
    simp only [executeStats, getTagStats, h.getCardinality]
  score := h.score

/-! ## Items and keys -/

/-- A stored key of a metric is the key of one of its items. -/
lemma Owned.exists_item {m k : Bytes} (h : Owned m k) (hm : m ∉ Key.reserved) (hsep : unitSep ∉ m)
    {db : Store} (hkeyed : Keyed db) {v : Value} (hv : db.get? k = some v) :
    ∃ K : Key, K.WF ∧ K.Of m ∧ K.encode = k := by
  have hitem : ∀ {f y : Bytes}, colon ∉ f → f ∉ backgroundFamilies → k = f ++ colon :: y →
      ∃ K : Key, K.WF ∧ K.family = f ∧ K.body = y ∧ K.encode = k := by
    intro f y hf hbg hk
    rw [hk] at hv
    obtain ⟨K, hK, hfam, hbody⟩ := (hkeyed.of_front hf hv).resolve_left hbg
    exact ⟨K, hK, hfam, hbody, by rw [Key.encode_eq, hfam, hbody, hk]⟩
  cases h with
  | event rest =>
      have hbg : component m ∉ backgroundFamilies := fun hmem =>
        Key.component_ne_reserved hm (backgroundFamilies_subset hmem) rfl
      obtain ⟨K, hK, hfam, -, hk⟩ := hitem (colon_notMem_component m) hbg rfl
      refine ⟨K, hK, ?_, hk⟩
      cases K with
      | event m' t => exact component_injective hfam
      | _ => exact absurd hfam.symm (Key.component_ne_reserved hm
          (by simp only [Key.family]; decide))
  | index rest =>
      obtain ⟨K, hK, hfam, hbody, hk⟩ := hitem (by decide) (by decide) rfl
      refine ⟨K, hK, ?_, hk⟩
      cases K with
      | index m' tag v t => exact component_injective (append_cons_inj (by simp) (by simp) hbody).1
      | event m' t => exact absurd hfam (Key.component_ne_reserved hK.2 (by decide))
      | _ => exact absurd hfam (by simp only [Key.family]; decide)
  | rank board rest =>
      obtain ⟨K, hK, hfam, hbody, hk⟩ := hitem (by decide) (by decide) rfl
      refine ⟨K, hK, ?_, hk⟩
      cases K with
      | rank m' b e s =>
          have hboard := component_injective (append_cons_inj (by simp) (by simp) hbody).1
          exact (boardMetric_inj hK hsep hboard).1
      | event m' t => exact absurd hfam (Key.component_ne_reserved hK.2 (by decide))
      | _ => exact absurd hfam (by simp only [Key.family]; decide)
  | entity board rest =>
      obtain ⟨K, hK, hfam, hbody, hk⟩ := hitem (by decide) (by decide) rfl
      refine ⟨K, hK, ?_, hk⟩
      cases K with
      | entity m' b e =>
          have hboard := component_injective (append_cons_inj (by simp) (by simp) hbody).1
          exact (boardMetric_inj hK hsep hboard).1
      | event m' t => exact absurd hfam (Key.component_ne_reserved hK.2 (by decide))
      | _ => exact absurd hfam (by simp only [Key.family]; decide)

/-- **Stores with the same items of a metric agree on its keys.** -/
theorem Untouched.sameFor {m : Bytes} {db db' : Store} (h : Untouched m db db')
    (hm : m ∉ Key.reserved) (hsep : unitSep ∉ m) (hkeyed : Keyed db) (hkeyed' : Keyed db')
    (hcounts : ∀ tag, db'.get? (cardCountKey m tag) = db.get? (cardCountKey m tag)) :
    SameFor m db db' := by
  refine ⟨fun k hk => ?_, hcounts⟩
  have hboth : ∀ {db₁ : Store} {v : Value}, Keyed db₁ → db₁.get? k = some v →
      db'.get? k = db.get? k := by
    intro db₁ v hkeyed₁ hv
    obtain ⟨K, hK, hof, rfl⟩ := hk.exists_item hm hsep hkeyed₁ hv
    exact h K hK hof
  cases hv : db.get? k with
  | some v => rw [← hv, hboth hkeyed hv]
  | none =>
      cases hv' : db'.get? k with
      | none => rfl
      | some v => rw [← hv, ← hv', hboth hkeyed' hv']

/-! ## Commands on one metric -/

/-- The names a metric can have. -/
def MetricName (m : Bytes) : Prop := (m ≠ [] ∧ m ∉ Key.reserved) ∧ unitSep ∉ m

/-- The parser admits no others. -/
lemma Admitted.metricName {q : Query} (hq : Admitted q) (hty : q.type ≠ .metrics) :
    MetricName q.metric :=
  ⟨hq.metric_wf hty, hq.metric_noSep⟩

/-- What the workers beside commands on a metric change: the counts of its tags, and the outbox. -/
def WorkersOn (m : Bytes) (db db' : Store) : Prop :=
  ∀ k, db'.get? k = db.get? k ∨ (∃ tag value, k = cardKey m tag value) ∨
    (∃ tag, k = cardCountKey m tag) ∨ ∃ body, k = outboxKey body

/-- Runs of mutations and batches on one metric. -/
inductive RunsOn (m : Bytes) (s : Executor) : Executor → Prop where
  | start : RunsOn m s s
  | mutate {s' : Executor} {q : Query} (h : RunsOn m s s') (hq : Admitted q) (hmut : q.IsMutation)
      (hm : q.metric = m) (now : Int64) : RunsOn m s (executeMutation now s' q).1
  | batch {s' : Executor} {items : List (Int64 × Option Query)} (h : RunsOn m s s')
      (hitems : ∀ x ∈ items, ∀ q, x.2 = some q → Admitted q ∧ q.metric = m) :
      RunsOn m s (executeWriteBatch s' items).1
  | workers {s' : Executor} {db : Store} (h : RunsOn m s s') (hdb : WorkersOn m s'.db db) :
      RunsOn m s { s' with db := db }

lemma isBackground_cardCountKey (m tag : Bytes) : IsBackground (cardCountKey m tag) :=
  ⟨bs "card-count", by decide, _, rfl⟩

lemma WorkersOn.background {m : Bytes} {db db' : Store} (h : WorkersOn m db db') (k : Bytes)
    (hk : ¬ IsBackground k) : db'.get? k = db.get? k := by
  rcases h k with hsame | ⟨tag, value, rfl⟩ | ⟨tag, rfl⟩ | ⟨body, rfl⟩
  · exact hsame
  · exact absurd ⟨bs "card", by decide, _, rfl⟩ hk
  · exact absurd (isBackground_cardCountKey m tag) hk
  · exact absurd ⟨bs "repl-outbox", by decide, _, rfl⟩ hk

/-- The workers count under the keys of their own metric. -/
lemma WorkersOn.counts {m m' : Bytes} {db db' : Store} (h : WorkersOn m db db') (hne : m' ≠ m)
    (tag : Bytes) : db'.get? (cardCountKey m' tag) = db.get? (cardCountKey m' tag) := by
  have hinj : ∀ K : Key, K.WF → cardCountKey m' tag = K.encode → Key.cardCount m' tag = K :=
    fun K hK heq => Key.encode_inj trivial hK heq
  rcases h (cardCountKey m' tag) with hsame | ⟨t, v, heq⟩ | ⟨t, heq⟩ | ⟨body, heq⟩
  · exact hsame
  · cases hinj (.card m t v) trivial heq
  · cases hinj (.cardCount m t) trivial heq
    exact absurd rfl hne
  · cases hinj (.outbox body) trivial heq

/-- A flush that has met entries of one metric only. -/
structure ScanOn (m : Bytes) (scan : CardScan) : Prop where
  values : ∀ k ∈ scan.values, ∃ tag value, k = cardKey m tag value
  counts : ∀ k n, scan.countDelta.get? k = some n → ∃ tag, k = cardCountKey m tag

lemma ScanOn.stage {m : Bytes} {scan : CardScan} (h : ScanOn m scan) {e : CardEntry}
    (he : e.metric = m) (db : Store) (countErr : Bool) : ScanOn m (scan.stage db e countErr) := by
  rw [CardScan.stage]
  by_cases hstored : (db.get? e.key).isSome
  · rw [if_pos hstored]
    exact h
  · rw [if_neg hstored]
    refine ⟨fun k hk => ?_, fun k n hk => ?_⟩
    · rcases List.mem_append.mp hk with hk | hk
      · exact h.values k hk
      · exact ⟨e.tagKey, e.tagValue, by rw [List.mem_singleton.mp hk, CardEntry.key, he]⟩
    · rw [OrdMap.get?_set] at hk
      split_ifs at hk with hkey
      · exact ⟨e.tagKey, by rw [hkey, CardEntry.countKey, he]⟩
      · exact h.counts k n hk

/-- **The commit of such a flush is one of these changes.** -/
lemma ScanOn.workersOn_committed {m : Bytes} {scan : CardScan} (h : ScanOn m scan) (db : Store) :
    WorkersOn m db (scan.committed db) := by
  intro k
  have hget : (scan.committed db).get? k = _ := OrdMap.get?_setRows db scan.batch k
  generalize hfind : List.find? _ scan.batch.reverse = found at hget
  cases found with
  | none => exact Or.inl hget
  | some row =>
      have hrow := List.mem_reverse.mp (List.mem_of_find?_eq_some hfind)
      have hkey : row.1 = k := by simpa using List.find?_some hfind
      rw [← hkey]
      rcases List.mem_append.mp hrow with hrow | hrow
      · obtain ⟨k', hk', rfl⟩ := List.mem_map.mp hrow
        exact Or.inr (Or.inl (h.values k' hk'))
      · obtain ⟨kv, hkv, rfl⟩ := List.mem_map.mp hrow
        exact Or.inr (Or.inr (Or.inl (h.counts kv.1 kv.2 ((OrdMap.mem_entries_iff _ _ _).mp hkv))))

lemma RunsOn.reachable {m : Bytes} {s s' : Executor} (h : RunsOn m s s')
    (hs : Reachable (fun _ => True) s) : Reachable (fun _ => True) s' := by
  induction h with
  | start => exact hs
  | mutate _ hq hmut _ now ih => exact .mutate ih hq hmut trivial now
  | batch _ hitems ih => exact .batch ih fun x hx q hq => ⟨(hitems x hx q hq).1, trivial⟩
  | workers _ hdb ih => exact .background ih hdb.background

/-- **A run on one metric leaves the keys of all others alone.** -/
theorem RunsOn.sameFor {m m' : Bytes} {s s' : Executor} (h : RunsOn m s s')
    (hs : Reachable (fun _ => True) s) (hm' : MetricName m') (hne : m' ≠ m) :
    SameFor m' s.db s'.db := by
  have hitems : Untouched m' s.db s'.db ∧
      ∀ tag, s'.db.get? (cardCountKey m' tag) = s.db.get? (cardCountKey m' tag) := by
    induction h with
    | start => exact ⟨.refl m' s.db, fun _ => rfl⟩
    | @mutate s₁ q hrun hq hmut hm now ih =>
        obtain ⟨hinv, σ, hσ⟩ := (hrun.reachable hs).inv
        have hstage := hq.stageable hmut.ne_metrics
        have hsame := sameBackground_executeMutation hinv hσ hstage now
        exact ⟨ih.1.trans (.executeMutation hinv hσ hstage (by rw [hm]; exact hne.symm) now),
          fun tag => (hsame _ (isBackground_cardCountKey m' tag)).trans (ih.2 tag)⟩
    | @batch s₁ items hrun hitems ih =>
        obtain ⟨hinv, σ, hσ⟩ := (hrun.reachable hs).inv
        have hstage : ∀ x ∈ items, ∀ q, x.2 = some q → q.type = .write → q.Stageable :=
          fun x hx q hq hty => (hitems x hx q hq).1.stageable (by simp [hty])
        have hsame := sameBackground_executeWriteBatch hinv hσ hstage
        refine ⟨ih.1.trans (.executeWriteBatch hinv hσ fun x hx q hq hty => ?_),
          fun tag => (hsame _ (isBackground_cardCountKey m' tag)).trans (ih.2 tag)⟩
        exact ⟨hstage x hx q hq hty, by rw [(hitems x hx q hq).2]; exact hne.symm⟩
    | workers _ hdb ih =>
        exact ⟨ih.1.trans (.background hdb.background), fun tag =>
          (hdb.counts hne tag).trans (ih.2 tag)⟩
  exact hitems.1.sameFor hm'.1.2 hm'.2 hs.inv.1.keyed (h.reachable hs).inv.1.keyed hitems.2

/-- **Metrics are isolated**: in every state, whatever is written, set, deleted or batched on one
metric, every read of other metrics has the same answer as before. -/
theorem metric_isolation {m : Bytes} {s s' : Executor} (hs : Reachable (fun _ => True) s)
    (hrun : RunsOn m s s') :
    (∀ m', MetricName m' → m' ≠ m → SameReads m' s.db s'.db) ∧
      ∀ q : Query, (∀ m' ∈ q.targets, MetricName m' ∧ m' ≠ m) →
        executeGet s'.db q = executeGet s.db q := by
  have hreads : ∀ m', MetricName m' → m' ≠ m → SameReads m' s.db s'.db := fun m' hm' hne =>
    (hrun.sameFor hs hm' hne).sameReads hs.inv.1
  exact ⟨hreads, fun q hq => executeGet_congr fun metric hmetric =>
    (hreads metric (hq metric hmetric).1 (hq metric hmetric).2).get q⟩

/-- Three metrics, the name of one the beginning of the others. -/
def smpStore : Executor :=
  runLines [bs "WRITE smp:kills 3 lb=bob ts=5", bs "WRITE smp: 7 lb=amy color=red ts=6",
    bs "WRITE smp 1 lb=bob color=red ts=7"]

/-- A command on the shortest name, for one player. -/
def smpQuery (type : QueryType) : Query :=
  { type := type, metric := bs "smp", value := Float64.ofBits 0x4000000000000000, timestamp := 6
    updateLB := true, lbEntityID := bs "bob" }

/-- The store after a SET, a DELETE and a batch. -/
def smpRun : Executor :=
  (executeWriteBatch (executeMutation 0 (executeMutation 0 smpStore (smpQuery .set)).1
    (smpQuery .delete)).1 [(1, some (smpQuery .write)), (2, none)]).1

/-- A GET for the two longer names. -/
def smpGet : Query := { type := .get, metrics := [bs "smp:", bs "smp:kills"] }

/-- Commands on `smp` change its board and leave `smp:` and `smp:kills` alone. -/
theorem metric_isolation_smp :
    SameReads (bs "smp:") smpStore.db smpRun.db ∧ SameReads (bs "smp:kills") smpStore.db smpRun.db ∧
      executeGet smpRun.db smpGet = executeGet smpStore.db smpGet ∧
      Leaderboard.get smpRun.db (boardMetric (bs "smp") []) (bs "bob") ≠
        Leaderboard.get smpStore.db (boardMetric (bs "smp") []) (bs "bob") := by
  have hset : Admitted (smpQuery .set) := ⟨by decide +kernel, by decide⟩
  have hdelete : Admitted (smpQuery .delete) := ⟨by decide +kernel, by decide⟩
  have hwrite : Admitted (smpQuery .write) := ⟨by decide +kernel, by decide⟩
  have hrun : RunsOn (bs "smp") smpStore smpRun := by
    refine .batch (.mutate (.mutate .start hset (by decide) rfl 0) hdelete (by decide) rfl 0)
      fun x hx q hq => ?_
    obtain rfl | rfl : x = (1, some (smpQuery .write)) ∨ x = (2, none) := by simpa using hx
    · obtain rfl := Option.some.inj hq
      exact ⟨hwrite, rfl⟩
    · exact absurd hq (by simp)
  obtain ⟨hreads, hget⟩ := metric_isolation (reachable_runLines _ fun _ _ _ _ => trivial) hrun
  have hcolon : MetricName (bs "smp:") ∧ bs "smp:" ≠ bs "smp" := ⟨⟨by decide, by decide⟩, by decide⟩
  have hkills : MetricName (bs "smp:kills") ∧ bs "smp:kills" ≠ bs "smp" :=
    ⟨⟨by decide, by decide⟩, by decide⟩
  refine ⟨hreads _ hcolon.1 hcolon.2, hreads _ hkills.1 hkills.2, hget _ fun m hm => ?_,
    by decide +kernel⟩
  obtain rfl | rfl : m = bs "smp:" ∨ m = bs "smp:kills" := by simpa [Query.targets, smpGet] using hm
  · exact hcolon
  · exact hkills

end FlameDB
