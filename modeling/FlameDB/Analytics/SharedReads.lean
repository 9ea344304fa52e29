import FlameDB.Analytics.Timestamps
import FlameDB.Query.Reading

/-!
# Shared aggregate reads

COUNT, SUM and AVG with a tag filter look up candidates by the digest of one of the tags, the
anchor, and then check the whole filter.  Requests that arrive together and agree on the metric and
the anchor share one query: its candidates are those of any request, in the union of their windows,
and each request is joined with the candidates that match its own anchor, filter and window.

Digests may collide.  All that is assumed is that the digests of an event's tags stand in its row.

* `candidateRows_eq`, `joinedRows_eq` — **both queries read the rows the filter describes.**
* `shared_reads_exact` — the answers of a wave are those of individual reads.
-/

namespace FlameDB.Analytics

open Go KV

/-- The events a statement sees, with the generated column `tag_tokens`. -/
structure Snapshot (δ : Type) where
  events : OrdMap (Bytes ×ₗ ℤ) EventRow
  tokens : Bytes ×ₗ ℤ → List δ

/-- A row of `flame_events` with its key. -/
abbrev SnapshotRow := (Bytes ×ₗ ℤ) × EventRow

def SnapshotRow.metric (row : SnapshotRow) : Bytes := (ofLex row.1).1

def SnapshotRow.ts (row : SnapshotRow) : ℤ := (ofLex row.1).2

/-- The addition behind `sum(double precision)`. -/
def sqlAdd (x y : Float64) : Except Bytes Float64 :=
  if (x + y).isInf ∧ !x.isInf ∧ !y.isInf then
    .error (bs "ERROR: value out of range: overflow (SQLSTATE 22003)")
  else .ok (x + y)

/-- `COALESCE(sum(value ORDER BY ts),0)`, over values in that order. -/
def sqlSum : List Float64 → Except Bytes Float64
  | [] => .ok Float64.zero
  | v :: vs => vs.foldlM sqlAdd v

/-- The text `bounds`: a bound that excludes nothing is left out. -/
def inBounds (lower upper ts : ℤ) : Bool :=
  (lower = 0 ∨ lower ≤ ts) ∧ (upper = maxInt64 ∨ ts < upper)

/-- `filterAnchor`: the tag with the largest estimated number of values, or the first one if there
is no estimate. -/
def filterAnchor (estimate : Option (Bytes → ℤ)) (tags : Tags) : Bytes :=
  match tags.entries.map Prod.fst, estimate with
  | [], _ => []
  | key :: _, none => key
  | key :: keys, some counts =>
      keys.foldl (fun best k => if counts best < counts k then k else best) key

/-- What is returned for a count and a sum. -/
def finishAggregate (agg : AggType) (count : ℕ) (sum : Float64) : Except Bytes AggregateResult :=
  let value :=
    match agg with
    | .count => Float64.ofNat count
    | .avg => if 0 < count then sum.divNat count else sum
    | .sum => sum
  if value.canonical.isFinite then .ok ⟨agg, value.canonical, count⟩
  else .error (bs "response serialization failed")

/-- The end of a window; zero stands for no end. -/
def windowEnd (to_ : Int64) : ℤ := if to_ = 0 then maxInt64 else to_.toInt

section Reads

variable {δ : Type} [DecidableEq δ] (digest : Bytes → Bytes → Bytes → δ) (snapshot : Snapshot δ)

/-- `aggregateCandidates`: the rows `aggregateDirect` adds up. -/
def candidateRows (estimate : Option (Bytes → ℤ)) (metric : Bytes) (where_ : Tags) (lo hi : ℤ) :
    List SnapshotRow :=
  let encoded := encodeTags where_
  let name := encodeString metric
  if encoded.entries = [] then
    snapshot.events.entries.filter fun row : SnapshotRow => row.metric = name ∧ lo ≤
      row.ts ∧ row.ts < hi
  else
    let anchor := filterAnchor estimate encoded
    let candidates := snapshot.events.entries.filter fun row : SnapshotRow =>
      digest name anchor ((encoded.get? anchor).getD []) ∈ snapshot.tokens row.1 ∧
        inBounds lo hi row.ts
    candidates.filter fun row : SnapshotRow =>
      row.metric = name ∧ lo ≤ row.ts ∧ row.ts < hi ∧ containsTags row.2.tags encoded

/-- The read on its own: one query for one filter. -/
def aggregateDirect (estimate : Option (Bytes → ℤ)) (agg : AggType) (metric : Bytes) (where_ : Tags)
    (from_ to_ : Int64) : Except Bytes AggregateResult := do
  let rows := candidateRows digest snapshot estimate metric where_ from_.toInt (windowEnd to_)
  let sum ← if agg = .count then .ok Float64.zero else sqlSum (rows.map fun row => row.2.value)
  finishAggregate agg rows.length sum

/-- A request as `submit` queues it. -/
structure AggregateRead where
  metric : Bytes
  agg : AggType
  where_ : Tags
  from_ : Int64
  to_ : Int64
  /-- the anchor and its value -/
  key : Bytes
  value : Bytes
  anchored : (encodeTags where_).get? key = some value

namespace AggregateRead

def encoded (r : AggregateRead) : Bytes := encodeString r.metric

def filters (r : AggregateRead) : Tags := encodeTags r.where_

end AggregateRead

/-- The smallest start and the largest end of the windows. -/
def sharedLower (items : List AggregateRead) : ℤ :=
  items.foldl (fun lo r => min lo r.from_.toInt) maxInt64

/-- The common end of the windows of a group. -/
def sharedUpper (items : List AggregateRead) : ℤ :=
  items.foldl (fun hi r => max hi (windowEnd r.to_)) 0

/-- The candidates of a group of requests. -/
def sharedCandidates (name key : Bytes) (items : List AggregateRead) : List SnapshotRow :=
  snapshot.events.entries.filter fun row : SnapshotRow =>
    (∃ r ∈ items, digest name key r.value ∈ snapshot.tokens row.1) ∧ row.metric = name ∧
      inBounds (sharedLower items) (sharedUpper items) row.ts

/-- The candidates a request is joined with. -/
def joinedRows (name key : Bytes) (items : List AggregateRead) (r : AggregateRead) :
    List SnapshotRow :=
  (sharedCandidates digest snapshot name key items).filter fun row : SnapshotRow =>
    row.2.tags.get? key = some r.value ∧ containsTags row.2.tags (r.filters.erase key) ∧
      r.from_.toInt ≤ row.ts ∧ row.ts < windowEnd r.to_

/-- The answer the shared query computes for a request of the group. -/
def sharedAnswer (name key : Bytes) (items : List AggregateRead) (r : AggregateRead) :
    Except Bytes AggregateResult := do
  let rows := joinedRows digest snapshot name key items r
  let sum ← sqlSum (rows.map fun row => if r.agg = .count then Float64.zero else row.2.value)
  finishAggregate r.agg rows.length sum

/-- `direct`, with the estimates of the time it runs at. -/
def direct (planner : AggregateRead → Option (Bytes → ℤ)) (r : AggregateRead) :
    Except Bytes AggregateResult :=
  aggregateDirect digest snapshot (planner r) r.agg r.metric r.where_ r.from_ r.to_

/-- `group`: when anything goes wrong, every request is read on its own. -/
def group (planner : AggregateRead → Option (Bytes → ℤ)) (name key : Bytes)
    (items : List AggregateRead) : List (Except Bytes AggregateResult) :=
  match items.mapM (sharedAnswer digest snapshot name key items) with
  | .ok answers => answers.map .ok
  | .error _ => items.map (direct digest snapshot planner)

/-- Reads with one metric and one anchor share a query. -/
def AggregateRead.groupKey (r : AggregateRead) : Bytes × Bytes := (r.encoded, r.key)

/-- `execute`: the requests of a wave and their replies, group by group. -/
def execute (planner : AggregateRead → Option (Bytes → ℤ)) (wave : List AggregateRead) :
    List (AggregateRead × Except Bytes AggregateResult) :=
  ((wave.map AggregateRead.groupKey).dedup).flatMap fun key =>
    let items := wave.filter fun r => r.groupKey = key
    items.zip
      (if items.length = 1 then items.map (direct digest snapshot planner)
       else group digest snapshot planner key.1 key.2 items)

end Reads

/-! ## Anchors and filters

Rows are found by the digest of the anchor and checked against the whole filter, so a collision
costs time only. -/

lemma foldl_best_mem (counts : Bytes → ℤ) (keys : List Bytes) (key : Bytes) :
    keys.foldl (fun best k => if counts best < counts k then k else best) key ∈ key :: keys := by
  induction keys generalizing key with
  | nil => simp
  | cons k keys ih =>
      rw [List.foldl_cons]
      split_ifs
      · exact List.mem_cons_of_mem _ (ih k)
      · rcases List.mem_cons.mp (ih key) with h | h
        · rw [h]
          exact List.mem_cons_self
        · exact List.mem_cons_of_mem _ (List.mem_cons_of_mem _ h)

/-- The anchor is one of the tags, whatever the estimate. -/
lemma filterAnchor_mem (estimate : Option (Bytes → ℤ)) {tags : Tags} (hne : tags.entries ≠ []) :
    ∃ value, tags.get? (filterAnchor estimate tags) = some value := by
  have hmem : filterAnchor estimate tags ∈ tags.entries.map Prod.fst := by
    unfold filterAnchor
    cases hkeys : tags.entries.map Prod.fst with
    | nil => simp [hne] at hkeys
    | cons key keys =>
        cases estimate with
        | none => exact List.mem_cons_self
        | some counts => exact foldl_best_mem counts keys key
  obtain ⟨⟨key, value⟩, hentry, hkey⟩ := List.mem_map.mp hmem
  exact ⟨value, hkey ▸ (tags.mem_entries_iff key value).mp hentry⟩

/-- `submit`, with the estimates of the time it runs at. -/
def newAggregateRead (estimate : Option (Bytes → ℤ)) (metric : Bytes) (agg : AggType)
    (where_ : Tags)
    (from_ to_ : Int64) (hne : (encodeTags where_).entries ≠ []) : AggregateRead where
  metric := metric
  agg := agg
  where_ := where_
  from_ := from_
  to_ := to_
  key := filterAnchor estimate (encodeTags where_)
  value := ((encodeTags where_).get? (filterAnchor estimate (encodeTags where_))).getD []
  anchored := by
    obtain ⟨value, hvalue⟩ := filterAnchor_mem estimate hne
    rw [hvalue]
    rfl

lemma containsTags_iff {tags filters : Tags} :
    containsTags tags filters = true ↔ ∀ k v, filters.get? k = some v → tags.get? k = some v := by
  simp [containsTags, List.all_eq_true, OrdMap.mem_entries_iff]

/-- A filter is its anchor and the rest. -/
lemma containsTags_anchor {tags filters : Tags} {key value : Bytes}
    (h : filters.get? key = some value) :
    containsTags tags filters = true ↔
      tags.get? key = some value ∧ containsTags tags (filters.erase key) = true := by
  simp only [containsTags_iff, OrdMap.get?_erase]
  constructor
  · intro hall
    refine ⟨hall key value h, fun k v hk => hall k v ?_⟩
    split_ifs at hk
    exact hk
  · rintro ⟨hanchor, hrest⟩ k v hk
    by_cases hkey : k = key
    · subst hkey
      rw [h] at hk
      exact Option.some.inj hk ▸ hanchor
    · exact hrest k v (by rw [if_neg hkey]; exact hk)

lemma inBounds_of_le {lower upper ts : ℤ} (hlo : lower ≤ ts) (hhi : ts < upper) :
    inBounds lower upper ts = true := by
  simp [inBounds, hlo, hhi]

/-! ## The rows of a filter -/

section Exact

variable {δ : Type} [DecidableEq δ] (digest : Bytes → Bytes → Bytes → δ) (snapshot : Snapshot δ)

/-- The rows a filter describes. -/
def matchingRows (name : Bytes) (filters : Tags) (lo hi : ℤ) : List SnapshotRow :=
  snapshot.events.entries.filter fun row : SnapshotRow =>
    row.metric = name ∧ lo ≤ row.ts ∧ row.ts < hi ∧ containsTags row.2.tags filters

/-- Every stored event's token list contains the digest of each of its tags. -/
def Tokened : Prop :=
  ∀ row : SnapshotRow, row ∈ snapshot.events.entries → ∀ k v, row.2.tags.get? k = some v →
    digest row.metric k v ∈ snapshot.tokens row.1

variable {digest snapshot}

/-- **A read on its own adds up the rows of its filter.** -/
lemma candidateRows_eq (htok : Tokened digest snapshot) (estimate : Option (Bytes → ℤ))
    (metric : Bytes)
    (where_ : Tags) (lo hi : ℤ) :
    candidateRows digest snapshot estimate metric where_ lo hi =
      matchingRows snapshot (encodeString metric) (encodeTags where_) lo hi := by
  unfold candidateRows matchingRows
  by_cases hnil : (encodeTags where_).entries = []
  · simp only [if_pos hnil]
    refine List.filter_congr fun row _ => ?_
    simp [containsTags, hnil]
  · simp only [if_neg hnil, List.filter_filter]
    obtain ⟨value, hvalue⟩ := filterAnchor_mem estimate hnil
    refine List.filter_congr fun row hrow => ?_
    rw [hvalue, Option.getD_some, Bool.and_eq_left_iff_imp]
    intro hmatch
    obtain ⟨hmetric, hlo, hhi, htags⟩ := of_decide_eq_true hmatch
    have hanchor := containsTags_iff.mp htags _ _ hvalue
    rw [decide_eq_true_eq, ← hmetric]
    exact ⟨htok row hrow _ _ hanchor, inBounds_of_le hlo hhi⟩

lemma sharedLower_le {items : List AggregateRead} {r : AggregateRead} (hr : r ∈ items) :
    sharedLower items ≤ r.from_.toInt := by
  have hfold : ∀ (items : List AggregateRead) (lo : ℤ),
      items.foldl (fun lo r => min lo r.from_.toInt) lo ≤ lo ∧
        ∀ r ∈ items, items.foldl (fun lo r => min lo r.from_.toInt) lo ≤ r.from_.toInt := by
    intro items
    induction items with
    | nil => simp
    | cons r items ih =>
        intro lo
        obtain ⟨hle, hall⟩ := ih (min lo r.from_.toInt)
        refine ⟨hle.trans (min_le_left _ _), fun r' hr' => ?_⟩
        rcases List.mem_cons.mp hr' with rfl | hr'
        · exact hle.trans (min_le_right _ _)
        · exact hall r' hr'
  exact (hfold items maxInt64).2 r hr

lemma le_sharedUpper {items : List AggregateRead} {r : AggregateRead} (hr : r ∈ items) :
    windowEnd r.to_ ≤ sharedUpper items := by
  have hfold : ∀ (items : List AggregateRead) (hi : ℤ),
      hi ≤ items.foldl (fun hi r => max hi (windowEnd r.to_)) hi ∧
        ∀ r ∈ items, windowEnd r.to_ ≤ items.foldl (fun hi r => max hi (windowEnd r.to_)) hi := by
    intro items
    induction items with
    | nil => simp
    | cons r items ih =>
        intro hi
        obtain ⟨hle, hall⟩ := ih (max hi (windowEnd r.to_))
        refine ⟨(le_max_left _ _).trans hle, fun r' hr' => ?_⟩
        rcases List.mem_cons.mp hr' with rfl | hr'
        · exact (le_max_right _ _).trans hle
        · exact hall r' hr'
  exact (hfold items 0).2 r hr

/-- **The shared query joins a request with the rows of its filter.** -/
lemma joinedRows_eq (htok : Tokened digest snapshot) {items : List AggregateRead}
    {r : AggregateRead}
    (hr : r ∈ items) :
    joinedRows digest snapshot r.encoded r.key items r =
      matchingRows snapshot r.encoded r.filters r.from_.toInt (windowEnd r.to_) := by
  unfold joinedRows sharedCandidates matchingRows
  rw [List.filter_filter]
  refine List.filter_congr fun row hrow => ?_
  have hanchor := @containsTags_anchor row.2.tags r.filters r.key r.value r.anchored
  rw [Bool.eq_iff_iff, Bool.and_eq_true, decide_eq_true_eq, decide_eq_true_eq,
    decide_eq_true_eq, hanchor]
  constructor
  · rintro ⟨⟨hkey, hrest, hlo, hhi⟩, -, hmetric, -⟩
    exact ⟨hmetric, hlo, hhi, hkey, hrest⟩
  · rintro ⟨hmetric, hlo, hhi, hkey, hrest⟩
    refine ⟨⟨hkey, hrest, hlo, hhi⟩, ⟨r, hr, ?_⟩, hmetric, ?_⟩
    · exact hmetric ▸ htok row hrow _ _ hkey
    · exact inBounds_of_le ((sharedLower_le hr).trans hlo) (lt_of_lt_of_le hhi (le_sharedUpper hr))

/-! ## Answers

A sum depends on the order of its terms, so the shared query must deliver rows in the order of the
single one. -/

lemma sqlSum_zeros (n : ℕ) : sqlSum (List.replicate n Float64.zero) = .ok Float64.zero := by
  have hadd : sqlAdd Float64.zero Float64.zero = .ok Float64.zero := by decide +kernel
  cases n with
  | zero => rfl
  | succ n =>
      rw [List.replicate_succ, sqlSum]
      induction n with
      | zero => rfl
      | succ n ih => rw [List.replicate_succ, List.foldlM_cons, hadd]; exact ih

/-- **The shared query computes what an individual read computes.** -/
lemma sharedAnswer_eq (htok : Tokened digest snapshot) (planner : AggregateRead →
    Option (Bytes → ℤ))
    {items : List AggregateRead} {r : AggregateRead} (hr : r ∈ items) :
    sharedAnswer digest snapshot r.encoded r.key items r = direct digest snapshot planner r := by
  simp only [sharedAnswer, direct, aggregateDirect, joinedRows_eq htok hr, candidateRows_eq htok]
  by_cases hcount : r.agg = .count
  · simp only [if_pos hcount, List.map_const', sqlSum_zeros]
    rfl
  · simp only [if_neg hcount]
    rfl

lemma map_eq_of_mapM_ok {α β : Type} {f : α → Except Bytes β} {l : List α} {l' : List β}
    (h : l.mapM f = .ok l') : l.map f = l'.map .ok := by
  have hpairs : List.Forall₂ (· = ·) (l.map f) (l'.map .ok) := by
    rw [List.forall₂_map_left_iff, List.forall₂_map_right_iff]
    exact forall₂_of_mapM_ok h
  rwa [List.forall₂_eq_eq_eq] at hpairs

/-- The reads that share a query get what they would get alone. -/
lemma group_eq (htok : Tokened digest snapshot) (planner : AggregateRead → Option (Bytes → ℤ))
    {name key : Bytes} {items : List AggregateRead} (hitems : ∀ r ∈ items,
      r.groupKey = (name, key)) :
    group digest snapshot planner name key items = items.map (direct digest snapshot planner) := by
  unfold group
  cases hshared : items.mapM (sharedAnswer digest snapshot name key items) with
  | error err => rfl
  | ok answers =>
      show answers.map Except.ok = _
      rw [← map_eq_of_mapM_ok hshared]
      refine List.map_congr_left fun r hr => ?_
      obtain ⟨rfl, rfl⟩ := Prod.mk.inj (hitems r hr).symm
      exact sharedAnswer_eq htok planner hr

lemma flatMap_single {α κ : Type} [DecidableEq κ] (a : α) {k : κ} {keys : List κ}
    (hnodup : keys.Nodup)
    (hk : k ∈ keys) : (keys.flatMap fun k' => if k = k' then [a] else []) = [a] := by
  induction keys with
  | nil => simp at hk
  | cons k' keys ih =>
      obtain ⟨hnot, htail⟩ := List.nodup_cons.mp hnodup
      rw [List.flatMap_cons]
      rcases List.mem_cons.mp hk with rfl | hmem
      · rw [if_pos rfl, List.flatMap_eq_nil_iff.mpr]
        · rfl
        · intro k' hk'
          refine if_neg ?_
          rintro rfl
          exact hnot hk'
      · have hne : k ≠ k' := by
          rintro rfl
          exact hnot hmem
        rw [if_neg hne, ih htail hmem]
        rfl

/-- The groups of a list are the list again. -/
lemma flatMap_filter_perm {α κ : Type} [DecidableEq κ] (f : α → κ) {keys : List κ}
    (hnodup : keys.Nodup)
    {l : List α} (hkeys : ∀ a ∈ l, f a ∈ keys) :
    (keys.flatMap fun k => l.filter fun a => f a = k).Perm l := by
  induction l with
  | nil => simp
  | cons a l ih =>
      have htail := ih fun b hb => hkeys b (List.mem_cons_of_mem _ hb)
      have hone := flatMap_single a hnodup (hkeys a List.mem_cons_self)
      have hsplit : ∀ k, ((a :: l).filter fun b => f b = k) =
          (if f a = k then [a] else []) ++ l.filter fun b => f b = k := by
        intro k
        by_cases hk : f a = k
        · simp [hk]
        · simp [hk]
      simp only [hsplit]
      refine (List.flatMap_append_perm keys _ _).symm.trans ?_
      rw [hone]
      exact htail.cons a

/-- **Shared aggregate reads equal individual ones.**  For every group of requests with one metric
and one anchor the shared query computes what each request would read alone, and in a wave of any
requests each gets one reply, which is that answer. -/
theorem shared_reads_exact (htok : Tokened digest snapshot)
    (planner : AggregateRead → Option (Bytes → ℤ)) :
    (∀ (items : List AggregateRead) (name key : Bytes), (∀ r ∈ items, r.groupKey = (name, key)) →
      ∀ r ∈ items, sharedAnswer digest snapshot name key items r =
        direct digest snapshot planner r) ∧
    ∀ wave : List AggregateRead,
      (execute digest snapshot planner wave).Perm
        (wave.map fun r => (r, direct digest snapshot planner r)) := by
  constructor
  · intro items name key hitems r hr
    obtain ⟨rfl, rfl⟩ := Prod.mk.inj (hitems r hr).symm
    exact sharedAnswer_eq htok planner hr
  · intro wave
    have hreplies : execute digest snapshot planner wave =
        ((wave.map AggregateRead.groupKey).dedup.flatMap fun key =>
          wave.filter fun r => r.groupKey = key).map fun r =>
            (r, direct digest snapshot planner r) := by
      rw [List.map_flatMap]
      refine List.flatMap_congr fun key _ => ?_
      have hgroup := @group_eq δ _ digest snapshot htok planner key.1 key.2
        (wave.filter fun r => r.groupKey = key) (fun r hr =>
          of_decide_eq_true (List.mem_filter.mp hr).2)
      simp only [hgroup, ite_self]
      rw [List.map_prod_left_eq_zip]
    rw [hreplies]
    refine List.Perm.map _ (flatMap_filter_perm _ (List.nodup_dedup _) fun r hr => ?_)
    exact List.mem_dedup.mpr (List.mem_map_of_mem hr)

end Exact

/-- Two events, and digests that all collide. -/
def hitsSnapshot : Snapshot Unit where
  events := ((∅ : OrdMap (Bytes ×ₗ ℤ) EventRow).set (eventRowKey (bs "hits") 5)
    ⟨Float64.ofBits 0x3FF0000000000000, encodeTags ((∅ : Tags).set (bs "host") (bs "a"))⟩).set
    (eventRowKey (bs "hits") 6)
    ⟨Float64.ofBits 0x4000000000000000, encodeTags ((∅ : Tags).set (bs "host") (bs "b"))⟩
  tokens := fun _ => [()]

/-- The sum of one host and the count of the other, asked for together. -/
def hitsWave : List AggregateRead :=
  [newAggregateRead none (bs "hits") .sum ((∅ : Tags).set (bs "host") (bs "a")) 0 0
    (by decide +kernel),
    newAggregateRead none (bs "hits") .count ((∅ : Tags).set (bs "host") (bs "b")) 0 7
      (by decide +kernel)]

/-- Two reads with different filters and windows, of different aggregates. -/
theorem hitsWave_exact :
    (execute (fun _ _ _ => ()) hitsSnapshot (fun _ => none) hitsWave).Perm
      (hitsWave.map fun r => (r, direct (fun _ _ _ => ()) hitsSnapshot (fun _ => none) r)) :=
  (shared_reads_exact (fun _ _ _ _ _ => by simp [hitsSnapshot]) (fun _ => none)).2 hitsWave

example : (execute (fun _ _ _ => ()) hitsSnapshot (fun _ => none) hitsWave).map Prod.snd =
    [.ok ⟨.sum, Float64.ofBits 0x3FF0000000000000, 1⟩,
      .ok ⟨.count, Float64.ofBits 0x3FF0000000000000, 1⟩] := by
  decide +kernel

end FlameDB.Analytics
