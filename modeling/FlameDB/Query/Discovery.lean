import FlameDB.KV.Seek
import FlameDB.Query.Isolation
import FlameDB.Query.Reading
import FlameDB.Query.Scan

/-!
# Metric discovery

`listAllMetrics` finds the names of all metrics without reading all keys: at the first key under a
name it seeks to the end of the keys under that name, by replacing the delimiter `:` behind the name
with its successor `;`.  Events give a metric away by the front of their keys, scores by the second
part of their entity keys.  `listMetrics` sorts the names and, given a filter, asks for one matching
event of each metric.

* `visitKey`, `listAllMetrics`, `listMetrics` — the loop of the source and its caller.
* `visitKey_front` — the keys that a seek passes over are visited like the key it starts from.
* `Reachable.mem_listAllMetrics` — every metric with an event or a score is listed, once and
  decoded.
* **`discovery_exact`** — with a filter, those with a matching event are listed, in every run whose
  writes are stored without loss; `listMetrics_misses_lossyWrite` is a write that is not.
-/

namespace FlameDB

open Go KV

/-! ## The listing

At the first key of a metric the scan seeks past all its others. -/

/-- The byte after the delimiter. -/
def semicolon : UInt8 := 0x3b

/-- The families the listing passes over, in the order it tries them. -/
def skippedPrefixes : List Bytes :=
  [bs "idx:", bs "lb:", bs "card:", bs "card-count:", bs "repl-outbox:", bs "repl-applied:"]

/-- One round of the listing: the encoded name it adds, and where it seeks to unless it steps to the
next key. -/
structure Visit where
  encoded : Option Bytes
  seek : Option Bytes
  deriving DecidableEq

/-- The body of the loop.  A key without a delimiter is a legacy one and stands for itself. -/
def visitKey (key : Bytes) : Visit :=
  if bs "lb-entity:" <+: key then
    match cut colon (key.drop (bs "lb-entity:").length) with
    | some (encoded, _) => ⟨some encoded, some (bs "lb-entity:" ++ encoded ++ [semicolon])⟩
    | none => ⟨none, none⟩
  else
    match skippedPrefixes.find? (fun front => front <+: key) with
    | some front => ⟨none, some (front.dropLast ++ [semicolon])⟩
    | none =>
        match cut colon key with
        | some (encoded, _) => ⟨some encoded, some (encoded ++ [semicolon])⟩
        | none => ⟨some key, none⟩

/-- The metric of an encoded name, without the board behind the separator. -/
def metricName (encoded : Bytes) : Bytes :=
  match cut unitSep (decodeComponent encoded) with
  | some (name, _) => name
  | none => decodeComponent encoded

/-- `add`: keep a name that was not seen yet. -/
def addMetric (metrics : List Bytes) (encoded : Bytes) : List Bytes :=
  if metricName encoded ∈ metrics then metrics else metrics ++ [metricName encoded]

/-- The loop, with one round for each key at most; it is `none` if that were not enough. -/
def listAllMetrics (db : Store) : Option (List Bytes) :=
  db.scan (fun key => (visitKey key).seek)
    (fun metrics key => (visitKey key).encoded.elim metrics (addMetric metrics))
    db.entries.length db.entries []

/-- Whether a metric has an event with the tags: a GET of the last one. -/
def hasMatch (db : Store) (where_ : Tags) (metric : Bytes) : Except Bytes Bool := do
  match ← executeGet db { type := .get, metric := metric, where_ := where_, limit := 1 } with
  | .single (.events events) => return events ≠ []
  | _ => return false

/-- The loop of `ListMetrics`: all names without a filter, those with a match with one. -/
def matchingMetrics (db : Store) (where_ : Tags) : List Bytes → Except Bytes (List Bytes)
  | [] => .ok []
  | metric :: rest => do
      let listed ← if where_.entries ≠ [] then hasMatch db where_ metric else .ok true
      let out ← matchingMetrics db where_ rest
      return if listed then metric :: out else out

/-- The names with a matching event, sorted. -/
def listMetrics (db : Store) (where_ : Tags) : Option (Except Bytes (List Bytes)) :=
  (listAllMetrics db).map fun metrics =>
    (matchingMetrics db where_ metrics).map fun out => out.insertionSort (· ≤ ·)

/-! ## One round -/

lemma front_isPrefix_iff {p f : Bytes} (hp : colon ∉ p) (hf : colon ∉ f) (rest : Bytes) :
    p ++ [colon] <+: f ++ colon :: rest ↔ p = f := by
  constructor
  · rintro ⟨t, ht⟩
    rw [List.append_assoc, List.singleton_append] at ht
    exact (append_cons_inj hp hf ht).1
  · rintro rfl
    exact ⟨rest, by simp⟩

/-- The families without a name of their own, as fronts of keys. -/
def skippedFamilies : List Bytes :=
  [bs "idx", bs "lb", bs "card", bs "card-count", bs "repl-outbox", bs "repl-applied"]

lemma skippedPrefixes_eq : skippedPrefixes = skippedFamilies.map (· ++ [colon]) := by decide

lemma skippedFamilies_colon : ∀ f ∈ skippedFamilies, colon ∉ f := by decide

lemma entityPrefix_eq : bs "lb-entity:" = bs "lb-entity" ++ [colon] := by decide

lemma entityPrefix_iff {f : Bytes} (hf : colon ∉ f) (rest : Bytes) :
    bs "lb-entity:" <+: f ++ colon :: rest ↔ bs "lb-entity" = f := by
  rw [entityPrefix_eq]
  exact front_isPrefix_iff (by decide) hf rest

lemma visitKey_entity {c : Bytes} (hc : colon ∉ c) (rest : Bytes) :
    visitKey (bs "lb-entity" ++ colon :: (c ++ colon :: rest)) =
      ⟨some c, some ((bs "lb-entity" ++ colon :: c) ++ [semicolon])⟩ := by
  have hdrop : (bs "lb-entity" ++ colon :: (c ++ colon :: rest)).drop (bs "lb-entity:").length =
      c ++ colon :: rest := by
    rw [entityPrefix_eq, List.append_cons]
    exact List.drop_left
  rw [visitKey, if_pos ((entityPrefix_iff (by decide) _).mpr rfl), hdrop, cut_append hc]
  simp [entityPrefix_eq]

lemma find?_eq_self {α : Type*} [DecidableEq α] (a : α) (l : List α) :
    l.find? (fun x => x = a) = if a ∈ l then some a else none := by
  induction l with
  | nil => rfl
  | cons x l ih =>
      rw [List.find?_cons, ih]
      by_cases hx : x = a
      · simp [hx]
      · simp [hx, Ne.symm hx]

/-- The listing passes over a family by its front. -/
lemma find_skipped {f : Bytes} (hf : colon ∉ f) (rest : Bytes) :
    skippedPrefixes.find? (fun front => front <+: f ++ colon :: rest) =
      if f ∈ skippedFamilies then some (f ++ [colon]) else none := by
  rw [skippedPrefixes_eq, List.find?_map]
  have hpred : ∀ g ∈ skippedFamilies,
      ((fun front : Bytes => decide (front <+: f ++ colon :: rest)) ∘ (· ++ [colon])) g =
        decide (g = f) := by
    intro g hg
    simp only [Function.comp_apply, front_isPrefix_iff (skippedFamilies_colon g hg) hf]
  rw [List.find?_congr hpred, find?_eq_self]
  split_ifs <;> rfl

lemma visitKey_skipped {f : Bytes} (hf : f ∈ skippedFamilies) (rest : Bytes) :
    visitKey (f ++ colon :: rest) = ⟨none, some (f ++ [semicolon])⟩ := by
  have hcolon := skippedFamilies_colon f hf
  have hne : bs "lb-entity" ≠ f := by
    rintro rfl
    exact absurd hf (by decide)
  rw [visitKey, if_neg fun h => hne ((entityPrefix_iff hcolon rest).mp h), find_skipped hcolon,
    if_pos hf]
  simp

lemma visitKey_event {f : Bytes} (hcolon : colon ∉ f) (hne : bs "lb-entity" ≠ f)
    (hf : f ∉ skippedFamilies) (rest : Bytes) :
    visitKey (f ++ colon :: rest) = ⟨some f, some (f ++ [semicolon])⟩ := by
  rw [visitKey, if_neg fun h => hne ((entityPrefix_iff hcolon rest).mp h), find_skipped hcolon,
    if_neg hf, cut_append hcolon]

/-! ## Stored keys

What a round does at the keys that a run can have written. -/

lemma skippedFamilies_subset : ∀ f ∈ skippedFamilies, f ∈ Key.reserved := by decide

lemma backgroundFamilies_skipped : ∀ f ∈ backgroundFamilies, f ∈ skippedFamilies := by decide

lemma visitKey_component {m : Bytes} (hm : m ∉ Key.reserved) (rest : Bytes) :
    visitKey (component m ++ colon :: rest) =
      ⟨some (component m), some (component m ++ [semicolon])⟩ := by
  refine visitKey_event (colon_notMem_component m) ?_ ?_ rest
  · exact (Key.component_ne_reserved hm (by decide)).symm
  · exact fun hmem => Key.component_ne_reserved hm (skippedFamilies_subset _ hmem) rfl

/-- **The keys behind a common front are visited alike**, and the seek goes to the end of the
front. -/
lemma Keyed.visitKey_front {db : Store} (h : Keyed db) {key : Bytes} {v : Value}
    (hv : db.get? key = some v) :
    ∃ p rest, key = p ++ colon :: rest ∧ (visitKey key).seek = some (p ++ [semicolon]) ∧
      ∀ rest', visitKey (p ++ colon :: rest') = visitKey key := by
  have hskip : ∀ f ∈ skippedFamilies, ∀ rest, ∃ p rest', f ++ colon :: rest = p ++ colon :: rest' ∧
      (visitKey (f ++ colon :: rest)).seek = some (p ++ [semicolon]) ∧
      ∀ rest', visitKey (p ++ colon :: rest') = visitKey (f ++ colon :: rest) := by
    intro f hf rest
    refine ⟨f, rest, rfl, ?_, fun rest' => ?_⟩
    · rw [visitKey_skipped hf]
    · rw [visitKey_skipped hf, visitKey_skipped hf]
  rcases h key v hv with ⟨f, hf, body, rfl⟩ | ⟨K, hK, rfl⟩
  · exact hskip f (backgroundFamilies_skipped f hf) body
  · cases K with
    | event m t =>
        refine ⟨component m, timestampBytes t, rfl, ?_, fun rest' => ?_⟩
        · rw [Key.encode_eq]
          exact congrArg Visit.seek (visitKey_component hK.2 _)
        · rw [Key.encode_eq, visitKey_component hK.2]
          exact (visitKey_component hK.2 _).symm
    | entity m b e =>
        refine ⟨bs "lb-entity" ++ colon :: component (boardMetric m b), e, by
          simp [Key.encode, lbEntityKey], ?_, fun rest' => ?_⟩
        · exact congrArg Visit.seek (visitKey_entity (colon_notMem_component _) e)
        · rw [List.append_assoc, List.cons_append, visitKey_entity (colon_notMem_component _)]
          exact (visitKey_entity (colon_notMem_component _) e).symm
    | _ =>
        rw [Key.encode_eq]
        exact hskip _ (by simp only [Key.family]; decide) _

/-- The metric a key adds to the listing. -/
def keyName (key : Bytes) : Option Bytes := (visitKey key).encoded.map metricName

lemma mem_addMetric {metrics : List Bytes} {encoded n : Bytes} :
    n ∈ addMetric metrics encoded ↔ n ∈ metrics ∨ metricName encoded = n := by
  rw [addMetric]
  split_ifs with hmem
  · refine ⟨Or.inl, ?_⟩
    rintro (h | rfl)
    · exact h
    · exact hmem
  · rw [List.mem_append, List.mem_singleton, eq_comm]

lemma nodup_addMetric {metrics : List Bytes} (h : metrics.Nodup) (encoded : Bytes) :
    (addMetric metrics encoded).Nodup := by
  rw [addMetric]
  split_ifs with hmem
  · exact h
  · exact List.nodup_append.mpr ⟨h, List.nodup_singleton _, fun a ha b hb =>
      fun hab => hmem (List.mem_singleton.mp hb ▸ hab ▸ ha)⟩

/-- What a run over some keys collects. -/
lemma collect_keys (visited metrics : List Bytes) (hnodup : metrics.Nodup) :
    (visited.foldl (fun metrics key => (visitKey key).encoded.elim metrics (addMetric metrics))
        metrics).Nodup ∧
      ∀ n, n ∈ visited.foldl
          (fun metrics key => (visitKey key).encoded.elim metrics (addMetric metrics)) metrics ↔
        n ∈ metrics ∨ ∃ key ∈ visited, keyName key = some n := by
  induction visited generalizing metrics with
  | nil => exact ⟨hnodup, by simp⟩
  | cons key visited ih =>
      rw [List.foldl_cons]
      cases henc : (visitKey key).encoded with
      | none =>
          obtain ⟨hnd, hmem⟩ := ih metrics hnodup
          refine ⟨hnd, fun n => (hmem n).trans (or_congr_right ?_)⟩
          simp [keyName, henc]
      | some encoded =>
          obtain ⟨hnd, hmem⟩ := ih (addMetric metrics encoded) (nodup_addMetric hnodup encoded)
          refine ⟨hnd, fun n => (hmem n).trans ?_⟩
          rw [mem_addMetric, or_assoc]
          simp [keyName, henc]

/-- **The listing finds the name of every stored key**, in spite of its jumps. -/
theorem Keyed.listAllMetrics_spec {db : Store} (h : Keyed db) :
    ∃ metrics, listAllMetrics db = some metrics ∧ metrics.Nodup ∧
      ∀ n, n ∈ metrics ↔ ∃ key v, db.get? key = some v ∧ keyName key = some n := by
  have hfront : ∀ e ∈ db.entries, ∃ p rest, e.1 = p ++ colon :: rest ∧
      (visitKey e.1).seek = some (p ++ [semicolon]) ∧
      ∀ rest', visitKey (p ++ colon :: rest') = visitKey e.1 := fun e he =>
    h.visitKey_front ((OrdMap.mem_entries_iff db e.1 e.2).mp he)
  -- the range from the front's delimiter to its successor holds just the keys with that front
  have hrange : ∀ p s : Bytes, (p ++ [colon] ≤ s ∧ s < p ++ [semicolon]) ↔
      ∃ t, s = p ++ [colon] ++ t := fun p s => between_succ_iff p colon semicolon (by decide) s
  have hjump : ∀ e ∈ db.entries, ∀ bound ∈ (visitKey e.1).seek, e.1 < bound := by
    intro e he bound hbound
    obtain ⟨p, rest, hkey, hseek, -⟩ := hfront e he
    rw [hseek, Option.mem_some_iff] at hbound
    rw [← hbound, hkey]
    exact ((hrange p _).mpr ⟨rest, by simp⟩).2
  obtain ⟨visited, hscan, hcov⟩ := OrdMap.scan_covers
    (fun key => (visitKey key).seek) (fun metrics key =>
      (visitKey key).encoded.elim metrics (addMetric metrics)) hjump
    List.suffix_rfl le_rfl ([] : List Bytes)
  obtain ⟨hnodup, hmem⟩ := collect_keys visited [] List.nodup_nil
  refine ⟨_, hscan, hnodup, fun n => (hmem n).trans ?_⟩
  constructor
  · rintro (hn | ⟨key, hkey, hname⟩)
    · cases hn
    · obtain ⟨e, he, rfl⟩ := hcov.stored key hkey
      exact ⟨e.1, e.2, (OrdMap.mem_entries_iff db e.1 e.2).mp he, hname⟩
  · rintro ⟨key, v, hv, hname⟩
    obtain ⟨k, hk, hle, hseen⟩ := hcov.seen (key, v) ((OrdMap.mem_entries_iff db key v).mpr hv)
    refine Or.inr ⟨k, hk, ?_⟩
    rcases hseen with rfl | ⟨bound, hbound, hlt⟩
    · exact hname
    · obtain ⟨e, he, rfl⟩ := hcov.stored k hk
      obtain ⟨p, rest, hkey, hseek, hsame⟩ := hfront e he
      obtain rfl : p ++ [semicolon] = bound := Option.some.inj (hseek.symm.trans hbound)
      have hlo : p ++ [colon] ≤ e.1 := ((hrange p e.1).mpr ⟨rest, by simp [hkey]⟩).1
      obtain ⟨t, ht⟩ := (hrange p key).mp ⟨hlo.trans hle, hlt⟩
      rw [List.append_assoc, List.singleton_append] at ht
      rw [keyName, ← hsame t, ← ht]
      exact hname

/-! ## Metrics -/

/-- A metric with an event. -/
def HasEvent (db : Store) (m : Bytes) : Prop :=
  (m ≠ [] ∧ m ∉ Key.reserved) ∧ ∃ t, (eventAt db m t).isSome

/-- A metric with a score on some board, the unnamed one included. -/
def HasScore (db : Store) (m : Bytes) : Prop :=
  unitSep ∉ m ∧ ∃ b e, Leaderboard.existsEntry db (boardMetric m b) e = true

lemma metricName_boardMetric {m : Bytes} (hm : unitSep ∉ m) (b : Bytes) :
    metricName (component (boardMetric m b)) = m := by
  rw [metricName, decodeComponent_component, boardMetric]
  split_ifs
  · rw [cut_of_notMem hm]
  · rw [cut_append hm]

lemma keyName_event {m : Bytes} {t : Int64} (hw : (Key.event m t).WF) (hm : unitSep ∉ m) :
    keyName (Key.event m t).encode = some m := by
  rw [keyName, Key.encode_eq]
  have hvisit := visitKey_component hw.2 (timestampBytes t)
  have hname := metricName_boardMetric hm []
  rw [boardMetric, if_pos rfl] at hname
  simp only [Key.family, Key.body, hvisit, Option.map_some, hname]

lemma keyName_entity {m : Bytes} (hm : unitSep ∉ m) (b e : Bytes) :
    keyName (Key.entity m b e).encode = some m := by
  rw [keyName, show (Key.entity m b e).encode = bs "lb-entity" ++ colon ::
    (component (boardMetric m b) ++ colon :: e) from rfl, visitKey_entity
      (colon_notMem_component _),
    Option.map_some, metricName_boardMetric hm]

lemma keyName_skipped {f : Bytes} (hf : f ∈ skippedFamilies) (rest : Bytes) :
    keyName (f ++ colon :: rest) = none := by
  rw [keyName, visitKey_skipped hf]
  rfl

section Reachable

variable {P : Query → Prop} {s : Executor} (h : Reachable P s)

include h

/-- Events lie under names without a separator. -/
lemma Reachable.event_noSep {m : Bytes} {t : Int64} (hw : (Key.event m t).WF) {v : Value}
    (hv : lookup s.db (.event m t) = some v) : unitSep ∉ m := by
  have hfrom : EventsFrom (fun e => unitSep ∉ e.metric) s.db :=
    h.eventsFrom fun q hq _ _ _ => hq.metric_noSep
  obtain ⟨e, hsep, rfl, -⟩ := hfrom m t v hw hv
  exact hsep

/-- **All metrics are listed, once and decoded.** -/
theorem Reachable.mem_listAllMetrics : ∃ metrics, listAllMetrics s.db = some metrics ∧
    metrics.Nodup ∧ ∀ m, m ∈ metrics ↔ HasEvent s.db m ∨ HasScore s.db m := by
  obtain ⟨hs, -⟩ := h.inv
  obtain ⟨metrics, hlist, hnodup, hmem⟩ := hs.keyed.listAllMetrics_spec
  refine ⟨metrics, hlist, hnodup, fun m => (hmem m).trans ?_⟩
  constructor
  · rintro ⟨key, v, hv, hname⟩
    rcases hs.keyed key v hv with ⟨f, hf, body, rfl⟩ | ⟨K, hK, rfl⟩
    · rw [keyName_skipped (backgroundFamilies_skipped f hf)] at hname
      cases hname
    · cases K with
      | event m' t =>
          rw [keyName_event hK (h.event_noSep hK hv)] at hname
          obtain rfl := Option.some.inj hname
          obtain ⟨e, hat, -⟩ := hs.eventAt_some hK hv
          exact Or.inl ⟨hK, t, by rw [hat]; rfl⟩
      | entity m' b e =>
          rw [keyName_entity hK] at hname
          obtain rfl := Option.some.inj hname
          exact Or.inr ⟨hK, b, e, Option.isSome_iff_exists.mpr ⟨v, hv⟩⟩
      | _ =>
          rw [Key.encode_eq, keyName_skipped (by simp only [Key.family]; decide)] at hname
          cases hname
  · rintro (⟨hw, t, hsome⟩ | ⟨hm, b, e, hsome⟩)
    · obtain ⟨e, hat⟩ := Option.isSome_iff_exists.mp hsome
      obtain ⟨v, hv, -⟩ := Option.bind_eq_some_iff.mp hat
      exact ⟨(Key.event m t).encode, v, hv, keyName_event hw (h.event_noSep (t := t) hw hv)⟩
    · obtain ⟨v, hv⟩ := Option.isSome_iff_exists.mp hsome
      exact ⟨(Key.entity m b e).encode, v, hv, keyName_entity hm b e⟩

/-- Listed names are admitted ones. -/
lemma Reachable.listed_wf {m : Bytes} (hm : HasEvent s.db m ∨ HasScore s.db m) :
    m ≠ [] ∧ m ∉ Key.reserved := by
  rcases hm with ⟨hw, -⟩ | ⟨hsep, b, e, hsome⟩
  · exact hw
  · exact h.metric_wf (b := b) (e := e) hsep hsome

end Reachable

/-! ## The filter -/

/-- A stored event with all tags of a filter, below the maximal timestamp. -/
structure Matches (db : Store) (where_ : Tags) (m : Bytes) (e : Event) : Prop where
  stored : eventAt db m e.timestamp = some e
  tagged : ∀ kv ∈ where_.entries, e.tags.get? kv.1 = some kv.2
  before : e.timestamp < maxInt64

/-- A metric with a matching event. -/
def HasMatching (db : Store) (where_ : Tags) (m : Bytes) : Prop :=
  (m ≠ [] ∧ m ∉ Key.reserved) ∧ ∃ e, Matches db where_ m e

/-- No event lies before the epoch. -/
def AdmissibleTimes (db : Store) : Prop :=
  ∀ m t, (m ≠ [] ∧ m ∉ Key.reserved) → (eventAt db m t).isSome → 0 ≤ t

lemma page_one_eq_nil_iff {α : Type*} (l : List α) : page 1 0 l = [] ↔ l = [] := by
  cases l <;> simp [page]

/-- The GET behind the filter asks whether the scan finds anything. -/
lemma StoreInv.hasMatch_eq {db : Store} (hs : StoreInv db) {m : Bytes}
    (hw : m ≠ [] ∧ m ∉ Key.reserved) (where_ : Tags) :
    hasMatch db where_ m = .ok (scanned db m 0 maxInt64 where_ ≠ []) := by
  have hread := hs.readPage_eq hw 0 maxInt64 where_ (by decide : (0 : ℤ) ≤ 1)
    (by decide : (0 : ℤ) ≤ 0)
    true
  have hget : getEvents db { type := .get, metric := m, where_ := where_, limit := 1 } m =
      .ok (page 1 0 (scanned db m 0 maxInt64 where_).reverse) := hread
  have hnil := page_one_eq_nil_iff (scanned db m 0 maxInt64 where_).reverse
  rw [List.reverse_eq_nil_iff] at hnil
  show (do
    match ← (do return GetResult.single (answerOf _ (← getEvents db _ m)) : Except Bytes
      GetResult) with
    | .single (.events events) => return decide (events ≠ [])
    | _ => return false) = _
  rw [hget]
  show Except.ok (decide _) = Except.ok (decide _)
  rw [decide_eq_decide.mpr (not_congr hnil)]

lemma StoreInv.matchingMetrics_eq {db : Store} (hs : StoreInv db) (where_ : Tags)
    {metrics : List Bytes}
    (hw : ∀ m ∈ metrics, m ≠ [] ∧ m ∉ Key.reserved) :
    matchingMetrics db where_ metrics = .ok (metrics.filter fun m =>
      where_.entries = [] ∨ scanned db m 0 maxInt64 where_ ≠ []) := by
  induction metrics with
  | nil => rfl
  | cons m metrics ih =>
      have hrest := ih fun m' hm' => hw m' (List.mem_cons_of_mem _ hm')
      rw [matchingMetrics, hs.hasMatch_eq (hw m List.mem_cons_self), hrest]
      by_cases hnil : where_.entries = []
      · simp [hnil, bind, Except.bind, pure, Except.pure]
      · by_cases hscan : scanned db m 0 maxInt64 where_ = []
        · simp [hnil, hscan, bind, Except.bind, pure, Except.pure]
        · simp [hnil, hscan, bind, Except.bind, pure, Except.pure]

/-- The listing of a reachable store: sorted, each name once. -/
lemma Reachable.listMetrics_eq {P : Query → Prop} {s : Executor} (h : Reachable P s)
    (where_ : Tags) :
    ∃ out, listMetrics s.db where_ = some (.ok out) ∧ out.Pairwise (· < ·) ∧
      ∀ m, m ∈ out ↔ (HasEvent s.db m ∨ HasScore s.db m) ∧
        (where_.entries = [] ∨ scanned s.db m 0 maxInt64 where_ ≠ []) := by
  obtain ⟨hs, -⟩ := h.inv
  obtain ⟨metrics, hlist, hnodup, hmem⟩ := h.mem_listAllMetrics
  have hmatching := hs.matchingMetrics_eq where_ fun m hm => h.listed_wf ((hmem m).mp hm)
  refine ⟨_, by rw [listMetrics, hlist, Option.map_some, hmatching]; rfl, ?_, fun m => ?_⟩
  · have hsorted := List.pairwise_insertionSort (· ≤ ·) (metrics.filter fun m =>
      where_.entries = [] ∨ scanned s.db m 0 maxInt64 where_ ≠ [])
    have hnd := (List.perm_insertionSort (· ≤ ·) (metrics.filter fun m =>
      where_.entries = [] ∨ scanned s.db m 0 maxInt64 where_ ≠ [])).nodup_iff.mpr (hnodup.filter _)
    exact (hsorted.and hnd).imp fun hab => lt_of_le_of_ne hab.1 hab.2
  · rw [List.mem_insertionSort, List.mem_filter, hmem, decide_eq_true_eq]

/-- With an exact index the scan behind the filter finds the matching events. -/
lemma StoreInv.scanned_ne_nil_iff {db : Store} (hs : StoreInv db) (hix : IndexExact db)
    (htimes : AdmissibleTimes db) {m : Bytes} (hw : m ≠ [] ∧ m ∉ Key.reserved) (where_ : Tags) :
    scanned db m 0 maxInt64 where_ ≠ [] ↔ ∃ e, Matches db where_ m e := by
  have hsign : (0 : Int64) < 0 ↔ maxInt64 < 0 := by decide
  have hrank := timeRank_interval_iff hsign
  rw [Ne, List.eq_nil_iff_forall_not_mem, not_forall_not]
  refine exists_congr fun e => ?_
  rw [hs.mem_scanned_iff (fun _ => hix) hw]
  constructor
  · intro he
    exact ⟨he.stored, matchTags_iff.mp he.passes, ((hrank _).mp ⟨he.start_le, he.lt_stop⟩).2⟩
  · intro he
    have hnonneg := htimes m e.timestamp hw (by rw [he.stored]; rfl)
    obtain ⟨hlo, hhi⟩ := (hrank _).mpr ⟨hnonneg, he.before⟩
    exact ⟨he.stored, matchTags_iff.mpr he.tagged, hlo, hhi⟩

/-- **Metric discovery is exact.**  In every reachable store the listing returns the metrics that
have an event or a score, each once and decoded.  With a filter it returns those with a matching
event below the maximal timestamp, if the writes of the run were stored without loss and no event
lies before the epoch. -/
theorem discovery_exact {s : Executor} (hs : Reachable (fun _ => True) s) :
    (∃ metrics, listAllMetrics s.db = some metrics ∧ metrics.Nodup ∧
      ∀ m, m ∈ metrics ↔ HasEvent s.db m ∨ HasScore s.db m) ∧
    ∀ where_ : Tags, ∃ out, listMetrics s.db where_ = some (.ok out) ∧ out.Pairwise (· < ·) ∧
      (where_.entries = [] → ∀ m, m ∈ out ↔ HasEvent s.db m ∨ HasScore s.db m) ∧
      (where_.entries ≠ [] → Reachable Query.StoresLossless s → AdmissibleTimes s.db →
        ∀ m, m ∈ out ↔ HasMatching s.db where_ m) := by
  refine ⟨hs.mem_listAllMetrics, fun where_ => ?_⟩
  obtain ⟨hstore, -⟩ := hs.inv
  obtain ⟨out, hout, hsorted, hmem⟩ := hs.listMetrics_eq where_
  refine ⟨out, hout, hsorted, fun hnil m => ?_, fun hne hlossless htimes m => ?_⟩
  · exact (hmem m).trans (and_iff_left (Or.inl hnil))
  · rw [hmem m, HasMatching]
    constructor
    · rintro ⟨hlisted, hscan⟩
      have hw := hs.listed_wf hlisted
      exact ⟨hw, (hstore.scanned_ne_nil_iff hlossless.indexExact htimes hw where_).mp
        (hscan.resolve_left hne)⟩
    · rintro ⟨hw, e, he⟩
      refine ⟨Or.inl ⟨hw, e.timestamp, by rw [he.stored]; rfl⟩, Or.inr ?_⟩
      exact (hstore.scanned_ne_nil_iff hlossless.indexExact htimes hw where_).mpr ⟨e, he⟩

/-- The keys of the sample store. -/
def arenaKeys : List Key :=
  [.event (bs "hits") 5, .event (bs "hits") 6, .event (bs "hits") 7, .event (bs "deaths") 6,
    .index (bs "hits") (bs "color") (bs "red") 5, .index (bs "hits") (bs "color") (bs "blue") 6,
    .index (bs "hits") (bs "color") (bs "red") 7, .index (bs "deaths") (bs "color") (bs "red") 6,
    .entity (bs "hits") [] (bs "bob"), .entity (bs "hits") [] (bs "amy"),
    .entity (bs "deaths") [] (bs "amy"),
    .rank (bs "hits") [] (bs "bob") (Float64.ofBits 0x4014000000000000),
    .rank (bs "hits") [] (bs "amy") (Float64.ofBits 0x4000000000000000),
    .rank (bs "deaths") [] (bs "amy") (Float64.ofBits 0x4008000000000000)]

lemma arena_event {m : Bytes} {t : Int64} (hw : (Key.event m t).WF)
    (hsome : (eventAt arena.db m t).isSome) :
    (m = bs "hits" ∧ (t = 5 ∨ t = 6 ∨ t = 7)) ∨ (m = bs "deaths" ∧ t = 6) := by
  obtain ⟨e, hat⟩ := Option.isSome_iff_exists.mp hsome
  obtain ⟨v, hv, -⟩ := Option.bind_eq_some_iff.mp hat
  have hkeys : ∀ row ∈ arena.db.entries, ∃ K ∈ arenaKeys, K.WF ∧ K.encode = row.1 := by
    decide +kernel
  have hmem : (eventKey m t, v) ∈ arena.db.entries := (OrdMap.mem_entries_iff _ _ _).mpr hv
  obtain ⟨K, hK, hKw, hKe⟩ := hkeys _ hmem
  obtain rfl : K = .event m t := Key.encode_inj hKw hw hKe
  simp only [arenaKeys, List.mem_cons, Key.event.injEq, reduceCtorEq, List.not_mem_nil,
    or_false] at hK
  rcases hK with h | h | h | h
  · exact Or.inl ⟨h.1, Or.inl h.2⟩
  · exact Or.inl ⟨h.1, Or.inr (Or.inl h.2)⟩
  · exact Or.inl ⟨h.1, Or.inr (Or.inr h.2)⟩
  · exact Or.inr h

lemma arena_times : AdmissibleTimes arena.db := by
  intro m t hw hsome
  rcases arena_event hw hsome with ⟨-, rfl | rfl | rfl⟩ | ⟨-, rfl⟩ <;> decide

/-- Only one of the two metrics has a blue event. -/
theorem discovery_arena : ∃ out,
    listMetrics arena.db (OrdMap.set ∅ (bs "color") (bs "blue")) = some (.ok out) ∧
      bs "hits" ∈ out ∧ bs "deaths" ∉ out := by
  obtain ⟨out, hout, -, -, hmem⟩ :=
    (discovery_exact arena_reachable).2 (OrdMap.set ∅ (bs "color") (bs "blue"))
  have hmatch := hmem (by decide) arena_lossless arena_times
  refine ⟨out, hout, (hmatch _).mpr ⟨by decide, ?_⟩, fun hdeaths => ?_⟩
  · obtain ⟨e, he, ht, htags⟩ : ∃ e ∈ eventAt arena.db (bs "hits") 6, e.timestamp = 6 ∧
        ∀ kv ∈ (OrdMap.set ∅ (bs "color") (bs "blue")).entries, e.tags.get? kv.1 = some kv.2 := by
      decide +kernel
    exact ⟨e, by rw [ht]; exact he, htags, by rw [ht]; decide⟩
  · obtain ⟨hw, e, he, htags, -⟩ := (hmatch _).mp hdeaths
    have htime : e.timestamp = 6 := by
      rcases arena_event hw (by rw [he]; rfl) with ⟨hm, -⟩ | ⟨-, ht⟩
      · exact absurd hm (by decide)
      · exact ht
    have hred : ∀ e ∈ eventAt arena.db (bs "deaths") 6, ¬ ∀ kv ∈
        (OrdMap.set ∅ (bs "color") (bs "blue")).entries, e.tags.get? kv.1 = some kv.2 := by
      decide +kernel
    exact hred e (htime ▸ he) htags

/-! ## Tags that are not stored as written

Such a tag is indexed under one text and filtered by another. -/

/-- A write whose second tag value does not fit the binary format, so that the event is stored as
JSON, where the byte of the first one becomes a replacement character. -/
def lossyWrite (v : Bytes) : Query :=
  { type := .write, metric := bs "hits", value := Float64.ofBits 0x3FF0000000000000
    tags := (OrdMap.set ∅ (bs "a") [0xff]).set (bs "b") v, timestamp := 5 }

lemma lossyWrite_admitted (v : Bytes) : Admitted (lossyWrite v) :=
  ⟨rfl, show unitSep ∉ bs "hits" by decide⟩

/-- The executor after such a write. -/
def lossyStore (v : Bytes) : Executor := (executeMutation 0 ⟨0, ∅⟩ (lossyWrite v)).1

/-- The filter on the replacement character. -/
def lossyFilter : Tags := OrdMap.set ∅ (bs "a") [0xef, 0xbf, 0xbd]

/-- The rows of the store: the event as JSON, and a reference for each tag as it was written. -/
lemma lossyStore_rows (v : Bytes) : ∃ val, encodeEventValue (eventOf (lossyWrite v)) = .ok val ∧
    StoreInv (lossyStore v).db ∧ lookup (lossyStore v).db (.event (bs "hits") 5) = some val ∧
    ∀ k u t, (lookup (lossyStore v).db (.index (bs "hits") k u t)).isSome ↔
      t = 5 ∧ (lossyWrite v).tags.get? k = some u := by
  have hw : (Key.event (eventOf (lossyWrite v)).metric (eventOf (lossyWrite v)).timestamp).WF :=
    show (Key.event (bs "hits") 5).WF by decide
  have hfin : (eventOf (lossyWrite v)).value.isFinite = true :=
    show (Float64.ofBits 0x3FF0000000000000).isFinite = true by decide
  obtain ⟨val, db, hstage, hval, hinv, hindex, hother⟩ := stageEvent_spec storeInv_empty hw hfin
  have hmutation : mutationBatch ∅ (lossyWrite v) = .ok (db, ⟨false, 0, 0⟩) := by
    have hwrite : stageMutation ∅ (lossyWrite v) = .ok (db, ⟨false, 0, 0⟩) := by
      have htype : (lossyWrite v).type = .write := rfl
      rw [stageMutation, htype]
      simp only [hstage]
      rfl
    rw [mutationBatch, if_neg (fun hc => Bool.noConfusion hc.2), hwrite]
    rfl
  have hdb : (lossyStore v).db = db := by
    have hassign : assignTimestamp 0 ⟨0, ∅⟩ (lossyWrite v) = (⟨0, ∅⟩, lossyWrite v) := rfl
    rw [lossyStore, executeMutation, hassign]
    simp only [hmutation]
  rw [hdb]
  refine ⟨val, hval, hinv, (hother (.event (bs "hits") 5) (by decide) trivial).trans
    (if_pos rfl), ?_⟩
  intro k u t
  have hempty : lookup ∅ (.index (bs "hits") k u t) = none := rfl
  have htag : tagAt ∅ (bs "hits") t k = none := rfl
  have hrefs := hindex (bs "hits") k u t
  rw [hempty, htag, if_neg (by simp : ¬ none = some u)] at hrefs
  have hmetric : (bs "hits" = (eventOf (lossyWrite v)).metric ∧
    t = (eventOf (lossyWrite v)).timestamp) ↔
      t = 5 := ⟨fun h => h.2, fun h => ⟨rfl, h⟩⟩
  have htags : (eventOf (lossyWrite v)).tags = (lossyWrite v).tags := rfl
  rw [hrefs]
  simp only [hmetric, htags]
  split_ifs with ht hu
  · simp [ht, hu]
  · simp [hu]
  · simp [ht]

lemma lossyWrite_entries (v : Bytes) :
    (lossyWrite v).tags.entries = [(bs "a", [0xff]), (bs "b", v)] := rfl

/-- The event as it reads back, with its tags as JSON has them. -/
def lossyEvent (v : Bytes) : Event :=
  ⟨5, bs "hits", (lossyWrite v).value, jsonTags (lossyWrite v).tags⟩

lemma lossyStore_event {v : Bytes} (hv : maxUint16 < v.length) :
    eventAt (lossyStore v).db (bs "hits") 5 = some (lossyEvent v) := by
  obtain ⟨val, hval, -, hevent, -⟩ := lossyStore_rows v
  have hfits : ¬ (eventOf (lossyWrite v)).FitsBinary := by
    intro hfit
    have hlen := (hfit.2 (bs "b", v) (by rw [eventOf, lossyWrite_entries]; simp)).2
    exact absurd hlen (not_le.mpr hv)
  have hdecode := decode_encode hval (by decide : bs "hits" ≠ [])
  rw [Event.storedTags, if_neg hfits] at hdecode
  rw [eventAt, hevent, Option.bind_some, hdecode]
  rfl

lemma lossyEvent_tag (v : Bytes) : (lossyEvent v).tags.get? (bs "a") = some [0xef, 0xbf, 0xbd] := by
  have hvalid : toValidUtf8 (bs "a") = bs "a" ∧ toValidUtf8 (bs "b") = bs "b" ∧
      toValidUtf8 [0xff] = [0xef, 0xbf, 0xbd] := by decide +kernel
  rw [lossyEvent, jsonTags, lossyWrite_entries]
  simp only [List.map_cons, List.map_nil, OrdMap.ofList, List.foldl_cons, List.foldl_nil, hvalid]
  rw [OrdMap.get?_set_of_ne _ _ (by decide), OrdMap.get?_set_self]

/-- The stored event has the replacement character as its tag. -/
lemma lossyStore_matches {v : Bytes} (hv : maxUint16 < v.length) :
    HasMatching (lossyStore v).db lossyFilter (bs "hits") := by
  refine ⟨by decide, lossyEvent v, lossyStore_event hv, fun kv hkv => ?_, ?_⟩
  · obtain rfl : kv = (bs "a", [0xef, 0xbf, 0xbd]) := List.mem_singleton.mp hkv
    exact lossyEvent_tag v
  · show (5 : Int64) < maxInt64
    decide

/-- The scan of the filter looks for the replacement character in the index, where it is not. -/
lemma lossyStore_scanned (v : Bytes) :
    scanned (lossyStore v).db (bs "hits") 0 maxInt64 lossyFilter = [] := by
  obtain ⟨-, -, hinv, -, hrefs⟩ := lossyStore_rows v
  have hbest : bestIndexTag (lossyStore v).db (bs "hits") lossyFilter =
    (bs "a", [0xef, 0xbf, 0xbd]) :=
    List.mem_singleton.mp (bestIndexTag_mem (lossyStore v).db (bs "hits") (by decide))
  have hrows : scanRows (lossyStore v).db (bs "hits") 0 maxInt64 lossyFilter = [] := by
    rw [scanRows, scanBounds, if_neg (by decide), hbest, List.eq_nil_iff_forall_not_mem]
    intro row hrow
    obtain ⟨u, t, hkey⟩ := hinv.keyed.index_of_mem_range hrow
    obtain ⟨key, val⟩ := row
    obtain ⟨hget, hbounds⟩ := (OrdMap.mem_range_iff _ _ _ key val).mp hrow
    obtain rfl : key = indexKey (bs "hits") (bs "a") u t := hkey
    have hu : (lossyWrite v).tags.get? (bs "a") = some u :=
      ((hrefs _ u t).mp (Option.isSome_iff_exists.mpr ⟨val, hget⟩)).2
    obtain rfl : [0xff] = u := Option.some.inj hu
    simp only at hbounds
    rw [indexKey_split _ _ _ 0, indexKey_split _ _ _ maxInt64, between_iff] at hbounds
    obtain ⟨y, hy, -⟩ := hbounds
    simp [indexKey] at hy
  rw [scanned, hrows]
  rfl

/-- The event matches the filter, and its metric is not listed. -/
lemma lossyStore_missed {v : Bytes} (hv : maxUint16 < v.length) :
    Reachable (fun _ => True) (lossyStore v) ∧
      HasMatching (lossyStore v).db lossyFilter (bs "hits") ∧
      ∃ out, listMetrics (lossyStore v).db lossyFilter = some (.ok out) ∧ bs "hits" ∉ out := by
  have hs : Reachable (fun _ => True) (lossyStore v) :=
    .mutate (.empty 0) (lossyWrite_admitted v) (Or.inl rfl) trivial 0
  obtain ⟨out, hout, -, hmem⟩ := hs.listMetrics_eq lossyFilter
  refine ⟨hs, lossyStore_matches hv, out, hout, fun hin => ?_⟩
  rcases ((hmem _).mp hin).2 with hnil | hscan
  · exact absurd hnil (by decide)
  · exact hscan (lossyStore_scanned v)

/-- One byte more than the binary format holds. -/
def longTag : Bytes := List.replicate 65536 0x78

/-- **A matching event that the filtered listing misses**: its tag value was replaced on the way to
the store, while the index kept the one that was written. -/
theorem listMetrics_misses_lossyWrite :
    Reachable (fun _ => True) (lossyStore longTag) ∧
      HasMatching (lossyStore longTag).db lossyFilter (bs "hits") ∧
      ∃ out, listMetrics (lossyStore longTag).db lossyFilter = some (.ok out) ∧
        bs "hits" ∉ out := by
  refine lossyStore_missed ?_
  rw [longTag, List.length_replicate]
  decide

end FlameDB
