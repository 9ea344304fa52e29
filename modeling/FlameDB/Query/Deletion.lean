import FlameDB.Query.Discovery
import FlameDB.Query.TimeRange

/-!
# Preview and DELETE

A DELETE removes the named entities from their boards and, unless it names boards and gives no
filter, the events of its metric that its scan finds.  Its preview runs the same scan without a
batch.

* `stageDelete_counts` — both report the events the scan finds and the named entities with a score.
* `Repeats` — a store after a DELETE, in which the same DELETE finds nothing.
* `Query.Erases` — the items a DELETE has to remove.
* **`delete_as_previewed`** — the preview counts what the DELETE removes, and a second DELETE
  removes nothing; in runs of lossless writes a DELETE removes exactly what it has to.
-/

namespace FlameDB

open Go KV

/-- The same DELETE as a dry run. -/
def Query.preview (q : Query) : Query := { q with dryRun := true }

/-- The number of named entities that have a score. -/
def boardCount (db : Store) (q : Query) : ℕ :=
  ((boardsOf q).entries.filter fun kv =>
    Leaderboard.existsEntry db (boardMetric q.metric kv.1) kv.2).length

lemma deleteBoard_count {db : Store} {q : Query} {acc acc' : Store × ℕ} {kv : Bytes × Bytes}
    (h : deleteBoard db q acc kv = .ok acc') : acc'.2 =
      if Leaderboard.existsEntry db (boardMetric q.metric kv.1) kv.2 then acc.2 + 1 else acc.2 := by
  rw [deleteBoard] at h
  by_cases hdry : q.dryRun = true
  · rw [if_pos hdry] at h
    cases h
    rfl
  · rw [if_neg hdry] at h
    obtain ⟨b, -, hret⟩ := bind_eq_ok_iff.mp h
    cases hret
    rfl

lemma deleteBoards_count {db : Store} {q : Query} {l : List (Bytes × Bytes)} {acc acc' : Store × ℕ}
    (h : l.foldlM (deleteBoard db q) acc = .ok acc') : acc'.2 = acc.2 +
      (l.filter fun kv => Leaderboard.existsEntry db (boardMetric q.metric kv.1) kv.2).length := by
  induction l generalizing acc with
  | nil =>
      cases h
      rfl
  | cons kv l ih =>
      rw [List.foldlM_cons] at h
      obtain ⟨mid, hmid, hrest⟩ := bind_eq_ok_iff.mp h
      rw [ih hrest, deleteBoard_count hmid, List.filter_cons]
      split_ifs
      · rw [List.length_cons]
        omega
      · rfl

section Stage

variable {db : Store} (hs : StoreInv db) {σ : Scores} (hσ : LBInv db σ) {q : Query}
  (hq : q.Stageable) (hty : q.type = .delete)

include hs hσ hq hty

/-- **What a DELETE reports**, dry or not. -/
lemma stageDelete_counts : ∃ b, stageMutation db q =
      .ok (if q.dryRun then db else (deletedEvents db q).foldl (dropEvent q.metric) b,
        ⟨q.dryRun, (deletedEvents db q).length, boardCount db q⟩) ∧
    StoreInv b ∧ LBInv b (deleteScores σ q) ∧ AgreeOffScores db b := by
  obtain ⟨b, n, hstage, hsb, hσb, hoff, -⟩ := stageDelete_spec hs hσ hq hty
  refine ⟨b, ?_, hsb, hσb, hoff⟩
  have hn : n = boardCount db q := by
    simp only [stageMutation, hty] at hstage
    obtain ⟨⟨b₀, n₀⟩, hboards, hrest⟩ := bind_eq_ok_iff.mp hstage
    obtain ⟨⟨b₁, m⟩, -, hret⟩ := bind_eq_ok_iff.mp hrest
    have hcount := deleteBoards_count hboards
    simp only [Nat.zero_add] at hcount
    cases hret
    exact hcount
  rw [hstage, hn]

end Stage

/-- A DELETE that is no replica operation is its stage. -/
lemma executeMutation_delete {s : Executor} {q : Query} (hty : q.type = .delete)
    (hclient : hasReceipt q = false) {db : Store} {res : DeleteResult}
    (hstage : stageMutation s.db q = .ok (db, res)) (now : Int64) :
    executeMutation now s q = ({ s with db := db }, .ok (some res)) := by
  have hassign : assignTimestamp now s q = (s, q) := if_neg fun h => by simp [hty] at h
  have hbatch : mutationBatch s.db q = .ok (db, res) := by
    rw [mutationBatch, if_neg fun h => by simp [hclient] at h, hstage]
    simp [hclient, bind, Except.bind, pure, Except.pure]
  simp only [executeMutation, hassign, hbatch, hty, if_true]

/-! ## What is left

Exactly the matching events and their references are gone. -/

/-- Dropping events adds nothing. -/
lemma get?_dropEvents_sub {m : Bytes} {b : Store} {es : List Event} {k : Bytes} {v : Value}
    (h : (es.foldl (dropEvent m) b).get? k = some v) : b.get? k = some v := by
  induction es generalizing b with
  | nil => exact h
  | cons e es ih =>
      have hone := ih h
      rw [dropEvent, OrdMap.get?_erase, eraseIndex,
        OrdMap.get?_foldl_erase (fun kv : Bytes × Bytes =>
          indexKey m kv.1 kv.2 e.timestamp)] at hone
      split_ifs at hone
      exact hone

lemma get?_dropEvents_background {m : Bytes} (hw : m ≠ [] ∧ m ∉ Key.reserved) {b : Store}
    {es : List Event} {k : Bytes} (hk : IsBackground k) :
    (es.foldl (dropEvent m) b).get? k = b.get? k := by
  induction es generalizing b with
  | nil => rfl
  | cons e es ih => exact ih.trans (get?_dropEvent_background hw b e hk)

/-- Dropping events takes their times and their references. -/
lemma lookup_dropEvents_event {m : Bytes} (hw : m ≠ [] ∧ m ∉ Key.reserved) (b : Store)
    (es : List Event) {m' : Bytes} {t : Int64} (hK : (Key.event m' t).WF) :
    lookup (es.foldl (dropEvent m) b) (.event m' t) =
      if m' = m ∧ ∃ e ∈ es, e.timestamp = t then none else lookup b (.event m' t) := by
  induction es generalizing b with
  | nil => simp
  | cons e es ih =>
      rw [List.foldl_cons, ih, lookup_dropEvent_of_notIndex hw b hK trivial]
      by_cases hm : m' = m
      · by_cases ht : e.timestamp = t
        · simp [hm, ht]
        · simp [hm, ht, Ne.symm ht]
      · simp [hm]

lemma lookup_dropEvents_index {m : Bytes} (hw : m ≠ [] ∧ m ∉ Key.reserved) (b : Store)
    (es : List Event) (m' k v : Bytes) (t : Int64) :
    lookup (es.foldl (dropEvent m) b) (.index m' k v t) =
      if m' = m ∧ ∃ e ∈ es, e.timestamp = t ∧ e.tags.get? k = some v then none
      else lookup b (.index m' k v t) := by
  induction es generalizing b with
  | nil => simp
  | cons e es ih =>
      rw [List.foldl_cons, ih, lookup_dropEvent_index hw]
      by_cases hm : m' = m
      · by_cases ht : e.timestamp = t
        · by_cases hv : e.tags.get? k = some v
          · simp [hm, ht, hv]
          · simp [hm, ht, hv]
        · simp [hm, ht, Ne.symm ht]
      · simp [hm]

lemma lookup_dropEvents_other {m : Bytes} (hw : m ≠ [] ∧ m ∉ Key.reserved) (b : Store)
    (es : List Event) {K : Key} (hK : K.WF) (hni : K.NotIndex) (hne : ∀ t, K ≠ .event m t) :
    lookup (es.foldl (dropEvent m) b) K = lookup b K := by
  induction es generalizing b with
  | nil => rfl
  | cons e es ih =>
      rw [List.foldl_cons, ih, lookup_dropEvent_of_notIndex hw b hK hni, if_neg (hne _)]

/-- Removing entities from boards adds no row. -/
lemma LBInv.sub_of_delete {db b : Store} {σ : Scores} (hσ : LBInv db σ) {q : Query}
    (hσb : LBInv b (deleteScores σ q)) (hb : Keyed b) (hoff : AgreeOffScores db b) {k : Bytes}
    {v : Value} (h : b.get? k = some v) : db.get? k = some v := by
  have hscores : ∀ {m b e s}, (deleteScores σ q m b).get? e = some s → (σ m b).get? e = some s := by
    intro m b e s hget
    rw [deleteScores] at hget
    split_ifs at hget
    · exact hget
    · rw [get?_removeBoards] at hget
      split_ifs at hget
      exact hget
  by_cases hk : IsScoreKey k
  · obtain ⟨y, rfl | rfl⟩ := hk
    · obtain ⟨m, b', e, s, hm, rfl⟩ := hb.rank_of_front h
      obtain ⟨hget, hval⟩ := (hσb.rank_some_iff hm b' e s v).mp h
      exact (hσ.rank_some_iff hm b' e s v).mpr ⟨hscores hget, hval⟩
    · obtain ⟨m, b', e, hm, rfl⟩ := hb.entity_of_front h
      have hent : lookup b (.entity m b' e) = some v := h
      rw [hσb.entity m b' e hm, Option.map_eq_some_iff] at hent
      obtain ⟨s, hget, hval⟩ := hent
      have hent' := hσ.entity m b' e hm
      rw [hscores hget, Option.map_some, hval] at hent'
      exact hent'
  · rwa [hoff k hk] at h

/-! ## Repeating a DELETE

The second one finds nothing, so its counts are zero and the store stays. -/

/-- A store in which a DELETE has been run: no row is new, the cardinalities are the same, and the
events it found are gone. -/
structure Repeats (db db' : Store) (q : Query) : Prop where
  sub : ∀ k v, db'.get? k = some v → db.get? k = some v
  cards : ∀ k, IsBackground k → db'.get? k = db.get? k
  gone : ∀ e ∈ deletedEvents db q, eventAt db' q.metric e.timestamp = none

lemma bestIndexTag_congr {db db' : Store} (h : ∀ k, IsBackground k → db'.get? k = db.get? k)
    (m : Bytes) (tags : Tags) : bestIndexTag db' m tags = bestIndexTag db m tags := by
  have hcard : ∀ k, getCardinality db' m k = getCardinality db m k := by
    intro k
    rw [getCardinality, getCardinality, getCardCount, getCardCount,
      h (cardCountKey m k) ⟨bs "card-count", by decide, _, rfl⟩]
  simp only [bestIndexTag, hcard]

lemma fetchRow_of_sub {db db' : Store} (hsub : ∀ k v, db'.get? k = some v → db.get? k = some v)
    {m : Bytes} {indexed : Bool} {row : Bytes × Value} {p : Bytes × Event}
    (h : fetchRow db' m indexed row = .ok (some p)) : fetchRow db m indexed row = .ok (some p) := by
  cases indexed with
  | false => exact h
  | true =>
      simp only [fetchRow, if_true] at h ⊢
      cases hval : row.2 with
      | bytes primaryKey =>
          simp only [hval] at h ⊢
          cases hdata : db'.get? primaryKey with
          | none => simp [hdata] at h
          | some data =>
              rw [hdata] at h
              rw [hsub _ _ hdata]
              exact h
      | _ => simp [hval] at h

/-- **A repeated DELETE finds no event.** -/
lemma Repeats.deletedEvents_eq_nil {db db' : Store} {q : Query} (h : Repeats db db' q)
    (hs' : StoreInv db') (hw : q.metric ≠ [] ∧ q.metric ∉ Key.reserved) : deletedEvents
      db' q = [] := by
  rw [List.eq_nil_iff_forall_not_mem]
  intro e he
  have hstored := (hs'.deletedEvents_spec hw he).1
  have hbounds : scanBounds db' q.metric q.from_ q.stop q.where_ =
      scanBounds db q.metric q.from_ q.stop q.where_ := by
    rw [scanBounds, scanBounds, bestIndexTag_congr h.cards]
  have hfound : e ∈ deletedEvents db q := by
    rw [deletedEvents] at he ⊢
    split_ifs at he ⊢ with hscan
    · simp only [hbounds] at he
      obtain ⟨row, hrow, pk, hfetch, hmatch⟩ := mem_hits_iff.mp he
      refine mem_hits_iff.mpr ⟨row, ?_, pk, fetchRow_of_sub h.sub hfetch, hmatch⟩
      obtain ⟨key, val⟩ := row
      rw [OrdMap.mem_range_iff] at hrow ⊢
      exact ⟨h.sub _ _ hrow.1, hrow.2⟩
    · cases he
  rw [h.gone e hfound] at hstored
  cases hstored

lemma deleteScores_idem (σ : Scores) (q : Query) :
    deleteScores (deleteScores σ q) q = deleteScores σ q := by
  funext m b
  refine OrdMap.ext_get fun e => ?_
  simp only [deleteScores]
  split_ifs
  · rfl
  · rw [get?_removeBoards, get?_removeBoards]
    split_ifs <;> rfl

/-- The named entities are gone from their boards. -/
lemma LBInv.boardCount_eq_zero {b : Store} {σ : Scores} {q : Query}
    (hσ : LBInv b (deleteScores σ q))
    (hm : unitSep ∉ q.metric) (hdry : q.dryRun = false) : boardCount b q = 0 := by
  rw [boardCount, List.length_eq_zero_iff, List.filter_eq_nil_iff]
  intro kv hkv hexists
  have hent := hσ.entity q.metric kv.1 kv.2 hm
  rw [deleteScores, hdry, if_neg (by simp), get?_removeBoards, if_pos ⟨rfl, hkv⟩] at hent
  have hnone : b.get? (lbEntityKey (boardMetric q.metric kv.1) kv.2) = none := hent
  rw [Leaderboard.existsEntry, hnone] at hexists
  cases hexists

section After

variable {db b : Store} {σ : Scores} (hσ : LBInv db σ) {q : Query} (hq : q.Stageable)
  (hsb : StoreInv b) (hσb : LBInv b (deleteScores σ q)) (hoff : AgreeOffScores db b)

include hσ hq hsb hσb hoff

lemma repeats_delete : Repeats db ((deletedEvents db q).foldl (dropEvent q.metric) b) q where
  sub k v h := hσ.sub_of_delete hσb hsb.keyed hoff (get?_dropEvents_sub h)
  cards k hk := (get?_dropEvents_background hq.metric_wf hk).trans
    (hoff k (not_isScoreKey_of_isBackground hk))
  gone e he := by
    have hK : (Key.event q.metric e.timestamp).WF := hq.metric_wf
    rw [eventAt, lookup_dropEvents_event hq.metric_wf b _ hK, if_pos ⟨rfl, e, he, rfl⟩,
      Option.bind_none]

/-- **A repeated DELETE changes nothing.** -/
lemma stageDelete_again (hty : q.type = .delete) (hdry : q.dryRun = false) :
    stageMutation ((deletedEvents db q).foldl (dropEvent q.metric) b) q =
      .ok ((deletedEvents db q).foldl (dropEvent q.metric) b, ⟨false, 0, 0⟩) := by
  have hs' := hsb.dropEvents q.metric (deletedEvents db q)
  have hσ' := hσb.dropEvents hq.metric_wf (deletedEvents db q)
  have hcount := hσ'.boardCount_eq_zero hq.metric_noSep hdry
  have hnil := (repeats_delete hσ hq hsb hσb hoff).deletedEvents_eq_nil hs' hq.metric_wf
  generalize (deletedEvents db q).foldl (dropEvent q.metric) b = db' at *
  obtain ⟨b', hstage, hsb', hσb', hoff'⟩ := stageDelete_counts hs' hσ' hq hty
  rw [deleteScores_idem] at hσb'
  rw [hnil, hcount, hdry] at hstage
  have hsame : db' = b' := hσ'.store_ext hσb' hs'.keyed hsb'.keyed hoff'
  rw [hstage, hsame]
  rfl

end After

/-! ## Exactness -/

/-- The events a DELETE has to remove: those with all tags of the filter in the half-open interval,
unless it names boards and gives no filter. -/
structure Query.Removes (q : Query) (e : Event) : Prop where
  asked : (boardsOf q).entries = [] ∨ q.where_.entries ≠ []
  tagged : ∀ kv ∈ q.where_.entries, e.tags.get? kv.1 = some kv.2
  from_le : q.from_ ≤ e.timestamp
  lt_stop : e.timestamp < q.stop

/-- The items a DELETE has to remove: the events, all their references, and the two rows of each
named entity. -/
def Query.Erases (q : Query) (db : Store) : Key → Prop
  | .event m t => m = q.metric ∧ ∃ e, eventAt db m t = some e ∧ q.Removes e
  | .index m _ _ t => m = q.metric ∧ ∃ e, eventAt db m t = some e ∧ q.Removes e
  | .rank m b e _ => m = q.metric ∧ (b, e) ∈ (boardsOf q).entries
  | .entity m b e => m = q.metric ∧ (b, e) ∈ (boardsOf q).entries
  | _ => False

/-- Exactly the items of a DELETE are gone, and nothing else has changed. -/
structure DeletesExactly (q : Query) (db db' : Store) : Prop where
  erased : ∀ K : Key, K.WF → q.Erases db K → lookup db' K = none
  kept : ∀ K : Key, K.WF → ¬ q.Erases db K → lookup db' K = lookup db K
  cards : ∀ k, IsBackground k → db'.get? k = db.get? k

lemma Admitted.bounds_sign {q : Query} (hq : Admitted q) : q.from_ < 0 ↔ q.stop < 0 := by
  have hfrom := hq.range_nonneg.1
  have hstop := hq.stop_pos
  simp only [Int64.lt_iff_toInt_lt, Int64.le_iff_toInt_le] at *
  omega

/-- The scan finds the events to remove, by a filter if the index is exact. -/
lemma StoreInv.mem_deletedEvents_iff {db : Store} (hs : StoreInv db) {q : Query}
    (hix : q.where_.entries ≠ [] → IndexExact db) (hq : Admitted q) (hw : q.metric ≠ [] ∧
      q.metric ∉ Key.reserved) (e : Event) :
    e ∈ deletedEvents db q ↔ eventAt db q.metric e.timestamp = some e ∧ q.Removes e := by
  have hscan : e ∈ scanned db q.metric q.from_ q.stop q.where_ ↔ _ :=
    hs.mem_scanned_iff hix hw
  have hrank := timeRank_interval_iff hq.bounds_sign e.timestamp
  rw [deletedEvents]
  split_ifs with hasked
  · refine hscan.trans ⟨fun h => ?_, fun h => ?_⟩
    · obtain ⟨hlo, hhi⟩ := hrank.mp ⟨h.start_le, h.lt_stop⟩
      exact ⟨h.stored, hasked, matchTags_iff.mp h.passes, hlo, hhi⟩
    · obtain ⟨hlo, hhi⟩ := hrank.mpr ⟨h.2.from_le, h.2.lt_stop⟩
      exact ⟨h.1, matchTags_iff.mpr h.2.tagged, hlo, hhi⟩
  · refine ⟨fun h => ?_, fun h => absurd h.2.asked hasked⟩
    cases h

/-- **A DELETE removes exactly its items** from a store with an exact index. -/
lemma deletesExactly_of_indexExact {db b : Store} (hs : StoreInv db) (hix : IndexExact db)
    {σ : Scores} (hσ : LBInv db σ) {q : Query} (hq : Admitted q) (hty : q.type = .delete)
    (hdry : q.dryRun = false) (hσb : LBInv b (deleteScores σ q)) (hoff : AgreeOffScores db b) :
    DeletesExactly q db ((deletedEvents db q).foldl (dropEvent q.metric) b) := by
  have hstage : q.Stageable := hq.stageable (by simp [hty])
  have hw := hstage.metric_wf
  have hσ' := hσb.dropEvents hw (deletedEvents db q)
  have hmem := hs.mem_deletedEvents_iff (fun _ => hix) hq hw
  have htime : ∀ t, (∃ e ∈ deletedEvents db q, e.timestamp = t) ↔
      ∃ e, eventAt db q.metric t = some e ∧ q.Removes e := by
    intro t
    constructor
    · rintro ⟨e, he, rfl⟩
      exact ⟨e, (hmem e).mp he⟩
    · rintro ⟨e, hat, hrem⟩
      have ht := hs.timestamp_eq hw hat
      exact ⟨e, (hmem e).mpr ⟨ht ▸ hat, hrem⟩, ht⟩
  have hscore : ∀ m b e, (deleteScores σ q m b).get? e =
      if m = q.metric ∧ (b, e) ∈ (boardsOf q).entries then none else (σ m b).get? e := by
    intro m b e
    rw [deleteScores, hdry, if_neg (by simp), get?_removeBoards]
  refine ⟨fun K hK hE => ?_, fun K hK hE => ?_, fun k hk => ?_⟩
  · cases K with
    | event m t =>
        obtain ⟨rfl, hgone⟩ := hE
        rw [lookup_dropEvents_event hw b _ hK, if_pos ⟨rfl, (htime t).mpr hgone⟩]
    | index m k v t =>
        obtain ⟨rfl, hgone⟩ := hE
        rw [lookup_dropEvents_index hw b]
        split_ifs with hdrop
        · rfl
        · -- a reference to another value would contradict the exact index
          obtain ⟨e, he, ht⟩ := (htime t).mpr hgone
          have hat := ((hmem e).mp he).1
          rw [ht] at hat
          rw [hoff.lookup (K := .index q.metric k v t) trivial (by simp [Key.IsScore]),
            hix _ k v t hw,
            if_neg]
          rw [tagAt, hat, Option.bind_some]
          exact fun hv => hdrop ⟨rfl, e, he, ht, hv⟩
    | rank m b' e s =>
        have hnamed : m = q.metric ∧ (b', e) ∈ (boardsOf q).entries := hE
        rw [hσ'.rank m b' e s hK, hscore, if_pos hnamed, if_neg (by simp)]
    | entity m b' e =>
        have hnamed : m = q.metric ∧ (b', e) ∈ (boardsOf q).entries := hE
        rw [hσ'.entity m b' e hK, hscore, if_pos hnamed, Option.map_none]
    | _ => exact hE.elim
  · cases K with
    | event m t =>
        rw [lookup_dropEvents_event hw b _ hK, if_neg, hoff.lookup hK (by simp [Key.IsScore])]
        rintro ⟨rfl, hdrop⟩
        exact hE ⟨rfl, (htime t).mp hdrop⟩
    | index m k v t =>
        rw [lookup_dropEvents_index hw b, if_neg, hoff.lookup hK (by simp [Key.IsScore])]
        rintro ⟨rfl, e, he, ht, -⟩
        exact hE ⟨rfl, (htime t).mp ⟨e, he, ht⟩⟩
    | rank m b' e s =>
        have hother : ¬ (m = q.metric ∧ (b', e) ∈ (boardsOf q).entries) := hE
        rw [hσ'.rank m b' e s hK, hscore, if_neg hother, hσ.rank m b' e s hK]
    | entity m b' e =>
        have hother : ¬ (m = q.metric ∧ (b', e) ∈ (boardsOf q).entries) := hE
        rw [hσ'.entity m b' e hK, hscore, if_neg hother, hσ.entity m b' e hK]
    | _ =>
        rw [lookup_dropEvents_other hw b _ hK trivial (by simp), hoff.lookup hK
          (by simp [Key.IsScore])]
  · exact (get?_dropEvents_background hw hk).trans (hoff k (not_isScoreKey_of_isBackground hk))

/-- **A DELETE does what its preview says.**  In every reachable store the preview changes nothing
and reports the counts of the DELETE run right after it, and a repeated DELETE reports zero and
changes nothing.  If the writes of the run were stored without loss, the DELETE removes exactly its
items. -/
theorem delete_as_previewed {s : Executor} (hs : Reachable (fun _ => True) s) {q : Query}
    (hq : Admitted q) (hty : q.type = .delete) (hdry : q.dryRun = false)
    (hclient : hasReceipt q = false) (now₁ now₂ now₃ : Int64) :
    ∃ events entries s',
      executeMutation now₁ s q.preview = (s, .ok (some ⟨true, events, entries⟩)) ∧
      executeMutation now₂ s q = (s', .ok (some ⟨false, events, entries⟩)) ∧
      executeMutation now₃ s' q = (s', .ok (some ⟨false, 0, 0⟩)) ∧
      (Reachable Query.StoresLossless s → DeletesExactly q s.db s'.db) := by
  obtain ⟨hstore, σ, hσ⟩ := hs.inv
  have hstage : q.Stageable := hq.stageable (by simp [hty])
  have hpreview : q.preview.Stageable := ⟨hstage.1, hstage.2, hstage.3⟩
  obtain ⟨b₀, hb₀, -⟩ := stageDelete_counts hstore hσ hpreview hty
  have hdried : stageMutation s.db q.preview =
      .ok (s.db, ⟨true, (deletedEvents s.db q).length, boardCount s.db q⟩) := hb₀
  obtain ⟨b, hb, hsb, hσb, hoff⟩ := stageDelete_counts hstore hσ hstage hty
  have hagain := stageDelete_again hσ hstage hsb hσb hoff hty hdry
  have hexact : Reachable Query.StoresLossless s → DeletesExactly q s.db _ := fun hlossless =>
    deletesExactly_of_indexExact hstore hlossless.indexExact hσ hq hty hdry hσb hoff
  rw [hdry, if_neg (by simp)] at hb
  generalize (deletedEvents s.db q).foldl (dropEvent q.metric) b = db' at hb hagain hexact
  refine ⟨(deletedEvents s.db q).length, boardCount s.db q, { s with db := db' }, ?_,
    ?_, ?_, hexact⟩
  · have hpreviewed : hasReceipt q.preview = false := hclient
    exact executeMutation_delete (q := q.preview) hty hpreviewed hdried now₁
  · exact executeMutation_delete hty hclient hb now₂
  · exact executeMutation_delete (s := { s with db := db' }) hty hclient hagain now₃

/-- A preview and a DELETE of one of three events and of one of two players. -/
theorem delete_as_previewed_arena :
    ∃ s', executeMutation 0 arena rangedDeleteQuery.preview = (arena, .ok (some ⟨true, 1, 1⟩)) ∧
      executeMutation 0 arena rangedDeleteQuery = (s', .ok (some ⟨false, 1, 1⟩)) ∧
      executeMutation 0 s' rangedDeleteQuery = (s', .ok (some ⟨false, 0, 0⟩)) ∧
      DeletesExactly rangedDeleteQuery arena.db s'.db := by
  have hq : Admitted rangedDeleteQuery := Parsed.admitted ⟨0, rangedDelete, parse_rangedDelete⟩
  obtain ⟨events, entries, s', h₁, h₂, h₃, h₄⟩ :=
    delete_as_previewed arena_reachable hq rfl rfl rfl 0 0 0
  have hcounts : (executeMutation 0 arena rangedDeleteQuery.preview).2 =
      .ok (some ⟨true, 1, 1⟩) := by decide +kernel
  rw [h₁] at hcounts
  obtain ⟨rfl, rfl⟩ : events = 1 ∧ entries = 1 := by simpa using hcounts
  exact ⟨s', h₁, h₂, h₃, h₄ arena_lossless⟩

/-! ## References left behind

The references of an event are looked up under its stored tags. Tags that JSON has altered leave
theirs behind. -/

lemma deleteHits_admitted : Admitted deleteHits := ⟨by decide +kernel, by decide⟩

/-- The references of an event that was stored as JSON are looked for under its tags there. -/
lemma lossyStore_keeps_reference {v : Bytes} (hv : maxUint16 < v.length) :
    eventAt (executeMutation 0 (lossyStore v) deleteHits).1.db (bs "hits") 5 = none ∧
      (lookup (executeMutation 0 (lossyStore v) deleteHits).1.db
        (.index (bs "hits") (bs "a") [0xff] 5)).isSome := by
  have hs : Reachable (fun _ => True) (lossyStore v) :=
    .mutate (.empty 0) (lossyWrite_admitted v) (Or.inl rfl) trivial 0
  obtain ⟨hstore, σ, hσ⟩ := hs.inv
  obtain ⟨-, -, -, -, hrefs⟩ := lossyStore_rows v
  have hstage : deleteHits.Stageable := deleteHits_admitted.stageable (by decide)
  obtain ⟨b, hb, -, -, hoff⟩ := stageDelete_counts hstore hσ hstage rfl
  rw [executeMutation_delete rfl rfl hb]
  have hw : bs "hits" ≠ [] ∧ bs "hits" ∉ Key.reserved := by decide
  have hevent := lossyStore_event hv
  constructor
  · have htime : (0 : Int64) ≤ 5 ∧ (5 : Int64) < maxInt64 := by decide
    have hremoves : deleteHits.Removes (lossyEvent v) := by
      refine ⟨Or.inl rfl, fun kv hkv => ?_, htime.1, htime.2⟩
      cases hkv
    have hfound := (hstore.mem_deletedEvents_iff (fun h => absurd rfl h) deleteHits_admitted hw
      (lossyEvent v)).mpr ⟨hevent, hremoves⟩
    show eventAt ((deletedEvents (lossyStore v).db deleteHits).foldl
      (dropEvent (bs "hits")) b) _ _ = none
    rw [eventAt_dropEvents hw, if_pos ⟨lossyEvent v, hfound, rfl⟩]
  · show (lookup ((deletedEvents (lossyStore v).db deleteHits).foldl
      (dropEvent (bs "hits")) b) _).isSome
    rw [lookup_dropEvents_index hw, if_neg, hoff.lookup (K := .index _ _ _ _) trivial
      (by simp [Key.IsScore])]
    · exact (hrefs _ _ _).mpr ⟨rfl, rfl⟩
    · rintro ⟨-, e, he, ht, htag⟩
      have hat := (hstore.deletedEvents_spec hw he).1
      rw [ht] at hat
      have hat' : eventAt (lossyStore v).db (bs "hits") 5 = some e := hat
      rw [hevent] at hat'
      obtain rfl := Option.some.inj hat'
      rw [lossyEvent_tag] at htag
      exact absurd htag (by decide)

/-- **A DELETE that leaves a reference behind.**  The event was stored as JSON and lost a tag value
on the way, so its reference under that value is not found when it is deleted. -/
theorem delete_leaves_reference :
    Reachable (fun _ => True) (lossyStore longTag) ∧
      (eventAt (lossyStore longTag).db (bs "hits") 5).isSome ∧
      eventAt (executeMutation 0 (lossyStore longTag) deleteHits).1.db (bs "hits") 5 = none ∧
      (lookup (executeMutation 0 (lossyStore longTag) deleteHits).1.db
        (.index (bs "hits") (bs "a") [0xff] 5)).isSome := by
  have hlong : maxUint16 < longTag.length := by
    rw [longTag, List.length_replicate]
    decide
  refine ⟨(lossyStore_missed hlong).1, ?_, lossyStore_keeps_reference hlong⟩
  rw [lossyStore_event hlong]
  rfl

end FlameDB
