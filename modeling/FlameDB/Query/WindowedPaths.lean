import FlameDB.Go.FloatSum
import FlameDB.Query.Provenance
import FlameDB.Query.Scan
import FlameDB.Storage.HeapPage

/-!
# Two ways to sum a window

`WindowedLeaderboard` walks over the events of a window in time order; `WindowedEntitySums` walks
over the references of each listed entity.  Both come down to the values of an entity's events in
time order.

* `valuesOf` — these values.
* `mem_entitySums_iff` — the sums of the first walk.
* `StoreInv.sumReferences_eq` — the sum of the second one.
* `windowed_paths_agree` — both, with the page of the first.
-/

namespace Go.Float64

/-- Numbers that are alike are `==`. -/
lemma Alike.same {x y : Float64} (h : Alike x y) (hy : y.isNaN = false) : x.same y = true := by
  rcases h with rfl | ⟨h1, h2⟩
  · simp [Float64.same, hy]
  · have hx : x.isNaN = false := by
      rw [isNaN, isZero_iff_low.mp h1]
      decide
    have hu : x.units = y.units := by
      simp only [isZero, decide_eq_true_eq] at h1 h2
      rw [h1, h2]
    simp [Float64.same, hx, hy, hu]

end Go.Float64

namespace FlameDB

open Go KV

/-- The values of the events whose tag names an entity, in order. -/
def valuesOf (tag entity : Bytes) (events : List Event) : List Float64 :=
  (events.filter fun e => e.tags.get? tag = some entity).map (·.value)

lemma valuesOf_append_singleton (tag entity : Bytes) (events : List Event) (e : Event) :
    valuesOf tag entity (events ++ [e]) =
      valuesOf tag entity events ++ if e.tags.get? tag = some entity then [e.value] else [] := by
  rw [valuesOf, List.filter_append, List.map_append, valuesOf]
  by_cases h : e.tags.get? tag = some entity <;> simp [h]

lemma valuesOf_ne_nil_iff {tag entity : Bytes} {events : List Event} :
    valuesOf tag entity events ≠ [] ↔ ∃ e ∈ events, e.tags.get? tag = some entity := by
  rw [valuesOf, ne_eq, List.map_eq_nil_iff, List.filter_eq_nil_iff]
  simp

lemma total_append_singleton (l : List Float64) (v : Float64) :
    Float64.total (l ++ [v]) = if l = [] then v else Float64.total l + v := by
  cases l with
  | nil => rfl
  | cons x l => simp [Float64.total]

/-! ## The walk over the events

It keeps one sum for each entity, in the order in which the entities appear. -/

lemma map_entityID_addSum (id : Bytes) (v : Float64) (sums : List LeaderboardEntry) :
    (addSum id v sums).map (·.entityID) =
      if id ∈ sums.map (·.entityID) then
        sums.map (·.entityID) else sums.map (·.entityID) ++ [id] := by
  induction sums with
  | nil => simp [addSum]
  | cons entry sums ih =>
    rw [addSum]
    by_cases hid : entry.entityID = id
    · simp [hid]
    · rw [if_neg hid, List.map_cons, ih]
      by_cases hmem : id ∈ sums.map (·.entityID)
      · rw [if_pos hmem, if_pos (by simp only [List.map_cons]; exact List.mem_cons_of_mem _ hmem)]
        rfl
      · have hnot : id ∉ (entry :: sums).map (·.entityID) := by
          simp only [List.map_cons, List.mem_cons, not_or]
          exact ⟨Ne.symm hid, hmem⟩
        rw [if_neg hmem, if_neg hnot]
        rfl

/-- An entity's entry after adding a value, the others as they were. -/
lemma mem_addSum_iff {id : Bytes} {v : Float64} {sums : List LeaderboardEntry}
    (hnodup : (sums.map (·.entityID)).Nodup) {entry : LeaderboardEntry} :
    entry ∈ addSum id v sums ↔ (entry.entityID ≠ id ∧ entry ∈ sums) ∨
      (entry.entityID = id ∧ ((∃ old ∈ sums, old.entityID = id ∧ entry.value = old.value + v) ∨
        (id ∉ sums.map (·.entityID) ∧ entry.value = v))) := by
  induction sums with
  | nil =>
    obtain ⟨id', v'⟩ := entry
    simp [addSum]
  | cons first sums ih =>
    rw [List.map_cons, List.nodup_cons] at hnodup
    rw [addSum]
    by_cases hid : first.entityID = id
    · have hrest : ∀ old ∈ sums, old.entityID ≠ id := by
        intro old hold heq
        exact hnodup.1 (List.mem_map.mpr ⟨old, hold, heq.trans hid.symm⟩)
      rw [if_pos hid, List.mem_cons]
      constructor
      · rintro (rfl | hmem)
        · exact Or.inr ⟨hid, Or.inl ⟨first, List.mem_cons_self, hid, rfl⟩⟩
        · exact Or.inl ⟨hrest entry hmem, List.mem_cons_of_mem _ hmem⟩
      · rintro (⟨hne, hmem⟩ | ⟨heq, ⟨old, hold, hoid, hval⟩ | ⟨hnot, -⟩⟩)
        · rcases List.mem_cons.mp hmem with rfl | hmem
          · exact absurd hid hne
          · exact Or.inr hmem
        · rcases List.mem_cons.mp hold with rfl | hold
          · left
            obtain ⟨id', v'⟩ := entry
            simp only at heq hval
            rw [heq, hval, ← hoid]
          · exact absurd hoid (hrest old hold)
        · exact absurd (by simp [hid]) hnot
    · rw [if_neg hid, List.mem_cons, ih hnodup.2]
      constructor
      · rintro (rfl | ⟨hne, hmem⟩ | ⟨heq, ⟨old, hold, hrest⟩ | ⟨hnot, hval⟩⟩)
        · exact Or.inl ⟨hid, List.mem_cons_self⟩
        · exact Or.inl ⟨hne, List.mem_cons_of_mem _ hmem⟩
        · exact Or.inr ⟨heq, Or.inl ⟨old, List.mem_cons_of_mem _ hold, hrest⟩⟩
        · refine Or.inr ⟨heq, Or.inr ⟨?_, hval⟩⟩
          rw [List.map_cons, List.mem_cons, not_or]
          exact ⟨Ne.symm hid, hnot⟩
      · rintro (⟨hne, hmem⟩ | ⟨heq, ⟨old, hold, hoid, hval⟩ | ⟨hnot, hval⟩⟩)
        · rcases List.mem_cons.mp hmem with rfl | hmem
          · exact Or.inl rfl
          · exact Or.inr (Or.inl ⟨hne, hmem⟩)
        · rcases List.mem_cons.mp hold with rfl | hold
          · exact absurd hoid hid
          · exact Or.inr (Or.inr ⟨heq, Or.inl ⟨old, hold, hoid, hval⟩⟩)
        · rw [List.map_cons, List.mem_cons, not_or] at hnot
          exact Or.inr (Or.inr ⟨heq, Or.inr ⟨hnot.2, hval⟩⟩)

/-- What the sums of a list of events are. -/
structure SumsOf (tag : Bytes) (events : List Event) (sums : List LeaderboardEntry) : Prop where
  nodup : (sums.map (·.entityID)).Nodup
  mem_iff : ∀ entry, entry ∈ sums ↔ entry.entityID ≠ [] ∧ valuesOf tag entry.entityID events ≠ [] ∧
    entry.value = Float64.total (valuesOf tag entry.entityID events)

lemma SumsOf.mem_ids_iff {tag : Bytes} {events : List Event} {sums : List LeaderboardEntry}
    (h : SumsOf tag events sums) {id : Bytes} :
    id ∈ sums.map (·.entityID) ↔ id ≠ [] ∧ valuesOf tag id events ≠ [] := by
  rw [List.mem_map]
  constructor
  · rintro ⟨entry, hentry, rfl⟩
    obtain ⟨h1, h2, -⟩ := (h.mem_iff entry).mp hentry
    exact ⟨h1, h2⟩
  · rintro ⟨h1, h2⟩
    exact ⟨⟨id, Float64.total (valuesOf tag id events)⟩, (h.mem_iff _).mpr ⟨h1, h2, rfl⟩, rfl⟩

/-- One event more. -/
lemma SumsOf.add {tag : Bytes} {events : List Event} {sums : List LeaderboardEntry}
    (h : SumsOf tag events sums) {e : Event} {id : Bytes} (hid : id ≠ [])
    (htag : e.tags.get? tag = some id) : SumsOf tag (events ++ [e]) (addSum id e.value sums) := by
  have hother : ∀ {id'}, id' ≠ id → valuesOf tag id' (events ++ [e]) = valuesOf tag id' events := by
    intro id' hne
    rw [valuesOf_append_singleton, if_neg, List.append_nil]
    rw [htag]
    exact fun hc => hne (Option.some.inj hc).symm
  have hown : valuesOf tag id (events ++ [e]) = valuesOf tag id events ++ [e.value] := by
    rw [valuesOf_append_singleton, if_pos htag]
  constructor
  · rw [map_entityID_addSum]
    split_ifs with hmem
    · exact h.nodup
    · exact List.nodup_append.mpr ⟨h.nodup, List.nodup_singleton id,
        fun a ha b hb hab => hmem (by rwa [← List.mem_singleton.mp hb, ← hab])⟩
  · intro entry
    rw [mem_addSum_iff h.nodup]
    by_cases heq : entry.entityID = id
    · rw [heq, hown, total_append_singleton]
      by_cases hnil : valuesOf tag id events = []
      · have hnew : id ∉ sums.map (·.entityID) := fun hc => (h.mem_ids_iff.mp hc).2 hnil
        have hnone : ¬ ∃ old ∈ sums, old.entityID = id ∧ entry.value = old.value + e.value := by
          rintro ⟨old, hold, hoid, -⟩
          exact hnew (List.mem_map.mpr ⟨old, hold, hoid⟩)
        simp [hnil, hnew, hnone, hid]
      · have hold : id ∈ sums.map (·.entityID) := h.mem_ids_iff.mpr ⟨hid, hnil⟩
        have hval : (∃ old ∈ sums, old.entityID = id ∧ entry.value = old.value + e.value) ↔
            entry.value = Float64.total (valuesOf tag id events) + e.value := by
          constructor
          · rintro ⟨old, hmem, hoid, hv⟩
            obtain ⟨-, -, hsum⟩ := (h.mem_iff old).mp hmem
            rw [hv, hsum, hoid]
          · intro hv
            exact ⟨⟨id, _⟩, (h.mem_iff _).mpr ⟨hid, hnil, rfl⟩, rfl, hv⟩
        rw [hval]
        simp [hnil, hold, hid]
    · rw [hother heq, h.mem_iff entry]
      simp [heq]

/-- **The sums of the walk over the events.** -/
theorem mem_entitySums_iff (tag : Bytes) (events : List Event) :
    SumsOf tag events (entitySums tag events) := by
  induction events using List.reverseRecOn with
  | nil => exact ⟨List.nodup_nil, fun entry => by simp [entitySums, valuesOf]⟩
  | append_singleton events e ih =>
    rw [entitySums, List.foldl_append, List.foldl_cons, List.foldl_nil, ← entitySums]
    have hskip : (∀ id, e.tags.get? tag = some id → id = []) →
        SumsOf tag (events ++ [e]) (entitySums tag events) := by
      intro hnone
      refine ⟨ih.nodup, fun entry => ?_⟩
      rw [ih.mem_iff entry]
      refine and_congr_right fun hne => ?_
      rw [valuesOf_append_singleton, if_neg fun hc => hne (hnone _ hc), List.append_nil]
    rcases htag : e.tags.get? tag with _ | _ | ⟨b, id⟩
    · exact hskip fun id hid => by rw [htag] at hid; cases hid
    · exact hskip fun id hid => by rw [htag] at hid; exact (Option.some.inj hid).symm
    · exact ih.add (List.cons_ne_nil b id) htag

/-! ## The walk over the references

One entity at a time, along the references of its tag value. -/

/-- The filter for one tag value. -/
def tagFilter (tag entity : Bytes) : Tags := OrdMap.set ∅ tag entity

lemma entries_tagFilter (tag entity : Bytes) : (tagFilter tag entity).entries = [(tag, entity)] :=
  rfl

lemma matchTags_tagFilter {tag entity : Bytes} {e : Event} :
    matchTags (tagFilter tag entity) e = true ↔ e.tags.get? tag = some entity := by
  rw [matchTags_iff, entries_tagFilter]
  simp

lemma bestIndexTag_tagFilter (db : Store) (m tag entity : Bytes) :
    bestIndexTag db m (tagFilter tag entity) = (tag, entity) := by
  have hne : (tagFilter tag entity).entries ≠ [] := by simp [entries_tagFilter]
  have := bestIndexTag_mem db m hne
  rwa [entries_tagFilter, List.mem_singleton] at this

lemma scanRows_tagFilter (db : Store) (m tag entity : Bytes) (start stop : Int64) :
    scanRows db m start stop (tagFilter tag entity) =
      db.range (indexKey m tag entity start) (indexKey m tag entity stop) := by
  have hne : (tagFilter tag entity).entries ≠ [] := by simp [entries_tagFilter]
  rw [scanRows, scanBounds, if_neg hne, bestIndexTag_tagFilter]

lemma length_indexKey (m k v : Bytes) (t t' : Int64) :
    (indexKey m k v t).length = (indexKey m k v t').length := by
  simp [indexKey, timestampBytes]

section Sound

variable {db : Store} (hs : StoreInv db) (hix : IndexExact db) {m : Bytes}
  (hw : m ≠ [] ∧ m ∉ Key.reserved)

include hs hix hw

/-- **The references of an entity lead to its events.** -/
lemma StoreInv.sumReferences_eq (tag entity : Bytes) (start stop : Int64) (sum : Float64) :
    sumReferences db tag entity (indexKey m tag entity start).length
        (db.range (indexKey m tag entity start) (indexKey m tag entity stop)) sum =
      .ok (((scanned db m start stop (tagFilter tag entity)).map (·.value)).foldl (· + ·) sum) := by
  have hsound : RowsSound db m (tagFilter tag entity)
      (scanRows db m start stop (tagFilter tag entity)) := hs.rowsSound hw start stop _
  have hkey : ∀ row ∈ scanRows db m start stop (tagFilter tag entity), ∀ e,
      keeps db m (tagFilter tag entity) row e → row.1.length =
        (indexKey m tag entity start).length := by
    intro row hrow e hkeep
    have := (hs.key_of_keeps (fun _ => hix) hw hrow hkeep).2
    rw [if_neg (by simp [entries_tagFilter]), bestIndexTag_tagFilter] at this
    rw [this]
    exact length_indexKey ..
  rw [scanned]
  rw [scanRows_tagFilter] at hsound hkey ⊢
  generalize db.range (indexKey m tag entity start) (indexKey m tag entity stop) =
    rows at hsound hkey
  have hindexed : decide ((tagFilter tag entity).entries ≠ []) = true := by
    simp [entries_tagFilter]
  induction rows generalizing sum with
  | nil => rfl
  | cons row rows ih =>
    have hnext := fun sum' => ih sum' (fun r hr => hsound r (List.mem_cons_of_mem _ hr))
      fun r hr => hkey r (List.mem_cons_of_mem _ hr)
    obtain ⟨t, hfetch, -⟩ := hsound row List.mem_cons_self
    -- a row that is skipped is not kept by the filter
    have hskip : (∀ e, ¬ keeps db m (tagFilter tag entity) row e) →
        hits db m (tagFilter tag entity) (row :: rows) = hits db m (tagFilter tag entity) rows := by
      intro hnone
      refine hits_cons_none fun pk e he => ?_
      cases hmatch : matchTags (tagFilter tag entity) e with
      | false => rfl
      | true => exact absurd ⟨pk, he, hmatch⟩ (hnone e)
    rw [sumReferences]
    by_cases hlen : row.1.length = (indexKey m tag entity start).length
    · rw [if_neg (not_not.mpr hlen)]
      obtain ⟨key, val⟩ := row
      rw [fetchRow, hindexed, if_pos rfl] at hfetch
      cases val with
      | bytes pk =>
        simp only at hfetch ⊢
        cases hdata : db.get? pk with
        | none =>
          rw [hskip fun e he => by
            obtain ⟨pk', hf, -⟩ := he
            rw [fetchRow, hindexed, if_pos rfl] at hf
            simp [hdata] at hf]
          exact hnext sum
        | some data =>
          simp only [hdata] at hfetch ⊢
          cases hdec : decodeEventValue data m with
          | error msg => simp [hdec, bind, Except.bind] at hfetch
          | ok e =>
            have hrow : fetchRow db m ((tagFilter tag entity).entries ≠ []) (key, .bytes pk) =
                .ok (some (pk, e)) := by
              rw [fetchRow, hindexed, if_pos rfl]
              simp [hdata, hdec, bind, Except.bind, pure, Except.pure]
            rw [eventEntityValue_eq data tag m, hdec]
            simp only [Except.map, bind, Except.bind]
            by_cases htag : e.tags.get? tag = some entity
            · rw [if_pos htag, hits_cons_some hrow (matchTags_tagFilter.mpr htag), List.map_cons,
                List.foldl_cons]
              exact hnext _
            · rw [if_neg htag, hskip fun e' he' => by
                obtain ⟨pk', hf, hmatch⟩ := he'
                rw [hrow] at hf
                cases hf
                exact htag (matchTags_tagFilter.mp hmatch)]
              exact hnext sum
      | eventDoc d =>
        rw [hskip fun e he => by
          obtain ⟨pk', hf, -⟩ := he
          rw [fetchRow, hindexed, if_pos rfl] at hf
          simp at hf]
        exact hnext sum
      | entryDoc d =>
        rw [hskip fun e he => by
          obtain ⟨pk', hf, -⟩ := he
          rw [fetchRow, hindexed, if_pos rfl] at hf
          simp at hf]
        exact hnext sum
    · rw [if_pos hlen, hskip fun e he => hlen (hkey row List.mem_cons_self e he)]
      exact hnext sum

/-- The events of an entity, among those of the window. -/
lemma StoreInv.scanned_tagFilter (tag entity : Bytes) (start stop : Int64) :
    scanned db m start stop (tagFilter tag entity) =
      (scanned db m start stop ∅).filter fun e => e.tags.get? tag = some entity := by
  have hempty : (∅ : Tags).entries ≠ [] → IndexExact db := fun _ => hix
  refine List.Perm.eq_of_pairwise (fun a b _ _ hab hba => absurd hab (Nat.lt_asymm hba))
    (hs.scanned_sorted (fun _ => hix) hw) ((hs.scanned_sorted hempty hw).filter _) ?_
  have hnodup : ∀ {tags : Tags}, (scanned db m start stop tags).Nodup := by
    intro tags
    refine (hs.scanned_sorted (fun _ => hix) hw).imp fun {a b} hlt heq => ?_
    rw [heq] at hlt
    exact lt_irrefl _ hlt
  rw [List.perm_ext_iff_of_nodup hnodup (hnodup.filter _)]
  intro e
  rw [List.mem_filter, hs.mem_scanned_iff (fun _ => hix) hw, hs.mem_scanned_iff hempty hw,
    decide_eq_true_eq, ← matchTags_tagFilter]
  exact ⟨fun h => ⟨⟨h.stored, rfl, h.start_le, h.lt_stop⟩, h.passes⟩,
    fun ⟨h, hp⟩ => ⟨h.stored, hp, h.start_le, h.lt_stop⟩⟩

end Sound

/-! ## The window -/

/-- The times of a window, with the bounds put right. -/
def InWindow (start stop t : Int64) : Prop := windowStart start ≤ t ∧ t < windowStop stop

instance (start stop t : Int64) : Decidable (InWindow start stop t) :=
  inferInstanceAs (Decidable (_ ∧ _))

section Window

variable {db : Store} (hs : StoreInv db) (hix : IndexExact db) {m : Bytes}
  (hw : m ≠ [] ∧ m ∉ Key.reserved) (start stop : Int64)

include hs hw

include hix

/-- One listed entity. -/
lemma StoreInv.sumEntity_eq (tag : Bytes) (sums : OrdMap Bytes Float64) (id : Bytes) :
    sumEntity db m tag (windowStart start) (windowStop stop) sums id =
      .ok (if (sums.get? id).isSome then sums else sums.set id ((valuesOf tag id
        (scanned db m (windowStart start) (windowStop stop) ∅)).foldl (· + ·) Float64.zero)) := by
  have hvalues : valuesOf tag id (scanned db m (windowStart start) (windowStop stop) ∅) =
      (scanned db m (windowStart start) (windowStop stop) (tagFilter tag id)).map (·.value) := by
    rw [hs.scanned_tagFilter hix hw, valuesOf]
  rw [sumEntity, hvalues]
  simp only [hs.sumReferences_eq hix hw]
  split_ifs with hseen hempty
  · rfl
  · -- an empty window holds no event
    have hnone : scanned db m (windowStart start) (windowStop stop) (tagFilter tag id) = [] := by
      refine List.eq_nil_iff_forall_not_mem.mpr fun e he => ?_
      have hsel := (hs.mem_scanned_iff (fun _ => hix) hw).mp he
      have := (timeRank_interval_iff (window_sign start stop) e.timestamp).mp
        ⟨hsel.start_le, hsel.lt_stop⟩
      simp only [Int64.lt_iff_toInt_lt, Int64.le_iff_toInt_le] at *
      omega
    rw [hnone]
    rfl
  · rfl

/-- **The sums of the listed entities.** -/
lemma StoreInv.windowedEntitySums_eq (tag : Bytes) (ids : List Bytes) :
    ∃ sums, windowedEntitySums db m tag ids start stop = .ok sums ∧ ∀ id, sums.get? id =
      if id ∈ ids then some ((valuesOf tag id
        (scanned db m (windowStart start) (windowStop stop) ∅)).foldl (· + ·) Float64.zero)
      else none := by
  have hstep := hs.sumEntity_eq hix hw start stop tag
  rw [windowedEntitySums]
  generalize scanned db m (windowStart start) (windowStop stop) ∅ = events at hstep ⊢
  -- the map knows the entities done so far
  suffices hgen : ∀ (rest done : List Bytes) (sums : OrdMap Bytes Float64),
      (∀ id, sums.get? id = if id ∈ done then
        some ((valuesOf tag id events).foldl (· + ·) Float64.zero) else none) →
      ∃ sums', rest.foldlM (sumEntity db m tag (windowStart start) (windowStop stop)) sums =
          .ok sums' ∧
        ∀ id, sums'.get? id = if id ∈ done ++ rest then
          some ((valuesOf tag id events).foldl (· + ·) Float64.zero) else none by
    obtain ⟨sums, hok, hget⟩ := hgen ids [] ∅ (by simp)
    exact ⟨sums, hok, by simpa using hget⟩
  intro rest
  induction rest with
  | nil => exact fun done sums h => ⟨sums, rfl, by simpa using h⟩
  | cons id rest ih =>
    intro done sums h
    obtain ⟨sums', hok, hget⟩ := ih (done ++ [id]) (if (sums.get? id).isSome then sums
        else sums.set id ((valuesOf tag id events).foldl (· + ·) Float64.zero)) fun id' => by
      by_cases hid : id' = id
      · subst hid
        by_cases hdone : id' ∈ done
        · simp [h id', hdone]
        · simp [h id', hdone]
      · split_ifs <;> simp_all [OrdMap.get?_set]
    refine ⟨sums', ?_, by simpa using hget⟩
    rw [List.foldlM_cons, hstep]
    exact hok

end Window

/-! ## Agreement -/

/-- **Windowed rankings agree across access paths.** -/
theorem windowed_paths_agree {db : Store} (hs : StoreInv db) (hix : IndexExact db)
    (hfin : FiniteEvents db) {m : Bytes} (hw : m ≠ [] ∧ m ∉ Key.reserved) (tag : Bytes)
    (start stop : Int64) :
    ∃ events : List Event,
      (∀ e, e ∈ events ↔ eventAt db m e.timestamp = some e ∧ InWindow start stop e.timestamp) ∧
      events.Pairwise (fun a b => a.timestamp < b.timestamp) ∧
      (∃ board : List LeaderboardEntry,
        (∀ entry, entry ∈ board ↔ entry.entityID ≠ [] ∧
          (∃ e ∈ events, e.tags.get? tag = some entry.entityID) ∧
          entry.value = Float64.total (valuesOf tag entry.entityID events)) ∧
        board.Pairwise (fun a b => b.value.units < a.value.units ∨
          (a.value.units = b.value.units ∧ a.entityID < b.entityID)) ∧
        ∀ limit offset : ℕ, windowedLeaderboard db m tag start stop limit offset =
          .ok (page limit offset board)) ∧
      ∀ ids : List Bytes, ∃ sums, windowedEntitySums db m tag ids start stop = .ok sums ∧
        (∀ id, (sums.get? id).isSome ↔ id ∈ ids) ∧
        ∀ id v, sums.get? id = some v →
          v.same (Float64.total (valuesOf tag id events)) = true := by
  have hempty : (∅ : Tags).entries ≠ [] → IndexExact db := fun _ => hix
  have hsign := window_sign start stop
  have hmem : ∀ e, e ∈ scanned db m (windowStart start) (windowStop stop) ∅ ↔
      eventAt db m e.timestamp = some e ∧ InWindow start stop e.timestamp := by
    intro e
    rw [hs.mem_scanned_iff hempty hw, InWindow, ← timeRank_interval_iff hsign]
    exact ⟨fun h => ⟨h.stored, h.start_le, h.lt_stop⟩, fun h => ⟨h.1, rfl, h.2.1, h.2.2⟩⟩
  have hvalues : ∀ id, ∀ v ∈ valuesOf tag id (scanned db m (windowStart start) (windowStop stop) ∅),
      v.isFinite = true := by
    intro id v hv
    obtain ⟨e, he, rfl⟩ := List.mem_map.mp hv
    exact hfin m e.timestamp e hw ((hmem e).mp (List.mem_of_mem_filter he)).1
  have hsums := mem_entitySums_iff tag (scanned db m (windowStart start) (windowStop stop) ∅)
  have hcomp : ∀ entry ∈ entitySums tag (scanned db m (windowStart start) (windowStop stop) ∅),
      entry.Comparable := by
    intro entry hentry
    obtain ⟨-, -, hval⟩ := (hsums.mem_iff entry).mp hentry
    rw [LeaderboardEntry.Comparable, hval]
    exact Float64.total_isNaN (hvalues _)
  refine ⟨scanned db m (windowStart start) (windowStop stop) ∅, hmem, ?_,
    ⟨sortedSums (entitySums tag
    (scanned db m (windowStart start) (windowStop stop) ∅)), ?_, ?_, ?_⟩, fun ids => ?_⟩
  · refine (hs.scanned_sorted hempty hw).imp_of_mem fun {a b} ha hb hlt => ?_
    refine (timeRank_lt_iff ?_).mp hlt
    rw [neg_iff_of_mem_interval hsign ((hmem a).mp ha).2,
      neg_iff_of_mem_interval hsign ((hmem b).mp hb).2]
  · intro entry
    rw [(sortedSums_perm _).mem_iff, hsums.mem_iff, valuesOf_ne_nil_iff]
  · exact sortedSums_strict hsums.nodup
  · intro limit offset
    rw [hs.windowedLeaderboard_eq hw, leaderboardPage_eq hsums.nodup hcomp]
  · obtain ⟨sums, hok, hget⟩ := hs.windowedEntitySums_eq hix hw start stop tag ids
    refine ⟨sums, hok, fun id => ?_, fun id v hv => ?_⟩
    · rw [hget]
      split_ifs with hid <;> simp [hid]
    · rw [hget] at hv
      split_ifs at hv
      rw [← Option.some.inj hv]
      exact (Float64.sum_alike (hvalues id)).same (Float64.total_isNaN (hvalues id))

lemma taggedStore_finite : FiniteEvents taggedStore := by
  refine (storeOf_induction (eventsFrom_empty _) taggedEvents_storable
    fun e he _ _ hs hfrom hstage => ?_).2.finiteEvents
  have h := taggedEvents_storable e he
  exact hfrom.stageEvent hs h.wf h.finite h.finite hstage

/-- The second rank of the window, and the sums of two players, one listed twice, beside an unknown
one. -/
theorem windowed_paths_taggedStore :
    windowedLeaderboard taggedStore (bs "hits") (bs "k") 0 9 1 1 =
        .ok [⟨bs "c", Float64.ofBits 0x4000000000000000⟩] ∧
      ∃ events : List Event,
        taggedEvents.map (fun e => decide (e ∈ events)) = [true, true, true, false] ∧
        ∃ sums, windowedEntitySums taggedStore (bs "hits") (bs "k")
            [bs "a:b", bs "d", bs "c", bs "a:b"] 0 9 = .ok sums ∧
          sums.get? (bs "a:b") = some (Float64.ofBits 0x4014000000000000) ∧
          ∀ id v, sums.get? id = some v →
            v.same (Float64.total (valuesOf (bs "k") id events)) = true := by
  obtain ⟨events, hmem, -, -, hsums⟩ := windowed_paths_agree taggedStore_exact.1 taggedStore_exact.2
    taggedStore_finite (m := bs "hits") (by decide) (bs "k") 0 9
  obtain ⟨sums, hok, -, hsame⟩ := hsums [bs "a:b", bs "d", bs "c", bs "a:b"]
  have hfive : ∀ sums ∈ (windowedEntitySums taggedStore (bs "hits") (bs "k")
      [bs "a:b", bs "d", bs "c", bs "a:b"] 0 9).toOption,
      sums.get? (bs "a:b") = some (Float64.ofBits 0x4014000000000000) := by decide +kernel
  refine ⟨by decide +kernel, events, ?_, sums, hok, hfive sums (by rw [hok]; rfl), hsame⟩
  simp only [hmem]
  decide +kernel

end FlameDB
