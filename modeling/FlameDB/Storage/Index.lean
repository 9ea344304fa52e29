import FlameDB.Storage.Storage

/-!
# The tag index and the events

Two invariants of the event store.

* `StoreInv` — every key is the key of some item, every event can be read and carries the time it
  is filed under, every reference holds the key of the event it is filed for.  Holds whatever bytes
  the tags contain.
* `IndexExact` — the references are exactly those of the stored events.  Holds while events are
  stored without loss (`Event.Lossless`); an event that passes through JSON with invalid UTF-8
  leaves references under tag values it no longer has.

Each is shown for `stageEvent` and for `scanDeleteWhere`.
-/

namespace FlameDB

open Go KV

/-- The families maintained in the background: cardinalities and the replication outbox. -/
def backgroundFamilies : List Bytes := [bs "card", bs "card-count", bs "repl-outbox"]

/-- The key belongs to the workers: a cardinality or the outbox. -/
def IsBackground (k : Bytes) : Prop := ∃ f ∈ backgroundFamilies, ∃ body, k = f ++ colon :: body

/-- Every key that is not a background key is the key of some well-formed item. -/
def Keyed (db : Store) : Prop :=
  ∀ k v, db.get? k = some v → IsBackground k ∨ ∃ K : Key, K.WF ∧ K.encode = k

/-- The keys are well formed, the values under them decode, and references point to their events. -/
structure StoreInv (db : Store) : Prop where
  keyed : Keyed db
  events : ∀ m t v, (Key.event m t).WF → lookup db (.event m t) = some v →
    ∃ e, decodeEventValue v m = .ok e ∧ e.timestamp = t
  refs : ∀ m k v t val, lookup db (.index m k v t) = some val → val = .bytes (eventKey m t)

lemma storeInv_empty : StoreInv ∅ where
  keyed := by intro k v h; simp at h
  events := by intro m t v _ h; simp [lookup] at h
  refs := by intro m k v t val h; simp [lookup] at h

lemma StoreInv.erase {db : Store} (h : StoreInv db) (k : Bytes) : StoreInv (db.erase k) := by
  have hsub : ∀ k' v, (db.erase k).get? k' = some v → db.get? k' = some v := by
    intro k' v hv
    rw [OrdMap.get?_erase] at hv
    split_ifs at hv
    exact hv
  exact {
    keyed := fun k' v hv => h.keyed k' v (hsub k' v hv)
    events := fun m t v hw hv => h.events m t v hw (hsub _ v hv)
    refs := fun m k' v t val hv => h.refs m k' v t val (hsub _ val hv) }

/-- Storing a value keeps the invariant if an event can be read back at its time and a reference
points at its own event. -/
lemma StoreInv.set {db : Store} (h : StoreInv db) {K : Key} (hK : K.WF) {v : Value}
    (hev : ∀ m t, K = .event m t → ∃ e, decodeEventValue v m = .ok e ∧ e.timestamp = t)
    (href : ∀ m k tv t, K = .index m k tv t → v = .bytes (eventKey m t)) :
    StoreInv (db.set K.encode v) where
  keyed := by
    intro k v' hv
    rw [OrdMap.get?_set] at hv
    split_ifs at hv with hk
    · exact Or.inr ⟨K, hK, hk.symm⟩
    · exact h.keyed k v' hv
  events := by
    intro m t v' hw hv
    rw [lookup_set db hK hw] at hv
    split_ifs at hv with hk
    · cases hv
      exact hev m t hk.symm
    · exact h.events m t v' hw hv
  refs := by
    intro m k tv t val hv
    rw [lookup_set db hK (j := .index m k tv t) trivial] at hv
    split_ifs at hv with hk
    · cases hv
      exact href m k tv t hk.symm
    · exact h.refs m k tv t val hv

/-- Items outside the event store carry no obligation. -/
def Key.NotEvent : Key → Prop
  | .event .. => False
  | .index .. => False
  | _ => True

lemma StoreInv.set_notEvent {db : Store} (h : StoreInv db) {K : Key} (hK : K.WF)
    (hne : K.NotEvent) (v : Value) : StoreInv (db.set K.encode v) := by
  refine h.set hK ?_ ?_
  · rintro m t rfl
    exact hne.elim
  · rintro m k tv t rfl
    exact hne.elim

lemma StoreInv.eraseIndex {db : Store} (h : StoreInv db) (m : Bytes) (t : Int64) (tags : Tags) :
    StoreInv (eraseIndex db m t tags) := by
  unfold FlameDB.eraseIndex
  generalize tags.entries = l
  induction l generalizing db with
  | nil => exact h
  | cons kv l ih => exact ih (h.erase _)

lemma StoreInv.setIndex {db : Store} (h : StoreInv db) (m : Bytes) (t : Int64) (tags : Tags) :
    StoreInv (setIndex db m t tags) := by
  unfold FlameDB.setIndex
  generalize tags.entries = l
  induction l generalizing db with
  | nil => exact h
  | cons kv l ih =>
      refine ih (h.set (K := .index m kv.1 kv.2 t) trivial ?_ ?_)
      · rintro m' t' ⟨⟩
      · rintro m' k' v' t' ⟨⟩
        rfl

/-! ## Writing an event -/

/-- The value a tag has at a time of a metric. -/
def tagAt (db : Store) (m : Bytes) (t : Int64) (k : Bytes) : Option Bytes :=
  (eventAt db m t).bind fun e => e.tags.get? k

lemma StoreInv.eventAt_some {db : Store} (h : StoreInv db) {m : Bytes} {t : Int64}
    (hw : (Key.event m t).WF) {v : Value} (hv : lookup db (.event m t) = some v) :
    ∃ e, eventAt db m t = some e ∧ decodeEventValue v m = .ok e ∧ e.timestamp = t := by
  obtain ⟨e, he, ht⟩ := h.events m t v hw hv
  exact ⟨e, by simp [eventAt, hv, he, Except.toOption], he, ht⟩

/-- The event stored at a time has that time. -/
lemma StoreInv.timestamp_eq {db : Store} (h : StoreInv db) {m : Bytes}
    (hw : m ≠ [] ∧ m ∉ Key.reserved) {t : Int64} {e : Event} (he : eventAt db m t = some e) :
    e.timestamp = t := by
  obtain ⟨v, hv, -⟩ := Option.bind_eq_some_iff.mp he
  obtain ⟨e', hat, -, ht⟩ := h.eventAt_some (t := t) hw hv
  obtain rfl : e = e' := Option.some.inj (he.symm.trans hat)
  exact ht

/-- In a sound store the replaced tags are the tags stored at that time. -/
lemma StoreInv.previousTags {db : Store} (h : StoreInv db) {m : Bytes} {t : Int64}
    (hw : (Key.event m t).WF) :
    ∃ prev, previousTags db m t = .ok prev ∧ ∀ k, prev.get? k = tagAt db m t k := by
  unfold FlameDB.previousTags tagAt
  cases hv : db.get? (eventKey m t) with
  | none =>
      refine ⟨∅, rfl, fun k => ?_⟩
      have : lookup db (.event m t) = none := hv
      simp [eventAt, this]
  | some v =>
      obtain ⟨e, hat, hdec, -⟩ := h.eventAt_some hw (v := v) hv
      exact ⟨e.tags, by simp [hdec, Except.map], fun k => by simp [hat]⟩

/-- **What `stageEvent` does to a sound store.** -/
theorem stageEvent_spec {db : Store} (h : StoreInv db) {e : Event}
    (hw : (Key.event e.metric e.timestamp).WF) (hfin : e.value.isFinite = true) :
    ∃ val db', stageEvent db e = .ok db' ∧ encodeEventValue e = .ok val ∧ StoreInv db' ∧
      (∀ m k v t, lookup db' (.index m k v t) =
        if m = e.metric ∧ t = e.timestamp then
          if e.tags.get? k = some v then some (.bytes (eventKey m t))
          else if tagAt db m t k = some v then none else lookup db (.index m k v t)
        else lookup db (.index m k v t)) ∧
      (∀ K : Key, K.WF → K.NotIndex → lookup db' K =
        if K = .event e.metric e.timestamp then some val else lookup db K) := by
  obtain ⟨val, hval⟩ := encodeEventValue_ok hfin
  obtain ⟨prev, hprev, hget⟩ := h.previousTags hw
  have hset : StoreInv ((FlameDB.eraseIndex db e.metric e.timestamp prev).set
      (Key.event e.metric e.timestamp).encode val) := by
    refine (h.eraseIndex _ _ _).set hw ?_ ?_
    · rintro m t ⟨⟩
      exact ⟨_, decode_encode hval hw.1, rfl⟩
    · rintro m k v t ⟨⟩
  refine ⟨val, _, (stageEvent_ok_iff _ _ _).mpr ⟨val, prev, hval, hprev, rfl⟩, hval,
    hset.setIndex _ _ _, ?_, ?_⟩
  · intro m k v t
    rw [lookup_setIndex_index]
    have hother : lookup ((FlameDB.eraseIndex db e.metric e.timestamp prev).set
        (eventKey e.metric e.timestamp) val) (.index m k v t) =
        lookup (FlameDB.eraseIndex db e.metric e.timestamp prev) (.index m k v t) := by
      rw [show eventKey e.metric e.timestamp = (Key.event e.metric e.timestamp).encode from rfl,
        lookup_set _ hw (j := .index m k v t) trivial, if_neg (by simp)]
    rw [hother, lookup_eraseIndex_index, hget]
    by_cases hmt : m = e.metric ∧ t = e.timestamp
    · obtain ⟨rfl, rfl⟩ := hmt
      simp
    · rw [if_neg (fun hc => hmt ⟨hc.1, hc.2.1⟩), if_neg (fun hc => hmt ⟨hc.1, hc.2.1⟩), if_neg hmt]
  · intro K hK hni
    rw [lookup_setIndex_of_notIndex _ _ _ _ hK hni,
      show eventKey e.metric e.timestamp = (Key.event e.metric e.timestamp).encode from rfl,
      lookup_set _ hw hK, lookup_eraseIndex_of_notIndex _ _ _ _ hK hni]

/-! ## The rows a scan visits

A range over a metric's front holds keys of that metric and no others. -/

/-- A stored key under a given front is a background key or the key of an item of that family. -/
lemma Keyed.of_front {db : Store} (h : Keyed db) {f y : Bytes} {v : Value} (hf : colon ∉ f)
    (hv : db.get? (f ++ colon :: y) = some v) :
    f ∈ backgroundFamilies ∨ ∃ K : Key, K.WF ∧ K.family = f ∧ K.body = y := by
  rcases h _ _ hv with ⟨g, hg, body, hbody⟩ | ⟨K, hK, hEnc⟩
  · have hfamilies : ∀ g ∈ backgroundFamilies, colon ∉ g := by decide
    obtain ⟨rfl, -⟩ := append_cons_inj hf (hfamilies g hg) hbody
    exact Or.inl hg
  · rw [Key.encode_eq] at hEnc
    exact Or.inr ⟨K, hK, append_cons_inj K.colon_notMem_family hf hEnc⟩

lemma backgroundFamilies_subset {f : Bytes} (h : f ∈ backgroundFamilies) : f ∈ Key.reserved := by
  revert f
  decide

/-- The keys between two event keys of a metric are its event keys. -/
lemma Keyed.event_of_mem_range {db : Store} (h : Keyed db) {m : Bytes} {t₁ t₂ : Int64}
    (hw : m ≠ [] ∧ m ∉ Key.reserved) {row : Bytes × Value}
    (hrow : row ∈ db.range (eventKey m t₁) (eventKey m t₂)) : ∃ t, row.1 = eventKey m t := by
  obtain ⟨key, v⟩ := row
  obtain ⟨hget, hbounds⟩ := (OrdMap.mem_range_iff db _ _ key v).mp hrow
  have hsplit : ∀ t, eventKey m t = (component m ++ [colon]) ++ timestampBytes t := by
    intro t
    simp [eventKey]
  rw [hsplit, hsplit, between_iff] at hbounds
  obtain ⟨y, rfl, -, -⟩ := hbounds
  rw [List.append_assoc] at hget
  rcases h.of_front (colon_notMem_component m) hget with hbg | ⟨K, hK, hfam, hbody⟩
  · exact absurd rfl (Key.component_ne_reserved hw.2 (backgroundFamilies_subset hbg))
  · cases K with
    | event m' t =>
        have hm : m' = m := component_injective hfam
        subst hm
        exact ⟨t, by rw [eventKey, show timestampBytes t = y from hbody]; simp⟩
    | _ => exact absurd hfam.symm (Key.component_ne_reserved hw.2
        (by simp only [Key.family]; decide))

/-- The keys between two references of a tag value are references under the same tag. -/
lemma Keyed.index_of_mem_range {db : Store} (h : Keyed db) {m k v : Bytes} {t₁ t₂ : Int64}
    {row : Bytes × Value} (hrow : row ∈ db.range (indexKey m k v t₁) (indexKey m k v t₂)) :
    ∃ v' t, row.1 = indexKey m k v' t := by
  obtain ⟨key, val⟩ := row
  obtain ⟨hget, hbounds⟩ := (OrdMap.mem_range_iff db _ _ key val).mp hrow
  have hsplit : ∀ t, indexKey m k v t =
      (bs "idx" ++ colon :: (component m ++ colon :: (component k ++ colon :: (v ++ [colon])))) ++
        timestampBytes t := by
    intro t
    simp [indexKey]
  rw [hsplit, hsplit, between_iff] at hbounds
  obtain ⟨y, rfl, -, -⟩ := hbounds
  rw [List.append_assoc, List.cons_append] at hget
  rcases h.of_front (by decide) hget with hbg | ⟨K, hK, hfam, hbody⟩
  · exact absurd hbg (by decide)
  · cases K with
    | index m' k' v' t' =>
        simp only [Key.body, List.append_assoc, List.cons_append] at hbody
        obtain ⟨hm, hbody⟩ := append_cons_inj (by simp) (by simp) hbody
        obtain ⟨hk, hbody⟩ := append_cons_inj (by simp) (by simp) hbody
        refine ⟨v', t', ?_⟩
        simp only [indexKey, List.append_assoc, List.cons_append]
        rw [hbody]
    | event m' t' => exact absurd hfam (Key.component_ne_reserved hK.2 (by decide))
    | _ => exact absurd hfam (by simp only [Key.family]; decide)

/-- **Every row of a scan leads to the event at one time of the metric, if it is still there.** -/
theorem StoreInv.fetchRow_spec {db : Store} (h : StoreInv db) {m : Bytes} {start stop : Int64}
    {tags : Tags} (hw : m ≠ [] ∧ m ∉ Key.reserved) {row : Bytes × Value}
    (hrow : row ∈ db.range (scanBounds db m start stop tags).1
      (scanBounds db m start stop tags).2) :
    ∃ t, fetchRow db m (tags.entries ≠ []) row =
        .ok ((eventAt db m t).map fun e => (eventKey m t, e)) ∧
      ∀ e, eventAt db m t = some e → e.timestamp = t := by
  have htime : ∀ t e, eventAt db m t = some e → e.timestamp = t := fun _ _ => h.timestamp_eq hw
  by_cases hix : tags.entries = []
  · rw [scanBounds, if_pos hix] at hrow
    obtain ⟨t, hkey⟩ := h.keyed.event_of_mem_range hw hrow
    obtain ⟨key, v⟩ := row
    subst hkey
    obtain ⟨e, hat, hdec, -⟩ :=
      h.eventAt_some (t := t) hw (v := v) ((OrdMap.mem_range_iff db _ _ _ v).mp hrow).1
    refine ⟨t, ?_, htime t⟩
    simp [fetchRow, hix, hdec, hat, bind, Except.bind, pure, Except.pure]
  · rw [scanBounds, if_neg hix] at hrow
    obtain ⟨v', t, hkey⟩ := h.keyed.index_of_mem_range hrow
    obtain ⟨key, v⟩ := row
    subst hkey
    have hval : v = .bytes (eventKey m t) :=
      h.refs m _ v' t v ((OrdMap.mem_range_iff db _ _ _ v).mp hrow).1
    subst hval
    refine ⟨t, ?_, htime t⟩
    cases hv : lookup db (.event m t) with
    | none =>
        have hv' : db.get? (eventKey m t) = none := hv
        simp [fetchRow, hix, hv', eventAt, hv]
    | some data =>
        have hv' : db.get? (eventKey m t) = some data := hv
        obtain ⟨e, hat, hdec, -⟩ := h.eventAt_some hw hv
        simp [fetchRow, hix, hv', hdec, hat, bind, Except.bind, pure, Except.pure]

/-! ## Deleting events -/

/-- Remove one event and its references. -/
def dropEvent (m : Bytes) (b : Store) (e : Event) : Store :=
  (eraseIndex b m e.timestamp e.tags).erase (eventKey m e.timestamp)

/-- The events a list of rows leads to and the filter selects. -/
def hits (db : Store) (m : Bytes) (tags : Tags) (rows : List (Bytes × Value)) : List Event :=
  rows.filterMap fun row =>
    match fetchRow db m (tags.entries ≠ []) row with
    | .ok (some (_, e)) => if matchTags tags e then some e else none
    | _ => none

lemma hits_cons_none {db : Store} {m : Bytes} {tags : Tags} {row : Bytes × Value}
    {rows : List (Bytes × Value)}
    (h : ∀ pk e, fetchRow db m (tags.entries ≠ []) row = .ok (some (pk, e)) →
      matchTags tags e = false) : hits db m tags (row :: rows) = hits db m tags rows := by
  unfold hits
  rw [List.filterMap_cons_none]
  split
  · next pk e he => simp [h pk e he]
  · rfl

lemma hits_cons_some {db : Store} {m : Bytes} {tags : Tags} {row : Bytes × Value}
    {rows : List (Bytes × Value)} {pk : Bytes} {e : Event}
    (h : fetchRow db m (tags.entries ≠ []) row = .ok (some (pk, e)))
    (hmatch : matchTags tags e = true) :
    hits db m tags (row :: rows) = e :: hits db m tags rows := by
  unfold hits
  rw [List.filterMap_cons_some]
  simp only [h, hmatch, if_true]

/-- Each row leads to the event at one time of the metric, or to nothing. -/
def RowsSound (db : Store) (m : Bytes) (tags : Tags) (rows : List (Bytes × Value)) : Prop :=
  ∀ row ∈ rows, ∃ t, fetchRow db m (tags.entries ≠ []) row =
      .ok ((eventAt db m t).map fun e => (eventKey m t, e)) ∧
    ∀ e, eventAt db m t = some e → e.timestamp = t

lemma RowsSound.hits_spec {db : Store} {m : Bytes} {tags : Tags} {rows : List (Bytes × Value)}
    (h : RowsSound db m tags rows) {e : Event} (he : e ∈ hits db m tags rows) :
    eventAt db m e.timestamp = some e ∧ matchTags tags e = true := by
  obtain ⟨row, hrow, hsome⟩ := List.mem_filterMap.mp he
  obtain ⟨t, hfetch, htime⟩ := h row hrow
  rw [hfetch] at hsome
  cases hat : eventAt db m t with
  | none => simp [hat] at hsome
  | some e' =>
      simp only [hat, Option.map_some] at hsome
      split_ifs at hsome with hm
      cases hsome
      rw [htime e hat]
      exact ⟨hat, hm⟩

/-- The loop of `ScanDeleteWhere` removes the hits. -/
lemma RowsSound.deleteLoop_eq {db : Store} {m : Bytes} {tags : Tags} {rows : List (Bytes × Value)}
    (h : RowsSound db m tags rows) (batch : Option Store) (n : ℕ) :
    deleteLoop db m tags rows batch n =
      .ok (batch.map ((hits db m tags rows).foldl (dropEvent m)),
        n + (hits db m tags rows).length) := by
  induction rows generalizing batch n with
  | nil => cases batch <;> rfl
  | cons row rows ih =>
      obtain ⟨t, hfetch, htime⟩ := h row List.mem_cons_self
      have ih' := ih fun r hr => h r (List.mem_cons_of_mem _ hr)
      rw [deleteLoop, hfetch]
      cases hat : eventAt db m t with
      | none =>
          rw [hits_cons_none (fun pk e he => by rw [hfetch, hat] at he; cases he)]
          exact ih' batch n
      | some e =>
          simp only [Option.map_some, bind, Except.bind]
          split_ifs with hmatch
          · rw [ih', hits_cons_some (by rw [hfetch, hat]; rfl) hmatch, htime e hat]
            simp only [List.foldl_cons, List.length_cons, Option.map_map]
            refine congrArg Except.ok (Prod.ext ?_ (by simp; omega))
            cases batch with
            | none => rfl
            | some b => simp only [Option.map_some, Function.comp, dropEvent, htime e hat]
          · rw [hits_cons_none (fun pk e' he => by
              rw [hfetch, hat] at he
              cases he
              simpa using hmatch)]
            exact ih' batch n

lemma lookup_dropEvent_index {m : Bytes} {e : Event} (hw : m ≠ [] ∧ m ∉ Key.reserved) (b : Store)
    (m' k v : Bytes) (t : Int64) :
    lookup (dropEvent m b e) (.index m' k v t) =
      if m' = m ∧ t = e.timestamp ∧ e.tags.get? k = some v then none
      else lookup b (.index m' k v t) := by
  rw [dropEvent, show eventKey m e.timestamp = (Key.event m e.timestamp).encode from rfl,
    lookup_erase _ (k := .event m e.timestamp) hw (j := .index m' k v t) trivial,
    if_neg (by simp), lookup_eraseIndex_index]

lemma lookup_dropEvent_of_notIndex {m : Bytes} {e : Event} (hw : m ≠ [] ∧ m ∉ Key.reserved)
    (b : Store) {K : Key} (hK : K.WF) (hni : K.NotIndex) :
    lookup (dropEvent m b e) K = if K = .event m e.timestamp then none else lookup b K := by
  rw [dropEvent, show eventKey m e.timestamp = (Key.event m e.timestamp).encode from rfl,
    lookup_erase _ (k := .event m e.timestamp) hw hK,
    lookup_eraseIndex_of_notIndex _ _ _ _ hK hni]

lemma StoreInv.dropEvents {b : Store} (h : StoreInv b) (m : Bytes) (es : List Event) :
    StoreInv (es.foldl (dropEvent m) b) := by
  induction es generalizing b with
  | nil => exact h
  | cons e es ih => exact ih ((h.eraseIndex _ _ _).erase _)

/-! ## Exactness of the index

An event and its references are staged together and dropped together. -/

/-- **The references of a metric are exactly those of its stored events.** -/
def IndexExact (db : Store) : Prop :=
  ∀ m k v t, (Key.event m t).WF → lookup db (.index m k v t) =
    if tagAt db m t k = some v then some (.bytes (eventKey m t)) else none

lemma indexExact_empty : IndexExact ∅ := by
  intro m k v t _
  simp [lookup, tagAt, eventAt]

/-- The index only depends on events and references. -/
lemma IndexExact.congr {db db' : Store} (h : IndexExact db)
    (hix : ∀ m k v t, lookup db' (.index m k v t) = lookup db (.index m k v t))
    (hev : ∀ m t, (Key.event m t).WF → lookup db' (.event m t) = lookup db (.event m t)) :
    IndexExact db' := by
  intro m k v t hw
  have htag : tagAt db' m t k = tagAt db m t k := by simp only [tagAt, eventAt, hev m t hw]
  rw [hix, h m k v t hw, htag]

/-- The references of the event that was there before are gone. -/
lemma IndexExact.stageEvent {db db' : Store} (hs : StoreInv db) (h : IndexExact db) {e : Event}
    (hw : (Key.event e.metric e.timestamp).WF) (hfin : e.value.isFinite = true)
    (hl : e.Lossless) (hstage : stageEvent db e = .ok db') : IndexExact db' := by
  obtain ⟨val, db₂, hstage₂, hval, -, hix, hother⟩ := stageEvent_spec hs hw hfin
  rw [hstage] at hstage₂
  cases hstage₂
  intro m k v t hmt
  have hat : eventAt db' m t =
      if m = e.metric ∧ t = e.timestamp then some e else eventAt db m t := by
    unfold eventAt
    rw [hother _ hmt trivial]
    by_cases hk : m = e.metric ∧ t = e.timestamp
    · obtain ⟨rfl, rfl⟩ := hk
      rw [if_pos rfl, if_pos ⟨rfl, rfl⟩]
      simp [decode_encode hval hw.1, hl.storedTags, Except.toOption]
    · rw [if_neg (by rintro ⟨⟩; exact hk ⟨rfl, rfl⟩), if_neg hk]
  rw [hix]
  by_cases hk : m = e.metric ∧ t = e.timestamp
  · have htag : tagAt db' m t k = e.tags.get? k := by rw [tagAt, hat, if_pos hk, Option.bind_some]
    rw [if_pos hk, htag]
    split_ifs with h1 h2
    · rfl
    · rfl
    · rw [h m k v t hmt, if_neg h2]
  · have htag : tagAt db' m t k = tagAt db m t k := by rw [tagAt, hat, if_neg hk, tagAt]
    rw [if_neg hk, h m k v t hmt, htag]

/-- An event goes with its references. -/
lemma IndexExact.dropEvent {b : Store} (h : IndexExact b) {m : Bytes}
    (hw : m ≠ [] ∧ m ∉ Key.reserved) {e : Event}
    (hat : eventAt b m e.timestamp = some e ∨ lookup b (.event m e.timestamp) = none) :
    IndexExact (dropEvent m b e) := by
  intro m' k v t hmt
  have hev : eventAt (FlameDB.dropEvent m b e) m' t =
      if m' = m ∧ t = e.timestamp then none else eventAt b m' t := by
    unfold eventAt
    rw [lookup_dropEvent_of_notIndex hw b hmt trivial]
    by_cases hk : m' = m ∧ t = e.timestamp
    · obtain ⟨rfl, rfl⟩ := hk
      simp
    · rw [if_neg (by rintro ⟨⟩; exact hk ⟨rfl, rfl⟩), if_neg hk]
  rw [lookup_dropEvent_index hw]
  by_cases hk : m' = m ∧ t = e.timestamp
  · have htag : tagAt (FlameDB.dropEvent m b e) m' t k = none := by
      rw [tagAt, hev, if_pos hk, Option.bind_none]
    obtain ⟨rfl, rfl⟩ := hk
    rw [htag, if_neg (c := none = some v) (by simp)]
    split_ifs with hv
    · rfl
    · rw [h m' k v _ hmt, if_neg]
      rcases hat with hat | hat
      · simpa [tagAt, hat] using hv
      · simp [tagAt, eventAt, hat]
  · have htag : tagAt (FlameDB.dropEvent m b e) m' t k = tagAt b m' t k := by
      rw [tagAt, hev, if_neg hk, tagAt]
    rw [if_neg (fun hc => hk ⟨hc.1, hc.2.1⟩), h m' k v t hmt, htag]

/-- Removing any set of stored events keeps the index exact. -/
theorem IndexExact.dropEvents {b : Store} (h : IndexExact b) {m : Bytes}
    (hw : m ≠ [] ∧ m ∉ Key.reserved) (es : List Event)
    (hes : ∀ e ∈ es, eventAt b m e.timestamp = some e) :
    IndexExact (es.foldl (FlameDB.dropEvent m) b) := by
  -- an event met a second time is already gone together with its references
  suffices hgen : ∀ (es : List Event) (b : Store), IndexExact b →
      (∀ e ∈ es, eventAt b m e.timestamp = some e ∨ lookup b (.event m e.timestamp) = none) →
      IndexExact (es.foldl (FlameDB.dropEvent m) b) from
    hgen es b h fun e he => Or.inl (hes e he)
  intro es
  induction es with
  | nil => exact fun b hb _ => hb
  | cons e es ih =>
      intro b hb hes
      refine ih _ (hb.dropEvent hw (hes e List.mem_cons_self)) fun e' he' => ?_
      have hdrop := lookup_dropEvent_of_notIndex (e := e) hw b
        (K := .event m e'.timestamp) hw trivial
      by_cases ht : e'.timestamp = e.timestamp
      · right
        rw [hdrop, ht, if_pos rfl]
      · rw [if_neg (by simpa using ht)] at hdrop
        unfold eventAt
        rw [hdrop]
        exact hes e' (List.mem_cons_of_mem _ he')

end FlameDB