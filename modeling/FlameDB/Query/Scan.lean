import FlameDB.Aggregates.Ranking
import FlameDB.Query.Mutation
import FlameDB.Storage.Windowed

/-!
# What a scan finds

Reading and deleting walk over the same rows: the event keys of a metric between two times, or the
references of one tag value between two times.  Keys order times by their unsigned bytes,
`timeRank`.

* `StoreInv.mem_scanned_iff` — the events a scan finds and its filter keeps are the stored ones in
  the interval; with a filter this needs an exact index.
* `StoreInv.scanned_sorted` — they come in the order of their times.
* `StoreInv.readPage_eq` — `ReadPage` is a page of them.
* `readPage_is_filtered_page` — the same in terms of times and tags, for bounds of one sign.
-/

namespace FlameDB

open Go KV

/-- The place of a time among the keys of a metric. -/
def timeRank (t : Int64) : ℕ := t.toUInt64.toNat

lemma timeRank_lt (t : Int64) : timeRank t < 256 ^ 8 := t.toUInt64.toNat_lt

lemma timeRank_eq (t : Int64) : (timeRank t : ℤ) = if t < 0 then t.toInt + 2 ^ 64 else t.toInt := by
  have hmod : (timeRank t : ℤ) = t.toInt % 2 ^ 64 := by
    have htoInt : t.toInt = t.toBitVec.toInt := rfl
    rw [htoInt, BitVec.toInt_eq_toNat_bmod]
    have hlt : timeRank t < 2 ^ 64 := t.toUInt64.toNat_lt
    have hrank : timeRank t = t.toBitVec.toNat := rfl
    rw [← hrank, Int.bmod]
    omega
  have hlo := t.le_toInt
  have hhi := t.toInt_lt
  simp only [Int64.lt_iff_toInt_lt, show (0 : Int64).toInt = 0 from rfl]
  split_ifs <;> omega

/-- Between bounds of one sign, the order of the keys is the order of the times. -/
lemma timeRank_interval_iff {start stop : Int64} (h : start < 0 ↔ stop < 0) (t : Int64) :
    (timeRank start ≤ timeRank t ∧ timeRank t < timeRank stop) ↔ start ≤ t ∧ t < stop := by
  have hs := timeRank_eq start
  have ht := timeRank_eq t
  have he := timeRank_eq stop
  have hlo := t.le_toInt
  have hhi := t.toInt_lt
  have hhs := start.toInt_lt
  have hhe := stop.toInt_lt
  have hls := start.le_toInt
  have hle := stop.le_toInt
  simp only [Int64.lt_iff_toInt_lt, Int64.le_iff_toInt_le, show (0 : Int64).toInt = 0 from rfl] at *
  split_ifs at hs ht he <;> omega

/-- The order of the keys is the order of the times, for times of one sign. -/
lemma timeRank_lt_iff {t t' : Int64} (h : t < 0 ↔ t' < 0) : timeRank t < timeRank t' ↔ t < t' := by
  have := timeRank_interval_iff h t
  simpa using this

lemma timestampBytes_lt_iff (t t' : Int64) :
    timestampBytes t < timestampBytes t' ↔ timeRank t < timeRank t' :=
  beBytes_lt_iff (timeRank_lt t) (timeRank_lt t')

lemma timestampBytes_le_iff (t t' : Int64) :
    timestampBytes t ≤ timestampBytes t' ↔ timeRank t ≤ timeRank t' := by
  rw [← not_lt, timestampBytes_lt_iff, not_lt]

lemma eventKey_split (m : Bytes) (t : Int64) :
    eventKey m t = (component m ++ [colon]) ++ timestampBytes t := by simp [eventKey]

lemma indexKey_split (m k v : Bytes) (t : Int64) : indexKey m k v t =
    (bs "idx" ++ colon :: (component m ++ colon :: (component k ++ colon :: (v ++ [colon])))) ++
      timestampBytes t := by simp [indexKey]

lemma eventKey_lt_iff (m : Bytes) (t t' : Int64) :
    eventKey m t < eventKey m t' ↔ timeRank t < timeRank t' := by
  rw [eventKey_split, eventKey_split, append_lt_append_iff, timestampBytes_lt_iff]

lemma eventKey_le_iff (m : Bytes) (t t' : Int64) :
    eventKey m t ≤ eventKey m t' ↔ timeRank t ≤ timeRank t' := by
  rw [eventKey_split, eventKey_split, append_le_append_iff, timestampBytes_le_iff]

lemma indexKey_lt_iff (m k v : Bytes) (t t' : Int64) :
    indexKey m k v t < indexKey m k v t' ↔ timeRank t < timeRank t' := by
  rw [indexKey_split, indexKey_split, append_lt_append_iff, timestampBytes_lt_iff]

lemma indexKey_le_iff (m k v : Bytes) (t t' : Int64) :
    indexKey m k v t ≤ indexKey m k v t' ↔ timeRank t ≤ timeRank t' := by
  rw [indexKey_split, indexKey_split, append_le_append_iff, timestampBytes_le_iff]

/-- The tag chosen for a scan is one of the filter's. -/
lemma bestIndexTag_mem (db : Store) (m : Bytes) {tags : Tags} (h : tags.entries ≠ []) :
    bestIndexTag db m tags ∈ tags.entries := by
  rw [bestIndexTag]
  have hfold : ∀ (l : List (Bytes × Bytes)) (best : (Bytes × Bytes) × ℕ),
      (best.1.1 ≠ [] → best.1 ∈ tags.entries) → (∀ kv ∈ l, kv ∈ tags.entries) →
      (l.foldl (fun (best : (Bytes × Bytes) × ℕ) kv =>
        let card := getCardinality db m kv.1
        if best.1.1 = [] ∨ best.2 < card ∨ (card = best.2 ∧ kv.1 < best.1.1) then (kv, card)
        else best) best).1.1 ≠ [] →
      (l.foldl (fun (best : (Bytes × Bytes) × ℕ) kv =>
        let card := getCardinality db m kv.1
        if best.1.1 = [] ∨ best.2 < card ∨ (card = best.2 ∧ kv.1 < best.1.1) then (kv, card)
        else best) best).1 ∈ tags.entries := by
    intro l
    induction l with
    | nil => exact fun best hbest _ => hbest
    | cons kv l ih =>
      intro best hbest hl
      refine ih _ ?_ fun x hx => hl x (List.mem_cons_of_mem _ hx)
      dsimp only
      split_ifs
      · exact fun _ => hl kv List.mem_cons_self
      · exact hbest
  dsimp only
  split_ifs with hnone
  · cases hentries : tags.entries with
    | nil => exact absurd hentries h
    | cons kv rest => exact List.mem_cons_self
  · exact hfold tags.entries (([], []), 0) (fun hne => absurd rfl hne) (fun _ => id) hnone

/-- The rows a scan visits. -/
def scanRows (db : Store) (m : Bytes) (start stop : Int64) (tags : Tags) : List (Bytes × Value) :=
  db.range (scanBounds db m start stop tags).1 (scanBounds db m start stop tags).2

/-- The events a scan finds and its filter keeps. -/
def scanned (db : Store) (m : Bytes) (start stop : Int64) (tags : Tags) : List Event :=
  hits db m tags (scanRows db m start stop tags)

/-- A stored event in an interval of times that passes a filter. -/
structure Selected (db : Store) (m : Bytes) (start stop : Int64) (tags : Tags)
    (e : Event) : Prop where
  stored : eventAt db m e.timestamp = some e
  passes : matchTags tags e = true
  start_le : timeRank start ≤ timeRank e.timestamp
  lt_stop : timeRank e.timestamp < timeRank stop

/-- A row that a scan keeps. -/
def keeps (db : Store) (m : Bytes) (tags : Tags) (row : Bytes × Value) (e : Event) : Prop :=
  ∃ pk, fetchRow db m (tags.entries ≠ []) row = .ok (some (pk, e)) ∧ matchTags tags e = true

lemma mem_hits_iff {db : Store} {m : Bytes} {tags : Tags}
    {rows : List (Bytes × Value)} {e : Event} :
    e ∈ hits db m tags rows ↔ ∃ row ∈ rows, keeps db m tags row e := by
  rw [hits, List.mem_filterMap]
  refine exists_congr fun row => and_congr_right fun _ => ?_
  rw [keeps]
  rcases fetchRow db m (tags.entries ≠ []) row with _ | _ | ⟨pk, e'⟩
  · simp
  · simp
  · simp only [Except.ok.injEq, Option.some.injEq, Prod.mk.injEq]
    constructor
    · intro h
      split_ifs at h with hmatch
      cases h
      exact ⟨pk, ⟨rfl, rfl⟩, hmatch⟩
    · rintro ⟨_, ⟨rfl, rfl⟩, hmatch⟩
      rw [if_pos hmatch]

section Scan

variable {db : Store} (hs : StoreInv db) {tags : Tags} (hix : tags.entries ≠ [] → IndexExact db)
  {m : Bytes} (hw : m ≠ [] ∧ m ∉ Key.reserved) {start stop : Int64}

include hs hix hw

/-- The key of a kept row, by the time of its event. -/
lemma StoreInv.key_of_keeps {row : Bytes × Value} (hrow : row ∈ scanRows db m start stop tags)
    {e : Event} (hkeep : keeps db m tags row e) :
    eventAt db m e.timestamp = some e ∧
      row.1 = if tags.entries = [] then eventKey m e.timestamp
        else indexKey m (bestIndexTag db m tags).1 (bestIndexTag db m tags).2 e.timestamp := by
  obtain ⟨pk, hfetch, hmatch⟩ := hkeep
  have hstored := ((hs.rowsSound hw start stop tags).hits_spec
    (mem_hits_iff.mpr ⟨row, hrow, pk, hfetch, hmatch⟩)).1
  refine ⟨hstored, ?_⟩
  obtain ⟨key, val⟩ := row
  by_cases hnil : tags.entries = []
  · rw [scanRows, scanBounds, if_pos hnil] at hrow
    obtain ⟨t, hkey⟩ := hs.keyed.event_of_mem_range hw hrow
    obtain rfl : key = eventKey m t := hkey
    obtain ⟨e₂, -, hdec, ht⟩ :=
      hs.eventAt_some (t := t) hw (v := val) ((OrdMap.mem_range_iff db _ _ _ val).mp hrow).1
    have heq : e₂ = e := by
      simp only [fetchRow, hnil, hdec, bind, Except.bind, pure, Except.pure] at hfetch
      have := Option.some.inj (Except.ok.inj hfetch)
      exact (Prod.mk.inj this).2
    rw [if_pos hnil, ← heq, ht]
  · rw [scanRows, scanBounds, if_neg hnil] at hrow
    obtain ⟨v', t, hkey⟩ := hs.keyed.index_of_mem_range hrow
    obtain rfl : key = indexKey m (bestIndexTag db m tags).1 v' t := hkey
    have hget := ((OrdMap.mem_range_iff db _ _ _ val).mp hrow).1
    have hexact : db.get? (indexKey m (bestIndexTag db m tags).1 v' t) = _ := hix hnil m _ v' t hw
    rw [hget] at hexact
    split_ifs at hexact with htag
    obtain rfl : val = .bytes (eventKey m t) := Option.some.inj hexact
    -- the row leads to the event at its own time, and that event has the tag value of the row
    obtain ⟨e₂, hat, hv⟩ := Option.bind_eq_some_iff.mp htag
    obtain ⟨data, hdata, -⟩ := Option.bind_eq_some_iff.mp hat
    obtain ⟨e₃, hat₃, hdec, ht⟩ := hs.eventAt_some (t := t) hw hdata
    obtain rfl : e₂ = e₃ := Option.some.inj (hat.symm.trans hat₃)
    have hdata' : db.get? (eventKey m t) = some data := hdata
    have heq : e₂ = e := by
      simp only [fetchRow, hdata', hdec, bind, Except.bind, pure, Except.pure] at hfetch
      rw [if_pos (decide_eq_true hnil)] at hfetch
      exact (Prod.mk.inj (Option.some.inj (Except.ok.inj hfetch))).2
    subst heq
    have hmem := List.all_eq_true.mp hmatch _ (bestIndexTag_mem db m hnil)
    rw [decide_eq_true_eq, hv] at hmem
    rw [if_neg hnil, ht, Option.some.inj hmem]

/-- **A scan finds the stored events of its interval.** -/
theorem StoreInv.mem_scanned_iff {e : Event} :
    e ∈ scanned db m start stop tags ↔ Selected db m start stop tags e := by
  rw [scanned, mem_hits_iff]
  constructor
  · rintro ⟨row, hrow, hkeep⟩
    obtain ⟨hstored, hkey⟩ := hs.key_of_keeps hix hw hrow hkeep
    obtain ⟨key, val⟩ := row
    obtain rfl : key = _ := hkey
    rw [scanRows, scanBounds] at hrow
    split_ifs at hrow with hnil
    · obtain ⟨-, hle, hlt⟩ := (OrdMap.mem_range_iff db _ _ _ val).mp hrow
      exact ⟨hstored, hkeep.choose_spec.2, (eventKey_le_iff m _ _).mp hle,
        (eventKey_lt_iff m _ _).mp hlt⟩
    · obtain ⟨-, hle, hlt⟩ := (OrdMap.mem_range_iff db _ _ _ val).mp hrow
      exact ⟨hstored, hkeep.choose_spec.2, (indexKey_le_iff m _ _ _ _).mp hle,
        (indexKey_lt_iff m _ _ _ _).mp hlt⟩
  · intro h
    obtain ⟨data, hdata, hdec⟩ := Option.bind_eq_some_iff.mp h.stored
    obtain ⟨e₂, hat₂, hdec₂, -⟩ := hs.eventAt_some (t := e.timestamp) hw hdata
    obtain rfl : e = e₂ := Option.some.inj (h.stored.symm.trans hat₂)
    have hget : db.get? (eventKey m e.timestamp) = some data := hdata
    by_cases hnil : tags.entries = []
    · refine ⟨(eventKey m e.timestamp, data), ?_, eventKey m e.timestamp, ?_, h.passes⟩
      · rw [scanRows, scanBounds, if_pos hnil, OrdMap.mem_range_iff]
        exact ⟨hget, (eventKey_le_iff m _ _).mpr h.start_le, (eventKey_lt_iff m _ _).mpr h.lt_stop⟩
      · simp [fetchRow, hnil, hdec₂, bind, Except.bind, pure, Except.pure]
    · have hmem := List.all_eq_true.mp h.passes _ (bestIndexTag_mem db m hnil)
      rw [decide_eq_true_eq] at hmem
      have htag : tagAt db m e.timestamp (bestIndexTag db m tags).1 =
          some (bestIndexTag db m tags).2 := by rw [tagAt, h.stored, Option.bind_some, hmem]
      have hexact : db.get? (indexKey m (bestIndexTag db m tags).1 (bestIndexTag db m tags).2
          e.timestamp) = _ := hix hnil m _ _ e.timestamp hw
      rw [if_pos htag] at hexact
      refine ⟨(indexKey m (bestIndexTag db m tags).1 (bestIndexTag db m tags).2 e.timestamp,
        .bytes (eventKey m e.timestamp)), ?_, eventKey m e.timestamp, ?_, h.passes⟩
      · rw [scanRows, scanBounds, if_neg hnil, OrdMap.mem_range_iff]
        exact ⟨hexact, (indexKey_le_iff m _ _ _ _).mpr h.start_le,
          (indexKey_lt_iff m _ _ _ _).mpr h.lt_stop⟩
      · simp [fetchRow, hnil, hget, hdec₂, bind, Except.bind, pure, Except.pure]

/-- The events come in the order of their times, each once. -/
theorem StoreInv.scanned_sorted : (scanned db m start stop tags).Pairwise
    fun a b => timeRank a.timestamp < timeRank b.timestamp := by
  rw [scanned, hits, List.pairwise_filterMap]
  have hrows := db.range_sorted (scanBounds db m start stop tags).1
    (scanBounds db m start stop tags).2
  refine List.Pairwise.imp_of_mem ?_ hrows
  intro row row' hrow hrow' hlt e he e' he'
  have hkeep : ∀ {row : Bytes × Value} {e : Event}, e ∈ hits db m tags [row] →
      keeps db m tags row e := by
    intro row e he
    obtain ⟨r, hr, h⟩ := mem_hits_iff.mp he
    rwa [List.mem_singleton.mp hr] at h
  have hkeeps := hkeep (List.mem_filterMap.mpr ⟨row, List.mem_cons_self, he⟩)
  have hkeeps' := hkeep (List.mem_filterMap.mpr ⟨row', List.mem_cons_self, he'⟩)
  rw [(hs.key_of_keeps hix hw hrow hkeeps).2, (hs.key_of_keeps hix hw hrow' hkeeps').2] at hlt
  split_ifs at hlt
  · exact (eventKey_lt_iff m _ _).mp hlt
  · exact (indexKey_lt_iff m _ _ _ _).mp hlt

end Scan

/-! ## Windows

A negative start and a stop that is not positive stand for no bound. -/

lemma filterMap_of_mapM {α β : Type} {f : α → Except Bytes β} {g : α → Option β} {l : List α}
    (h : ∀ a ∈ l, ∃ b, f a = .ok b ∧ g a = some b) : l.mapM f = .ok (l.filterMap g) := by
  induction l with
  | nil => rfl
  | cons a l ih =>
    obtain ⟨b, hf, hg⟩ := h a List.mem_cons_self
    rw [List.mapM_cons, hf, ih fun a' ha' => h a' (List.mem_cons_of_mem _ ha'),
      List.filterMap_cons_some hg]
    rfl

lemma windowStart_nonneg (start : Int64) : 0 ≤ windowStart start := by
  rw [windowStart]
  split_ifs with h
  · decide
  · simp only [Int64.lt_iff_toInt_lt, Int64.le_iff_toInt_le] at *
    omega

lemma windowStop_pos (stop : Int64) : 0 < windowStop stop := by
  rw [windowStop]
  split_ifs with h
  · decide
  · simp only [Int64.lt_iff_toInt_lt, Int64.le_iff_toInt_le] at *
    omega

/-- Bounds that are in order stay as they are. -/
lemma windowStart_of_nonneg {start : Int64} (h : 0 ≤ start) : windowStart start = start := by
  refine if_neg fun hneg => ?_
  simp only [Int64.lt_iff_toInt_lt, Int64.le_iff_toInt_le] at *
  omega

lemma windowStop_of_pos {stop : Int64} (h : 0 < stop) : windowStop stop = stop := by
  refine if_neg fun hneg => ?_
  simp only [Int64.lt_iff_toInt_lt, Int64.le_iff_toInt_le] at *
  omega

lemma window_sign (start stop : Int64) : windowStart start < 0 ↔ windowStop stop < 0 := by
  have hstart := windowStart_nonneg start
  have hstop := windowStop_pos stop
  simp only [Int64.lt_iff_toInt_lt, Int64.le_iff_toInt_le] at *
  omega

/-- The rows of a window are those of a scan without a filter. -/
lemma windowRows_eq (db : Store) (m : Bytes) (start stop : Int64) :
    windowRows db m start stop = scanRows db m (windowStart start) (windowStop stop) ∅ := by
  rw [windowRows]
  split_ifs with hle
  · refine (List.eq_nil_iff_forall_not_mem.mpr fun row hrow => ?_).symm
    obtain ⟨-, hlo, hhi⟩ := (OrdMap.mem_range_iff db _ _ row.1 row.2).mp hrow
    have hlt := (eventKey_lt_iff m _ _).mp (lt_of_le_of_lt hlo hhi)
    have := ((timeRank_interval_iff (window_sign start stop) _).mp ⟨le_rfl, hlt⟩).2
    rw [Int64.lt_iff_toInt_lt] at this
    rw [Int64.le_iff_toInt_le] at hle
    omega
  · rfl

/-- **The rows of a window hold the events a scan finds.** -/
lemma StoreInv.mapM_scanRows {db : Store} (hs : StoreInv db) {m : Bytes}
    (hw : m ≠ [] ∧ m ∉ Key.reserved) (start stop : Int64) :
    (scanRows db m start stop ∅).mapM (fun row => decodeEventValue row.2 m) =
      .ok (scanned db m start stop ∅) := by
  refine filterMap_of_mapM fun row hrow => ?_
  obtain ⟨t, hkey⟩ := hs.keyed.event_of_mem_range hw hrow
  obtain ⟨key, val⟩ := row
  obtain rfl : key = eventKey m t := hkey
  obtain ⟨e, -, hdec, -⟩ :=
    hs.eventAt_some (t := t) hw (v := val) ((OrdMap.mem_range_iff db _ _ _ val).mp hrow).1
  refine ⟨e, hdec, ?_⟩
  have hfetch : fetchRow db m ((∅ : Tags).entries ≠ []) (eventKey m t, val) =
      .ok (some (eventKey m t, e)) := by
    rw [fetchRow, if_neg (by decide), hdec]
    rfl
  rw [hfetch]
  rfl

/-- **A windowed leaderboard is the page of the sums over the events of its window.** -/
lemma StoreInv.windowedLeaderboard_eq {db : Store} (hs : StoreInv db) {m : Bytes}
    (hw : m ≠ [] ∧ m ∉ Key.reserved) (start stop : Int64) (tag : Bytes) (limit offset : ℕ) :
    windowedLeaderboard db m tag start stop limit offset = .ok (leaderboardPage
      (entitySums tag (scanned db m (windowStart start) (windowStop stop) ∅)) limit offset) := by
  have hrows : (windowRows db m start stop).mapM (fun row => decodeEventValue row.2 m) =
      .ok (scanned db m (windowStart start) (windowStop stop) ∅) := by
    rw [windowRows_eq]
    exact hs.mapM_scanRows hw _ _
  rw [windowedLeaderboard, if_neg (by omega), sumRows_eq hrows]
  rfl

/-! ## Pages

The loop skips `offset` rows and stops after `limit`: a page of the filtered list. -/

lemma page_of_length_le {α : Type*} {limit : ℕ} {l : List α} (h : limit = 0 ∨ l.length ≤ limit) :
    page limit 0 l = l := by
  rw [page]
  split_ifs with h0
  · rfl
  · exact List.take_of_length_le (h.resolve_left h0)

/-- The loop of `ReadPage` uses up the offset and adds events up to the limit. -/
lemma RowsSound.readLoop_eq {db : Store} {m : Bytes} {tags : Tags} {rows : List (Bytes × Value)}
    (h : RowsSound db m tags rows) {limit : ℕ} (offset : ℕ) {events : List Event}
    (hlim : limit = 0 ∨ events.length < limit) :
    readLoop db m tags limit rows offset events =
      .ok (page limit 0 (events ++ (hits db m tags rows).drop offset)) := by
  induction rows generalizing offset events with
  | nil =>
    simp only [readLoop, hits, List.filterMap_nil, List.drop_nil, List.append_nil]
    rw [page_of_length_le (hlim.imp_right le_of_lt)]
  | cons row rows ih =>
    have hrest : RowsSound db m tags rows := fun r hr => h r (List.mem_cons_of_mem _ hr)
    obtain ⟨t, hfetch, -⟩ := h row List.mem_cons_self
    rw [readLoop, hfetch]
    cases hat : eventAt db m t with
    | none =>
      rw [hat] at hfetch
      rw [hits_cons_none (fun pk e he => by
        rw [hfetch] at he
        cases he)]
      exact ih hrest offset hlim
    | some e =>
      rw [hat] at hfetch
      show (if matchTags tags e then _ else _) = _
      cases hmatch : matchTags tags e with
      | false =>
        rw [hits_cons_none (fun pk e' he => by
          rw [hfetch] at he
          cases he
          exact hmatch)]
        exact ih hrest offset hlim
      | true =>
        rw [hits_cons_some hfetch hmatch, if_pos rfl]
        by_cases hpos : 0 < offset
        · obtain ⟨n, rfl⟩ := Nat.exists_eq_succ_of_ne_zero hpos.ne'
          rw [if_pos hpos]
          exact ih hrest n hlim
        · obtain rfl : offset = 0 := Nat.eq_zero_of_not_pos hpos
          rw [if_neg hpos]
          by_cases hfull : 0 < limit ∧ limit ≤ events.length + 1
          · have hlen : limit = (events ++ [e]).length := by
              rw [List.length_append, List.length_singleton]
              omega
            rw [if_pos hfull, page, if_neg (by omega), List.drop_zero, List.drop_zero, hlen,
              List.append_cons events e (hits db m tags rows), List.take_left]
            rfl
          · rw [if_neg hfull, List.drop_zero, List.append_cons events e (hits db m tags rows)]
            refine (ih hrest 0 ?_).trans (by rw [List.drop_zero])
            rw [List.length_append, List.length_singleton]
            omega

/-- **`ReadPage` is a page of what the scan finds**, in either order. -/
theorem StoreInv.readPage_eq {db : Store} (hs : StoreInv db) {m : Bytes}
    (hw : m ≠ [] ∧ m ∉ Key.reserved) (start stop : Int64) (tags : Tags) {limit offset : ℤ}
    (hl : 0 ≤ limit) (ho : 0 ≤ offset) (desc : Bool) :
    readPage db m start stop tags limit offset desc = .ok (page limit.toNat offset.toNat
      (if desc then (scanned db m start stop tags).reverse else scanned db m start stop tags)) := by
  have hrows : RowsSound db m tags (scanRows db m start stop tags) :=
    hs.rowsSound hw start stop tags
  have hempty : limit.toNat = 0 ∨ ([] : List Event).length < limit.toNat := by
    rw [List.length_nil]
    omega
  have hrev : RowsSound db m tags (scanRows db m start stop tags).reverse :=
    fun row hrow => hrows row (List.mem_reverse.mp hrow)
  have hpage : ∀ l : List Event, page limit.toNat 0 (l.drop offset.toNat) =
      page limit.toNat offset.toNat l := by
    intro l
    simp [page]
  rw [readPage, if_neg (by omega)]
  cases desc with
  | false =>
    show readLoop db m tags limit.toNat (scanRows db m start stop tags) offset.toNat [] = _
    rw [hrows.readLoop_eq _ hempty, List.nil_append, hpage]
    rfl
  | true =>
    show readLoop db m tags limit.toNat (scanRows db m start stop tags).reverse offset.toNat [] = _
    rw [hrev.readLoop_eq _ hempty, List.nil_append, hpage, hits, List.filterMap_reverse]
    rfl

lemma matchTags_iff {tags : Tags} {e : Event} :
    matchTags tags e = true ↔ ∀ kv ∈ tags.entries, e.tags.get? kv.1 = some kv.2 := by
  simp [matchTags]

/-- Times of one interval whose bounds have one sign have that sign. -/
lemma neg_iff_of_mem_interval {start stop t : Int64} (hsign : start < 0 ↔ stop < 0)
    (h : start ≤ t ∧ t < stop) : t < 0 ↔ start < 0 := by
  simp only [Int64.lt_iff_toInt_lt, Int64.le_iff_toInt_le] at *
  omega

/-- **`ReadPage` is a filtered page**: the events of the interval with all the tags, in the
requested order, paged.  The bounds have one sign, for the keys order negative times behind the
others. -/
theorem readPage_is_filtered_page {db : Store} (hs : StoreInv db) (hix : IndexExact db) {m : Bytes}
    (hw : m ≠ [] ∧ m ∉ Key.reserved) {start stop : Int64} (hsign : start < 0 ↔ stop < 0)
    (tags : Tags) (limit offset : ℕ) (desc : Bool) :
    ∃ events : List Event,
      (∀ e, e ∈ events ↔ eventAt db m e.timestamp = some e ∧
        (start ≤ e.timestamp ∧ e.timestamp < stop) ∧
        ∀ kv ∈ tags.entries, e.tags.get? kv.1 = some kv.2) ∧
      events.Pairwise (fun a b =>
        if desc then b.timestamp < a.timestamp else a.timestamp < b.timestamp) ∧
      readPage db m start stop tags limit offset desc = .ok (page limit offset events) := by
  have hmem : ∀ e, e ∈ scanned db m start stop tags ↔ eventAt db m e.timestamp = some e ∧
      (start ≤ e.timestamp ∧ e.timestamp < stop) ∧
      ∀ kv ∈ tags.entries, e.tags.get? kv.1 = some kv.2 := by
    intro e
    rw [hs.mem_scanned_iff (fun _ => hix) hw, ← timeRank_interval_iff hsign, ← matchTags_iff]
    exact ⟨fun h => ⟨h.stored, ⟨h.start_le, h.lt_stop⟩, h.passes⟩,
      fun ⟨h1, h2, h3⟩ => ⟨h1, h3, h2.1, h2.2⟩⟩
  have hsorted : (scanned db m start stop tags).Pairwise fun a b => a.timestamp < b.timestamp := by
    refine (hs.scanned_sorted (fun _ => hix) hw).imp_of_mem fun {a b} ha hb hlt => ?_
    refine (timeRank_lt_iff ?_).mp hlt
    rw [neg_iff_of_mem_interval hsign ((hmem a).mp ha).2.1,
      neg_iff_of_mem_interval hsign ((hmem b).mp hb).2.1]
  have hpage := hs.readPage_eq hw start stop tags (Int.natCast_nonneg limit)
    (Int.natCast_nonneg offset) desc
  cases desc with
  | false => exact ⟨_, hmem, hsorted, hpage⟩
  | true =>
    refine ⟨(scanned db m start stop tags).reverse, fun e => ?_, ?_, hpage⟩
    · rw [List.mem_reverse]
      exact hmem e
    · exact List.pairwise_reverse.mpr hsorted

/-! ## A store of four events -/

/-- The event of a player at a time. -/
def taggedEvent (t : Int64) (player : String) (bits : ℕ) : Event :=
  ⟨t, bs "hits", Float64.ofBits bits, OrdMap.set ∅ (bs "k") (bs player)⟩

/-- Two players, one of them named with a colon. -/
def taggedEvents : List Event :=
  [taggedEvent 5 "a:b" 0x3FF0000000000000, taggedEvent 6 "c" 0x4000000000000000,
    taggedEvent 7 "a:b" 0x4010000000000000, taggedEvent 11 "a:b" 0x4020000000000000]

/-- The store after some events. -/
def storeOf (events : List Event) : Store :=
  events.foldl (fun db e => (stageEvent db e).toOption.getD db) ∅

/-- An event that can be stored without loss. -/
structure Storable (e : Event) : Prop where
  wf : (Key.event e.metric e.timestamp).WF
  finite : e.value.isFinite = true
  lossless : e.Lossless

/-- What the empty store has and every stored event keeps. -/
lemma storeOf_induction {M : Store → Prop} (h0 : M ∅) {events : List Event}
    (hevents : ∀ e ∈ events, Storable e)
    (hstep : ∀ e ∈ events, ∀ db db', StoreInv db → M db → stageEvent db e = .ok db' → M db') :
    StoreInv (storeOf events) ∧ M (storeOf events) := by
  induction events using List.reverseRecOn with
  | nil => exact ⟨storeInv_empty, h0⟩
  | append_singleton events e ih =>
      obtain ⟨hinv, hM⟩ := ih (fun e' he => hevents e' (List.mem_append_left _ he))
        fun e' he => hstep e' (List.mem_append_left _ he)
      have he := hevents e (by simp)
      obtain ⟨val, db, hstage, -, hinv', -⟩ := stageEvent_spec hinv he.wf he.finite
      have hdb : storeOf (events ++ [e]) = db := by
        rw [storeOf, List.foldl_append, List.foldl_cons, List.foldl_nil]
        exact (congrArg (fun r => r.toOption.getD (storeOf events)) hstage)
      rw [hdb]
      exact ⟨hinv', hstep e (by simp) _ _ hinv hM hstage⟩

lemma taggedEvents_storable : ∀ e ∈ taggedEvents, Storable e := by
  have hall : ∀ e ∈ taggedEvents, (e.metric ≠ [] ∧ e.metric ∉ Key.reserved) ∧
      e.value.isFinite = true ∧ e.Lossless := by decide +kernel
  exact fun e he => ⟨(hall e he).1, (hall e he).2.1, (hall e he).2.2⟩

def taggedStore : Store := storeOf taggedEvents

lemma taggedStore_exact : StoreInv taggedStore ∧ IndexExact taggedStore :=
  storeOf_induction indexExact_empty taggedEvents_storable fun e he _ _ hs hix hstage =>
    have h := taggedEvents_storable e he
    hix.stageEvent hs h.wf h.finite h.lossless hstage

/-- The second page, latest first, of the events of one player: one is of the other player, one is
behind the end. -/
theorem readPage_taggedStore :
    ∃ events : List Event,
      taggedEvents.map (fun e => decide (e ∈ events)) = [true, false, true, false] ∧
      readPage taggedStore (bs "hits") 0 9 (OrdMap.set ∅ (bs "k") (bs "a:b")) 1 1 true =
        .ok (page 1 1 events) ∧
      readPage taggedStore (bs "hits") 0 9 (OrdMap.set ∅ (bs "k") (bs "a:b")) 1 1 true =
        .ok [taggedEvent 5 "a:b" 0x3FF0000000000000] := by
  have hsign : (0 : Int64) < 0 ↔ (9 : Int64) < 0 := by decide
  obtain ⟨events, hmem, -, hpage⟩ := readPage_is_filtered_page taggedStore_exact.1
    taggedStore_exact.2 (m := bs "hits") (by decide) hsign
      (OrdMap.set ∅ (bs "k") (bs "a:b")) 1 1 true
  refine ⟨events, ?_, hpage, by decide +kernel⟩
  simp only [hmem]
  decide +kernel

/-- Bounds on both sides of the epoch find nothing. -/
theorem readPage_across_epoch :
    StoreInv taggedStore ∧ IndexExact taggedStore ∧ (-1 : Int64) ≤ 9 ∧
      (∀ e ∈ taggedEvents.take 3, eventAt taggedStore (bs "hits") e.timestamp = some e ∧
        (-1 : Int64) ≤ e.timestamp ∧ e.timestamp < 9) ∧
      readPage taggedStore (bs "hits") (-1) 9 ∅ 0 0 false = .ok [] :=
  ⟨taggedStore_exact.1, taggedStore_exact.2, by decide, by decide +kernel, by decide +kernel⟩

end FlameDB
