import FlameDB.Storage.Event

/-!
# The event store

Events are filed by metric and time; a second family of keys files a reference to each event under
every tag it carries.  The functions here read and change both families: `stageEvent` and
`scanDeleteWhere` stage their changes into a batch, `readPage` answers queries.

A batch is represented by what the store will hold once it is committed.  Reading through an
indexed batch is then a lookup in it, and committing returns it; reads that the source directs at
the database itself take the store separately.

Below each writer stands the lemma that says what it does to a lookup.
-/

namespace FlameDB

open Go KV

/-- `getCardCount`: the stored count, 0 when it is missing or short. -/
def getCardCount (db : Store) (countKey : Bytes) : ℕ :=
  match db.get? countKey with
  | some (.bytes data) => if data.length < 8 then 0 else beNat (data.take 8)
  | _ => 0

/-- The stored count of a tag. -/
def getCardinality (db : Store) (metric tagKey : Bytes) : ℕ :=
  getCardCount db (cardCountKey metric tagKey)

/-- `BestIndexTag`: the tag with the most distinct values, the smaller key on a tie. -/
def bestIndexTag (db : Store) (metric : Bytes) (tags : Tags) : Bytes × Bytes :=
  let best := tags.entries.foldl (fun (best : (Bytes × Bytes) × ℕ) kv =>
    let card := getCardinality db metric kv.1
    if best.1.1 = [] ∨ best.2 < card ∨ (card = best.2 ∧ kv.1 < best.1.1) then (kv, card) else best)
    (([], []), 0)
  if best.1.1 = [] then tags.entries.headD ([], []) else best.1

/-! ## Reading -/

/-- Exact match of every filter. -/
def matchTags (tags : Tags) (e : Event) : Bool :=
  tags.entries.all fun kv => e.tags.get? kv.1 = some kv.2

/-- The bounds of a scan: over the events themselves, or over the chosen tag's references. -/
def scanBounds (db : Store) (metric : Bytes) (start stop : Int64) (tags : Tags) : Bytes × Bytes :=
  if tags.entries = [] then (eventKey metric start, eventKey metric stop)
  else
    let (k, v) := bestIndexTag db metric tags
    (indexKey metric k v start, indexKey metric k v stop)

/-- One visited row: the primary key and its event, or nothing for a reference whose event is
gone. -/
def fetchRow (db : Store) (metric : Bytes) (indexed : Bool) (row : Bytes × Value) :
    Except Bytes (Option (Bytes × Event)) :=
  if indexed then
    match row.2 with
    | .bytes primaryKey =>
        match db.get? primaryKey with
        | some data => do return some (primaryKey, ← decodeEventValue data metric)
        | none => .ok none
    | _ => .ok none
  else do return some (row.1, ← decodeEventValue row.2 metric)

def invalidPagination : Bytes := bs "invalid pagination"

/-- The loop of `ReadPage` over the visited rows. -/
def readLoop (db : Store) (metric : Bytes) (tags : Tags) (limit : ℕ) :
    List (Bytes × Value) → ℕ → List Event → Except Bytes (List Event)
  | [], _, events => .ok events
  | row :: rows, offset, events => do
      match ← fetchRow db metric (tags.entries ≠ []) row with
      | none => readLoop db metric tags limit rows offset events
      | some (_, e) =>
          if matchTags tags e then
            if 0 < offset then readLoop db metric tags limit rows (offset - 1) events
            else if 0 < limit ∧ limit ≤ events.length + 1 then return events ++ [e]
            else readLoop db metric tags limit rows offset (events ++ [e])
          else readLoop db metric tags limit rows offset events

/-- A page of the events of a metric, in either direction. -/
def readPage (db : Store) (metric : Bytes) (start stop : Int64) (tags : Tags)
    (limit offset : ℤ) (desc : Bool) : Except Bytes (List Event) :=
  if limit < 0 ∨ offset < 0 then .error invalidPagination
  else
    let bounds := scanBounds db metric start stop tags
    let rows := db.range bounds.1 bounds.2
    readLoop db metric tags limit.toNat (if desc then rows.reverse else rows) offset.toNat []

/-! ## Staging -/

/-- Drop the references an event has under its tags. -/
def eraseIndex (batch : Store) (metric : Bytes) (timestamp : Int64) (tags : Tags) : Store :=
  tags.entries.foldl (fun b kv => b.erase (indexKey metric kv.1 kv.2 timestamp)) batch

/-- File a reference to an event under each of its tags. -/
def setIndex (batch : Store) (metric : Bytes) (timestamp : Int64) (tags : Tags) : Store :=
  tags.entries.foldl (fun b kv => b.set (indexKey metric kv.1 kv.2 timestamp)
    (.bytes (eventKey metric timestamp))) batch

/-- The tags of the event that a write at this time replaces, staged or stored. -/
def previousTags (batch : Store) (metric : Bytes) (timestamp : Int64) : Except Bytes Tags :=
  match batch.get? (eventKey metric timestamp) with
  | some old => (decodeEventValue old metric).map Event.tags
  | none => .ok ∅

/-- Stages an event; the references of an event it replaces go first. -/
def stageEvent (batch : Store) (e : Event) : Except Bytes Store := do
  let val ← encodeEventValue e
  let previous ← previousTags batch e.metric e.timestamp
  let batch := eraseIndex batch e.metric e.timestamp previous
  return setIndex (batch.set (eventKey e.metric e.timestamp) val) e.metric e.timestamp e.tags

/-- The loop of `ScanDeleteWhere`: count the matches, stage their removal if there is a batch. -/
def deleteLoop (db : Store) (metric : Bytes) (tags : Tags) :
    List (Bytes × Value) → Option Store → ℕ → Except Bytes (Option Store × ℕ)
  | [], batch, count => .ok (batch, count)
  | row :: rows, batch, count => do
      match ← fetchRow db metric (tags.entries ≠ []) row with
      | none => deleteLoop db metric tags rows batch count
      | some (primaryKey, e) =>
          if matchTags tags e then
            deleteLoop db metric tags rows
              (batch.map fun b => (eraseIndex b metric e.timestamp e.tags).erase primaryKey)
              (count + 1)
          else deleteLoop db metric tags rows batch count

/-- Counts the matching events and stages their removal unless it is a preview. -/
def scanDeleteWhere (db : Store) (batch : Option Store) (metric : Bytes) (start stop : Int64)
    (tags : Tags) : Except Bytes (Option Store × ℕ) :=
  let bounds := scanBounds db metric start stop tags
  deleteLoop db metric tags (db.range bounds.1 bounds.2) batch 0

/-! ## Lookups by logical key -/

/-- What the store holds for a logical item. -/
def lookup (db : Store) (k : Key) : Option Value := db.get? k.encode

lemma lookup_set (db : Store) {k j : Key} (hk : k.WF) (hj : j.WF) (v : Value) :
    lookup (db.set k.encode v) j = if j = k then some v else lookup db j := by
  simp only [lookup, OrdMap.get?_set, Key.encode_inj_iff hj hk]

lemma lookup_erase (db : Store) {k j : Key} (hk : k.WF) (hj : j.WF) :
    lookup (db.erase k.encode) j = if j = k then none else lookup db j := by
  simp only [lookup, OrdMap.get?_erase, Key.encode_inj_iff hj hk]

/-- The event a metric has at a time, if there is one that can be read. -/
def eventAt (db : Store) (metric : Bytes) (timestamp : Int64) : Option Event :=
  (lookup db (.event metric timestamp)).bind fun v => (decodeEventValue v metric).toOption

lemma exists_tag_iff (tags : Tags) {p : Bytes → Bytes → Prop} :
    (∃ kv ∈ tags.entries, p kv.1 kv.2) ↔ ∃ k v, tags.get? k = some v ∧ p k v := by
  constructor
  · rintro ⟨⟨k, v⟩, hmem, hp⟩
    exact ⟨k, v, (OrdMap.mem_entries_iff tags k v).mp hmem, hp⟩
  · rintro ⟨k, v, hget, hp⟩
    exact ⟨(k, v), (OrdMap.mem_entries_iff tags k v).mpr hget, hp⟩

/-- Which keys `eraseIndex` and `setIndex` touch. -/
lemma exists_indexKey_iff (metric : Bytes) (timestamp : Int64) (tags : Tags) {k : Key} (hk : k.WF) :
    (∃ kv ∈ tags.entries, indexKey metric kv.1 kv.2 timestamp = k.encode) ↔
      ∃ tag val, tags.get? tag = some val ∧ k = .index metric tag val timestamp := by
  rw [exists_tag_iff tags (p := fun a b => indexKey metric a b timestamp = k.encode)]
  refine exists_congr fun a => exists_congr fun b => and_congr_right fun _ => ?_
  rw [eq_comm]
  exact Key.encode_inj_iff hk (j := .index metric a b timestamp) trivial

lemma exists_indexKey_index_iff (m m' k v : Bytes) (t t' : Int64) (tags : Tags) :
    (∃ kv ∈ tags.entries, indexKey m kv.1 kv.2 t = (Key.index m' k v t').encode) ↔
      m' = m ∧ t' = t ∧ tags.get? k = some v := by
  rw [exists_indexKey_iff m t tags (k := .index m' k v t') trivial]
  constructor
  · rintro ⟨a, c, hget, ⟨rfl, rfl, rfl, rfl⟩⟩
    exact ⟨rfl, rfl, hget⟩
  · rintro ⟨rfl, rfl, hget⟩
    exact ⟨k, v, hget, rfl⟩

lemma lookup_eraseIndex_index (b : Store) (m m' k v : Bytes) (t t' : Int64) (tags : Tags) :
    lookup (eraseIndex b m t tags) (.index m' k v t') =
      if m' = m ∧ t' = t ∧ tags.get? k = some v then none else lookup b (.index m' k v t') := by
  rw [lookup, eraseIndex, OrdMap.get?_foldl_erase (fun kv : Bytes × Bytes =>
    indexKey m kv.1 kv.2 t)]
  simp only [exists_indexKey_index_iff]
  rfl

lemma lookup_setIndex_index (b : Store) (m m' k v : Bytes) (t t' : Int64) (tags : Tags) :
    lookup (setIndex b m t tags) (.index m' k v t') =
      if m' = m ∧ t' = t ∧ tags.get? k = some v then some (.bytes (eventKey m t))
      else lookup b (.index m' k v t') := by
  rw [lookup, setIndex, OrdMap.get?_foldl_set (fun kv : Bytes × Bytes => indexKey m kv.1 kv.2 t)]
  simp only [exists_indexKey_index_iff]
  rfl

/-- The items that are not tag references. -/
def Key.NotIndex : Key → Prop
  | .index .. => False
  | _ => True

lemma lookup_eraseIndex_of_notIndex (b : Store) (m : Bytes) (t : Int64) (tags : Tags) {k : Key}
    (hk : k.WF) (hni : k.NotIndex) : lookup (eraseIndex b m t tags) k = lookup b k := by
  rw [lookup, eraseIndex, OrdMap.get?_foldl_erase (fun kv : Bytes × Bytes =>
    indexKey m kv.1 kv.2 t), if_neg]
  · rfl
  · rw [exists_indexKey_iff m t tags hk]
    rintro ⟨a, c, -, rfl⟩
    exact hni

lemma lookup_setIndex_of_notIndex (b : Store) (m : Bytes) (t : Int64) (tags : Tags) {k : Key}
    (hk : k.WF) (hni : k.NotIndex) : lookup (setIndex b m t tags) k = lookup b k := by
  rw [lookup, setIndex, OrdMap.get?_foldl_set (fun kv : Bytes × Bytes =>
    indexKey m kv.1 kv.2 t), if_neg]
  · rfl
  · rw [exists_indexKey_iff m t tags hk]
    rintro ⟨a, c, -, rfl⟩
    exact hni

lemma stageEvent_ok_iff (b b' : Store) (e : Event) :
    stageEvent b e = .ok b' ↔ ∃ val prev, encodeEventValue e = .ok val ∧
      previousTags b e.metric e.timestamp = .ok prev ∧
      b' = setIndex ((eraseIndex b e.metric e.timestamp prev).set
        (eventKey e.metric e.timestamp) val)
        e.metric e.timestamp e.tags := by
  unfold stageEvent
  cases encodeEventValue e with
  | error msg => simp [bind, Except.bind]
  | ok val =>
      cases previousTags b e.metric e.timestamp with
      | error msg => simp [bind, Except.bind]
      | ok prev => simp [bind, Except.bind, pure, Except.pure, eq_comm]

end FlameDB
