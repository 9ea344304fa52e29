import FlameDB.Go.Heap
import FlameDB.Storage.Storage

/-!
# Windowed leaderboards

A leaderboard over a window of time is not stored: `windowedLeaderboard` walks over the events of
the window, adds up their values by the entity one of their tags names, and sorts the sums.  Only
the score and the tag are read from each event (`eventEntityValue`), and for a small page only the
best candidates are kept, in a heap with the worst of them on top.
-/

namespace Go.Float64

/-- Go's `==`. -/
def same (x y : Float64) : Bool := !x.isNaN && !y.isNaN && x.units = y.units

/-- Go's `>`. -/
def above (x y : Float64) : Bool := !x.isNaN && !y.isNaN && y.units < x.units

end Go.Float64

namespace FlameDB

open Go KV

/-- The tag loop, looking for one key. -/
def readEntity (tag : Bytes) : ℕ → Bytes → Option Bytes → Except Bytes (Option Bytes)
  | 0, _, found => .ok found
  | n + 1, data, found =>
      if data.length < 2 then .error invalidEventEncoding
      else
        let klen := beNat (data.take 2)
        let data := data.drop 2
        if data.length < klen + 2 then .error invalidEventEncoding
        else
          let key := data.take klen
          let data := data.drop klen
          let vlen := beNat (data.take 2)
          let data := data.drop 2
          if data.length < vlen then .error invalidEventEncoding
          else readEntity tag n (data.drop vlen) (if key = tag then
            some (data.take vlen) else found)

/-- The entity a tag names, if the event has it, and the event's value. -/
def eventEntityValue (data : Value) (tag : Bytes) : Except Bytes (Option Bytes × Float64) :=
  match data with
  | .bytes (version :: rest) =>
      if version = eventBinaryVersion then
        if rest.length < 18 then .error invalidEventEncoding
        else do
          let found ← readEntity tag (beNat ((rest.drop 16).take 2)) (rest.drop 18) none
          return (found, Float64.ofBits (beNat ((rest.drop 8).take 8)))
      else do
        let e ← decodeEventValue data []
        return (e.tags.get? tag, e.value)
  | data => do
      let e ← decodeEventValue data []
      return (e.tags.get? tag, e.value)

lemma readEntity_eq (tag : Bytes) (n : ℕ) (data : Bytes) (tags : Tags) :
    readEntity tag n data (tags.get? tag) = (readTags n data tags).map fun t => t.get? tag := by
  induction n generalizing data tags with
  | zero => rfl
  | succ n ih =>
    simp only [readEntity, readTags]
    split_ifs with h1 h2 h3 hkey
    · rfl
    · rfl
    · rfl
    · subst hkey
      rw [← ih, OrdMap.get?_set, if_pos rfl]
    · rw [← ih, OrdMap.get?_set_of_ne _ _ (Ne.symm hkey)]

/-- Reading one tag gives what reading the whole event gives. -/
theorem eventEntityValue_eq (data : Value) (tag metric : Bytes) :
    eventEntityValue data tag =
      (decodeEventValue data metric).map fun e => (e.tags.get? tag, e.value) := by
  cases data with
  | bytes b =>
    cases b with
    | nil => rfl
    | cons version rest =>
      have hentity := readEntity_eq tag (beNat ((rest.drop 16).take 2)) (rest.drop 18) ∅
      rw [show (∅ : Tags).get? tag = none from rfl] at hentity
      simp only [eventEntityValue, decodeEventValue, decodeBinary, hentity]
      by_cases hversion : version = eventBinaryVersion
      · rw [if_pos hversion, if_pos hversion]
        by_cases hshort : rest.length < 18
        · rw [if_pos hshort, if_pos hshort]
          rfl
        · rw [if_neg hshort, if_neg hshort]
          cases readTags (beNat ((rest.drop 16).take 2)) (rest.drop 18) ∅ <;> rfl
      · rw [if_neg hversion, if_neg hversion, if_neg hversion]
        rfl
  | eventDoc e =>
    simp only [eventEntityValue, decodeEventValue, unmarshalEvent]
    by_cases hm : metric = [] <;>
      simp [hm, bind, Except.bind, pure, Except.pure, Except.map]
  | entryDoc e =>
    simp only [eventEntityValue, decodeEventValue, unmarshalEvent]
    by_cases hm : metric = [] <;>
      simp [hm, bind, Except.bind, pure, Except.pure, Except.map]

/-- The order of a page: the higher score first, then the entity. -/
def leaderboardBefore (a b : LeaderboardEntry) : Bool :=
  if !a.value.same b.value then a.value.above b.value else a.entityID < b.entityID

/-- The order of the heap: the worst candidate first. -/
def heapLess (a b : LeaderboardEntry) : Bool := leaderboardBefore b a

/-- Keep the best of the heap's entries and the given ones. -/
def selectBest (h entries : List LeaderboardEntry) : List LeaderboardEntry :=
  entries.foldl (fun h entry =>
    match h.head? with
    | some worst =>
        if leaderboardBefore entry worst then Heap.replaceRoot heapLess h entry else h
    | none => h) h

/-- A page of sums. For a short page a heap selects the best before they are sorted. -/
def leaderboardPage (sums : List LeaderboardEntry) (limit offset : ℕ) : List LeaderboardEntry :=
  if sums.length ≤ offset then []
  else
    let k := if 0 < limit ∧ limit < sums.length - offset then offset + limit else sums.length
    let sums := if k < sums.length / 2 then
      selectBest (Heap.init heapLess (sums.take k)) (sums.drop k)
      else sums
    ((sums.insertionSort fun a b => !leaderboardBefore b a).take k).drop offset

/-! ## The window -/

/-- Add a value to the sum of an entity, in the order the entities are first met. -/
def addSum (entity : Bytes) (value : Float64) : List LeaderboardEntry → List LeaderboardEntry
  | [] => [⟨entity, value⟩]
  | entry :: rest =>
      if entry.entityID = entity then { entry with value := entry.value + value } :: rest
      else entry :: addSum entity value rest

/-- The loop over the rows of the window; events without the tag are skipped. -/
def sumRows (tag : Bytes) : List (Bytes × Value) → List LeaderboardEntry →
    Except Bytes (List LeaderboardEntry)
  | [], sums => .ok sums
  | row :: rows, sums => do
      let (found, value) ← eventEntityValue row.2 tag
      match found with
      | some (b :: id) => sumRows tag rows (addSum (b :: id) value sums)
      | _ => sumRows tag rows sums

/-- The bounds of a window: a start before the epoch is the epoch, and an end that is not after it
is open. -/
def windowStart (start : Int64) : Int64 := if start < 0 then 0 else start

/-- A window without an end goes to the last instant. -/
def windowStop (stop : Int64) : Int64 := if stop ≤ 0 then 0x7FFFFFFFFFFFFFFF else stop

/-- The rows of a window, with the bounds put right. -/
def windowRows (db : Store) (metric : Bytes) (start stop : Int64) : List (Bytes × Value) :=
  if windowStop stop ≤ windowStart start then []
  else db.range (eventKey metric (windowStart start)) (eventKey metric (windowStop stop))

/-- The page of a leaderboard over a window. -/
def windowedLeaderboard (db : Store) (metric entityTag : Bytes) (start stop : Int64)
    (limit offset : ℤ) : Except Bytes (List LeaderboardEntry) :=
  if limit < 0 ∨ offset < 0 then .error invalidPagination
  else do
    let sums ← sumRows entityTag (windowRows db metric start stop) []
    return leaderboardPage sums limit.toNat offset.toNat

/-- The loop over the references of one entity.  Longer entities whose keys fall between the bounds
are skipped, and so are references whose event is gone. -/
def sumReferences (db : Store) (tag entity : Bytes) (length : ℕ) :
    List (Bytes × Value) → Float64 → Except Bytes Float64
  | [], sum => .ok sum
  | row :: rows, sum =>
      if row.1.length ≠ length then sumReferences db tag entity length rows sum
      else
        match row.2 with
        | .bytes primaryKey =>
            match db.get? primaryKey with
            | none => sumReferences db tag entity length rows sum
            | some data => do
                let (found, value) ← eventEntityValue data tag
                sumReferences db tag entity length rows
                  (if found = some entity then sum + value else sum)
        | _ => sumReferences db tag entity length rows sum

/-- One listed entity; a repeated one is skipped. -/
def sumEntity (db : Store) (metric entityTag : Bytes) (start stop : Int64)
    (sums : OrdMap Bytes Float64) (entityID : Bytes) : Except Bytes (OrdMap Bytes Float64) :=
  if (sums.get? entityID).isSome then .ok sums
  else if stop ≤ start then .ok (sums.set entityID Float64.zero)
  else do
    let lower := indexKey metric entityTag entityID start
    let upper := indexKey metric entityTag entityID stop
    let sum ← sumReferences db entityTag entityID lower.length (db.range lower upper) Float64.zero
    return sums.set entityID sum

/-- `WindowedEntitySums`: the sum of each listed entity, read through the tag index. -/
def windowedEntitySums (db : Store) (metric entityTag : Bytes) (entityIDs : List Bytes)
    (start stop : Int64) : Except Bytes (OrdMap Bytes Float64) :=
  entityIDs.foldlM (sumEntity db metric entityTag (windowStart start) (windowStop stop)) ∅

/-- The sums of a list of events. -/
def entitySums (tag : Bytes) (events : List Event) : List LeaderboardEntry :=
  events.foldl (fun sums e =>
    match e.tags.get? tag with
    | some (b :: id) => addSum (b :: id) e.value sums
    | _ => sums) []

/-- Rows that hold events are summed as these events. -/
lemma sumRows_eq {tag metric : Bytes} {rows : List (Bytes × Value)} {events : List Event}
    (h : rows.mapM (fun row => decodeEventValue row.2 metric) = .ok events) :
    sumRows tag rows [] = .ok (entitySums tag events) := by
  suffices hgen : ∀ (rows : List (Bytes × Value)) (events : List Event)
    (sums : List LeaderboardEntry),
      rows.mapM (fun row => decodeEventValue row.2 metric) = .ok events →
      sumRows tag rows sums = .ok (events.foldl (fun sums e =>
        match e.tags.get? tag with
        | some (b :: id) => addSum (b :: id) e.value sums
        | _ => sums) sums) from hgen rows events [] h
  intro rows
  induction rows with
  | nil =>
    intro events sums h
    obtain rfl : [] = events := by simpa [pure, Except.pure] using h
    rfl
  | cons row rows ih =>
    intro events sums h
    rw [List.mapM_cons] at h
    cases hrow : decodeEventValue row.2 metric with
    | error msg => simp [hrow, bind, Except.bind] at h
    | ok e =>
      cases hrest : rows.mapM (fun row => decodeEventValue row.2 metric) with
      | error msg => simp [hrow, hrest, bind, Except.bind] at h
      | ok rest =>
        obtain rfl : e :: rest = events := by
          simpa [hrow, hrest, bind, Except.bind, pure, Except.pure] using h
        rw [sumRows, eventEntityValue_eq row.2 tag metric, hrow, List.foldl_cons]
        simp only [Except.map, bind, Except.bind]
        rcases e.tags.get? tag with _ | _ | ⟨b, id⟩
        · exact ih rest sums hrest
        · exact ih rest sums hrest
        · exact ih rest _ hrest

end FlameDB
