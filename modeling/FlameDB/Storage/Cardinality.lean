import FlameDB.Machine
import FlameDB.Storage.Storage

/-!
# Cardinality counts

For each tag of a metric the store keeps one key per distinct value and the number of these keys.
Writers only note the values they have seen: `Add` puts them into a map of pending entries, unless
the cache knows that they are stored, and a single goroutine takes the whole map from time to time,
writes what is new in one batch, and puts the map back when something fails.

The model has one event for each locked section and each access to the database, so Adds of any
number of writers come between the parts of a flush.  `added` records the entries whose Add is
through; the source forgets them.

* `CardInv` — the invariant: the counts, what the cache may know, what a flush has staged.
* `cardinality_counts_exact` — the counts and the whereabouts of every added value, in every run in
  which no count fails to be read and names hold no NUL byte.
* `cardinality_miscounted` — the two ways it goes wrong otherwise.
-/

namespace FlameDB

open Go KV

/-- A tag value of a metric. -/
structure CardEntry where
  metric : Bytes
  tagKey : Bytes
  tagValue : Bytes
  deriving DecidableEq

/-- The key in the cache; it tells entries apart whose names have no NUL byte. -/
def cardCacheKey (metric tagKey tagValue : Bytes) : Bytes :=
  metric ++ 0 :: (tagKey ++ 0 :: tagValue)

namespace CardEntry

def cacheKey (e : CardEntry) : Bytes := cardCacheKey e.metric e.tagKey e.tagValue

def key (e : CardEntry) : Bytes := cardKey e.metric e.tagKey e.tagValue

def countKey (e : CardEntry) : Bytes := cardCountKey e.metric e.tagKey

/-- No NUL byte in the names; values may hold any byte. -/
def Named (e : CardEntry) : Prop := 0 ∉ e.metric ∧ 0 ∉ e.tagKey

instance (e : CardEntry) : Decidable e.Named := inferInstanceAs (Decidable (_ ∧ _))

lemma cacheKey_inj {e e' : CardEntry} (h : e.Named) (h' : e'.Named)
    (heq : e.cacheKey = e'.cacheKey) :
    e = e' := by
  obtain ⟨hm, hrest⟩ := append_cons_inj h.1 h'.1 heq
  obtain ⟨hk, hv⟩ := append_cons_inj h.2 h'.2 hrest
  cases e
  cases e'
  simp_all

lemma key_inj {e e' : CardEntry} (h : e.key = e'.key) : e = e' := by
  have hkey : Key.card e.metric e.tagKey e.tagValue = Key.card e'.metric e'.tagKey e'.tagValue :=
    Key.encode_inj trivial trivial h
  cases e
  cases e'
  simpa using hkey

end CardEntry

lemma cardCountKey_inj {m t m' t' : Bytes} :
    cardCountKey m t = cardCountKey m' t' ↔ m = m' ∧ t = t' := by
  have h := @Key.encode_inj_iff (.cardCount m t) (.cardCount m' t') trivial trivial
  rw [Key.cardCount.injEq] at h
  exact h

lemma key_ne_cardCountKey (e : CardEntry) (m t : Bytes) : e.key ≠ cardCountKey m t := fun h =>
  Key.noConfusion (@Key.encode_inj (.card e.metric e.tagKey e.tagValue) (.cardCount m t)
    trivial trivial h)

/-! ## The cache -/

def cardCacheMaxBytes : ℤ := 16 * 2 ^ 20

def cardCacheEntryOverhead : ℕ := 64

/-- The cache; times are nanoseconds.  `peak`, which only decides when the map is reallocated, is
left out. -/
structure CardCache where
  entries : OrdMap Bytes ℤ := ∅
  maxEntries : ℕ
  ttl : ℤ
  bytes : ℤ := 0
  nextSweep : ℤ
  deriving DecidableEq

namespace CardCache

/-- `newCardCache`; there is no cache without room for an entry. -/
def new (maxEntries ttl now : ℤ) : Option CardCache :=
  if maxEntries ≤ 0 then none
  else some { maxEntries := maxEntries.toNat, ttl := ttl, nextSweep := now + ttl.tdiv 2 }

/-- The bytes an entry counts for. -/
def entrySize (key : Bytes) : ℤ := (key.length + cardCacheEntryOverhead : ℕ)

/-- Forgets a value. -/
def drop (c : CardCache) (key : Bytes) : CardCache :=
  { c with entries := c.entries.erase key, bytes := c.bytes - entrySize key }

/-- Asks the cache; a hit starts the life of the entry anew. -/
def seen (c : CardCache) (now : ℤ) (key : Bytes) : CardCache × Bool :=
  match c.entries.get? key with
  | none => (c, false)
  | some ts =>
      if 0 < c.ttl ∧ c.ttl < now - ts then (c.drop key, false)
      else ({ c with entries := c.entries.set key now }, true)

/-- Remembers a value. A full cache is emptied first. -/
def add (c : CardCache) (now : ℤ) (key : Bytes) : CardCache :=
  if (c.entries.get? key).isSome then { c with entries := c.entries.set key now }
  else if cardCacheMaxBytes < entrySize key then c
  else
    let c :=
      if c.maxEntries ≤ c.entries.entries.length ∨ cardCacheMaxBytes < c.bytes + entrySize key then
        { c with entries := ∅, bytes := 0 }
      else c
    { c with bytes := c.bytes + entrySize key, entries := c.entries.set key now }

/-- Drops the entries that have outlived their time. -/
def expire (c : CardCache) (now : ℤ) : CardCache :=
  if c.ttl ≤ 0 ∨ now < c.nextSweep then c
  else
    c.entries.entries.foldl (fun c e => if c.ttl < now - e.2 then c.drop e.1 else c)
      { c with nextSweep := now + c.ttl.tdiv 2 }

/-- The keys the cache answers for. -/
def Knows (c : CardCache) (key : Bytes) : Prop := (c.entries.get? key).isSome

lemma knows_of_drop {c : CardCache} {key k : Bytes} (h : (c.drop key).Knows k) : c.Knows k := by
  simp only [Knows, drop, OrdMap.get?_erase] at h ⊢
  split_ifs at h with heq
  · simp at h
  · exact h

lemma knows_of_seen {c : CardCache} {now : ℤ} {key k : Bytes} (h : (c.seen now key).1.Knows k) :
    c.Knows k := by
  unfold seen at h
  split at h
  · exact h
  · rename_i ts hts
    split_ifs at h
    · exact knows_of_drop h
    · simp only [Knows, OrdMap.get?_set] at h ⊢
      split_ifs at h with heq
      · rw [heq, hts]
        rfl
      · exact h

lemma knows_of_hit {c : CardCache} {now : ℤ} {key : Bytes} (h : (c.seen now key).2 = true) :
    c.Knows key := by
  unfold seen at h
  split at h
  · simp at h
  · rename_i ts hts
    rw [Knows, hts]
    rfl

lemma knows_of_add {c : CardCache} {now : ℤ} {key k : Bytes} (h : (c.add now key).Knows k) :
    k = key ∨ c.Knows k := by
  by_cases heq : k = key
  · exact Or.inl heq
  · refine Or.inr ?_
    unfold add at h
    split_ifs at h
    · simpa [Knows, OrdMap.get?_set, heq] using h
    · exact h
    · simp [Knows, OrdMap.get?_set, heq] at h
    · simpa [Knows, OrdMap.get?_set, heq] using h

lemma knows_of_expire {c : CardCache} {now : ℤ} {k : Bytes} (h : (c.expire now).Knows k) :
    c.Knows k := by
  unfold expire at h
  split_ifs at h
  · exact h
  · have hloop : ∀ (l : List (Bytes × ℤ)) (c : CardCache),
        (l.foldl (fun c e => if c.ttl < now - e.2 then c.drop e.1 else c) c).Knows k →
          c.Knows k := by
      intro l
      induction l with
      | nil => exact fun c h => h
      | cons e l ih =>
          intro c h
          have hnext := ih _ h
          dsimp only at hnext
          split_ifs at hnext
          · exact knows_of_drop hnext
          · exact hnext
    have hstart := hloop _ _ h
    exact hstart

end CardCache

/-! ## The updater

Adds collect entries, and a flush in the background writes those that are new. A flush that fails
puts its entries back. -/

/-- What the loop of `flush` has found so far. -/
structure CardScan where
  /-- the entries not yet looked at -/
  left : OrdMap Bytes CardEntry
  countBase : OrdMap Bytes ℕ := ∅
  countDelta : OrdMap Bytes ℕ := ∅
  /-- the value keys in the batch -/
  values : List Bytes := []

/-- An entry the cache does not know.  `countErr` when the count cannot be read: the source takes it
for zero. -/
def CardScan.stage (db : Store) (scan : CardScan) (e : CardEntry) (countErr : Bool) : CardScan :=
  if (db.get? e.key).isSome then scan
  else
    { scan with
      countBase :=
        if (scan.countBase.get? e.countKey).isSome then scan.countBase
        else scan.countBase.set e.countKey (if countErr then 0 else getCardCount db e.countKey)
      countDelta := scan.countDelta.set e.countKey ((scan.countDelta.get? e.countKey).getD 0 + 1)
      values := scan.values ++ [e.key] }

/-- The entries of the batch: the new value keys and the new counts. -/
def CardScan.batch (scan : CardScan) : List (Bytes × Value) :=
  scan.values.map (fun k => (k, .bytes [1])) ++
    scan.countDelta.entries.map fun kv =>
      (kv.1, .bytes (beBytes 8 ((scan.countBase.get? kv.1).getD 0 + kv.2)))

/-- The store after the commit. -/
def CardScan.committed (db : Store) (scan : CardScan) : Store :=
  scan.batch.foldl (fun db kv => db.set kv.1 kv.2) db

/-- How far a flush got. -/
inductive FlushPhase where
  | scanning (scan : CardScan)
  /-- committed; the keys of `left` are not yet in the cache -/
  | caching (left : OrdMap Bytes CardEntry)
  | ending (failed : Bool)

/-- A running flush and the entries it took over. -/
structure CardFlush where
  entries : OrdMap Bytes CardEntry
  phase : FlushPhase

/-- The updater with its cache, the entries waiting for a flush, and the store. -/
structure CardUpdater where
  db : Store
  cache : Option CardCache
  pending : OrdMap Bytes CardEntry := ∅
  spare : Option (OrdMap Bytes CardEntry) := none
  running : Option CardFlush := none
  /-- the Adds that have asked the cache in vain and wait for the lock -/
  adding : List CardEntry := []
  added : List CardEntry := []

/-- The steps of Adds, of the flush and of the clock, in any order. -/
inductive CardEvent where
  | check (e : CardEntry) (now : ℤ)
  | insert (i : ℕ)
  | drain
  /-- the next entry of the map; `err` when its value key cannot be read -/
  | scan (key : Bytes) (now : ℤ) (err countErr : Bool)
  | commit (err : Bool)
  | remember (key : Bytes) (now : ℤ)
  | finish
  | expire (now : ℤ)

namespace CardUpdater

/-- `u.cache != nil && u.cache.seen(key)`. -/
def seen (s : CardUpdater) (now : ℤ) (key : Bytes) : CardUpdater × Bool :=
  match s.cache with
  | none => (s, false)
  | some c => ({ s with cache := some (c.seen now key).1 }, (c.seen now key).2)

def setPhase (s : CardUpdater) (f : CardFlush) (phase : FlushPhase) : CardUpdater :=
  { s with running := some { f with phase := phase } }

/-- The deferred function of `flush`. -/
def conclude (s : CardUpdater) (f : CardFlush) (failed : Bool) : CardUpdater :=
  { s with
    pending :=
      if failed then f.entries.entries.foldl (fun m kv => m.set kv.1 kv.2) s.pending else s.pending
    spare := if f.entries.entries.length ≤ 4096 then some ∅ else s.spare
    running := none }

/-- The steps of the running flush. -/
def flushStep (s : CardUpdater) (f : CardFlush) : CardEvent → Option CardUpdater
  | .scan key now err countErr =>
      match f.phase with
      | .scanning scan =>
          (scan.left.get? key).map fun e =>
            let rest := { scan with left := scan.left.erase key }
            let (s, hit) := s.seen now key
            if hit then s.setPhase f (.scanning rest)
            else if err then s.setPhase f (.ending true)
            else s.setPhase f (.scanning (rest.stage s.db e countErr))
      | _ => none
  | .commit err =>
      match f.phase with
      | .scanning scan =>
          if scan.left.entries = [] then
            some <|
              if err then s.setPhase f (.ending true)
              else
                CardUpdater.setPhase { s with db := scan.committed s.db } f
                  (if s.cache.isSome then .caching f.entries else .ending false)
          else none
      | _ => none
  | .remember key now =>
      match f.phase with
      | .caching left =>
          (left.get? key).map fun _ =>
            let cache := s.cache.map fun c => c.add now key
            CardUpdater.setPhase { s with cache := cache } f (.caching (left.erase key))
      | _ => none
  | .finish =>
      match f.phase with
      | .scanning _ => none
      | .caching left => if left.entries = [] then some (s.conclude f false) else none
      | .ending failed => some (s.conclude f failed)
  | _ => none

/-- One step. -/
def step (s : CardUpdater) : CardEvent → Option CardUpdater
  | .check e now =>
      let (s, hit) := s.seen now e.cacheKey
      some (if hit then { s with added := e :: s.added } else { s with adding := e :: s.adding })
  | .insert i =>
      (s.adding[i]?).map fun e =>
        { s with
          adding := s.adding.eraseIdx i
          added := e :: s.added
          pending :=
            if (s.pending.get? e.cacheKey).isSome then s.pending else s.pending.set e.cacheKey e }
  | .drain =>
      match s.running with
      | some _ => none
      | none =>
          if s.pending.entries = [] then some s
          else
            some { s with
              running := some ⟨s.pending, .scanning { left := s.pending }⟩
              pending := s.spare.getD ∅
              spare := none }
  | .expire now =>
      match s.running with
      | some _ => none
      | none => some { s with cache := s.cache.map fun c => c.expire now }
  | event => s.running.bind fun f => s.flushStep f event

end CardUpdater

/-- The value keys of a tag. -/
def isCardOf (m t : Bytes) (key : Bytes) : Bool := (cardKey m t []).isPrefixOf key

lemma cardKey_eq (m t v : Bytes) : cardKey m t v = cardKey m t [] ++ v := by
  simp [cardKey]

lemma isCardOf_iff {m t key : Bytes} : isCardOf m t key = true ↔ ∃ v, key = cardKey m t v := by
  rw [isCardOf, List.isPrefixOf_iff_prefix]
  constructor
  · rintro ⟨v, rfl⟩
    exact ⟨v, (cardKey_eq m t v).symm⟩
  · rintro ⟨v, rfl⟩
    exact ⟨v, (cardKey_eq m t v).symm⟩

lemma isCardOf_key {e : CardEntry} {m t : Bytes} :
    isCardOf m t e.key = true ↔ e.metric = m ∧ e.tagKey = t := by
  rw [isCardOf_iff]
  constructor
  · rintro ⟨v, hv⟩
    have heq : e = ⟨m, t, v⟩ := CardEntry.key_inj hv
    rw [heq]
    exact ⟨rfl, rfl⟩
  · rintro ⟨rfl, rfl⟩
    exact ⟨e.tagValue, rfl⟩

lemma not_isCardOf_cardCountKey (m t m' t' : Bytes) :
    isCardOf m t (cardCountKey m' t') = false := by
  refine Bool.eq_false_iff.mpr fun h => ?_
  obtain ⟨v, hv⟩ := isCardOf_iff.mp h
  exact key_ne_cardCountKey ⟨m, t, v⟩ m' t' hv.symm

/-- The value of an entry has its key in the store. -/
def ValueStored (db : Store) (e : CardEntry) : Prop := (db.get? e.key).isSome

/-- The count of a tag is the number of its value keys; it is kept in 64 bits. -/
def ExactCount (db : Store) (m t : Bytes) : Prop :=
  getCardinality db m t = db.countKeys (isCardOf m t) % 2 ^ 64

lemma exactCount_empty (m t : Bytes) : ExactCount ∅ m t := rfl

/-! ## A flush -/

/-- A map of entries under their cache keys. -/
def Filed (entries : OrdMap Bytes CardEntry) : Prop :=
  ∀ k e, entries.get? k = some e → k = e.cacheKey ∧ e.Named

/-- What the loop of `flush` has found is right. -/
structure ScanInv (db : Store) (entries : OrdMap Bytes CardEntry) (scan : CardScan) : Prop where
  left : ∀ k e, scan.left.get? k = some e → entries.get? k = some e
  done : ∀ k e, entries.get? k = some e →
    scan.left.get? k = some e ∨ ValueStored db e ∨ e.key ∈ scan.values
  fresh : ∀ key ∈ scan.values, db.get? key = none ∧
    ∃ e : CardEntry, key = e.key ∧ e.Named ∧ scan.left.get? e.cacheKey = none
  nodup : scan.values.Nodup
  counted : ∀ k n, scan.countDelta.get? k = some n → ∃ m t, k = cardCountKey m t
  delta : ∀ m t, (scan.countDelta.get? (cardCountKey m t)).getD 0 = scan.values.countP
    (isCardOf m t)
  base : ∀ m t, scan.countBase.get? (cardCountKey m t) =
    (scan.countDelta.get? (cardCountKey m t)).map fun _ => getCardinality db m t

lemma scanInv_start (db : Store) (entries : OrdMap Bytes CardEntry) :
    ScanInv db entries { left := entries } where
  left _ _ h := h
  done _ _ h := Or.inl h
  fresh := by simp
  nodup := List.nodup_nil
  counted := by simp
  delta := by simp
  base := by simp

section Scan

variable {db : Store} {entries : OrdMap Bytes CardEntry} {scan : CardScan}

/-- An entry that is known to be stored needs nothing. -/
lemma ScanInv.skip (h : ScanInv db entries scan) {key : Bytes} {e : CardEntry}
    (hkey : scan.left.get? key = some e) (hstored : ValueStored db e) :
    ScanInv db entries { scan with left := scan.left.erase key } where
  left k e' hget := by
    rw [OrdMap.get?_erase] at hget
    split_ifs at hget
    exact h.left k e' hget
  done k e' hget := by
    rw [OrdMap.get?_erase]
    by_cases hk : k = key
    · subst hk
      obtain rfl : e = e' := Option.some.inj ((h.left k e hkey).symm.trans hget)
      exact Or.inr (Or.inl hstored)
    · rw [if_neg hk]
      exact h.done k e' hget
  fresh key' hmem := by
    obtain ⟨habsent, e', hkey', hnamed, hleft⟩ := h.fresh key' hmem
    refine ⟨habsent, e', hkey', hnamed, ?_⟩
    rw [OrdMap.get?_erase]
    split_ifs
    · rfl
    · exact hleft
  nodup := h.nodup
  counted := h.counted
  delta := h.delta
  base := h.base

/-- **One round of the loop.** -/
lemma ScanInv.stage (h : ScanInv db entries scan) (hfiled : Filed entries) {key : Bytes}
    {e : CardEntry} (hkey : scan.left.get? key = some e) :
    ScanInv db entries (({ scan with left := scan.left.erase key } : CardScan).stage db
      e false) := by
  by_cases hstored : (db.get? e.key).isSome
  · rw [CardScan.stage, if_pos hstored]
    exact h.skip hkey hstored
  rw [CardScan.stage, if_neg hstored]
  have habsent : db.get? e.key = none := by simpa using hstored
  obtain ⟨rfl, hnamed⟩ := hfiled _ e (h.left _ e hkey)
  have hnew : e.key ∉ scan.values := by
    intro hmem
    obtain ⟨-, e', hkey', -, hleft⟩ := h.fresh _ hmem
    rw [← CardEntry.key_inj hkey', hkey] at hleft
    simp at hleft
  refine ⟨?_, ?_, ?_, ?_, ?_, ?_, ?_⟩
  · intro k e' hget
    rw [OrdMap.get?_erase] at hget
    split_ifs at hget
    exact h.left k e' hget
  · intro k e' hget
    rw [OrdMap.get?_erase]
    by_cases hk : k = e.cacheKey
    · subst hk
      obtain rfl : e = e' := Option.some.inj ((h.left _ e hkey).symm.trans hget)
      exact Or.inr (Or.inr (by simp))
    · rw [if_neg hk]
      rcases h.done k e' hget with hleft | hst | hval
      · exact Or.inl hleft
      · exact Or.inr (Or.inl hst)
      · exact Or.inr (Or.inr (List.mem_append_left _ hval))
  · intro key' hmem
    rcases List.mem_append.mp hmem with hmem | hmem
    · obtain ⟨habs, e', hkey', hnamed', hleft⟩ := h.fresh key' hmem
      refine ⟨habs, e', hkey', hnamed', ?_⟩
      rw [OrdMap.get?_erase]
      split_ifs
      · rfl
      · exact hleft
    · obtain rfl := List.mem_singleton.mp hmem
      exact ⟨habsent, e, rfl, hnamed, OrdMap.get?_erase_self _ _⟩
  · exact List.nodup_append.mpr ⟨h.nodup, List.nodup_singleton _, by
      rintro a ha b hb rfl
      exact hnew (List.mem_singleton.mp hb ▸ ha)⟩
  · intro k n hget
    rw [OrdMap.get?_set] at hget
    split_ifs at hget with hk
    · exact ⟨e.metric, e.tagKey, hk⟩
    · exact h.counted k n hget
  · intro m t
    rw [OrdMap.get?_set, List.countP_append, List.countP_singleton, ← h.delta]
    simp only [CardEntry.countKey, cardCountKey_inj, isCardOf_key]
    by_cases hmt : m = e.metric ∧ t = e.tagKey
    · rw [if_pos hmt, if_pos ⟨hmt.1.symm, hmt.2.symm⟩, hmt.1, hmt.2]
      rfl
    · rw [if_neg hmt, if_neg fun hne => hmt ⟨hne.1.symm, hne.2.symm⟩]
      rfl
  · intro m t
    show (if (scan.countBase.get? e.countKey).isSome then scan.countBase
        else scan.countBase.set e.countKey (getCardinality db e.metric e.tagKey)).get?
        (cardCountKey m t) =
      ((scan.countDelta.set e.countKey _).get? (cardCountKey m t)).map fun _ =>
        getCardinality db m t
    rw [OrdMap.get?_setIfNew, OrdMap.get?_set]
    by_cases hmt : cardCountKey m t = e.countKey
    · obtain ⟨rfl, rfl⟩ := cardCountKey_inj.mp hmt
      rw [if_pos hmt, if_pos hmt, CardEntry.countKey, h.base]
      cases scan.countDelta.get? (cardCountKey e.metric e.tagKey) <;> rfl
    · rw [if_neg hmt, if_neg hmt, h.base]

/-- The entries of the batch have different keys. -/
lemma ScanInv.pairwise_batch (h : ScanInv db entries scan) :
    scan.batch.Pairwise fun a b => a.1 ≠ b.1 := by
  refine List.pairwise_append.mpr ⟨?_, ?_, ?_⟩
  · exact List.pairwise_map.mpr h.nodup
  · exact List.pairwise_map.mpr scan.countDelta.keys_ne
  · intro a ha b hb heq
    obtain ⟨key, hkey, rfl⟩ := List.mem_map.mp ha
    obtain ⟨⟨k, n⟩, hkn, rfl⟩ := List.mem_map.mp hb
    obtain ⟨-, e, he, -⟩ := h.fresh key hkey
    obtain ⟨m, t, hmt⟩ := h.counted k n ((OrdMap.mem_entries_iff _ _ _).mp hkn)
    exact key_ne_cardCountKey e m t (he.symm.trans (heq.trans hmt))

lemma ScanInv.get?_committed (h : ScanInv db entries scan) (k : Bytes) :
    (scan.committed db).get? k =
      ((OrdMap.ofList scan.batch).get? k).or (db.get? k) := by
  rw [OrdMap.get?_ofList h.pairwise_batch]
  exact OrdMap.get?_foldl_entries _ h.pairwise_batch db k

lemma ScanInv.get?_committed_mem (h : ScanInv db entries scan) {k : Bytes} {v : Value}
    (hmem : (k, v) ∈ scan.batch) : (scan.committed db).get? k = some v := by
  rw [h.get?_committed, (OrdMap.get?_ofList_eq_some_iff h.pairwise_batch).mpr hmem]
  rfl

/-- The batch adds the new value keys of a tag. -/
lemma ScanInv.countKeys_committed (h : ScanInv db entries scan) (m t : Bytes) :
    (scan.committed db).countKeys (isCardOf m t) =
      db.countKeys (isCardOf m t) + scan.values.countP (isCardOf m t) := by
  rw [CardScan.committed, OrdMap.countKeys_foldl_entries h.pairwise_batch, CardScan.batch,
    List.countP_append, List.countP_map, List.countP_map]
  have hvalues : scan.values.countP ((fun e : Bytes × Value => decide (isCardOf m t e.1 = true ∧
      db.get? e.1 = none)) ∘ fun k => (k, .bytes [1])) = scan.values.countP (isCardOf m t) := by
    refine List.countP_congr fun key hkey => ?_
    simp [(h.fresh key hkey).1]
  have hcounts : scan.countDelta.entries.countP ((fun e : Bytes × Value =>
      decide (isCardOf m t e.1 = true ∧ db.get? e.1 = none)) ∘ fun kv =>
        (kv.1, .bytes (beBytes 8 ((scan.countBase.get? kv.1).getD 0 + kv.2)))) = 0 := by
    refine List.countP_eq_zero.mpr fun kv hkv => ?_
    obtain ⟨m', t', hmt⟩ := h.counted kv.1 kv.2 ((OrdMap.mem_entries_iff _ _ _).mp hkv)
    simp [hmt, not_isCardOf_cardCountKey]
  rw [hvalues, hcounts, Nat.add_zero]

/-- The counts of the batch. -/
lemma ScanInv.getCardinality_committed (h : ScanInv db entries scan) (m t : Bytes) :
    getCardinality (scan.committed db) m t =
        (getCardinality db m t + scan.values.countP (isCardOf m t)) % 2 ^ 64 ∨
      scan.values.countP (isCardOf m t) = 0 ∧
        getCardinality (scan.committed db) m t = getCardinality db m t := by
  cases hdelta : scan.countDelta.get? (cardCountKey m t) with
  | some n =>
      left
      have hbase := h.base m t
      have hn := h.delta m t
      rw [hdelta] at hbase hn
      have hmem : (cardCountKey m t, Value.bytes (beBytes 8 (getCardinality db m t + n))) ∈
          scan.batch := by
        refine List.mem_append_right _ (List.mem_map.mpr ⟨(cardCountKey m t, n), ?_, ?_⟩)
        · exact (OrdMap.mem_entries_iff _ _ _).mpr hdelta
        · simp [hbase]
      rw [← hn, getCardinality, getCardCount, h.get?_committed_mem hmem]
      simp [beNat_beBytes, List.take_of_length_le]
  | none =>
      right
      have hn := h.delta m t
      rw [hdelta] at hn
      refine ⟨hn.symm, ?_⟩
      have hnone : (OrdMap.ofList scan.batch).get? (cardCountKey m t) = none := by
        refine Option.eq_none_iff_forall_ne_some.mpr fun v hv => ?_
        rcases List.mem_append.mp (OrdMap.mem_of_get?_ofList hv) with he | he
        · obtain ⟨key, hkey, heq⟩ := List.mem_map.mp he
          obtain ⟨-, e', he', -⟩ := h.fresh key hkey
          exact key_ne_cardCountKey e' m t (he'.symm.trans (congrArg Prod.fst heq))
        · obtain ⟨⟨k, n⟩, hkn, heq⟩ := List.mem_map.mp he
          obtain rfl : k = cardCountKey m t := congrArg Prod.fst heq
          rw [OrdMap.mem_entries_iff, hdelta] at hkn
          simp at hkn
      rw [getCardinality, getCardCount, h.get?_committed, hnone]
      rfl

/-- **A commit keeps the counts exact** and stores every entry. -/
lemma ScanInv.commit (h : ScanInv db entries scan) (hleft : scan.left.entries = [])
    (hcounts : ∀ m t, ExactCount db m t) :
    (∀ m t, ExactCount (scan.committed db) m t) ∧
      (∀ e, ValueStored db e → ValueStored (scan.committed db) e) ∧
        ∀ k e, entries.get? k = some e → ValueStored (scan.committed db) e := by
  have hmono : ∀ e, ValueStored db e → ValueStored (scan.committed db) e := by
    intro e hst
    obtain ⟨v, hv⟩ := Option.isSome_iff_exists.mp hst
    rw [ValueStored, h.get?_committed, hv]
    cases (OrdMap.ofList scan.batch).get? e.key <;> rfl
  refine ⟨fun m t => ?_, hmono, fun k e hget => ?_⟩
  · rw [ExactCount, h.countKeys_committed]
    rcases h.getCardinality_committed m t with hnew | ⟨hzero, hsame⟩
    · rw [hnew, hcounts m t, Nat.mod_add_mod]
    · rw [hsame, hzero, Nat.add_zero]
      exact hcounts m t
  · rcases h.done k e hget with hl | hst | hval
    · simp [OrdMap.get?, hleft] at hl
    · exact hmono e hst
    · rw [ValueStored, h.get?_committed_mem (List.mem_append_left _ (List.mem_map_of_mem hval))]
      rfl

end Scan

/-! ## The invariant

It holds between any two steps, with a flush at any point. -/

/-- What holds of the running flush. -/
structure FlushInv (db : Store) (f : CardFlush) : Prop where
  filed : Filed f.entries
  scanning : ∀ scan, f.phase = .scanning scan → ScanInv db f.entries scan
  caching : ∀ left, f.phase = .caching left →
    (∀ k e, f.entries.get? k = some e → ValueStored db e) ∧
      ∀ k e, left.get? k = some e → f.entries.get? k = some e
  ending : f.phase = .ending false → ∀ k e, f.entries.get? k = some e → ValueStored db e

/-- Where an added entry is: pending, in the running flush, or in the store. -/
def Placed (s : CardUpdater) (e : CardEntry) : Prop :=
  s.pending.get? e.cacheKey = some e ∨
    (∃ f, s.running = some f ∧ f.entries.get? e.cacheKey = some e) ∨ ValueStored s.db e

/-- The counts are exact, and every entry that was added is on its way to the store or there. -/
structure CardInv (s : CardUpdater) : Prop where
  counts : ∀ m t, ExactCount s.db m t
  cached : ∀ c e, s.cache = some c → e.Named → c.Knows e.cacheKey → ValueStored s.db e
  pending : Filed s.pending
  spare : ∀ m, s.spare = some m → m = ∅
  adding : ∀ e ∈ s.adding, e.Named
  flush : ∀ f, s.running = some f → FlushInv s.db f
  placed : ∀ e ∈ s.added, Placed s e

section Steps

variable {s s' : CardUpdater}

lemma CardInv.setCache (h : CardInv s) {cache : Option CardCache}
    (hcache : ∀ c e, cache = some c → e.Named → c.Knows e.cacheKey → ValueStored s.db e) :
    CardInv { s with cache := cache } :=
  { h with cached := hcache, placed := h.placed }

/-- Asking the cache changes nothing else, and it only knows what is stored. -/
lemma CardInv.seen (h : CardInv s) (now : ℤ) (key : Bytes) :
    ∃ cache hit, s.seen now key = ({ s with cache := cache }, hit) ∧
      CardInv { s with cache := cache } ∧
      (hit = true → ∀ e : CardEntry, e.Named → e.cacheKey = key → ValueStored s.db e) := by
  unfold CardUpdater.seen
  cases hc : s.cache with
  | none => exact ⟨none, false, by simp [← hc], h.setCache (by simp), by simp⟩
  | some c =>
      refine ⟨some (c.seen now key).1, _, rfl, h.setCache ?_, ?_⟩
      · intro c' e hc' hnamed hknows
        obtain rfl := Option.some.inj hc'
        exact h.cached c e hc hnamed (CardCache.knows_of_seen hknows)
      · intro hhit e hnamed hkey
        exact h.cached c e hc hnamed (hkey ▸ CardCache.knows_of_hit hhit)

lemma CardInv.check (h : CardInv s) {e : CardEntry} (he : e.Named) {now : ℤ}
    (hstep : s.step (.check e now) = some s') : CardInv s' := by
  obtain ⟨cache, hit, hs, hinv, hstored⟩ := h.seen now e.cacheKey
  simp only [CardUpdater.step, hs] at hstep
  obtain rfl := Option.some.inj hstep
  split_ifs with hhit
  · exact { hinv with
      placed := List.forall_mem_cons.mpr ⟨Or.inr (Or.inr (hstored hhit e he rfl)), hinv.placed⟩ }
  · exact { hinv with adding := List.forall_mem_cons.mpr ⟨he, hinv.adding⟩, placed := hinv.placed }

/-- An Add files its entry under the lock. -/
lemma CardInv.insert (h : CardInv s) {i : ℕ} (hstep : s.step (.insert i) = some s') :
    CardInv s' := by
  obtain ⟨e, he, rfl⟩ := Option.map_eq_some_iff.mp hstep
  have hnamed : e.Named := h.adding e (List.mem_of_getElem? he)
  have hget : ∀ k, (if (s.pending.get? e.cacheKey).isSome then s.pending
      else s.pending.set e.cacheKey e).get? k =
      if k = e.cacheKey then some e else s.pending.get? k := by
    intro k
    rw [OrdMap.get?_setIfNew]
    cases hp : s.pending.get? e.cacheKey with
    | none => split_ifs <;> rfl
    | some e' =>
        obtain ⟨hkey, hnamed'⟩ := h.pending _ e' hp
        rw [CardEntry.cacheKey_inj hnamed hnamed' hkey]
        split_ifs <;> rfl
  refine { h with pending := ?_, adding := ?_, placed := ?_ }
  · intro k e' hk
    rw [hget] at hk
    split_ifs at hk with heq
    · obtain rfl := Option.some.inj hk
      exact ⟨heq, hnamed⟩
    · exact h.pending k e' hk
  · exact fun e' he' => h.adding e' (List.mem_of_mem_eraseIdx he')
  · refine List.forall_mem_cons.mpr ⟨Or.inl ?_, fun e' he' => ?_⟩
    · rw [hget, if_pos rfl]
    · rcases h.placed e' he' with hp | hrest
      · refine Or.inl ?_
        rw [hget]
        split_ifs with heq
        · rw [CardEntry.cacheKey_inj (h.pending _ e' hp).2 hnamed heq]
        · exact hp
      · exact Or.inr hrest

/-- A flush takes all pending entries. -/
lemma CardInv.drain (h : CardInv s) (hstep : s.step .drain = some s') : CardInv s' := by
  simp only [CardUpdater.step] at hstep
  split at hstep
  · cases hstep
  rename_i hidle
  split_ifs at hstep
  · obtain rfl := Option.some.inj hstep
    exact h
  obtain rfl := Option.some.inj hstep
  have hspare : s.spare.getD ∅ = ∅ := by
    cases hs : s.spare with
    | none => rfl
    | some m => exact h.spare m hs
  refine { h with pending := ?_, spare := ?_, flush := ?_, placed := ?_ }
  · rw [hspare]
    exact fun k e hk => by simp at hk
  · simp
  · rintro f hf
    obtain rfl := Option.some.inj hf
    refine ⟨h.pending, ?_, by simp, by simp⟩
    intro scan hscan
    obtain rfl := FlushPhase.scanning.inj hscan
    exact scanInv_start s.db s.pending
  · intro e he
    rcases h.placed e he with hp | ⟨f, hf, -⟩ | hst
    · exact Or.inr (Or.inl ⟨_, rfl, hp⟩)
    · rw [hidle] at hf
      cases hf
    · exact Or.inr (Or.inr hst)

lemma CardInv.expire (h : CardInv s) {now : ℤ} (hstep : s.step (.expire now) = some s') :
    CardInv s' := by
  simp only [CardUpdater.step] at hstep
  split at hstep
  · cases hstep
  obtain rfl := Option.some.inj hstep
  refine h.setCache fun c e hc hnamed hknows => ?_
  obtain ⟨c₀, hc₀, rfl⟩ := Option.map_eq_some_iff.mp hc
  exact h.cached c₀ e hc₀ hnamed (CardCache.knows_of_expire hknows)

/-- The flush goes on with the same entries. -/
lemma CardInv.setPhase (h : CardInv s) {f : CardFlush} (hf : s.running = some f)
    {phase : FlushPhase}
    (hinv : FlushInv s.db { f with phase := phase }) : CardInv (s.setPhase f phase) := by
  refine { h with flush := ?_, placed := ?_ }
  · rintro f' hf'
    obtain rfl := Option.some.inj hf'
    exact hinv
  · intro e he
    rcases h.placed e he with hp | ⟨f', hf', hget⟩ | hst
    · exact Or.inl hp
    · obtain rfl := Option.some.inj (hf.symm.trans hf')
      exact Or.inr (Or.inl ⟨_, rfl, hget⟩)
    · exact Or.inr (Or.inr hst)

lemma FlushInv.failed {db : Store} {f : CardFlush} (h : FlushInv db f) :
    FlushInv db { f with phase := .ending true } :=
  ⟨h.filed, by simp, by simp, by simp⟩

/-- The flush looks at one entry. -/
lemma CardInv.scan (h : CardInv s) {f : CardFlush} (hf : s.running = some f) {key : Bytes} {now : ℤ}
    {err : Bool} (hstep : s.flushStep f (.scan key now err false) = some s') : CardInv s' := by
  simp only [CardUpdater.flushStep] at hstep
  split at hstep
  · rename_i scan hphase
    obtain ⟨cache, hit, hs, hinv, hstored⟩ := h.seen now key
    simp only [hs] at hstep
    obtain ⟨e, he, rfl⟩ := Option.map_eq_some_iff.mp hstep
    have hflush := h.flush f hf
    have hscan := hflush.scanning scan hphase
    obtain ⟨hkey, hnamed⟩ := hflush.filed key e (hscan.left key e he)
    have hnext : ∀ scan', ScanInv s.db f.entries scan' →
        CardInv (CardUpdater.setPhase { s with cache := cache } f (.scanning scan')) := by
      intro scan' hscan'
      refine hinv.setPhase hf ⟨hflush.filed, ?_, by simp, by simp⟩
      intro scan'' hscan''
      obtain rfl := FlushPhase.scanning.inj hscan''
      exact hscan'
    split_ifs with hhit
    · exact hnext _ (hscan.skip he (hstored hhit e hnamed hkey.symm))
    · exact hinv.setPhase hf hflush.failed
    · exact hnext _ (hscan.stage hflush.filed he)
  · cases hstep

/-- The batch makes values and counts durable together, or neither. -/
lemma CardInv.commit (h : CardInv s) {f : CardFlush} (hf : s.running = some f) {err : Bool}
    (hstep : s.flushStep f (.commit err) = some s') : CardInv s' := by
  simp only [CardUpdater.flushStep] at hstep
  split at hstep
  · rename_i scan hphase
    have hflush := h.flush f hf
    have hscan := hflush.scanning scan hphase
    by_cases hleft : scan.left.entries = []
    swap
    · rw [if_neg hleft] at hstep
      cases hstep
    rw [if_pos hleft] at hstep
    obtain rfl := Option.some.inj hstep
    by_cases herr : err = true
    · rw [if_pos herr]
      exact h.setPhase hf hflush.failed
    · rw [if_neg herr]
      obtain ⟨hcounts, hmono, hstored⟩ := hscan.commit hleft h.counts
      have hdone : FlushInv (scan.committed s.db)
          { f with phase := if s.cache.isSome then .caching f.entries else .ending false } := by
        refine ⟨hflush.filed, ?_, ?_, fun _ => hstored⟩
        · intro scan' hscan'
          split_ifs at hscan'
        · intro left hleft'
          split_ifs at hleft'
          obtain rfl := FlushPhase.caching.inj hleft'
          exact ⟨hstored, fun k e hget => hget⟩
      refine ⟨hcounts, ?_, h.pending, h.spare, h.adding, ?_, ?_⟩
      · exact fun c e hc hnamed hknows => hmono e (h.cached c e hc hnamed hknows)
      · rintro f' hf'
        obtain rfl := Option.some.inj hf'
        exact hdone
      · intro e he
        rcases h.placed e he with hp | ⟨f', hf', hget⟩ | hst
        · exact Or.inl hp
        · obtain rfl := Option.some.inj (hf.symm.trans hf')
          exact Or.inr (Or.inl ⟨_, rfl, hget⟩)
        · exact Or.inr (Or.inr (hmono e hst))
  · cases hstep

/-- Only committed values enter the cache. -/
lemma CardInv.remember (h : CardInv s) {f : CardFlush} (hf : s.running = some f) {key : Bytes}
    {now : ℤ} (hstep : s.flushStep f (.remember key now) = some s') : CardInv s' := by
  simp only [CardUpdater.flushStep] at hstep
  split at hstep
  · rename_i left hphase
    obtain ⟨e, he, rfl⟩ := Option.map_eq_some_iff.mp hstep
    have hflush := h.flush f hf
    obtain ⟨hstored, hsub⟩ := hflush.caching left hphase
    obtain ⟨hkey, hnamed⟩ := hflush.filed key e (hsub key e he)
    have hcache : CardInv { s with cache := s.cache.map fun c => c.add now key } := by
      refine h.setCache fun c e' hc hnamed' hknows => ?_
      obtain ⟨c₀, hc₀, rfl⟩ := Option.map_eq_some_iff.mp hc
      rcases CardCache.knows_of_add hknows with heq | hold
      · rw [CardEntry.cacheKey_inj hnamed' hnamed (heq.trans hkey)]
        exact hstored key e (hsub key e he)
      · exact h.cached c₀ e' hc₀ hnamed' hold
    refine hcache.setPhase hf ⟨hflush.filed, by simp, ?_, by simp⟩
    intro left' hleft'
    obtain rfl := FlushPhase.caching.inj hleft'
    refine ⟨hstored, fun k e' hget => ?_⟩
    rw [OrdMap.get?_erase] at hget
    split_ifs at hget
    exact hsub k e' hget
  · cases hstep

/-- The end of a flush that has stored its entries, or puts them back. -/
lemma CardInv.conclude (h : CardInv s) {f : CardFlush} (hf : s.running = some f) {failed : Bool}
    (hstored : failed = false → ∀ k e, f.entries.get? k = some e → ValueStored s.db e) :
    CardInv (s.conclude f failed) := by
  have hfiled := (h.flush f hf).filed
  have hback : ∀ k, (f.entries.entries.foldl (fun m kv => m.set kv.1 kv.2) s.pending).get? k =
      (f.entries.get? k).or (s.pending.get? k) :=
    fun k => OrdMap.get?_foldl_entries _ f.entries.keys_ne s.pending k
  refine { h with
    pending := ?_, spare := ?_, flush := by simp [CardUpdater.conclude], placed := ?_ }
  · intro k e hget
    simp only [CardUpdater.conclude] at hget
    split_ifs at hget
    · rw [hback] at hget
      cases hfe : f.entries.get? k with
      | none =>
          rw [hfe] at hget
          exact h.pending k e hget
      | some e' =>
          rw [hfe] at hget
          obtain rfl := Option.some.inj hget
          exact hfiled k _ hfe
    · exact h.pending k e hget
  · intro m hm
    simp only [CardUpdater.conclude] at hm
    split_ifs at hm
    · exact (Option.some.inj hm).symm
    · exact h.spare m hm
  · intro e he
    unfold Placed
    simp only [CardUpdater.conclude]
    rcases h.placed e he with hp | ⟨f', hf', hget⟩ | hst
    · refine Or.inl ?_
      split_ifs
      · rw [hback]
        cases hfe : f.entries.get? e.cacheKey with
        | none => exact hp
        | some e' =>
            obtain ⟨hkey, hnamed⟩ := hfiled _ e' hfe
            rw [CardEntry.cacheKey_inj (h.pending _ e hp).2 hnamed hkey]
            rfl
      · exact hp
    · obtain rfl := Option.some.inj (hf.symm.trans hf')
      cases failed with
      | false => exact Or.inr (Or.inr (hstored rfl _ e hget))
      | true =>
          refine Or.inl ?_
          rw [if_pos rfl, hback, hget]
          rfl
    · exact Or.inr (Or.inr hst)

lemma CardInv.finish (h : CardInv s) {f : CardFlush} (hf : s.running = some f)
    (hstep : s.flushStep f .finish = some s') : CardInv s' := by
  have hflush := h.flush f hf
  simp only [CardUpdater.flushStep] at hstep
  split at hstep
  · cases hstep
  · rename_i left hphase
    split_ifs at hstep
    obtain rfl := Option.some.inj hstep
    exact h.conclude hf fun _ => (hflush.caching left hphase).1
  · rename_i failed hphase
    obtain rfl := Option.some.inj hstep
    exact h.conclude hf fun hok => hflush.ending (hok ▸ hphase)

/-- The names of an added entry hold no NUL byte, and a count can be read. -/
def CardEvent.Sound : CardEvent → Prop
  | .check e _ => e.Named
  | .scan _ _ _ countErr => countErr = false
  | _ => True

instance : DecidablePred CardEvent.Sound := fun event => by
  cases event <;> unfold CardEvent.Sound <;> infer_instance

/-- **Every sound step keeps the invariant.** -/
theorem CardInv.step (h : CardInv s) {event : CardEvent} (hsound : event.Sound)
    (hstep : s.step event = some s') : CardInv s' := by
  cases event with
  | check e now => exact h.check hsound hstep
  | insert i => exact h.insert hstep
  | drain => exact h.drain hstep
  | expire now => exact h.expire hstep
  | scan key now err countErr =>
      obtain ⟨f, hf, hflush⟩ := Option.bind_eq_some_iff.mp hstep
      obtain rfl : countErr = false := hsound
      exact h.scan hf hflush
  | commit err =>
      obtain ⟨f, hf, hflush⟩ := Option.bind_eq_some_iff.mp hstep
      exact h.commit hf hflush
  | remember key now =>
      obtain ⟨f, hf, hflush⟩ := Option.bind_eq_some_iff.mp hstep
      exact h.remember hf hflush
  | finish =>
      obtain ⟨f, hf, hflush⟩ := Option.bind_eq_some_iff.mp hstep
      exact h.finish hf hflush

end Steps

/-! ## Exact counts

The stored count of a tag is the number of its stored values. -/

/-- The keys of the stored values of a tag. -/
def storedValues (db : Store) (m t : Bytes) : List Bytes :=
  (db.entries.map Prod.fst).filter (isCardOf m t)

lemma length_storedValues (db : Store) (m t : Bytes) :
    (storedValues db m t).length = db.countKeys (isCardOf m t) := by
  rw [storedValues, ← List.countP_eq_length_filter, List.countP_map]
  rfl

lemma count_storedValues {db : Store} {e : CardEntry} (h : ValueStored db e) :
    (storedValues db e.metric e.tagKey).count e.key = 1 := by
  have hnodup : (db.entries.map Prod.fst).Nodup := List.pairwise_map.mpr db.keys_ne
  refine List.count_eq_one_of_mem (hnodup.filter _) (List.mem_filter.mpr ⟨?_, ?_⟩)
  · exact (OrdMap.mem_keys_iff _ _).mpr h
  · exact isCardOf_key.mpr ⟨rfl, rfl⟩

/-- The counts are right, in the 64 bits they have, and no added value is lost or counted twice. -/
structure CountsExact (s : CardUpdater) : Prop where
  counts : ∀ m t, getCardinality s.db m t = (storedValues s.db m t).length % 2 ^ 64
  placed : ∀ e ∈ s.added, s.pending.get? e.cacheKey = some e ∨
    (∃ f, s.running = some f ∧ f.entries.get? e.cacheKey = some e) ∨
      (storedValues s.db e.metric e.tagKey).count e.key = 1

/-- An updater on a store, with a new cache. -/
def newCardUpdater (db : Store) (maxEntries ttl now : ℤ) : CardUpdater :=
  { db := db, cache := CardCache.new maxEntries ttl now }

lemma cardInv_new {db : Store} (hdb : ∀ m t, ExactCount db m t) (maxEntries ttl now : ℤ) :
    CardInv (newCardUpdater db maxEntries ttl now) where
  counts := hdb
  cached c e hc _ hknows := by
    simp only [newCardUpdater, CardCache.new] at hc
    split_ifs at hc
    obtain rfl := Option.some.inj hc
    simp [CardCache.Knows] at hknows
  pending k e hk := by simp [newCardUpdater] at hk
  spare := by simp [newCardUpdater]
  adding := by simp [newCardUpdater]
  flush := by simp [newCardUpdater]
  placed := by simp [newCardUpdater]

/-- **Cardinality counts are exact** in every state of every run of sound events. -/
theorem cardinality_counts_exact {db : Store} (hdb : ∀ m t, ExactCount db m t)
    {maxEntries ttl now : ℤ} {events : List CardEvent} (hsound : ∀ event ∈ events, event.Sound)
    {s : CardUpdater}
    (hrun : Machine.run CardUpdater.step (newCardUpdater db maxEntries ttl now) events = some s) :
    CountsExact s := by
  have hinv : CardInv s := Machine.run_invariant (fun h hsound hstep => h.step hsound hstep)
    (cardInv_new hdb maxEntries ttl now) hsound hrun
  refine ⟨fun m t => ?_, fun e he => ?_⟩
  · rw [length_storedValues]
    exact hinv.counts m t
  · rcases hinv.placed e he with hp | hf | hst
    · exact Or.inl hp
    · exact Or.inr (Or.inl hf)
    · exact Or.inr (Or.inr (count_storedValues hst))

/-- An Add that goes into the pending map, at once. -/
def addEvents (e : CardEntry) : List CardEvent := [.check e 0, .insert 0]

def flushEvents (e : CardEntry) (countErr : Bool) : List CardEvent :=
  [.drain, .scan e.cacheKey 0 false countErr, .commit false, .remember e.cacheKey 0, .finish]

def euHits : CardEntry := ⟨bs "hits", bs "region", bs "eu"⟩

def usHits : CardEntry := ⟨bs "hits", bs "region", bs "us"⟩

/-- Two values, the second added while the first is flushed, and a failed commit. -/
theorem cardinality_counts_exact_hits : ∃ s, Machine.run CardUpdater.step (newCardUpdater ∅ 8 100 0)
    (addEvents euHits ++ [.drain, .check usHits 1, .scan euHits.cacheKey 1 false false, .insert 0,
      .commit true, .finish, .drain, .scan usHits.cacheKey 2 false false,
      .scan euHits.cacheKey 2 false false, .commit false]) = some s ∧ CountsExact s := by
  have hsome : (Machine.run CardUpdater.step (newCardUpdater ∅ 8 100 0)
      (addEvents euHits ++ [.drain, .check usHits 1, .scan euHits.cacheKey 1 false false, .insert 0,
        .commit true, .finish, .drain, .scan usHits.cacheKey 2 false false,
        .scan euHits.cacheKey 2 false false, .commit false])).isSome := by decide +kernel
  obtain ⟨s, hs⟩ := Option.isSome_iff_exists.mp hsome
  exact ⟨s, hs, cardinality_counts_exact exactCount_empty (by decide +kernel) hs⟩

/-- **A count that cannot be read is taken for zero**, and the next flush stores one value too few;
and with a NUL byte in a tag key, two values have one cache key and the second is dropped. -/
theorem cardinality_miscounted :
    (Machine.run CardUpdater.step (newCardUpdater ∅ 8 100 0)
      (addEvents euHits ++ flushEvents euHits false ++ addEvents usHits ++
        flushEvents usHits true)).map
        (fun s => (getCardinality s.db (bs "hits") (bs "region"),
          (storedValues s.db (bs "hits") (bs "region")).length)) = some (1, 2) ∧
    (Machine.run CardUpdater.step (newCardUpdater ∅ 8 100 0)
      (addEvents ⟨bs "m", [1, 0, 2], [3]⟩ ++ addEvents ⟨bs "m", [1], [2, 0, 3]⟩)).map
        (fun s => (s.added, s.pending.entries, s.running.isSome, s.db.entries.length)) =
      some ([⟨bs "m", [1], [2, 0, 3]⟩, ⟨bs "m", [1, 0, 2], [3]⟩],
        [(bs "m" ++ [0, 1, 0, 2, 0, 3], ⟨bs "m", [1, 0, 2], [3]⟩)], false, 0) := by
  decide +kernel

end FlameDB
