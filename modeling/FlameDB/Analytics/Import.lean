import FlameDB.Analytics.Tables
import FlameDB.Query.LeaderboardMap
import FlameDB.Query.Provenance

/-!
# Import of a legacy store

`import-postgres` reads a stopped Pebble store three times, once for each table, and takes every key
apart again: `lb-entity:` keys give scores, `card:` keys tag values, and a key with eight bytes
behind its first delimiter gives an event, unless the part before is one of the reserved names.  A
fourth pass adds the scores of `lb:` keys that have none yet; there the entity comes from the JSON
value, not from the key.  An error in any row rolls everything back.

* `importSnapshot` — the tool, from a store and the destination to the destination's new contents.
* `Written` — the stores an executor and its cardinality worker leave.
* **`importSnapshot_lossless_iff`** — on such a store events are imported exactly; scores are
  exactly when every entity's valid UTF-8 image has a score of its own.
-/

namespace FlameDB.Analytics

open Go KV

/-- The names that do not stand for a metric. -/
def reservedNames : List Bytes :=
  [bs "lb", bs "lb-entity", bs "idx", bs "card", bs "card-count", bs "repl-outbox",
    bs "repl-applied"]

/-- What follows the name and its delimiter, for a key that starts with them. -/
def after (name key : Bytes) : Option Bytes :=
  match cut colon key with
  | some (front, rest) => if front = name then some rest else none
  | none => none

/-- The metric and board of a ranking name. -/
def splitBoard (name : Bytes) : Bytes × Bytes :=
  (cut unitSep (decodeComponent name)).getD (decodeComponent name, [])

/-- `decode` of kind `events`. -/
def decodeEvent (key : Bytes) (value : Value) : Except Bytes (Option ((Bytes ×ₗ ℤ) × EventRow)) :=
  match cut colon key with
  | none => .ok none
  | some (name, rest) =>
      if rest.length ≠ 8 ∨ name ∈ reservedNames then .ok none
      else
        match decodeEventValue value (decodeComponent name) with
        | .error err => .error err
        | .ok event =>
            if event.timestamp ≠ (UInt64.ofNat (beNat rest)).toInt64 then
              .error (bs "event timestamp differs from primary key")
            else if !event.value.isFinite then
              .error (bs "nonfinite event in " ++ decodeComponent name)
            else .ok (some (eventRowKey (decodeComponent name) event.timestamp,
              ⟨event.value, encodeTags event.tags⟩))

/-- `decode` of kind `scores`. -/
def decodeScore (key : Bytes) (value : Value) :
    Except Bytes (Option ((Bytes ×ₗ Bytes ×ₗ Bytes) × Float64)) :=
  match after (bs "lb-entity") key with
  | none => .ok none
  | some rest =>
      match cut colon rest, decodeFloat64 value with
      | some (name, entity), some score =>
          if score.isFinite then
            .ok (some (scoreKey (splitBoard name).1 (splitBoard name).2 entity, score))
          else .error (bs "nonfinite legacy score")
      | _, _ => .error (bs "corrupt legacy score")

/-- `decode` of kind `tags`. -/
def decodeTag (key : Bytes) (_ : Value) :
    Except Bytes (Option ((Bytes ×ₗ Bytes ×ₗ Bytes) × Unit)) :=
  match after (bs "card") key with
  | none => .ok none
  | some rest =>
      match cut colon rest with
      | none => .error (bs "corrupt cardinality key")
      | some (metric, rest) =>
          match cut colon rest with
          | none => .error (bs "corrupt cardinality key")
          | some (tag, value) =>
              .ok (some (tagRowKey (decodeComponent metric) (decodeComponent tag) value, ()))

/-- A ranking key, whose entity is that of its value. -/
def decodeBoardRow (key : Bytes) (value : Value) :
    Except Bytes (Option ((Bytes ×ₗ Bytes ×ₗ Bytes) × Float64)) :=
  match after (bs "lb") key with
  | none => .ok none
  | some rest =>
      match cut colon rest with
      | none => .error (bs "corrupt legacy board key")
      | some (name, _) =>
          match unmarshalEntry value with
          | .error err => .error err
          | .ok entry =>
              if entry.value.isFinite then
                .ok (some (scoreKey (splitBoard name).1 (splitBoard name).2 entry.entityID,
                  entry.value))
              else .error (bs "nonfinite leaderboard")

/-! ## The passes -/

/-- The rows of a pass; the first error ends it. -/
def decodeRows {β : Type} (decode : Bytes → Value → Except Bytes (Option β)) :
    List (Bytes × Value) → Except Bytes (List β)
  | [] => .ok []
  | (key, value) :: rest =>
      match decode key value with
      | .error err => .error err
      | .ok row => (decodeRows decode rest).map fun rows => row.toList ++ rows

/-- `CopyFrom` into an empty table. -/
def copyFrom {κ β : Type} [LinearOrder κ] (kind : Bytes)
    (decode : Bytes → Value → Except Bytes (Option (κ × β))) (db : Store) :
    Except Bytes (OrdMap κ β) :=
  match decodeRows decode db.entries with
  | .error err => .error (bs "import " ++ kind ++ bs ": " ++ err)
  | .ok rows =>
      match (∅ : OrdMap κ β).insertRows rows with
      | none =>
          .error (bs "import " ++ kind ++ bs ": duplicate key value violates unique constraint")
      | some table => .ok table

/-- The tag values of the events of a table. -/
def eventTagRows (events : OrdMap (Bytes ×ₗ ℤ) EventRow) :
    List ((Bytes ×ₗ Bytes ×ₗ Bytes) × Unit) :=
  events.entries.flatMap fun row =>
    row.2.tags.entries.map fun tag => (toLex ((ofLex row.1).1, toLex tag), ())

/-- The store waits for replicas. -/
def pendingReplication (db : Store) : Bool :=
  db.entries.any fun row => (after (bs "repl-outbox") row.1).isSome

/-- `importSnapshot`: what the destination holds afterwards, or the error that left it alone. -/
def importSnapshot (db : Store) (destination : Tables) : Except Bytes Tables :=
  if pendingReplication db then
    .error (bs "source has pending replication; drain its outbox before migration")
  else if destination ≠ {} then
    .error (bs "destination must be empty; no data was imported")
  else do
    let events ← copyFrom (bs "events") decodeEvent db
    let scores ← copyFrom (bs "scores") decodeScore db
    let tags ← copyFrom (bs "tags") decodeTag db
    let legacy ← decodeRows decodeBoardRow db.entries
    let scores := scores.insertMissing legacy
    let tags := tags.insertMissing (eventTagRows events)
    let names := events.entries.map (fun row => (ofLex row.1).1) ++
      scores.entries.map (fun row => (ofLex row.1).1) ++ tags.entries.map fun row => (ofLex row.1).1
    return { metrics := OrdMap.ofList (names.map fun name => (name, 1)), events := events,
             scores := scores, tagValues := tags }

/-! ## Passes over well-formed stores -/

section Passes

variable {κ β : Type} [LinearOrder κ]

/-- A pass without errors yields the rows of its entries. -/
lemma decodeRows_ok (decode : Bytes → Value → Except Bytes (Option β)) {l : List (Bytes × Value)}
    (h : ∀ row ∈ l, ∃ r, decode row.1 row.2 = .ok r) :
    ∃ rows, decodeRows decode l = .ok rows ∧
      rows = l.filterMap fun row => ((decode row.1 row.2).toOption).join := by
  induction l with
  | nil => exact ⟨[], rfl, rfl⟩
  | cons row l ih =>
      obtain ⟨rows, hrows, rfl⟩ := ih fun x hx => h x (List.mem_cons_of_mem _ hx)
      obtain ⟨r, hr⟩ := h row List.mem_cons_self
      refine ⟨_, by rw [decodeRows, hr, hrows]; rfl, ?_⟩
      rw [List.filterMap_cons, hr]
      cases r <;> rfl

lemma decodeRows_error {decode : Bytes → Value → Except Bytes (Option β)} {l : List (Bytes × Value)}
    {row : Bytes × Value} (hmem : row ∈ l) {err : Bytes} (h : decode row.1 row.2 = .error err) :
    ∃ err', decodeRows decode l = .error err' := by
  induction l with
  | nil => cases hmem
  | cons x l ih =>
      rw [decodeRows]
      cases hx : decode x.1 x.2 with
      | error e => exact ⟨e, rfl⟩
      | ok r =>
          rcases List.mem_cons.mp hmem with rfl | hl
          · rw [h] at hx
            cases hx
          · obtain ⟨err', hrest⟩ := ih hl
            exact ⟨err', by rw [hrest]; rfl⟩

/-- A row of no kind makes no difference. -/
lemma decodeRows_skip {decode : Bytes → Value → Except Bytes (Option β)} (l : List (Bytes × Value))
    (row : Bytes × Value) (h : decode row.1 row.2 = .ok none) (l' : List (Bytes × Value)) :
    decodeRows decode (l ++ row :: l') = decodeRows decode (l ++ l') := by
  induction l with
  | nil =>
      show decodeRows decode (row :: l') = decodeRows decode l'
      rw [decodeRows, h]
      cases decodeRows decode l' <;> rfl
  | cons x l ih =>
      rw [List.cons_append, List.cons_append, decodeRows, decodeRows, ih]

/-- **A pass fills its table**, when no two rows get the same key. -/
lemma copyFrom_ok (kind : Bytes) (decode : Bytes → Value → Except Bytes (Option (κ × β)))
    (db : Store) (h : ∀ row ∈ db.entries, ∃ r, decode row.1 row.2 = .ok r)
    (hinj : ∀ a ∈ db.entries, ∀ b ∈ db.entries, ∀ x y, decode a.1 a.2 = .ok (some x) →
      decode b.1 b.2 = .ok (some y) → x.1 = y.1 → a.1 = b.1) :
    ∃ table, copyFrom kind decode db = .ok table ∧ ∀ k v, table.get? k = some v ↔
      ∃ row ∈ db.entries, decode row.1 row.2 = .ok (some (k, v)) := by
  obtain ⟨rows, hrows, hfilter⟩ := decodeRows_ok decode h
  have hmem : ∀ x, x ∈ rows ↔ ∃ row ∈ db.entries, decode row.1 row.2 = .ok (some x) := by
    intro x
    rw [hfilter, List.mem_filterMap]
    refine exists_congr fun row => and_congr_right fun hrow => ?_
    obtain ⟨r, hr⟩ := h row hrow
    rw [hr]
    cases r <;> simp [Except.toOption]
  have hnodup : (rows.map Prod.fst).Nodup := by
    rw [hfilter, List.Nodup, List.pairwise_map, List.pairwise_filterMap]
    refine db.sorted.imp_of_mem ?_
    intro a b ha hb hlt x hx y hy heq
    have hok : ∀ (row : Bytes × Value) z, ((decode row.1 row.2).toOption).join = some z →
        decode row.1 row.2 = .ok (some z) := by
      intro row z hz
      cases hd : decode row.1 row.2 with
      | error e => simp [hd, Except.toOption] at hz
      | ok r => cases r <;> simp_all [Except.toOption]
    exact hlt.ne (hinj a ha b hb x y (hok a x hx) (hok b y hy) heq)
  have hinsert := OrdMap.insertRows_of_fresh (m := (∅ : OrdMap κ β)) hnodup (by simp)
  refine ⟨_, by rw [copyFrom, hrows]; simp only; rw [hinsert], ?_⟩
  intro k v
  rw [OrdMap.get?_setRows_iff hnodup, ← hmem]
  simp

end Passes

/-! ## Keys taken apart -/

lemma cut_encode (K : Key) : cut colon K.encode = some (K.family, K.body) := by
  rw [K.encode_eq, cut_append K.colon_notMem_family]

lemma after_append {front : Bytes} (h : colon ∉ front) (name body : Bytes) :
    after name (front ++ colon :: body) = if front = name then some body else none := by
  rw [after, cut_append h]

lemma after_encode (name : Bytes) (K : Key) :
    after name K.encode = if K.family = name then some K.body else none := by
  rw [K.encode_eq, after_append K.colon_notMem_family]

lemma after_encode_self (K : Key) : after K.family K.encode = some K.body := by
  rw [after_encode, if_pos rfl]

@[simp] lemma splitBoard_component {m : Bytes} (hm : unitSep ∉ m) (b : Bytes) :
    splitBoard (component (boardMetric m b)) = (m, b) := by
  rw [splitBoard, decodeComponent_component, boardMetric]
  split_ifs with hb
  · rw [cut_of_notMem hm, hb]
    rfl
  · rw [cut_append hm]
    rfl

/-- The items that are not events lie under reserved names. -/
lemma family_mem_reservedNames {K : Key} (hK : ∀ m t, K ≠ .event m t) :
    K.family ∈ reservedNames := by
  cases K with
  | event m t => exact absurd rfl (hK m t)
  | _ => simp only [Key.family]; decide

lemma component_notMem_reservedNames {m : Bytes} (hm : m ∉ Key.reserved) :
    component m ∉ reservedNames := by
  intro hmem
  have hsub : ∀ r ∈ reservedNames, r ∈ Key.reserved := by decide
  exact Key.component_ne_reserved hm (hsub _ hmem) rfl

lemma timestamp_of_bytes (t : Int64) : (UInt64.ofNat (beNat (timestampBytes t))).toInt64 = t := by
  have hlt : t.toUInt64.toNat < 256 ^ 8 := by
    have := t.toUInt64.toNat_lt
    omega
  rw [timestampBytes, beNat_beBytes, Nat.mod_eq_of_lt hlt]
  simp

lemma decodeEvent_event {m : Bytes} {t : Int64} (hw : (Key.event m t).WF) {v : Value} {e : Event}
    (he : decodeEventValue v m = .ok e) (ht : e.timestamp = t) (hfin : e.value.isFinite = true) :
    decodeEvent (Key.event m t).encode v =
      .ok (some (eventRowKey m t, ⟨e.value, encodeTags e.tags⟩)) := by
  have hbody : ¬ ((Key.event m t).body.length ≠ 8 ∨ (Key.event m t).family ∈ reservedNames) := by
    rintro (hlen | hname)
    · exact hlen (timestampBytes_length t)
    · exact component_notMem_reservedNames hw.2 hname
  simp only [decodeEvent, cut_encode]
  rw [if_neg hbody]
  simp only [Key.family, Key.body, decodeComponent_component, he, timestamp_of_bytes, ht, hfin,
    ne_eq, not_true_eq_false, if_false, Bool.not_true, Bool.false_eq_true]

lemma decodeEvent_other {K : Key} (hK : ∀ m t, K ≠ .event m t) (v : Value) :
    decodeEvent K.encode v = .ok none := by
  simp only [decodeEvent, cut_encode]
  rw [if_pos (Or.inr (family_mem_reservedNames hK))]

lemma decodeScore_entity {m : Bytes} (hm : unitSep ∉ m) (b e : Bytes) {s : Float64}
    (hfin : s.isFinite = true) : decodeScore (Key.entity m b e).encode (.bytes (encodeFloat64 s)) =
      .ok (some (scoreKey m b e, s)) := by
  have hafter : after (bs "lb-entity") (Key.entity m b e).encode = some (Key.entity m b e).body :=
    after_encode_self (Key.entity m b e)
  rw [decodeScore, hafter]
  simp only [Key.body, cut_append (colon_notMem_component _), decodeFloat64_encodeFloat64, hfin,
    if_true, splitBoard_component hm]

lemma decodeBoardRow_rank {m : Bytes} (hm : unitSep ∉ m) (b e : Bytes) (s : Float64)
    (entry : LeaderboardEntry) (hfin : entry.value.isFinite = true) :
    decodeBoardRow (Key.rank m b e s).encode (.entryDoc entry) =
      .ok (some (scoreKey m b entry.entityID, entry.value)) := by
  have hafter : after (bs "lb") (Key.rank m b e s).encode = some (Key.rank m b e s).body :=
    after_encode_self (Key.rank m b e s)
  rw [decodeBoardRow, hafter]
  simp only [Key.body, cut_append (colon_notMem_component _), unmarshalEntry, hfin, if_true,
    splitBoard_component hm]

lemma decodeTag_card (m k value : Bytes) (v : Value) :
    decodeTag (Key.card m k value).encode v = .ok (some (tagRowKey m k value, ())) := by
  have hafter : after (bs "card") (Key.card m k value).encode = some (Key.card m k value).body :=
    after_encode_self (Key.card m k value)
  rw [decodeTag, hafter]
  simp only [Key.body, cut_append (colon_notMem_component _), decodeComponent_component]

/-! ## Stores an executor leaves

The import reads the database of a stopped server, so the stores in question are those of its runs.
-/

/-- Runs of an executor from the empty store, with the cardinality worker beside it. -/
inductive Written : Executor → Prop where
  | empty (clock : Int64) : Written ⟨clock, ∅⟩
  | mutate {s : Executor} {q : Query} (h : Written s) (hq : Admitted q) (hmut : q.IsMutation)
      (now : Int64) : Written (executeMutation now s q).1
  | batch {s : Executor} {items : List (Int64 × Option Query)} (h : Written s)
      (hitems : ∀ x ∈ items, ∀ q, x.2 = some q → Admitted q) : Written (executeWriteBatch s items).1
  | cards {s : Executor} {db : Store} (h : Written s)
      (hdb : ∀ k, db.get? k = s.db.get? k ∨ (∃ m tag value, k = cardKey m tag value) ∨
        ∃ m tag, k = cardCountKey m tag) : Written { s with db := db }

lemma Written.reachable {s : Executor} (h : Written s) : Reachable (fun _ => True) s := by
  induction h with
  | empty clock => exact .empty clock
  | mutate _ hq hmut now ih => exact .mutate ih hq hmut trivial now
  | batch _ hitems ih => exact .batch ih fun x hx q hxq => ⟨hitems x hx q hxq, trivial⟩
  | cards _ hdb ih =>
      refine .background ih fun k hk => ?_
      rcases hdb k with hsame | ⟨m, tag, value, rfl⟩ | ⟨m, tag, rfl⟩
      · exact hsame
      · exact absurd ⟨bs "card", by decide, _, rfl⟩ hk
      · exact absurd ⟨bs "card-count", by decide, _, rfl⟩ hk

/-- Background keys are cardinality keys. -/
def OwnCards (db : Store) : Prop :=
  ∀ k v, IsBackground k → db.get? k = some v →
    (∃ m tag value, k = cardKey m tag value) ∨ ∃ m tag, k = cardCountKey m tag

lemma Written.ownCards {s : Executor} (h : Written s) : OwnCards s.db := by
  induction h with
  | empty clock =>
      intro k v _ hv
      cases hv
  | mutate hw hq hmut now ih =>
      obtain ⟨hs, σ, hσ⟩ := hw.reachable.inv
      have hsame := sameBackground_executeMutation hs hσ (hq.stageable hmut.ne_metrics) now
      exact fun k v hk hv => ih k v hk (hsame k hk ▸ hv)
  | batch hw hitems ih =>
      obtain ⟨hs, σ, hσ⟩ := hw.reachable.inv
      have hsame := sameBackground_executeWriteBatch hs hσ fun x hx q hxq hty =>
        (hitems x hx q hxq).stageable (by simp [hty])
      exact fun k v hk hv => ih k v hk (hsame k hk ▸ hv)
  | cards _ hdb ih =>
      intro k v hk hv
      rcases hdb k with hsame | hcard
      · rw [hsame] at hv
        exact ih k v hk hv
      · exact hcard

/-! ## What a written store holds -/

/-- A row of a store, with all that its value says. -/
inductive StoredRow (db : Store) : Bytes → Value → Prop where
  | event {m : Bytes} {t : Int64} {v : Value} {e : Event} (hw : (Key.event m t).WF)
      (hv : lookup db (.event m t) = some v) (he : decodeEventValue v m = .ok e)
      (ht : e.timestamp = t) (hfin : e.value.isFinite = true) : StoredRow db
        (Key.event m t).encode v
  | entity {m b e : Bytes} {s : Float64} (hm : unitSep ∉ m) (hs : scoreAt db m b e = some s)
      (hfin : s.isFinite = true) :
      StoredRow db (Key.entity m b e).encode (.bytes (encodeFloat64 s))
  | rank {m b e : Bytes} {s : Float64} (hm : unitSep ∉ m) (hs : scoreAt db m b e = some s)
      (hfin : s.isFinite = true) :
      StoredRow db (Key.rank m b e s).encode (.entryDoc ⟨toValidUtf8 e, s⟩)
  | card (m tag value : Bytes) (v : Value) : StoredRow db (Key.card m tag value).encode v
  | other {K : Key} (hev : ∀ m t, K ≠ .event m t)
      (hK : K.family ∈ [bs "idx", bs "card-count", bs "repl-applied"]) (v : Value) :
      StoredRow db K.encode v

section Stored

variable {s : Executor} (h : Written s)

include h

/-- The rows of a written store. -/
lemma Written.storedRow {k : Bytes} {v : Value} (hv : s.db.get? k = some v) :
    StoredRow s.db k v := by
  obtain ⟨hs, σ, hσ⟩ := h.reachable.inv
  rcases hs.keyed k v hv with hbg | ⟨K, hK, rfl⟩
  · rcases h.ownCards k v hbg hv with ⟨m, tag, value, rfl⟩ | ⟨m, tag, rfl⟩
    · exact .card m tag value v
    · exact .other (K := .cardCount m tag) (by simp) (by simp [Key.family]) v
  · cases K with
    | event m t =>
        obtain ⟨e, he, ht⟩ := hs.events m t v hK hv
        have hat : eventAt s.db m t = some e := by
          show (s.db.get? (Key.event m t).encode).bind _ = some e
          rw [hv, Option.bind_some, he]
          rfl
        exact .event hK hv he ht (h.reachable.finiteEvents m t e hK hat)
    | entity m b e =>
        have hget := hσ.entity m b e hK
        rw [show lookup s.db (.entity m b e) = some v from hv] at hget
        obtain ⟨score, hscore, rfl⟩ := Option.map_eq_some_iff.mp hget.symm
        exact .entity hK (by rw [scoreAt_eq hσ hK, hscore]) (hσ.canonical m b e score hscore).1
    | rank m b e score =>
        have hget := hσ.rank m b e score hK
        rw [show lookup s.db (.rank m b e score) = some v from hv] at hget
        split_ifs at hget with hscore
        obtain rfl := Option.some.inj hget
        exact .rank hK (by rw [scoreAt_eq hσ hK, hscore]) (hσ.canonical m b e score hscore).1
    | card m tag value => exact .card m tag value v
    | index m tag value t =>
        exact .other (K := .index m tag value t) (by simp) (by simp [Key.family]) v
    | cardCount m tag => exact .other (K := .cardCount m tag) (by simp) (by simp [Key.family]) v
    | receipt op => exact .other (K := .receipt op) (by simp) (by simp [Key.family]) v
    | outbox body =>
        rcases h.ownCards _ v ⟨bs "repl-outbox", by decide, body, rfl⟩ hv with
          ⟨m, tag, value, heq⟩ | ⟨m, tag, heq⟩
        · have hkey : Key.outbox body = .card m tag value := Key.encode_inj trivial trivial heq
          cases hkey
        · have hkey : Key.outbox body = .cardCount m tag := Key.encode_inj trivial trivial heq
          cases hkey

/-- A score has its two rows. -/
lemma Written.score_rows {m b e : Bytes} {score : Float64} (hm : unitSep ∉ m)
    (hscore : scoreAt s.db m b e = some score) :
    s.db.get? (Key.entity m b e).encode = some (.bytes (encodeFloat64 score)) ∧
      s.db.get? (Key.rank m b e score).encode = some (.entryDoc ⟨toValidUtf8 e, score⟩) ∧
      score.isFinite = true := by
  obtain ⟨-, σ, hσ⟩ := h.reachable.inv
  rw [scoreAt_eq hσ hm] at hscore
  refine ⟨(hσ.entity m b e hm).trans ?_, (hσ.rank m b e score hm).trans ?_,
    (hσ.canonical m b e score hscore).1⟩
  · rw [hscore]
    rfl
  · rw [if_pos hscore]

end Stored

/-! ### The passes over it -/

lemma decodeScore_other {K : Key} (hK : K.family ≠ bs "lb-entity") (v : Value) :
    decodeScore K.encode v = .ok none := by
  rw [decodeScore, after_encode, if_neg hK]

lemma decodeTag_other {K : Key} (hK : K.family ≠ bs "card") (v : Value) :
    decodeTag K.encode v = .ok none := by
  rw [decodeTag, after_encode, if_neg hK]

lemma decodeBoardRow_other {K : Key} (hK : K.family ≠ bs "lb") (v : Value) :
    decodeBoardRow K.encode v = .ok none := by
  rw [decodeBoardRow, after_encode, if_neg hK]

section Rows

variable {db : Store} {k : Bytes} {v : Value} (h : StoredRow db k v)

include h

lemma StoredRow.decodeEvent_cases :
    (∃ m t e, (Key.event m t).WF ∧ k = (Key.event m t).encode ∧ eventAt db m t = some e ∧
      decodeEvent k v = .ok (some (eventRowKey m t, ⟨e.value, encodeTags e.tags⟩))) ∨
      decodeEvent k v = .ok none := by
  cases h with
  | @event m t v e hw hv he ht hfin =>
      refine Or.inl ⟨m, t, e, hw, rfl, ?_, decodeEvent_event hw he ht hfin⟩
      rw [eventAt, hv, Option.bind_some, he]
      rfl
  | @entity m b e s => exact Or.inr (decodeEvent_other (K := .entity m b e) (by simp) _)
  | @rank m b e s => exact Or.inr (decodeEvent_other (K := .rank m b e s) (by simp) _)
  | card m tag value => exact Or.inr (decodeEvent_other (K := .card m tag value) (by simp) _)
  | other hev => exact Or.inr (decodeEvent_other hev _)

lemma StoredRow.decodeScore_cases :
    (∃ m b e s, unitSep ∉ m ∧ k = (Key.entity m b e).encode ∧ scoreAt db m b e = some s ∧
      decodeScore k v = .ok (some (scoreKey m b e, s))) ∨ decodeScore k v = .ok none := by
  cases h with
  | @event m t v e hw =>
      exact Or.inr (decodeScore_other (K := .event m t)
        (Key.component_ne_reserved hw.2 (by decide)) _)
  | @entity m b e s hm hs hfin =>
      exact Or.inl ⟨m, b, e, s, hm, rfl, hs, decodeScore_entity hm b e hfin⟩
  | @rank m b e s =>
      exact Or.inr (decodeScore_other (K := .rank m b e s) (by simp only [Key.family]; decide) _)
  | card m tag value =>
      exact Or.inr (decodeScore_other (K := .card m tag value)
        (by simp only [Key.family]; decide) _)
  | other hev hK =>
      exact Or.inr (decodeScore_other (fun heq => absurd (heq ▸ hK) (by decide)) _)

lemma StoredRow.decodeTag_cases :
    (∃ m tag value, k = (Key.card m tag value).encode ∧
      decodeTag k v = .ok (some (tagRowKey m tag value, ()))) ∨ decodeTag k v = .ok none := by
  cases h with
  | @event m t v e hw =>
      exact Or.inr (decodeTag_other (K := .event m t)
        (Key.component_ne_reserved hw.2 (by decide)) _)
  | @entity m b e s =>
      exact Or.inr (decodeTag_other (K := .entity m b e) (by simp only [Key.family]; decide) _)
  | @rank m b e s =>
      exact Or.inr (decodeTag_other (K := .rank m b e s) (by simp only [Key.family]; decide) _)
  | card m tag value => exact Or.inl ⟨m, tag, value, rfl, decodeTag_card m tag value _⟩
  | other hev hK =>
      exact Or.inr (decodeTag_other (fun heq => absurd (heq ▸ hK) (by decide)) _)

lemma StoredRow.decodeBoardRow_cases :
    (∃ m b e s, unitSep ∉ m ∧ scoreAt db m b e = some s ∧
      decodeBoardRow k v = .ok (some (scoreKey m b (toValidUtf8 e), s))) ∨
      decodeBoardRow k v = .ok none := by
  cases h with
  | @event m t v e hw =>
      exact Or.inr (decodeBoardRow_other (K := .event m t)
        (Key.component_ne_reserved hw.2 (by decide)) _)
  | @entity m b e s =>
      exact Or.inr (decodeBoardRow_other (K := .entity m b e) (by simp only [Key.family]; decide) _)
  | @rank m b e s hm hs hfin =>
      exact Or.inl ⟨m, b, e, s, hm, hs,
        decodeBoardRow_rank hm b e s ⟨toValidUtf8 e, s⟩ hfin⟩
  | card m tag value =>
      exact Or.inr (decodeBoardRow_other (K := .card m tag value)
        (by simp only [Key.family]; decide) _)
  | other hev hK =>
      exact Or.inr (decodeBoardRow_other (fun heq => absurd (heq ▸ hK) (by decide)) _)

lemma StoredRow.not_pending : after (bs "repl-outbox") k = none := by
  cases h with
  | @event m t v e hw =>
      have hne : (Key.event m t).family ≠ bs "repl-outbox" :=
        Key.component_ne_reserved hw.2 (by decide)
      rw [after_encode, if_neg hne]
  | @entity m b e s => rw [after_encode, if_neg (by simp only [Key.family]; decide)]
  | @rank m b e s => rw [after_encode, if_neg (by simp only [Key.family]; decide)]
  | card m tag value => rw [after_encode, if_neg (by simp only [Key.family]; decide)]
  | other hev hK => rw [after_encode, if_neg (fun heq => absurd (heq ▸ hK) (by decide))]

end Rows

/-! ## Exactness

The tables hold the events and the scores of the store, and nothing else. -/

/-- The events of the table are those of the store. -/
def EventsExact (db : Store) (t : Tables) : Prop :=
  ∀ key row, t.events.get? key = some row ↔ ∃ m ts e, (Key.event m ts).WF ∧
    eventAt db m ts = some e ∧ key = eventRowKey m ts ∧ row = ⟨e.value, encodeTags e.tags⟩

/-- The scores of the table are those of the store. -/
def ScoresExact (db : Store) (t : Tables) : Prop :=
  ∀ key score, t.scores.get? key = some score ↔ ∃ m b e, unitSep ∉ m ∧
    scoreAt db m b e = some score ∧ key = scoreKey m b e

/-- On every board, the valid UTF-8 image of an entity with a score has a score. -/
def Utf8Closed (db : Store) : Prop :=
  ∀ m b e, unitSep ∉ m → (scoreAt db m b e).isSome → (scoreAt db m b (toValidUtf8 e)).isSome

lemma mem_entries {db : Store} {row : Bytes × Value} :
    row ∈ db.entries ↔ db.get? row.1 = some row.2 := OrdMap.mem_entries_iff db row.1 row.2

/-- A pass over a store whose rows are items `i` with contents `P i`, or of no interest. -/
lemma copyFrom_items {ι κ β : Type} [LinearOrder κ] (kind : Bytes)
    (decode : Bytes → Value → Except Bytes (Option (κ × β))) (db : Store) (P : ι → β → Prop)
    (key : ι → Bytes) (rowKey : ι → κ) (hinj : Function.Injective rowKey)
    (hcases : ∀ row ∈ db.entries, (∃ i b, P i b ∧ row.1 = key i ∧
      decode row.1 row.2 = .ok (some (rowKey i, b))) ∨ decode row.1 row.2 = .ok none)
    (hall : ∀ i b, P i b → ∃ v, db.get? (key i) = some v ∧
      decode (key i) v = .ok (some (rowKey i, b))) :
    ∃ table, copyFrom kind decode db = .ok table ∧
      ∀ k b, table.get? k = some b ↔ ∃ i, P i b ∧ k = rowKey i := by
  have hsome : ∀ row ∈ db.entries, ∀ x, decode row.1 row.2 = .ok (some x) →
      ∃ i, P i x.2 ∧ row.1 = key i ∧ x.1 = rowKey i := by
    intro row hrow x hx
    rcases hcases row hrow with ⟨i, b, hP, hkey, hd⟩ | hd
    · rw [hd] at hx
      cases hx
      exact ⟨i, hP, hkey, rfl⟩
    · rw [hd] at hx
      cases hx
  obtain ⟨table, hcopy, hget⟩ := copyFrom_ok kind decode db
    (by
      intro row hrow
      rcases hcases row hrow with ⟨i, b, -, -, hd⟩ | hd
      · exact ⟨_, hd⟩
      · exact ⟨_, hd⟩)
    (by
      intro a ha b hb x y hx hy hxy
      obtain ⟨i, -, hka, hi⟩ := hsome a ha x hx
      obtain ⟨i', -, hkb, hi'⟩ := hsome b hb y hy
      rw [hka, hkb, hinj (hi.symm.trans (hxy.trans hi'))])
  refine ⟨table, hcopy, fun k b => (hget k b).trans ⟨?_, ?_⟩⟩
  · rintro ⟨row, hrow, hdec⟩
    obtain ⟨i, hP, -, hi⟩ := hsome row hrow _ hdec
    exact ⟨i, hP, hi⟩
  · rintro ⟨i, hP, rfl⟩
    obtain ⟨v, hv, hdec⟩ := hall i b hP
    exact ⟨(key i, v), mem_entries.mpr hv, hdec⟩

section Import

variable {s : Executor} (h : Written s)

include h

/-- The pass over the events succeeds and copies each of them once. -/
lemma Written.copyEvents : ∃ table, copyFrom (bs "events") decodeEvent s.db = .ok table ∧
    ∀ key row, table.get? key = some row ↔ ∃ i : Bytes × Int64, ((Key.event i.1 i.2).WF ∧
      ∃ e, eventAt s.db i.1 i.2 = some e ∧ row = ⟨e.value, encodeTags e.tags⟩) ∧
        key = eventRowKey i.1 i.2 := by
  refine copyFrom_items (bs "events") decodeEvent s.db
    (fun (i : Bytes × Int64) row => (Key.event i.1 i.2).WF ∧
      ∃ e, eventAt s.db i.1 i.2 = some e ∧ row = ⟨e.value, encodeTags e.tags⟩)
    (fun i => (Key.event i.1 i.2).encode) (fun i => eventRowKey i.1 i.2) ?_ ?_ ?_
  · intro i j hij
    obtain ⟨hm, ht⟩ := eventRowKey_inj hij
    exact Prod.ext hm ht
  · intro row hrow
    rcases (h.storedRow (mem_entries.mp hrow)).decodeEvent_cases with
      ⟨m, t, e, hw, hk, hat, hd⟩ | hd
    · exact Or.inl ⟨(m, t), _, ⟨hw, e, hat, rfl⟩, hk, hd⟩
    · exact Or.inr hd
  · rintro ⟨m, t⟩ row ⟨hw, e, hat, rfl⟩
    obtain ⟨v, hv, hdec⟩ := Option.bind_eq_some_iff.mp hat
    obtain ⟨hs, -⟩ := h.reachable.inv
    obtain ⟨e', he', ht⟩ := hs.events m t v hw hv
    rw [he'] at hdec
    cases hdec
    exact ⟨v, hv, decodeEvent_event hw he' ht (h.reachable.finiteEvents m t e hw hat)⟩

lemma Written.copyScores : ∃ table, copyFrom (bs "scores") decodeScore s.db = .ok table ∧
    ∀ key score, table.get? key = some score ↔ ∃ i : Bytes × Bytes × Bytes, (unitSep ∉ i.1 ∧
      scoreAt s.db i.1 i.2.1 i.2.2 = some score) ∧ key = scoreKey i.1 i.2.1 i.2.2 := by
  refine copyFrom_items (bs "scores") decodeScore s.db
    (fun (i : Bytes × Bytes × Bytes) score => unitSep ∉ i.1 ∧
      scoreAt s.db i.1 i.2.1 i.2.2 = some score)
    (fun i => (Key.entity i.1 i.2.1 i.2.2).encode) (fun i => scoreKey i.1 i.2.1 i.2.2) ?_ ?_ ?_
  · intro i j hij
    obtain ⟨hm, hb, he⟩ := scoreKey_inj hij
    exact Prod.ext hm (Prod.ext hb he)
  · intro row hrow
    rcases (h.storedRow (mem_entries.mp hrow)).decodeScore_cases with
      ⟨m, b, e, score, hm, hk, hat, hd⟩ | hd
    · exact Or.inl ⟨(m, b, e), score, ⟨hm, hat⟩, hk, hd⟩
    · exact Or.inr hd
  · rintro ⟨m, b, e⟩ score ⟨hm, hat⟩
    obtain ⟨hentity, -, hfin⟩ := h.score_rows hm hat
    exact ⟨_, hentity, decodeScore_entity hm b e hfin⟩

lemma Written.copyTags : ∃ table, copyFrom (bs "tags") decodeTag s.db = .ok table := by
  obtain ⟨table, hcopy, -⟩ := copyFrom_items (bs "tags") decodeTag s.db
    (fun (i : Bytes × Bytes × Bytes) _ => ∃ v, s.db.get? (Key.card i.1 i.2.1 i.2.2).encode = some v)
    (fun i => (Key.card i.1 i.2.1 i.2.2).encode) (fun i => tagRowKey i.1 i.2.1 i.2.2)
    (by
      intro i j hij
      obtain ⟨hm, hk, hv⟩ := tagRowKey_inj hij
      exact Prod.ext hm (Prod.ext hk hv))
    (by
      intro row hrow
      rcases (h.storedRow (mem_entries.mp hrow)).decodeTag_cases with ⟨m, tag, value, hk, hd⟩ | hd
      · exact Or.inl ⟨(m, tag, value), (), ⟨row.2, hk ▸ mem_entries.mp hrow⟩, hk, hd⟩
      · exact Or.inr hd)
    (by
      rintro ⟨m, tag, value⟩ ⟨⟩ ⟨v, hv⟩
      exact ⟨v, hv, decodeTag_card m tag value v⟩)
  exact ⟨table, hcopy⟩

/-- The rows of the last pass: every score again, under the valid UTF-8 image of its entity. -/
lemma Written.legacyRows : ∃ rows, decodeRows decodeBoardRow s.db.entries = .ok rows ∧
    (∀ x ∈ rows, ∃ m b e score, unitSep ∉ m ∧ scoreAt s.db m b e = some score ∧
      x = (scoreKey m b (toValidUtf8 e), score)) ∧
    ∀ m b e, unitSep ∉ m → (scoreAt s.db m b e).isSome →
      ∃ score, (scoreKey m b (toValidUtf8 e), score) ∈ rows := by
  have hcases := fun (row : Bytes × Value) (hrow : row ∈ s.db.entries) =>
    (h.storedRow (mem_entries.mp hrow)).decodeBoardRow_cases
  obtain ⟨rows, hrows, hfilter⟩ := decodeRows_ok decodeBoardRow (l := s.db.entries)
    (by
      intro row hrow
      rcases hcases row hrow with ⟨m, b, e, score, -, -, hd⟩ | hd
      · exact ⟨_, hd⟩
      · exact ⟨_, hd⟩)
  refine ⟨rows, hrows, ?_, ?_⟩
  · intro x hx
    rw [hfilter, List.mem_filterMap] at hx
    obtain ⟨row, hrow, hdec⟩ := hx
    rcases hcases row hrow with ⟨m, b, e, score, hm, hat, hd⟩ | hd
    · rw [hd] at hdec
      exact ⟨m, b, e, score, hm, hat, (Option.some.inj hdec).symm⟩
    · rw [hd] at hdec
      cases hdec
  · intro m b e hm hsome
    obtain ⟨score, hat⟩ := Option.isSome_iff_exists.mp hsome
    obtain ⟨-, hrank, hfin⟩ := h.score_rows hm hat
    refine ⟨score, ?_⟩
    rw [hfilter, List.mem_filterMap]
    have hdec := decodeBoardRow_rank hm b e score ⟨toValidUtf8 e, score⟩ hfin
    refine ⟨((Key.rank m b e score).encode, .entryDoc ⟨toValidUtf8 e, score⟩),
      mem_entries.mpr hrank, ?_⟩
    simp only [hdec]
    rfl

lemma Written.not_pending : pendingReplication s.db = false := by
  rw [pendingReplication, List.any_eq_false]
  intro row hrow
  rw [(h.storedRow (mem_entries.mp hrow)).not_pending]
  simp

/-- **The import of a written store.** -/
lemma Written.importSnapshot_eq : ∃ t, importSnapshot s.db {} = .ok t ∧ EventsExact s.db t ∧
    (ScoresExact s.db t ↔ Utf8Closed s.db) := by
  obtain ⟨events, hevents, hevent⟩ := h.copyEvents
  obtain ⟨scores, hscores, hscore⟩ := h.copyScores
  obtain ⟨tags, htags⟩ := h.copyTags
  obtain ⟨legacy, hlegacy, hof, hall⟩ := h.legacyRows
  obtain ⟨t, ht, htevents, htscores⟩ : ∃ t, importSnapshot s.db {} = .ok t ∧ t.events = events ∧
      t.scores = scores.insertMissing legacy := by
    rw [importSnapshot, if_neg (by rw [h.not_pending]; simp), if_neg (by simp)]
    simp only [hevents, hscores, htags, hlegacy, bind, Except.bind, pure, Except.pure]
    exact ⟨_, rfl, rfl, rfl⟩
  refine ⟨t, ht, ?_, ?_, ?_⟩
  · intro key row
    rw [htevents, hevent]
    constructor
    · rintro ⟨⟨m, ts⟩, ⟨hw, e, hat, rfl⟩, rfl⟩
      exact ⟨m, ts, e, hw, hat, rfl, rfl⟩
    · rintro ⟨m, ts, e, hw, hat, rfl, rfl⟩
      exact ⟨(m, ts), ⟨hw, e, hat, rfl⟩, rfl⟩
  · -- an image without a score of its own would be an extra row
    intro hsame m b e hm hsome
    obtain ⟨score, hmem⟩ := hall m b e hm hsome
    have hfound : (t.scores.get? (scoreKey m b (toValidUtf8 e))).isSome := by
      rw [htscores, OrdMap.get?_insertMissing, Option.isSome_or, Bool.or_eq_true]
      right
      rw [Option.isSome_map, List.find?_isSome]
      exact ⟨_, hmem, by simp⟩
    obtain ⟨score', hget⟩ := Option.isSome_iff_exists.mp hfound
    obtain ⟨m', b', e', hm', hat, heq⟩ := (hsame _ _).mp hget
    obtain ⟨rfl, rfl, rfl⟩ := scoreKey_inj heq
    rw [hat]
    rfl
  · -- otherwise the last pass finds every score in its place
    intro hclosed key score
    have hget : t.scores.get? key = scores.get? key := by
      rw [htscores, OrdMap.get?_insertMissing]
      cases hkey : scores.get? key with
      | some score' => rfl
      | none =>
          rw [Option.none_or, Option.map_eq_none_iff, List.find?_eq_none]
          intro x hx heq
          obtain ⟨m, b, e, score', hm, hat, rfl⟩ := hof x hx
          obtain ⟨score'', hat'⟩ := Option.isSome_iff_exists.mp
            (hclosed m b e hm (by rw [hat]; rfl))
          have hpresent := (hscore _ _).mpr ⟨(m, b, toValidUtf8 e), ⟨hm, hat'⟩, rfl⟩
          have hkeys : scoreKey m b (toValidUtf8 e) = key := by simpa using heq
          rw [hkeys, hkey] at hpresent
          cases hpresent
    rw [hget, hscore]
    constructor
    · rintro ⟨⟨m, b, e⟩, ⟨hm, hat⟩, rfl⟩
      exact ⟨m, b, e, hm, hat, rfl⟩
    · rintro ⟨m, b, e, hm, hat, rfl⟩
      exact ⟨(m, b, e), ⟨hm, hat⟩, rfl⟩

end Import

/-! ## Rows that cannot be read

A single undecodable row stops the whole import. -/

/-- A row of one of the four kinds that does not read as one. -/
inductive Undecodable : Bytes → Value → Prop where
  | event {name rest : Bytes} {v : Value} (hname : colon ∉ name) (hmetric : name ∉ reservedNames)
      (hlen : rest.length = 8)
      (hbad : ∀ e, decodeEventValue v (decodeComponent name) = .ok e →
        e.timestamp ≠ (UInt64.ofNat (beNat rest)).toInt64 ∨ e.value.isFinite = false) :
      Undecodable (name ++ colon :: rest) v
  | score {rest : Bytes} {v : Value}
      (hbad : cut colon rest = none ∨ ∀ s, decodeFloat64 v = some s → s.isFinite = false) :
      Undecodable (bs "lb-entity" ++ colon :: rest) v
  | tag {rest : Bytes} {v : Value}
      (hbad : ∀ metric rest', cut colon rest = some (metric, rest') → cut colon rest' = none) :
      Undecodable (bs "card" ++ colon :: rest) v
  | board {rest : Bytes} {v : Value}
      (hbad : cut colon rest = none ∨
        ∀ entry, unmarshalEntry v = .ok entry → entry.value.isFinite = false) :
      Undecodable (bs "lb" ++ colon :: rest) v

/-- A key of none of the shapes: no delimiter, or neither a reserved name in front of it nor the
eight bytes of a timestamp behind it. -/
def Unknown (k : Bytes) : Prop :=
  ∀ name rest, cut colon k = some (name, rest) → name ∉ reservedNames ∧ rest.length ≠ 8

lemma copyFrom_error {κ β : Type} [LinearOrder κ] (kind : Bytes)
    {decode : Bytes → Value → Except Bytes (Option (κ × β))} {db : Store} {k : Bytes} {v : Value}
    (hv : db.get? k = some v) (h : ∃ err, decode k v = .error err) :
    ∃ err, copyFrom kind decode db = .error err := by
  obtain ⟨err, herr⟩ := h
  have hmem : (k, v) ∈ db.entries := mem_entries.mpr hv
  obtain ⟨err', hrows⟩ := decodeRows_error hmem herr
  exact ⟨_, by rw [copyFrom, hrows]⟩

lemma decodeEvent_error {name rest : Bytes} {v : Value} (hname : colon ∉ name)
    (hmetric : name ∉ reservedNames) (hlen : rest.length = 8)
    (hbad : ∀ e, decodeEventValue v (decodeComponent name) = .ok e →
      e.timestamp ≠ (UInt64.ofNat (beNat rest)).toInt64 ∨ e.value.isFinite = false) :
    ∃ err, decodeEvent (name ++ colon :: rest) v = .error err := by
  rw [decodeEvent, cut_append hname]
  simp only
  rw [if_neg (by simp [hmetric, hlen])]
  cases hdec : decodeEventValue v (decodeComponent name) with
  | error err => exact ⟨err, rfl⟩
  | ok e =>
      simp only
      rcases hbad e hdec with hts | hfin
      · exact ⟨_, if_pos hts⟩
      · split_ifs with h₁ h₂
        · exact ⟨_, rfl⟩
        · exact ⟨_, rfl⟩
        · simp [hfin] at h₂

lemma decodeScore_error {rest : Bytes} {v : Value}
    (hbad : cut colon rest = none ∨ ∀ s, decodeFloat64 v = some s → s.isFinite = false) :
    ∃ err, decodeScore (bs "lb-entity" ++ colon :: rest) v = .error err := by
  rw [decodeScore, after_append (by decide), if_pos rfl]
  simp only
  cases hcut : cut colon rest with
  | none => exact ⟨_, rfl⟩
  | some p =>
      cases hval : decodeFloat64 v with
      | none => exact ⟨_, rfl⟩
      | some s =>
          rcases hbad with hnone | hfin
          · rw [hcut] at hnone
            cases hnone
          · simp only [hfin s hval, Bool.false_eq_true, if_false]
            exact ⟨_, rfl⟩

lemma decodeTag_error {rest : Bytes} {v : Value}
    (hbad : ∀ metric rest', cut colon rest = some (metric, rest') → cut colon rest' = none) :
    ∃ err, decodeTag (bs "card" ++ colon :: rest) v = .error err := by
  rw [decodeTag, after_append (by decide), if_pos rfl]
  simp only
  cases hcut : cut colon rest with
  | none => exact ⟨_, rfl⟩
  | some p =>
      simp only [hbad p.1 p.2 hcut]
      exact ⟨_, rfl⟩

lemma decodeBoardRow_error {rest : Bytes} {v : Value}
    (hbad : cut colon rest = none ∨
      ∀ entry, unmarshalEntry v = .ok entry → entry.value.isFinite = false) :
    ∃ err, decodeBoardRow (bs "lb" ++ colon :: rest) v = .error err := by
  rw [decodeBoardRow, after_append (by decide), if_pos rfl]
  simp only
  cases hcut : cut colon rest with
  | none => exact ⟨_, rfl⟩
  | some p =>
      simp only
      cases hval : unmarshalEntry v with
      | error err => exact ⟨err, rfl⟩
      | ok entry =>
          rcases hbad with hnone | hfin
          · rw [hcut] at hnone
            cases hnone
          · simp only [hfin entry hval, Bool.false_eq_true, if_false]
            exact ⟨_, rfl⟩

/-- **A row that cannot be read stops the import.** -/
lemma importSnapshot_error {db : Store} {k : Bytes} {v : Value} (hv : db.get? k = some v)
    (hbad : Undecodable k v) (destination : Tables) :
    ∃ err, importSnapshot db destination = .error err := by
  rw [importSnapshot]
  split_ifs
  · exact ⟨_, rfl⟩
  · exact ⟨_, rfl⟩
  cases hevents : copyFrom (bs "events") decodeEvent db with
  | error err => exact ⟨err, rfl⟩
  | ok events =>
  cases hscores : copyFrom (bs "scores") decodeScore db with
  | error err => exact ⟨err, rfl⟩
  | ok scores =>
  cases htags : copyFrom (bs "tags") decodeTag db with
  | error err => exact ⟨err, rfl⟩
  | ok tags =>
  cases hlegacy : decodeRows decodeBoardRow db.entries with
  | error err => exact ⟨err, rfl⟩
  | ok legacy =>
      -- all passes have succeeded, against the one that reads this row
      exfalso
      cases hbad with
      | event hname hmetric hlen hrow =>
          obtain ⟨err, herr⟩ := copyFrom_error (bs "events") hv
            (decodeEvent_error hname hmetric hlen hrow)
          rw [hevents] at herr
          cases herr
      | score hrow =>
          obtain ⟨err, herr⟩ := copyFrom_error (bs "scores") hv (decodeScore_error hrow)
          rw [hscores] at herr
          cases herr
      | tag hrow =>
          obtain ⟨err, herr⟩ := copyFrom_error (bs "tags") hv (decodeTag_error hrow)
          rw [htags] at herr
          cases herr
      | board hrow =>
          obtain ⟨err, herr⟩ := decodeBoardRow_error hrow
          have hmem : (_, v) ∈ db.entries := mem_entries.mpr hv
          obtain ⟨err', hrows⟩ := decodeRows_error hmem herr
          rw [hlegacy] at hrows
          cases hrows

/-- **A key of no known shape is passed over in silence.** -/
lemma importSnapshot_unknown {k : Bytes} (hk : Unknown k) (db : Store) (v : Value)
    (destination : Tables) :
    importSnapshot (db.set k v) destination = importSnapshot (db.erase k) destination := by
  have hafter : ∀ name ∈ reservedNames, after name k = none := by
    intro name hname
    rw [after]
    cases hcut : cut colon k with
    | none => rfl
    | some p =>
        simp only
        rw [if_neg]
        rintro rfl
        exact (hk p.1 p.2 hcut).1 hname
  have hevent : decodeEvent k v = .ok none := by
    rw [decodeEvent]
    cases hcut : cut colon k with
    | none => rfl
    | some p =>
        simp only
        rw [if_pos (Or.inl (hk p.1 p.2 hcut).2)]
  have hscore : decodeScore k v = .ok none := by rw [decodeScore, hafter _ (by decide)]
  have htag : decodeTag k v = .ok none := by rw [decodeTag, hafter _ (by decide)]
  have hboard : decodeBoardRow k v = .ok none := by rw [decodeBoardRow, hafter _ (by decide)]
  have hpending : pendingReplication (db.set k v) = pendingReplication (db.erase k) := by
    rw [pendingReplication, pendingReplication, OrdMap.entries_set, OrdMap.entries_erase,
      List.any_append,
      List.any_append, List.any_cons, hafter _ (by decide)]
    simp
  simp only [importSnapshot, copyFrom, hpending, OrdMap.entries_set, OrdMap.entries_erase,
    decodeRows_skip _ (k, v) hevent, decodeRows_skip _ (k, v) hscore,
    decodeRows_skip _ (k, v) htag, decodeRows_skip _ (k, v) hboard]

/-! ## The result -/

/-- **When the import is lossless.**  From a written store it takes over all events, and the scores
exactly when the valid UTF-8 images of entities are entities; a row of one of the four kinds that
cannot be read stops it, and a key of any other shape is passed over. -/
theorem importSnapshot_lossless_iff (s : Executor) (h : Written s) :
    (∃ t, importSnapshot s.db {} = .ok t ∧ EventsExact s.db t ∧
      (ScoresExact s.db t ↔ Utf8Closed s.db)) ∧
    (∀ db k v destination, OrdMap.get? db k = some v → Undecodable k v →
      ∃ err, importSnapshot db destination = .error err) ∧
    ∀ db k v destination, Unknown k →
      importSnapshot (OrdMap.set db k v) destination = importSnapshot
        (OrdMap.erase db k) destination :=
  ⟨h.importSnapshot_eq, fun _ _ _ destination hv hbad => importSnapshot_error hv hbad destination,
    fun db _ v destination hk => importSnapshot_unknown hk db v destination⟩

lemma written_runLines (lines : List Bytes) : Written (runLines lines) :=
  runLines_induction (.empty 0) lines fun line _ _ hparse hmut _ hs =>
    .mutate hs (Parsed.admitted ⟨0, line, hparse⟩) hmut 0

/-- The score of an entity that is not valid UTF-8 is imported twice, the second time for an entity
the source does not have. -/
theorem importSnapshot_extra_entity :
    ∃ s, Written s ∧ ∃ t, importSnapshot s.db {} = .ok t ∧
      scoreAt s.db (bs "m") [] [0xFF] = some (Float64.ofBits 0x3FF0000000000000) ∧
      scoreAt s.db (bs "m") [] [0xEF, 0xBF, 0xBD] = none ∧
      t.scores.get? (scoreKey (bs "m") [] [0xFF]) = some (Float64.ofBits 0x3FF0000000000000) ∧
      t.scores.get? (scoreKey (bs "m") [] [0xEF, 0xBF, 0xBD]) =
        some (Float64.ofBits 0x3FF0000000000000) := by
  have h := written_runLines [bs "WRITE m 1 lb=\"\\xff\" ts=1"]
  obtain ⟨t, ht, -⟩ := h.importSnapshot_eq
  have hscores : (importSnapshot (runLines [bs "WRITE m 1 lb=\"\\xff\" ts=1"]).db {}).map
      (fun t => (t.scores.get? (scoreKey (bs "m") [] [0xFF]),
        t.scores.get? (scoreKey (bs "m") [] [0xEF, 0xBF, 0xBD]))) =
      .ok (some (Float64.ofBits 0x3FF0000000000000), some (Float64.ofBits 0x3FF0000000000000)) := by
    decide +kernel
  rw [ht] at hscores
  obtain ⟨hbad, hvalid⟩ := Prod.mk.inj (Except.ok.inj hscores)
  exact ⟨_, h, t, ht, by decide +kernel, by decide +kernel, hbad, hvalid⟩

/-- A run on valid ids leaves a store without other ids. -/
lemma utf8Closed_of_tracked {s : Executor} {a : BoardMap} (h : Tracked s a) : Utf8Closed s.db := by
  have hrep := h.represents
  intro m b e hm hsome
  obtain ⟨x, hx⟩ := Option.isSome_iff_exists.mp hsome
  rw [scoreAt_eq hrep.scores hm] at hx
  rw [(hrep.valid m b e x hx).toValid]
  exact hsome

/-- Three events of two metrics, with two players and a team on a board of its own. -/
def boardLines : List Bytes :=
  [bs "WRITE m 1 lb=a lb.team=red k=v ts=1", bs "WRITE m 2 lb=b lb.team=red ts=2",
    bs "WRITE n 3 lb=a ts=1"]

/-- The snapshot of a run with writes on two boards of one metric is imported as it is. -/
theorem importSnapshot_lossless_iff_two_boards :
    ∃ t, importSnapshot (runLines boardLines).db {} = .ok t ∧
      EventsExact (runLines boardLines).db t ∧ ScoresExact (runLines boardLines).db t ∧
      t.scores.get? (scoreKey (bs "m") (bs "team") (bs "red")) =
        some (Float64.ofBits 0x4008000000000000) := by
  obtain ⟨⟨t, ht, hevents, hscores⟩, -⟩ :=
    importSnapshot_lossless_iff _ (written_runLines boardLines)
  have hexact := hscores.mpr (utf8Closed_of_tracked (tracked_runLines boardLines
    (by decide +kernel)))
  exact ⟨t, ht, hevents, hexact,
    (hexact _ _).mpr ⟨bs "m", bs "team", bs "red", by decide, by decide +kernel, rfl⟩⟩

end FlameDB.Analytics
