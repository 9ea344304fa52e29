import FlameDB.Analytics.Boards
import FlameDB.KV.Table

/-!
# The tables of the shared backend

Every table has the identity its unique indexes and triggers give it: one row for a metric, for a
metric and time, for a metric, board and entity, for a metric, tag and value.  Names are stored in
the form `encodeString` gives them.

* **`text_faithful`** — names and tags survive the text of the database.
-/

namespace FlameDB.Analytics

open Go KV

/-- `EncodeTags`. -/
def encodeTags (tags : Tags) : Tags :=
  OrdMap.ofList (tags.entries.map fun kv => (encodeString kv.1, encodeString kv.2))

/-- `decodeTags`. -/
def decodeTags (tags : Tags) : Except Bytes Tags :=
  tags.entries.foldlM (fun out kv => do
    let key ← decodeString kv.1
    let value ← decodeString kv.2
    return out.set key value) ∅

/-! ## Names in the text of the database

PostgreSQL refuses some byte strings. Encoded names are all accepted and stay distinct. -/

/-- The encoded tags, each under a key of its own. -/
lemma pairwise_encoded {l : List (Bytes × Bytes)} (h : l.Pairwise fun a b => a.1 ≠ b.1) :
    (l.map fun kv => (encodeString kv.1, encodeString kv.2)).Pairwise fun a b => a.1 ≠ b.1 :=
  List.pairwise_map.mpr (h.imp fun hne heq => hne (encodeString_injective heq))

/-- Every key of the encoded tags is one of them. -/
lemma mem_encodeTags {tags : Tags} {kv : Bytes × Bytes} :
    kv ∈ (encodeTags tags).entries ↔ ∃ t ∈ tags.entries,
      (encodeString t.1, encodeString t.2) = kv := by
  rw [OrdMap.mem_entries_iff, encodeTags, OrdMap.get?_ofList_eq_some_iff
    (pairwise_encoded tags.keys_ne),
    List.mem_map]

/-- **Every tag keeps a key of its own.** -/
theorem get?_encodeTags (tags : Tags) (k : Bytes) :
    (encodeTags tags).get? (encodeString k) = (tags.get? k).map encodeString := by
  refine Option.ext fun w => ?_
  rw [← OrdMap.mem_entries_iff, mem_encodeTags, Option.map_eq_some_iff]
  constructor
  · rintro ⟨⟨k', v⟩, ht, heq⟩
    obtain ⟨hk, hv⟩ := Prod.mk.inj heq
    obtain rfl : k' = k := encodeString_injective hk
    exact ⟨v, (tags.mem_entries_iff k' v).mp ht, hv⟩
  · rintro ⟨v, hv, rfl⟩
    exact ⟨(k, v), (tags.mem_entries_iff k v).mpr hv, rfl⟩

/-- The order in which the tags are visited does not matter. -/
lemma encodeTags_perm {tags : Tags} {l : List (Bytes × Bytes)} (h : l.Perm tags.entries) :
    OrdMap.ofList (l.map fun kv => (encodeString kv.1, encodeString kv.2)) = encodeTags tags :=
  OrdMap.ofList_congr (pairwise_encoded tags.keys_ne) (h.map _)

lemma encodeTags_entries_perm (tags : Tags) : (encodeTags tags).entries.Perm
    (tags.entries.map fun kv => (encodeString kv.1, encodeString kv.2)) := by
  have hnd : ∀ {l : List (Bytes × Bytes)}, (l.Pairwise fun a b => a.1 ≠ b.1) → l.Nodup := fun h =>
    h.imp fun hne heq => hne (congrArg Prod.fst heq)
  refine (List.perm_ext_iff_of_nodup (hnd (encodeTags tags).keys_ne)
    (hnd (pairwise_encoded tags.keys_ne))).mpr fun kv => ?_
  rw [mem_encodeTags, List.mem_map]

/-- The loop of `decodeTags` over encoded tags. -/
lemma decodeTags_loop (l : List (Bytes × Bytes)) (out : Tags) :
    (l.map fun kv => (encodeString kv.1, encodeString kv.2)).foldlM (fun (out : Tags) kv => do
      let key ← decodeString kv.1
      let value ← decodeString kv.2
      return out.set key value) out = .ok (l.foldl (fun m e => m.set e.1 e.2) out) := by
  induction l generalizing out with
  | nil => rfl
  | cons kv l ih =>
      rw [List.map_cons, List.foldlM_cons, decodeString_encodeString, decodeString_encodeString]
      exact ih _

/-- **Encoded tags read back as the tags.** -/
theorem decodeTags_encodeTags (tags : Tags) : decodeTags (encodeTags tags) = .ok tags := by
  -- the entries of the encoded tags are the encodings of the tags, in some order
  have hperm := encodeTags_entries_perm tags
  obtain ⟨l, hl, hmap⟩ : ∃ l : List (Bytes × Bytes), l.Perm tags.entries ∧
      (encodeTags tags).entries = l.map fun kv => (encodeString kv.1, encodeString kv.2) := by
    refine ⟨(encodeTags tags).entries.map fun kv => (flameEntityBytes kv.1, flameEntityBytes kv.2),
      ?_, ?_⟩
    · refine (hperm.map _).trans (List.Perm.of_eq ?_)
      rw [List.map_map]
      conv_rhs => rw [← List.map_id tags.entries]
      refine List.map_congr_left fun kv _ => ?_
      simp
    · rw [List.map_map]
      conv_lhs => rw [← List.map_id (encodeTags tags).entries]
      refine List.map_congr_left fun kv hkv => ?_
      obtain ⟨t, -, rfl⟩ := mem_encodeTags.mp hkv
      simp
  rw [decodeTags, hmap, decodeTags_loop]
  exact congrArg Except.ok (OrdMap.ofList_perm hl)

/-- What the text of the database has to be for names and tags. -/
structure TextFaithful : Prop where
  decode : ∀ a, decodeString (encodeString a) = .ok a
  injective : ∀ a b, encodeString a = encodeString b ↔ a = b
  valid : ∀ a, ValidUtf8 (encodeString a)
  noNul : ∀ a, 0 ∉ encodeString a
  bytes : ∀ a, flameEntityBytes (encodeString a) = a
  order : ∀ a b, flameEntityBytes (encodeString a) < flameEntityBytes (encodeString b) ↔ a < b
  /-- the tags may be visited in any order -/
  visited : ∀ (tags : Tags) (l : List (Bytes × Bytes)), l.Perm tags.entries →
    OrdMap.ofList (l.map fun kv => (encodeString kv.1, encodeString kv.2)) = encodeTags tags
  tag : ∀ tags k, (encodeTags tags).get? (encodeString k) = (tags.get? k).map encodeString
  tagCount : ∀ tags, (encodeTags tags).entries.length = tags.entries.length
  decodeTags : ∀ tags, decodeTags (encodeTags tags) = .ok tags

/-- **Names and tags survive the text of the database.** -/
theorem text_faithful : TextFaithful where
  decode := decodeString_encodeString
  injective _ _ := encodeString_injective.eq_iff
  valid a := (encodeString_text a).1
  noNul a := (encodeString_text a).2
  bytes := flameEntityBytes_encodeString
  order a b := by rw [flameEntityBytes_encodeString, flameEntityBytes_encodeString]
  visited _ _ := encodeTags_perm
  tag := get?_encodeTags
  tagCount tags := by rw [(encodeTags_entries_perm tags).length_eq, List.length_map]
  decodeTags := decodeTags_encodeTags

/-- The value and tags of a row of `flame_events`. -/
structure EventRow where
  value : Float64
  tags : Tags
  deriving DecidableEq

/-- `tags @> filters`, for objects of strings. -/
def containsTags (tags filters : Tags) : Bool :=
  filters.entries.all fun kv => tags.get? kv.1 = some kv.2

/-- The identity of a row of `flame_events`. -/
def eventRowKey (metric : Bytes) (timestamp : Int64) : Bytes ×ₗ ℤ :=
  toLex (encodeString metric, timestamp.toInt)

/-- The identity of a row of `flame_tag_values`. -/
def tagRowKey (metric tag value : Bytes) : Bytes ×ₗ Bytes ×ₗ Bytes :=
  toLex (encodeString metric, toLex (encodeString tag, encodeString value))

/-- The PostgreSQL tables of the shared backend. -/
structure Tables where
  /-- the ranking version of a metric -/
  metrics : OrdMap Bytes ℤ := ∅
  events : OrdMap (Bytes ×ₗ ℤ) EventRow := ∅
  scores : ScoreTable := ∅
  tagValues : OrdMap (Bytes ×ₗ Bytes ×ₗ Bytes) Unit := ∅
  receipts : OrdMap Bytes Unit := ∅
  /-- the last time given to a write without one -/
  metricClock : OrdMap Bytes ℤ := ∅
  deriving DecidableEq

lemma eventRowKey_inj {m m' : Bytes} {t t' : Int64} (h : eventRowKey m t = eventRowKey m' t') :
    m = m' ∧ t = t' := by
  obtain ⟨hm, ht⟩ := Prod.mk.inj (toLex.injective h)
  exact ⟨encodeString_injective hm, Int64.toInt_inj.mp ht⟩

lemma tagRowKey_inj {m m' k k' v v' : Bytes} (h : tagRowKey m k v = tagRowKey m' k' v') :
    m = m' ∧ k = k' ∧ v = v' := by
  obtain ⟨hm, hrest⟩ := Prod.mk.inj (toLex.injective h)
  obtain ⟨hk, hv⟩ := Prod.mk.inj (toLex.injective hrest)
  exact ⟨encodeString_injective hm, encodeString_injective hk, encodeString_injective hv⟩

lemma scoreKey_inj {m m' b b' e e' : Bytes} (h : scoreKey m b e = scoreKey m' b' e') :
    m = m' ∧ b = b' ∧ e = e' := tagRowKey_inj h

end FlameDB.Analytics
