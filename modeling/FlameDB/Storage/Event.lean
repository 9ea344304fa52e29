import FlameDB.Go.Utf8
import FlameDB.KV.OrdMap
import FlameDB.Keyspace

/-!
# Events and their stored form

An event is stored in a compact binary form, or as a JSON document when a tag or the number of
tags exceeds 16 bits.  Binary values are the bytes the source writes.  JSON documents are kept as
documents: `json.Marshal` followed by `json.Unmarshal` returns the record with every string made
valid UTF-8, and that is what a document holds.

* `encodeEventValue`, `decodeEventValue` — the codec.
* **`decodeEventValue_binary`** — an event within the binary limits is read back unchanged.
* **`decode_encode`** — what any stored event reads back as: itself, or its valid-UTF-8 image.
-/

namespace FlameDB

open Go KV

/-- A Go `map[string]string`. -/
abbrev Tags := OrdMap Bytes Bytes

/-- A stored event. -/
structure Event where
  timestamp : Int64
  metric : Bytes
  value : Float64
  tags : Tags
  deriving DecidableEq

/-- An entity with its score. -/
structure LeaderboardEntry where
  entityID : Bytes
  value : Float64
  deriving DecidableEq

/-- A stored value: raw bytes, or the JSON document of one of the two stored records. -/
inductive Value where
  | bytes (b : Bytes)
  | eventDoc (e : Event)
  | entryDoc (e : LeaderboardEntry)
  deriving DecidableEq

/-- The contents of the database. -/
abbrev Store := OrdMap Bytes Value

/-! ## JSON documents

JSON replaces invalid UTF-8, so the document of an event can differ from the event. -/

/-- A string map after a round trip through JSON; keys that collide keep the last value. -/
def jsonTags (tags : Tags) : Tags :=
  OrdMap.ofList (tags.entries.map fun kv => (toValidUtf8 kv.1, toValidUtf8 kv.2))

/-- The text `encoding/json` prints for a value it cannot encode. -/
def unsupportedValue (v : Float64) : Bytes :=
  bs "json: unsupported value: " ++
    (if v.isNaN then bs "NaN" else if v.negative then bs "-Inf" else bs "+Inf")

/-- The JSON form; it has no text for infinities and NaN. -/
def marshalEvent (e : Event) : Except Bytes Value :=
  if e.value.isFinite then
    .ok (.eventDoc ⟨e.timestamp, toValidUtf8 e.metric, e.value, jsonTags e.tags⟩)
  else .error (bs "json: error calling MarshalJSON for type storage.Event: " ++
    unsupportedValue e.value)

def marshalEntry (e : LeaderboardEntry) : Except Bytes Value :=
  if e.value.isFinite then .ok (.entryDoc ⟨toValidUtf8 e.entityID, e.value⟩)
  else .error (unsupportedValue e.value)

/-- `json.Unmarshal` into an `Event`: field names match without regard to case. -/
def unmarshalEvent : Value → Except Bytes Event
  | .eventDoc e => .ok e
  | .entryDoc e => .ok ⟨0, [], e.value, ∅⟩
  | .bytes _ => .error (bs "invalid JSON")

/-- `json.Unmarshal` into a `LeaderboardEntry`. -/
def unmarshalEntry : Value → Except Bytes LeaderboardEntry
  | .entryDoc e => .ok e
  | .eventDoc e => .ok ⟨[], e.value⟩
  | .bytes _ => .error (bs "invalid JSON")

/-! ## The binary form -/

def eventBinaryVersion : UInt8 := 1

def maxUint16 : ℕ := 65535

/-- The limits above which `encodeEventValue` falls back to JSON. -/
def Event.FitsBinary (e : Event) : Prop :=
  e.tags.entries.length ≤ maxUint16 ∧
    ∀ kv ∈ e.tags.entries, kv.1.length ≤ maxUint16 ∧ kv.2.length ≤ maxUint16

instance (e : Event) : Decidable e.FitsBinary := inferInstanceAs (Decidable (_ ∧ _))

/-- A length-prefixed string. -/
def putString (s : Bytes) : Bytes := beBytes 2 s.length ++ s

def putTags (tags : List (Bytes × Bytes)) : Bytes :=
  tags.flatMap fun kv => putString kv.1 ++ putString kv.2

/-- Version, time, value and tags behind each other. -/
def encodeBinary (e : Event) : Bytes :=
  eventBinaryVersion :: (timestampBytes e.timestamp ++ (beBytes 8 e.value.bits.toNat ++
    (beBytes 2 e.tags.entries.length ++ putTags e.tags.entries)))

/-- The binary form, or JSON for an event that does not fit it. -/
def encodeEventValue (e : Event) : Except Bytes Value :=
  if e.FitsBinary then .ok (.bytes (encodeBinary e)) else marshalEvent e

def invalidEventEncoding : Bytes := bs "invalid event encoding"

/-- The tag loop: each key is followed by at least the two length bytes of its value. -/
def readTags : ℕ → Bytes → Tags → Except Bytes Tags
  | 0, _, tags => .ok tags
  | n + 1, data, tags =>
      if data.length < 2 then .error invalidEventEncoding
      else
        let klen := beNat (data.take 2)
        let data := data.drop 2
        if data.length < klen + 2 then .error invalidEventEncoding
        else
          let key := data.take klen
          let data := data.drop klen
          let vlen := beNat (data.take 2)
          let data := data.drop 2
          if data.length < vlen then .error invalidEventEncoding
          else readTags n (data.drop vlen) (tags.set key (data.take vlen))

/-- Reads the binary form back. -/
def decodeBinary (data metric : Bytes) : Except Bytes Event :=
  if data.length < 18 then .error invalidEventEncoding
  else do
    let tags ← readTags (beNat ((data.drop 16).take 2)) (data.drop 18) ∅
    return ⟨(UInt64.ofNat (beNat (data.take 8))).toInt64, metric,
      Float64.ofBits (beNat ((data.drop 8).take 8)), tags⟩

/-- Both forms are told apart by their first byte. -/
def decodeEventValue (data : Value) (metric : Bytes) : Except Bytes Event :=
  match data with
  | .bytes [] => .error (bs "empty event")
  | .bytes (version :: rest) =>
      if version = eventBinaryVersion then decodeBinary rest metric
      else .error (bs "invalid JSON")
  | doc => do
      let e ← unmarshalEvent doc
      return if metric = [] then e else { e with metric := metric }

/-! ## Round trips -/

lemma readTags_putString {k v : Bytes} (hk : k.length ≤ maxUint16) (hv : v.length ≤ maxUint16)
    (n : ℕ) (rest : Bytes) (tags : Tags) :
    readTags (n + 1) (putString k ++ putString v ++ rest) tags =
      readTags n rest (tags.set k v) := by
  have hlen : ∀ s : Bytes, s.length ≤ maxUint16 → beNat (beBytes 2 s.length) = s.length := by
    intro s hs
    rw [beNat_beBytes]
    exact Nat.mod_eq_of_lt (by unfold maxUint16 at hs; omega)
  have htake : ∀ (s t : Bytes), (beBytes 2 s.length ++ t).take 2 = beBytes 2 s.length := by
    intro s t
    exact List.take_left' (by simp)
  have hdrop : ∀ (s t : Bytes), (beBytes 2 s.length ++ t).drop 2 = t := by
    intro s t
    exact List.drop_left' (by simp)
  simp only [putString, List.append_assoc, readTags, htake, hdrop, hlen k hk,
    List.take_left, List.drop_left, hlen v hv]
  rw [if_neg (by simp; omega), if_neg (by simp; omega), if_neg (by simp)]

lemma readTags_putTags (l : List (Bytes × Bytes))
    (hl : ∀ kv ∈ l, kv.1.length ≤ maxUint16 ∧ kv.2.length ≤ maxUint16) (tags : Tags) :
    readTags l.length (putTags l) tags = .ok (l.foldl (fun m e => m.set e.1 e.2) tags) := by
  induction l generalizing tags with
  | nil => rfl
  | cons kv l ih =>
      have hkv := hl kv List.mem_cons_self
      have hput : putTags (kv :: l) = putString kv.1 ++ putString kv.2 ++ putTags l := rfl
      rw [hput, List.length_cons, readTags_putString hkv.1 hkv.2,
        ih (fun x hx => hl x (List.mem_cons_of_mem _ hx))]
      rfl

/-- Reading the fixed-width header of a binary event. -/
lemma decodeBinary_header {a b c d metric : Bytes} (ha : a.length = 8) (hb : b.length = 8)
    (hc : c.length = 2) :
    decodeBinary (a ++ (b ++ (c ++ d))) metric = do
      let tags ← readTags (beNat c) d ∅
      return ⟨(UInt64.ofNat (beNat a)).toInt64, metric, Float64.ofBits (beNat b), tags⟩ := by
  have hd16 : (a ++ (b ++ (c ++ d))).drop 16 = c ++ d := by
    rw [← List.append_assoc]
    exact List.drop_left' (by simp [ha, hb])
  have hd18 : (a ++ (b ++ (c ++ d))).drop 18 = d := by
    rw [← List.append_assoc, ← List.append_assoc]
    exact List.drop_left' (by simp [ha, hb, hc])
  rw [decodeBinary, if_neg (by simp [ha, hb, hc]; omega), hd16, hd18, List.take_left' hc,
    List.take_left' ha, List.drop_left' ha, List.take_left' hb]

/-- **An event within the binary limits is read back unchanged**, filed under the given metric. -/
theorem decodeEventValue_binary (e : Event) (he : e.FitsBinary) (metric : Bytes) :
    decodeEventValue (.bytes (encodeBinary e)) metric = .ok { e with metric := metric } := by
  have hts : (UInt64.ofNat (beNat (timestampBytes e.timestamp))).toInt64 = e.timestamp := by
    have := e.timestamp.toUInt64.toNat_lt
    rw [timestampBytes, beNat_beBytes, Nat.mod_eq_of_lt (by omega), UInt64.ofNat_toNat]
    exact e.timestamp.toInt64_toUInt64
  have hval : Float64.ofBits (beNat (beBytes 8 e.value.bits.toNat)) = e.value := by
    have := e.value.bits.isLt
    rw [beNat_beBytes, Nat.mod_eq_of_lt (by omega), Float64.ofBits, BitVec.ofNat_toNat]
    simp
  have hcount : beNat (beBytes 2 e.tags.entries.length) = e.tags.entries.length := by
    have := he.1
    unfold maxUint16 at this
    rw [beNat_beBytes, Nat.mod_eq_of_lt (by omega)]
  have htags : readTags e.tags.entries.length (putTags e.tags.entries) ∅ = .ok e.tags := by
    rw [readTags_putTags _ he.2]
    exact congrArg Except.ok (OrdMap.ofList_entries e.tags)
  rw [encodeBinary, decodeEventValue, if_pos rfl,
    decodeBinary_header (by simp) (by simp) (by simp), hcount, htags, hts, hval]
  rfl

/-- The tags an event has once stored: its own, or their image under JSON. -/
def Event.storedTags (e : Event) : Tags := if e.FitsBinary then e.tags else jsonTags e.tags

/-- **What a stored event reads back as.** -/
theorem decode_encode {e : Event} {v : Value} (h : encodeEventValue e = .ok v) {metric : Bytes}
    (hm : metric ≠ []) :
    decodeEventValue v metric = .ok ⟨e.timestamp, metric, e.value, e.storedTags⟩ := by
  unfold encodeEventValue at h
  unfold Event.storedTags
  split_ifs at h ⊢ with hfit
  · cases h
    exact decodeEventValue_binary e hfit metric
  · unfold marshalEvent at h
    split_ifs at h
    cases h
    simp only [decodeEventValue, unmarshalEvent]
    simp [hm, bind, Except.bind, pure, Except.pure]

/-- Encoding only fails for a value that is not finite. -/
lemma encodeEventValue_ok {e : Event} (h : e.value.isFinite = true) :
    ∃ v, encodeEventValue e = .ok v := by
  unfold encodeEventValue marshalEvent
  split_ifs
  · exact ⟨_, rfl⟩
  · exact ⟨_, rfl⟩

/-- Valid UTF-8 passes through JSON unchanged. -/
lemma jsonTags_of_valid {tags : Tags}
    (h : ∀ kv ∈ tags.entries, ValidUtf8 kv.1 ∧ ValidUtf8 kv.2) : jsonTags tags = tags := by
  have hmap : tags.entries.map (fun kv => (toValidUtf8 kv.1, toValidUtf8 kv.2)) = tags.entries := by
    conv_rhs => rw [← List.map_id tags.entries]
    refine List.map_congr_left fun kv hkv => ?_
    rw [(h kv hkv).1.toValid, (h kv hkv).2.toValid]
    rfl
  rw [jsonTags, hmap, OrdMap.ofList_entries]

/-- The events that are stored without loss: valid UTF-8 tags, or within the binary limits. -/
def Event.Lossless (e : Event) : Prop :=
  (∀ kv ∈ e.tags.entries, ValidUtf8 kv.1 ∧ ValidUtf8 kv.2) ∨ e.FitsBinary

instance (e : Event) : Decidable e.Lossless := inferInstanceAs (Decidable (_ ∨ _))

lemma Event.Lossless.storedTags {e : Event} (h : e.Lossless) : e.storedTags = e.tags := by
  unfold Event.storedTags
  split_ifs with hfit
  · rfl
  · exact jsonTags_of_valid (h.resolve_right hfit)

end FlameDB
