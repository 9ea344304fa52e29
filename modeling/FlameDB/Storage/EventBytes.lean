import FlameDB.Go.Run
import FlameDB.Storage.Windowed

/-!
# Reading the bytes of an event

The two readers of a stored event as the source has them: both walk over the bytes with an offset,
check the bytes that are left in their own way, and index.  An access out of range would be a crash.
What is not in the binary form is handed to `json.Unmarshal`, which is a parameter here.

* `decodeEventValue_bytes`, `eventEntityValue_bytes` — on binary events the readers are the ones the
  rest of the development works with.
* `entity_of_decoded` — **one tag read alone is the tag of the event read whole**, on every string
  of bytes.
-/

namespace FlameDB.EventBytes

open Go KV

/-- The tag loop of `decodeEventValue`. -/
def decodeTags (data : Bytes) : ℕ → ℕ → Tags → Run Tags
  | 0, _, tags => .ok tags
  | n + 1, off, tags =>
      if data.length < off + 2 then .error invalidEventEncoding
      else do
        let klen ← uint16 data off
        let off := off + 2
        if data.length < off + klen + 2 then .error invalidEventEncoding
        else do
          let key ← slice data off (off + klen)
          let off := off + klen
          let vlen ← uint16 data off
          let off := off + 2
          if data.length < off + vlen then .error invalidEventEncoding
          else do
            let val ← slice data off (off + vlen)
            decodeTags data n (off + vlen) (tags.set key val)

/-- The decoder of the source with its indices. -/
def decodeEventValue (unmarshal : Bytes → Except Bytes Event) (data metric : Bytes) : Run Event :=
  if data.length = 0 then .error (bs "empty event")
  else do
    if (← index data 0) ≠ eventBinaryVersion then
      let e ← Run.ofExcept (unmarshal data)
      return if metric ≠ [] then { e with metric := metric } else e
    else if data.length < 1 + 8 + 8 + 2 then .error invalidEventEncoding
    else do
      let ts ← uint64 data 1
      let value ← uint64 data 9
      let tagCount ← uint16 data 17
      let tags ← decodeTags data tagCount 19 ∅
      return ⟨(UInt64.ofNat ts).toInt64, metric, Float64.ofBits value, tags⟩

/-- The tag loop of `eventEntityValue`: it compares what is left, with signed numbers, where the
other loop compares offsets, and it takes the value of a tag only if the key is the wanted one. -/
def entityTags (data tag : Bytes) : ℕ → ℕ → Bytes × Bool → Run (Bytes × Bool)
  | 0, _, found => .ok found
  | n + 1, off, found =>
      if (data.length : ℤ) - off < 2 then .error invalidEventEncoding
      else do
        let klen ← uint16 data off
        let off := off + 2
        if (data.length : ℤ) - off < klen + 2 then .error invalidEventEncoding
        else do
          let key ← slice data off (off + klen)
          let off := off + klen
          let vlen ← uint16 data off
          let off := off + 2
          if (data.length : ℤ) - off < vlen then .error invalidEventEncoding
          else if key = tag then do
            let id ← slice data off (off + vlen)
            entityTags data tag n (off + vlen) (id, true)
          else entityTags data tag n (off + vlen) found

/-- `len(data) == 0 || data[0] != eventBinaryVersion`. -/
def isLegacy (data : Bytes) : Run Bool :=
  if data.length = 0 then .ok true else do return (← index data 0) != eventBinaryVersion

/-- The entity a tag names, the value of the event, and whether it has the tag. -/
def eventEntityValue (unmarshal : Bytes → Except Bytes Event) (data tag : Bytes) :
    Run (Bytes × Float64 × Bool) := do
  if ← isLegacy data then
    let e ← decodeEventValue unmarshal data []
    return ((e.tags.get? tag).getD [], e.value, (e.tags.get? tag).isSome)
  else if data.length < 19 then .error invalidEventEncoding
  else do
    let value ← bigEndian 8 (← slice data 9 17) 0
    let count ← bigEndian 2 (← slice data 17 19) 0
    let (id, found) ← entityTags data tag count 19 ([], false)
    return (id, Float64.ofBits value, found)

/-! ## The loops

A position in the bytes corresponds to the rest of the value, and every index is in range. -/

/-- The loop that reads all tags. -/
lemma decodeTags_eq {data : Bytes} {off : ℕ} (hoff : off ≤ data.length) (n : ℕ) (tags : Tags) :
    decodeTags data n off tags = Run.ofExcept (readTags n (data.drop off) tags) := by
  induction n generalizing off tags with
  | zero => rfl
  | succ n ih =>
      simp only [decodeTags, readTags, List.length_drop, List.drop_drop]
      by_cases hk : data.length < off + 2
      · rw [if_pos hk, if_pos (by omega)]
        rfl
      rw [if_neg hk, if_neg (by omega), uint16, bigEndian_of_le (by omega)]
      generalize beNat ((data.drop off).take 2) = klen
      simp only [Run.ok_bind]
      by_cases hv : data.length < off + 2 + klen + 2
      · rw [if_pos hv, if_pos (by omega)]
        rfl
      rw [if_neg hv, if_neg (by omega), slice_of_le (by omega), bigEndian_of_le (by omega)]
      generalize beNat ((data.drop (off + 2 + klen)).take 2) = vlen
      simp only [Run.ok_bind]
      by_cases hrest : data.length < off + 2 + klen + 2 + vlen
      · rw [if_pos hrest, if_pos (by omega)]
        rfl
      rw [if_neg hrest, if_neg (by omega), slice_of_le (by omega)]
      exact ih (by omega) _

/-- What is found so far, as the loop keeps it. -/
def foundPair (o : Option Bytes) : Bytes × Bool := (o.getD [], o.isSome)

/-- The loop that looks for one tag. -/
lemma entityTags_eq {data : Bytes} {off : ℕ} (hoff : off ≤ data.length) (tag : Bytes) (n : ℕ)
    (found : Option Bytes) :
    entityTags data tag n off (foundPair found) =
      Run.ofExcept ((readEntity tag n (data.drop off) found).map foundPair) := by
  induction n generalizing off found with
  | zero => rfl
  | succ n ih =>
      simp only [entityTags, readEntity, List.length_drop, List.drop_drop]
      by_cases hk : data.length < off + 2
      · rw [if_pos (by omega), if_pos (by omega)]
        rfl
      rw [if_neg (by omega), if_neg (by omega), uint16, bigEndian_of_le (by omega)]
      generalize beNat ((data.drop off).take 2) = klen
      simp only [Run.ok_bind]
      by_cases hv : data.length < off + 2 + klen + 2
      · rw [if_pos (by omega), if_pos (by omega)]
        rfl
      rw [if_neg (by omega), if_neg (by omega), slice_of_le (by omega), bigEndian_of_le (by omega)]
      generalize beNat ((data.drop (off + 2 + klen)).take 2) = vlen
      simp only [Run.ok_bind]
      by_cases hrest : data.length < off + 2 + klen + 2 + vlen
      · rw [if_pos (by omega), if_pos (by omega)]
        rfl
      rw [if_neg (by omega)]
      by_cases hkey : (data.drop (off + 2)).take klen = tag
      · rw [if_pos hkey, if_pos hkey, if_neg (by omega), slice_of_le (by omega)]
        exact ih (by omega) (some _)
      · rw [if_neg hkey, if_neg hkey, if_neg (by omega)]
        exact ih (by omega) found

/-! ## Binary events -/

/-- **On binary events** the reader is the one of the storage model. -/
theorem decodeEventValue_bytes (unmarshal : Bytes → Except Bytes Event) (rest metric : Bytes) :
    decodeEventValue unmarshal (eventBinaryVersion :: rest) metric =
      Run.ofExcept (FlameDB.decodeEventValue (.bytes (eventBinaryVersion :: rest)) metric) := by
  simp only [decodeEventValue, FlameDB.decodeEventValue, decodeBinary, List.length_cons,
    Nat.add_eq_zero_iff, one_ne_zero, and_false, if_false, index, List.getElem?_cons_zero,
    Run.ok_bind, ne_eq, not_true_eq_false, if_true]
  by_cases hlen : rest.length < 18
  · rw [if_pos (by omega), if_pos hlen]
    rfl
  have hle : ∀ off width, off + width ≤ 18 →
      bigEndian width (eventBinaryVersion :: rest) (off + 1) =
        .ok (beNat ((rest.drop off).take width)) := by
    intro off width h
    rw [bigEndian_of_le (by rw [List.length_cons]; omega), List.drop_succ_cons]
  rw [if_neg (by omega), if_neg hlen, uint64, uint16, hle 0 8 (by omega), hle 8 8 (by omega),
    hle 16 2 (by omega)]
  simp only [Run.ok_bind, List.drop_zero]
  rw [decodeTags_eq (by rw [List.length_cons]; omega), List.drop_succ_cons]
  cases readTags (beNat ((rest.drop 16).take 2)) (rest.drop 18) ∅ <;> rfl

/-- The search for one tag never leaves the value and finds what the model finds. -/
theorem eventEntityValue_bytes (unmarshal : Bytes → Except Bytes Event) (rest tag : Bytes) :
    eventEntityValue unmarshal (eventBinaryVersion :: rest) tag =
      Run.ofExcept ((FlameDB.eventEntityValue (.bytes (eventBinaryVersion :: rest)) tag).map
        fun r => (r.1.getD [], r.2, r.1.isSome)) := by
  have hlegacy : isLegacy (eventBinaryVersion :: rest) = .ok false := rfl
  simp only [eventEntityValue, FlameDB.eventEntityValue, hlegacy, List.length_cons, Run.ok_bind,
    Bool.false_eq_true, if_false, if_true]
  by_cases hlen : rest.length < 18
  · rw [if_pos (by omega), if_pos hlen]
    rfl
  have hle : ∀ off width, off + width ≤ 18 →
      slice (eventBinaryVersion :: rest) (off + 1) (off + 1 + width) =
        .ok ((rest.drop off).take width) := by
    intro off width h
    rw [slice_of_le (by rw [List.length_cons]; omega), List.drop_succ_cons]
  have hfield : ∀ off width, off + width ≤ 18 →
      bigEndian width ((rest.drop off).take width) 0 =
        .ok (beNat ((rest.drop off).take width)) := by
    intro off width h
    rw [bigEndian_of_le (by simp; omega), List.drop_zero, List.take_take, min_self]
  rw [if_neg (by omega), if_neg hlen, hle 8 8 (by omega), hle 16 2 (by omega)]
  simp only [Run.ok_bind]
  rw [hfield 8 8 (by omega), hfield 16 2 (by omega)]
  simp only [Run.ok_bind]
  rw [show (([], false) : Bytes × Bool) = foundPair none from rfl,
    entityTags_eq (by rw [List.length_cons]; omega), List.drop_succ_cons]
  cases readEntity tag (beNat ((rest.drop 16).take 2)) (rest.drop 18) none <;> rfl

/-- What `decodeEventValue` does with bytes in no binary form. -/
lemma decodeEventValue_legacy {unmarshal : Bytes → Except Bytes Event} {version : UInt8}
    {rest : Bytes}
    (h : version ≠ eventBinaryVersion) (metric : Bytes) :
    decodeEventValue unmarshal (version :: rest) metric =
      Run.ofExcept ((unmarshal (version :: rest)).map fun e =>
        if metric ≠ [] then { e with metric := metric } else e) := by
  simp only [decodeEventValue, List.length_cons, Nat.add_eq_zero_iff, one_ne_zero,
    and_false, if_false,
    index, List.getElem?_cons_zero, Run.ok_bind, if_pos h]
  cases unmarshal (version :: rest) <;> rfl

/-- **One tag read alone is the tag of the event read whole.**  Neither reader crashes; one fails
exactly if the other does, with the same message, and otherwise they agree on the value, on the
presence of the tag and on its content. -/
theorem entity_of_decoded (unmarshal : Bytes → Except Bytes Event) (data tag metric : Bytes) :
    ∃ r : Except Bytes Event,
      decodeEventValue unmarshal data metric = Run.ofExcept r ∧
        eventEntityValue unmarshal data tag = Run.ofExcept (r.map fun e =>
          ((e.tags.get? tag).getD [], e.value, (e.tags.get? tag).isSome)) := by
  cases data with
  | nil => exact ⟨.error (bs "empty event"), rfl, rfl⟩
  | cons version rest =>
      by_cases hversion : version = eventBinaryVersion
      · subst hversion
        refine ⟨_, decodeEventValue_bytes unmarshal rest metric, ?_⟩
        rw [eventEntityValue_bytes, eventEntityValue_eq _ tag metric]
        cases FlameDB.decodeEventValue (.bytes (eventBinaryVersion :: rest)) metric <;> rfl
      · refine ⟨_, decodeEventValue_legacy hversion metric, ?_⟩
        have hlegacy : isLegacy (version :: rest) = .ok true := by
          show Run.ok (version != eventBinaryVersion) = .ok true
          rw [bne_iff_ne.mpr hversion]
        simp only [eventEntityValue, hlegacy, Run.ok_bind, if_true,
          decodeEventValue_legacy hversion]
        cases unmarshal (version :: rest) with
        | error msg => rfl
        | ok e =>
            by_cases hmetric : metric = []
            · simp [Except.map, hmetric]
            · simp [Except.map, hmetric]

end FlameDB.EventBytes
