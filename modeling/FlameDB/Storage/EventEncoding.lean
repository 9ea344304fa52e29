import FlameDB.Storage.EventBytes

/-!
# Writing the bytes of an event

The encoder as the source has it: one loop over the tags adds up the size and gives up as soon as a
tag does not fit, a second one fills a buffer of that size.  Go iterates over a map in any order,
and the two loops need not agree on it, so the orders are parameters.

* `encodeEventValue_eq` — whatever the orders, the buffer is filled exactly, or the event becomes a
  JSON document.
* `readTags_cut`, `decode_cut` — a binary event that has lost its end is refused.
* **`event_survives_iff`** — an event is read back as it was exactly if it is stored without loss.
-/

namespace FlameDB.EventBytes

open Go KV

/-- The first loop: the size of the binary form, unless a tag needs JSON. -/
def binarySize : List (Bytes × Bytes) → ℕ → Option ℕ
  | [], size => some size
  | (k, v) :: rest, size =>
      if maxUint16 < k.length ∨ maxUint16 < v.length then none
      else binarySize rest (size + (2 + k.length + 2 + v.length))

/-- The second loop. -/
def writeTags : List (Bytes × Bytes) → Bytes → ℕ → Run Bytes
  | [], buf, _ => .ok buf
  | (k, v) :: rest, buf, off => do
      let buf ← put buf off (beBytes 2 k.length)
      let off := off + 2
      let buf ← copyTo buf off k
      let off := off + k.length
      let buf ← put buf off (beBytes 2 v.length)
      let off := off + 2
      let buf ← copyTo buf off v
      writeTags rest buf (off + v.length)

/-- `encodeEventValue`, with the orders in which its two loops see the tags. -/
def encodeEventValue (e : Event) (sizing writing : List (Bytes × Bytes)) : Run Value :=
  if maxUint16 < e.tags.entries.length then Run.ofExcept (marshalEvent e)
  else
    match binarySize sizing (1 + 8 + 8 + 2) with
    | none => Run.ofExcept (marshalEvent e)
    | some size => do
        let buf := List.replicate size 0
        let buf ← put buf 0 [eventBinaryVersion]
        let buf ← put buf 1 (timestampBytes e.timestamp)
        let buf ← put buf 9 (beBytes 8 e.value.bits.toNat)
        let buf ← put buf 17 (beBytes 2 e.tags.entries.length)
        return .bytes (← writeTags writing buf 19)

/-! ## What it writes -/

/-- The binary form with the tags in a given order. -/
def binaryForm (e : Event) (writing : List (Bytes × Bytes)) : Bytes :=
  eventBinaryVersion :: (timestampBytes e.timestamp ++ (beBytes 8 e.value.bits.toNat ++
    (beBytes 2 e.tags.entries.length ++ putTags writing)))

/-- The length of a tag in the binary form. -/
def tagSize (kv : Bytes × Bytes) : ℕ := 2 + kv.1.length + 2 + kv.2.length

lemma length_putTags (l : List (Bytes × Bytes)) : (putTags l).length = (l.map tagSize).sum := by
  rw [putTags, List.length_flatMap]
  refine congrArg List.sum (List.map_congr_left fun kv _ => ?_)
  simp only [putString, tagSize, List.length_append, beBytes_length]
  omega

lemma binarySize_eq (l : List (Bytes × Bytes)) (size : ℕ) :
    binarySize l size =
      if ∀ kv ∈ l, kv.1.length ≤ maxUint16 ∧ kv.2.length ≤ maxUint16 then
        some (size + (l.map tagSize).sum) else none := by
  induction l generalizing size with
  | nil => rfl
  | cons kv l ih =>
      rw [binarySize, ih]
      by_cases hkv : kv.1.length ≤ maxUint16 ∧ kv.2.length ≤ maxUint16
      · rw [if_neg (by omega)]
        simp only [List.forall_mem_cons, hkv, and_self, true_and, List.map_cons,
          List.sum_cons, tagSize]
        split_ifs
        · rw [Nat.add_assoc]
        · rfl
      · rw [if_pos (by omega), if_neg]
        exact fun h => hkv (h kv List.mem_cons_self)

/-- The second loop fills the rest of the buffer. -/
lemma writeTags_eq (l : List (Bytes × Bytes)) (filled : Bytes) :
    writeTags l (filled ++ List.replicate (putTags l).length 0) filled.length =
      .ok (filled ++ putTags l) := by
  induction l generalizing filled with
  | nil => simp [writeTags, putTags]
  | cons kv l ih =>
      have hput : putTags (kv :: l) =
          beBytes 2 kv.1.length ++ (kv.1 ++ (beBytes 2 kv.2.length ++ (kv.2 ++ putTags l))) := by
        simp [putTags, putString]
      have hlen := congrArg List.length hput
      simp only [List.length_append, beBytes_length] at hlen
      have hrest : (putTags (kv :: l)).length - (beBytes 2 kv.1.length).length - kv.1.length -
          (beBytes 2 kv.2.length).length - kv.2.length = (putTags l).length := by
        simp only [beBytes_length]
        omega
      -- each write starts where the one before it ended
      simp only [writeTags]
      rw [put_next rfl (by rw [beBytes_length]; omega), Run.ok_bind,
        copyTo_next (by simp) (by rw [beBytes_length]; omega), Run.ok_bind,
        put_next (by simp; omega) (by simp only [beBytes_length]; omega), Run.ok_bind,
        copyTo_next (by simp; omega) (by simp only [beBytes_length]; omega), Run.ok_bind, hrest]
      have hoff : filled.length + 2 + kv.1.length + 2 + kv.2.length =
          (filled ++ beBytes 2 kv.1.length ++ kv.1 ++ beBytes 2 kv.2.length ++ kv.2).length := by
        simp only [List.length_append, beBytes_length]
      rw [hoff, ih, hput]
      simp only [List.append_assoc]

/-- **Whatever the orders**, the event is written whole, or as a JSON document. -/
theorem encodeEventValue_eq {e : Event} {sizing writing : List (Bytes × Bytes)}
    (hs : sizing.Perm e.tags.entries) (hw : writing.Perm e.tags.entries) :
    encodeEventValue e sizing writing =
      if e.FitsBinary then .ok (.bytes (binaryForm e writing)) else Run.ofExcept
        (marshalEvent e) := by
  have hsum : (sizing.map tagSize).sum = (putTags writing).length := by
    rw [length_putTags]
    exact ((hs.trans hw.symm).map tagSize).sum_eq
  have hfits : (∀ kv ∈ sizing, kv.1.length ≤ maxUint16 ∧ kv.2.length ≤ maxUint16) ↔
      ∀ kv ∈ e.tags.entries, kv.1.length ≤ maxUint16 ∧ kv.2.length ≤ maxUint16 :=
    forall_congr' fun kv => imp_congr_left hs.mem_iff
  simp only [encodeEventValue, binarySize_eq, hfits]
  by_cases hcount : maxUint16 < e.tags.entries.length
  · have hunfit : ¬ e.FitsBinary := fun h => absurd h.1 (not_le.mpr hcount)
    rw [if_pos hcount, if_neg hunfit]
  rw [if_neg hcount]
  by_cases htags : ∀ kv ∈ e.tags.entries, kv.1.length ≤ maxUint16 ∧ kv.2.length ≤ maxUint16
  · have hfit : e.FitsBinary := ⟨not_lt.mp hcount, htags⟩
    have hrest : 1 + 8 + 8 + 2 + (putTags writing).length - [eventBinaryVersion].length -
        (timestampBytes e.timestamp).length - (beBytes 8 e.value.bits.toNat).length -
        (beBytes 2 e.tags.entries.length).length = (putTags writing).length := by
      simp only [List.length_singleton, timestampBytes_length, beBytes_length]
      omega
    have hoff : ([eventBinaryVersion] ++ timestampBytes e.timestamp ++
      beBytes 8 e.value.bits.toNat ++
        beBytes 2 e.tags.entries.length).length = 19 := by simp
    have hbegin : put (List.replicate (1 + 8 + 8 + 2 + (putTags writing).length) 0) 0
        [eventBinaryVersion] = .ok ([eventBinaryVersion] ++ List.replicate
          (1 + 8 + 8 + 2 + (putTags writing).length - [eventBinaryVersion].length) 0) :=
      @put_next [] [eventBinaryVersion] 0 _ rfl (by simp; omega)
    rw [if_pos htags, if_pos hfit, hsum]
    simp only [hbegin, Run.ok_bind]
    rw [put_next (by simp) (by simp; omega), Run.ok_bind, put_next (by simp) (by simp; omega),
      Run.ok_bind, put_next (by simp) (by simp; omega), Run.ok_bind, hrest, ← hoff, writeTags_eq]
    simp only [Run.ok_bind, Run.pure_eq, binaryForm, List.append_assoc, List.cons_append,
      List.nil_append]
  · have hunfit : ¬ e.FitsBinary := fun h => htags h.2
    rw [if_neg htags, if_neg hunfit]

/-! ## What is read back -/

/-- **The order of the tags does not matter** to the reader. -/
theorem decode_binaryForm {e : Event} (he : e.FitsBinary) {writing : List (Bytes × Bytes)}
    (hw : writing.Perm e.tags.entries) (metric : Bytes) :
    FlameDB.decodeEventValue (.bytes (binaryForm e writing)) metric =
      .ok { e with metric := metric } := by
  have htags : readTags e.tags.entries.length (putTags writing) ∅ =
      readTags e.tags.entries.length (putTags e.tags.entries) ∅ := by
    rw [← hw.length_eq, readTags_putTags _ fun kv hkv => he.2 kv (hw.subset hkv), hw.length_eq,
      readTags_putTags _ he.2]
    exact congrArg Except.ok ((OrdMap.ofList_perm hw).trans (OrdMap.ofList_entries e.tags).symm)
  have hcount : beNat (beBytes 2 e.tags.entries.length) = e.tags.entries.length := by
    have := he.1
    unfold maxUint16 at this
    rw [beNat_beBytes, Nat.mod_eq_of_lt (by omega)]
  rw [← decodeEventValue_binary e he metric, binaryForm, encodeBinary, FlameDB.decodeEventValue,
    FlameDB.decodeEventValue, if_pos rfl, if_pos rfl,
    decodeBinary_header (by simp) (by simp) (by simp),
    decodeBinary_header (by simp) (by simp) (by simp), hcount, htags]

/-- The first tag is not complete. -/
lemma readTags_short {k v : Bytes} (hk : k.length ≤ maxUint16) (hv : v.length ≤ maxUint16)
    {p rest : Bytes} (hp : p <+: putString k ++ putString v ++ rest)
    (hshort : p.length < (putString k ++ putString v).length) (n : ℕ) (tags : Tags) :
    readTags (n + 1) p tags = .error invalidEventEncoding := by
  have hlen : ∀ s : Bytes, s.length ≤ maxUint16 → beNat (beBytes 2 s.length) = s.length := by
    intro s hs
    rw [beNat_beBytes]
    exact Nat.mod_eq_of_lt (by unfold maxUint16 at hs; omega)
  simp only [putString, List.append_assoc, List.length_append, beBytes_length] at hp hshort
  rw [readTags]
  split_ifs with h2
  · rfl
  -- the length of the key is there
  obtain ⟨p, rfl⟩ : ∃ p', p = beBytes 2 k.length ++ p' :=
    (List.prefix_of_prefix_length_le (List.prefix_append _ _) hp (by simp; omega)).imp
      fun _ h => h.symm
  replace hp := (List.prefix_append_right_inj _).mp hp
  rw [List.length_append, beBytes_length] at hshort
  simp only [List.take_left' (beBytes_length 2 _), List.drop_left' (beBytes_length 2 _), hlen k hk]
  split_ifs with hkey hvalue
  · rfl
  · rfl
  -- the key and the length of its value are there, so the value would be
  obtain ⟨p, rfl⟩ : ∃ p', p = k ++ p' :=
    (List.prefix_of_prefix_length_le (List.prefix_append _ _) hp (by omega)).imp fun _ h => h.symm
  replace hp := (List.prefix_append_right_inj _).mp hp
  rw [List.length_append] at hshort hkey
  obtain ⟨p, rfl⟩ : ∃ p', p = beBytes 2 v.length ++ p' :=
    (List.prefix_of_prefix_length_le (List.prefix_append _ _) hp (by simp; omega)).imp
      fun _ h => h.symm
  rw [List.length_append, beBytes_length] at hshort
  rw [List.drop_left, List.take_left' (beBytes_length 2 _), List.drop_left' (beBytes_length 2 _),
    hlen v hv] at hvalue
  omega

/-- The reader of the tags gives up when the end is missing. -/
lemma readTags_cut {l : List (Bytes × Bytes)}
    (hl : ∀ kv ∈ l, kv.1.length ≤ maxUint16 ∧ kv.2.length ≤ maxUint16) {p : Bytes}
    (hp : p <+: putTags l) (hne : p ≠ putTags l) (tags : Tags) :
    readTags l.length p tags = .error invalidEventEncoding := by
  induction l generalizing p tags with
  | nil => exact absurd (List.prefix_nil.mp hp) hne
  | cons kv l ih =>
      obtain ⟨k, v⟩ := kv
      obtain ⟨hk, hv⟩ := hl (k, v) List.mem_cons_self
      have hput : putTags ((k, v) :: l) = putString k ++ putString v ++ putTags l := rfl
      by_cases hshort : p.length < (putString k ++ putString v).length
      · exact readTags_short hk hv hp hshort _ tags
      · obtain ⟨rest, rfl⟩ : ∃ rest, p = putString k ++ putString v ++ rest :=
          (List.prefix_of_prefix_length_le (List.prefix_append _ _) hp (not_lt.mp hshort)).imp
            fun _ h => h.symm
        rw [List.length_cons, readTags_putString hk hv]
        refine ih (fun x hx => hl x (List.mem_cons_of_mem _ hx)) ?_ ?_ _
        · exact (List.prefix_append_right_inj _).mp hp
        · rintro rfl
          exact hne hput.symm

/-- **A binary event that has lost its end is refused.** -/
theorem decode_cut (unmarshal : Bytes → Except Bytes Event) {e : Event} (he : e.FitsBinary)
    {writing : List (Bytes × Bytes)} (hw : writing.Perm e.tags.entries) {p : Bytes}
    (hp : p <+: binaryForm e writing) (hne : p ≠ binaryForm e writing) (metric : Bytes) :
    ∃ msg, decodeEventValue unmarshal p metric = .error msg := by
  cases p with
  | nil => exact ⟨_, rfl⟩
  | cons version p =>
      obtain ⟨hversion, hrest⟩ := List.cons_prefix_cons.mp hp
      subst hversion
      clear hp
      replace hne : p ≠ timestampBytes e.timestamp ++ (beBytes 8 e.value.bits.toNat ++
          (beBytes 2 e.tags.entries.length ++ putTags writing)) := fun h => hne (congrArg _ h)
      rw [decodeEventValue_bytes]
      rw [FlameDB.decodeEventValue, if_pos rfl]
      by_cases hshort : p.length < 18
      · exact ⟨invalidEventEncoding, by rw [decodeBinary, if_pos hshort]; rfl⟩
      -- the header is there, so the cut is among the tags
      have hheader : ∀ {a t q : Bytes}, q <+: a ++ t → a.length ≤ q.length → ∃ q', q = a ++ q' :=
        fun hq hle => (List.prefix_of_prefix_length_le (List.prefix_append _ _) hq hle).imp
          fun _ h => h.symm
      obtain ⟨p, rfl⟩ := hheader hrest (by simp; omega)
      replace hrest := (List.prefix_append_right_inj _).mp hrest
      rw [List.length_append, timestampBytes_length] at hshort
      obtain ⟨p, rfl⟩ := hheader hrest (by simp; omega)
      replace hrest := (List.prefix_append_right_inj _).mp hrest
      rw [List.length_append, beBytes_length] at hshort
      obtain ⟨p, rfl⟩ := hheader hrest (by simp; omega)
      replace hrest := (List.prefix_append_right_inj _).mp hrest
      have hcount : beNat (beBytes 2 e.tags.entries.length) = writing.length := by
        have := he.1
        unfold maxUint16 at this
        rw [beNat_beBytes, Nat.mod_eq_of_lt (by omega), hw.length_eq]
      rw [decodeBinary_header (by simp) (by simp) (by simp), hcount,
        readTags_cut (fun kv hkv => he.2 kv (hw.subset hkv)) hrest fun h => hne (by rw [h])]
      exact ⟨invalidEventEncoding, rfl⟩

/-! ## Events survive their encoding

The binary form keeps everything; JSON keeps valid UTF-8. -/

/-- JSON only keeps valid UTF-8. -/
lemma jsonTags_eq_self_iff {tags : Tags} :
    jsonTags tags = tags ↔ ∀ kv ∈ tags.entries, ValidUtf8 kv.1 ∧ ValidUtf8 kv.2 := by
  refine ⟨fun h kv hkv => ?_, jsonTags_of_valid⟩
  have hget : (jsonTags tags).get? kv.1 = some kv.2 := by
    rw [h]
    exact (tags.mem_entries_iff kv.1 kv.2).mp hkv
  obtain ⟨kv', -, heq⟩ := List.mem_map.mp (OrdMap.mem_of_get?_ofList hget)
  obtain ⟨hkey, hvalue⟩ := Prod.mk.inj heq
  rw [← hkey, ← hvalue]
  exact ⟨validUtf8_toValidUtf8 _, validUtf8_toValidUtf8 _⟩

lemma lossless_iff {e : Event} : e.Lossless ↔ e.storedTags = e.tags := by
  refine ⟨Event.Lossless.storedTags, fun h => ?_⟩
  by_cases hfit : e.FitsBinary
  · exact Or.inr hfit
  · rw [Event.storedTags, if_neg hfit, jsonTags_eq_self_iff] at h
    exact Or.inl h

/-- The encoded event is read back with its timestamp, value and tags. -/
def Survives (e : Event) (sizing writing : List (Bytes × Bytes)) (metric : Bytes) : Prop :=
  ∃ v d, encodeEventValue e sizing writing = .ok v ∧ FlameDB.decodeEventValue v metric = .ok d ∧
    d.timestamp = e.timestamp ∧ d.value = e.value ∧ d.tags = e.tags

/-- What the reader makes of the encoder's output. -/
lemma decode_encodeEventValue {e : Event} (hfin : e.value.isFinite = true)
    {sizing writing : List (Bytes × Bytes)} (hs : sizing.Perm e.tags.entries)
    (hw : writing.Perm e.tags.entries) (metric : Bytes) :
    ∃ v d, encodeEventValue e sizing writing = .ok v ∧ FlameDB.decodeEventValue v metric = .ok d ∧
      d.timestamp = e.timestamp ∧ d.value = e.value ∧ d.tags = e.storedTags := by
  rw [encodeEventValue_eq hs hw]
  by_cases hfit : e.FitsBinary
  · rw [if_pos hfit, Event.storedTags, if_pos hfit]
    exact ⟨_, _, rfl, decode_binaryForm hfit hw metric, rfl, rfl, rfl⟩
  · rw [if_neg hfit, Event.storedTags, if_neg hfit, marshalEvent, if_pos hfin]
    refine ⟨_, _, rfl, rfl, ?_, ?_, ?_⟩ <;> split_ifs <;> rfl

/-- **An event survives its encoding exactly if it is stored without loss**: its tags are valid
UTF-8, or it is within the limits of the binary form.  A binary encoding without its end is
refused. -/
theorem event_survives_iff {e : Event} (hfin : e.value.isFinite = true)
    {sizing writing : List (Bytes × Bytes)} (hs : sizing.Perm e.tags.entries)
    (hw : writing.Perm e.tags.entries) (metric : Bytes) :
    (Survives e sizing writing metric ↔ e.Lossless) ∧
      ∀ b, encodeEventValue e sizing writing = .ok (.bytes b) → ∀ p, p <+: b → p ≠ b →
        ∀ unmarshal, ∃ msg, decodeEventValue unmarshal p metric = .error msg := by
  refine ⟨?_, fun b hb p hp hne unmarshal => ?_⟩
  · obtain ⟨v, d, hv, hd, hts, hval, htags⟩ := decode_encodeEventValue hfin hs hw metric
    rw [lossless_iff]
    constructor
    · rintro ⟨v', d', hv', hd', -, -, htags'⟩
      obtain rfl : v = v' := Run.ok.inj (hv.symm.trans hv')
      obtain rfl : d = d' := Except.ok.inj (hd.symm.trans hd')
      rw [← htags, htags']
    · exact fun h => ⟨v, d, hv, hd, hts, hval, htags.trans h⟩
  · rw [encodeEventValue_eq hs hw] at hb
    split_ifs at hb with hfit
    · obtain rfl : binaryForm e writing = b := Value.bytes.inj (Run.ok.inj hb)
      exact decode_cut unmarshal hfit hw hp hne metric
    · rw [marshalEvent, if_pos hfin] at hb
      cases hb

/-- A binary event; `\xff` is not valid UTF-8. -/
def taggedHit : Event where
  timestamp := 5
  metric := bs "hits"
  value := Float64.ofBits 0x3FF0000000000000
  tags := ((∅ : Tags).set (bs "a") [0xff]).set (bs "b") (bs "x")

/-- Two tags in either order of iteration, one of them no UTF-8. -/
theorem event_survives_taggedHit :
    Survives taggedHit [(bs "b", bs "x"), (bs "a", [0xff])] [(bs "a", [0xff]), (bs "b", bs "x")]
      (bs "hits") :=
  (event_survives_iff (by decide) (by decide) (by decide) (bs "hits")).1.mpr (by decide)

/-- The same event with another value of its second tag. -/
def longHit (v : Bytes) : Event :=
  { taggedHit with tags := ((∅ : Tags).set (bs "a") [0xff]).set (bs "b") v }

/-- A long tag takes an invalid one through JSON. -/
lemma longHit_not_survives {v : Bytes} (hv : maxUint16 < v.length) (metric : Bytes) :
    ¬ Survives (longHit v) (longHit v).tags.entries (longHit v).tags.entries metric := by
  have hentries : (longHit v).tags.entries = [(bs "a", [0xff]), (bs "b", v)] := rfl
  have hfin : (longHit v).value.isFinite = true := (by decide : taggedHit.value.isFinite = true)
  obtain ⟨val, d, hval, hd, -, -, htags⟩ :=
    decode_encodeEventValue hfin (List.Perm.refl _) (List.Perm.refl _) metric
  rintro ⟨val', d', hval', hd', -, -, htags'⟩
  obtain rfl : val = val' := Run.ok.inj (hval.symm.trans hval')
  obtain rfl : d = d' := Except.ok.inj (hd.symm.trans hd')
  rcases lossless_iff.mpr (htags.symm.trans htags') with hvalid | hfit
  · exact absurd (hvalid (bs "a", [0xff]) (by rw [hentries]; simp)).2 (by decide)
  · exact absurd (hfit.2 (bs "b", v) (by rw [hentries]; simp)).2 (not_le.mpr hv)

/-- A tag value of 65536 bytes. -/
def longValue : Bytes := List.replicate 65536 0x78

theorem event_lost_longHit :
    ¬ Survives (longHit longValue) (longHit longValue).tags.entries (longHit longValue).tags.entries
      (bs "hits") := by
  refine longHit_not_survives ?_ (bs "hits")
  rw [longValue, List.length_replicate]
  decide

end FlameDB.EventBytes
