import FlameDB.Aggregates.Ranking
import FlameDB.Go.Base64

/-!
# Encodings of the shared backend

PostgreSQL text holds no NUL and only valid UTF-8, so strings outside that are stored behind a
marker as Base64.  Redis ranks by member bytes alone: a member starts with the score in an
order-preserving form and ends with the entity, byte-reversed for a negative score.

* `encodeString_injective`, `flameEntityBytes_encodeString` — distinct strings have distinct texts,
  and SQL orders texts by the bytes they stand for; `encodeString_text` says that PostgreSQL takes
  them.
* **`encodeMember_lt_iff`** — member order is ranking order.
* **`decodeMember_encodeMember`** — a member reads back as its score and entity.
-/

namespace FlameDB.Analytics

open Go KV

/-- Marks a string that is stored in base64. -/
def stringPrefix : Bytes := 0x1e :: bs "Flame64:"

/-- `EncodeString`. -/
def encodeString (value : Bytes) : Bytes :=
  if 0 ∈ value ∨ toValidUtf8 value ≠ value ∨ stringPrefix <+: value then
    stringPrefix ++ base64Encode value
  else value

/-- `DecodeString`. -/
def decodeString (value : Bytes) : Except Bytes Bytes :=
  if stringPrefix <+: value then
    match base64Decode (value.drop stringPrefix.length) with
    | some data => .ok data
    | none => .error (bs "invalid encoded database string")
  else .ok value

/-- The SQL function `flame_entity_bytes`; malformed Base64, which is never stored, reads as
empty. -/
def flameEntityBytes (input : Bytes) : Bytes :=
  if stringPrefix <+: input then (base64Decode (input.drop stringPrefix.length)).getD [] else input

@[simp] lemma decodeString_encodeString (value : Bytes) :
    decodeString (encodeString value) = .ok value := by
  rw [encodeString]
  split_ifs with h
  · rw [decodeString, if_pos (List.prefix_append _ _), List.drop_left, base64Decode_base64Encode]
  · rw [decodeString, if_neg fun hp => h (Or.inr (Or.inr hp))]

@[simp] lemma flameEntityBytes_encodeString (value : Bytes) :
    flameEntityBytes (encodeString value) = value := by
  rw [encodeString]
  split_ifs with h
  · rw [flameEntityBytes, if_pos (List.prefix_append _ _), List.drop_left,
      base64Decode_base64Encode]
    rfl
  · rw [flameEntityBytes, if_neg fun hp => h (Or.inr (Or.inr hp))]

lemma encodeString_injective : Function.Injective encodeString :=
  Function.LeftInverse.injective flameEntityBytes_encodeString

/-- An encoded string is valid UTF-8 without a NUL. -/
lemma encodeString_text (value : Bytes) :
    ValidUtf8 (encodeString value) ∧ 0 ∉ encodeString value := by
  have hmarker : ∀ c ∈ stringPrefix, c < 0x80 ∧ c ≠ 0 := by decide +kernel
  rw [encodeString]
  split_ifs with h
  · have hascii : ∀ c ∈ stringPrefix ++ base64Encode value, c < 0x80 ∧ c ≠ 0 :=
      List.forall_mem_append.mpr ⟨hmarker, ascii_of_mem_base64Encode value⟩
    exact ⟨validUtf8_of_ascii fun c hc => (hascii c hc).1, fun h0 => (hascii 0 h0).2 rfl⟩
  · rw [not_or, not_or, not_not] at h
    exact ⟨(validUtf8_iff value).mpr h.2.1, h.1⟩

/-! ## Rank members

Members are compared as bytes, the score first. Under a negative score entities rank in descending
order, which the reversed text turns into ascending bytes. -/

/-- The eight score bytes of a member as a number: the descending order of the scores. -/
def memberBits (value : Float64) : ℕ :=
  let bits := value.bits.toNat
  -- complement of a negative number, sign bit set on the others
  let ascending := if value.negative then 2 ^ 64 - 1 - bits else bits + 2 ^ 63
  2 ^ 64 - 1 - ascending

/-- The entity part of a member with a negative score: each byte complemented behind a zero, then a
one. -/
def reverseEntity : Bytes → Bytes
  | [] => [1]
  | b :: rest => 0 :: ~~~b :: reverseEntity rest

/-- The Redis rank member: the score in sortable bits, then the entity, reversed under a negative
score. -/
def encodeMember (value : Float64) (entity : Bytes) : Bytes :=
  let value := value.canonical
  beBytes 8 (memberBits value) ++
    if value.lt Float64.zero then reverseEntity entity else entity

def corruptReversed : Bytes := bs "corrupt reversed entity"

/-- The pairs of a reversed entity, up to the final one. -/
def decodePairs : Bytes → Except Bytes Bytes
  | z :: b :: rest =>
      if z ≠ 0 then .error corruptReversed
      else (decodePairs rest).map fun tail => ~~~b :: tail
  | _ => .ok []

/-- The score bits of a member. -/
def decodeBits (n : ℕ) : ℕ :=
  let bits := 2 ^ 64 - 1 - n
  if 2 ^ 63 ≤ bits then bits - 2 ^ 63 else 2 ^ 64 - 1 - bits

/-- The entry of a rank member. -/
def decodeMember (member : Bytes) : Except Bytes LeaderboardEntry :=
  if member.length < 8 then .error (bs "corrupt Redis rank member")
  else
    let value := Float64.ofBits (decodeBits (beNat (member.take 8)))
    if value.isNaN ∨ value.isInf then .error (bs "nonfinite Redis rank member")
    else
      let entity := member.drop 8
      if value.lt Float64.zero then
        if entity.length % 2 ≠ 1 ∨ entity.getLast? ≠ some 1 then .error corruptReversed
        else (decodePairs entity).map fun decoded => ⟨decoded, value⟩
      else .ok ⟨entity, value⟩

lemma memberBits_lt (value : Float64) : memberBits value < 256 ^ 8 := by
  simp only [memberBits]
  omega

/-- Descending scores have ascending member bits. -/
lemma memberBits_lt_iff {s s' : Float64} (h : s.Canonical) (h' : s'.Canonical) :
    memberBits s < memberBits s' ↔ s'.units < s.units := by
  have hs := s.bits.isLt
  have hs' := s'.bits.isLt
  have hnn : ∀ {x : Float64}, x.negative = false → x.bits.toNat < 2 ^ 63 := by
    intro x hx
    simpa [Float64.negative] using hx
  have hng : ∀ {x : Float64}, x.negative = true → 2 ^ 63 ≤ x.bits.toNat := by
    intro x hx
    simpa [Float64.negative] using hx
  rcases hn : s.negative with _ | _ <;> rcases hn' : s'.negative with _ | _
  · rw [Float64.units_lt_iff_of_nonneg hn' hn]
    have := hnn hn
    have := hnn hn'
    simp only [memberBits, hn, hn', Bool.false_eq_true, if_false]
    omega
  · have hpos := Float64.units_nonneg hn
    have hneg := h'.units_neg hn'
    have := hnn hn
    have := hng hn'
    simp only [memberBits, hn, hn', Bool.false_eq_true, if_false, if_true]
    omega
  · have hpos := Float64.units_nonneg hn'
    have hneg := h.units_neg hn
    have := hng hn
    have := hnn hn'
    simp only [memberBits, hn, hn', Bool.false_eq_true, if_false, if_true]
    omega
  · rw [Float64.units_lt_iff_of_negative hn' hn]
    have := hng hn
    have := hng hn'
    simp only [memberBits, hn, hn', if_true]
    omega

lemma complement_lt_iff (a b : UInt8) : ~~~a < ~~~b ↔ b < a := by
  have ha := a.toNat_lt
  have hb := b.toNat_lt
  have hsize : UInt8.size = 256 := rfl
  rw [UInt8.lt_iff_toNat_lt, UInt8.lt_iff_toNat_lt, UInt8.toNat_not, UInt8.toNat_not]
  omega

/-- Reversed entities compare the other way round; an entity follows all its extensions. -/
lemma reverseEntity_lt_iff (e e' : Bytes) : reverseEntity e < reverseEntity e' ↔ e' < e := by
  induction e generalizing e' with
  | nil =>
    cases e' with
    | nil => simp [reverseEntity]
    | cons b rest => simp [reverseEntity, List.cons_lt_cons_iff]
  | cons a rest ih =>
    cases e' with
    | nil => simp [reverseEntity, List.cons_lt_cons_iff]
    | cons b rest' =>
      simp only [reverseEntity, List.cons_lt_cons_iff, lt_self_iff_false, true_and, false_or,
        complement_lt_iff, ih]
      exact or_congr_right (and_congr_left fun _ => UInt8.not_inj.trans eq_comm)

lemma lt_zero_iff (s : Float64) : s.lt Float64.zero = true ↔ s.units < 0 := by
  have hzero : Float64.zero.units = 0 := by decide
  rw [Float64.lt, hzero, decide_eq_true_eq]

lemma units_canonical (s : Float64) : s.canonical.units = s.units := by
  rw [Float64.canonical]
  split_ifs with h
  · have hzero : Float64.zero.units = 0 := by decide
    have hs : s.units = 0 := by simpa [Float64.isZero] using h
    rw [hzero, hs]
  · rfl

/-- **Member order is ranking order**: higher scores first, then the scan order of the ids. -/
theorem encodeMember_lt_iff {s s' : Float64} (h : s.isFinite = true) (h' : s'.isFinite = true)
    (e e' : Bytes) : encodeMember s e < encodeMember s' e' ↔
      s'.units < s.units ∨ (s.units = s'.units ∧ if s.units < 0 then e' < e else e < e') := by
  have hc := Float64.canonical_of_isFinite h
  have hc' := Float64.canonical_of_isFinite h'
  have hlt := memberBits_lt_iff hc hc'
  rw [units_canonical, units_canonical] at hlt
  have heq : beBytes 8 (memberBits s.canonical) = beBytes 8 (memberBits s'.canonical) ↔
      s.units = s'.units := by
    constructor
    · intro hb
      have hbits := beBytes_inj (memberBits_lt _) (memberBits_lt _) hb
      have hgt := memberBits_lt_iff hc' hc
      rw [units_canonical, units_canonical] at hgt
      omega
    · intro hu
      rw [hc.eq_of_units hc' (by rw [units_canonical, units_canonical, hu])]
  rw [encodeMember, encodeMember, append_lt_append_iff_of_length (by simp),
    beBytes_lt_iff (memberBits_lt _) (memberBits_lt _), hlt, heq]
  refine or_congr_right (and_congr_right fun hu => ?_)
  simp only [lt_zero_iff, units_canonical, ← hu]
  split_ifs
  · exact reverseEntity_lt_iff e e'
  · rfl

lemma decodePairs_reverseEntity (e : Bytes) : decodePairs (reverseEntity e) = .ok e := by
  induction e with
  | nil => rfl
  | cons b rest ih =>
    rw [reverseEntity, decodePairs, if_neg (by simp), ih]
    simp only [Except.map, UInt8.not_not]

lemma length_reverseEntity (e : Bytes) : (reverseEntity e).length = 2 * e.length + 1 := by
  induction e with
  | nil => rfl
  | cons b rest ih =>
    simp only [reverseEntity, List.length_cons, ih]
    omega

lemma getLast?_reverseEntity (e : Bytes) : (reverseEntity e).getLast? = some 1 := by
  induction e with
  | nil => rfl
  | cons b rest ih => simp [reverseEntity, List.getLast?_cons, ih]

lemma decodeBits_memberBits (s : Float64) : decodeBits (memberBits s) = s.bits.toNat := by
  have hs := s.bits.isLt
  rcases hn : s.negative with _ | _
  · have hlt : s.bits.toNat < 2 ^ 63 := by simpa [Float64.negative] using hn
    simp only [memberBits, decodeBits, hn, Bool.false_eq_true, if_false]
    rw [if_pos (by omega)]
    omega
  · have hle : 2 ^ 63 ≤ s.bits.toNat := by simpa [Float64.negative] using hn
    simp only [memberBits, decodeBits, hn, if_true]
    rw [if_neg (by omega)]
    omega

/-- **A member reads back as its score and entity.** -/
theorem decodeMember_encodeMember {s : Float64} (h : s.isFinite = true) (e : Bytes) :
    decodeMember (encodeMember s e) = .ok ⟨e, s.canonical⟩ := by
  have hfin := (Float64.canonical_of_isFinite h).1
  have hvalue : Float64.ofBits (decodeBits (beNat ((encodeMember s e).take 8))) = s.canonical := by
    rw [encodeMember, List.take_left' (by simp), beNat_beBytes, Nat.mod_eq_of_lt (memberBits_lt _),
      decodeBits_memberBits, Float64.ofBits, BitVec.ofNat_toNat, BitVec.setWidth_eq]
  have hspecial : ¬ (s.canonical.isNaN = true ∨ s.canonical.isInf = true) := by
    simp only [Float64.isFinite, Float64.isNaN, Float64.isInf, decide_eq_true_eq] at hfin ⊢
    omega
  have hdrop : (encodeMember s e).drop 8 =
      if s.canonical.lt Float64.zero then reverseEntity e else e := by
    rw [encodeMember, List.drop_left' (by simp)]
  have hlen : ¬ (encodeMember s e).length < 8 := by
    rw [encodeMember, List.length_append, beBytes_length]
    omega
  rw [decodeMember, if_neg hlen]
  simp only [hvalue, hdrop, if_neg hspecial]
  split_ifs with hneg hbad
  · rw [length_reverseEntity, getLast?_reverseEntity] at hbad
    exact absurd hbad (by simp)
  · rw [decodePairs_reverseEntity]
    rfl
  · rfl

end FlameDB.Analytics
