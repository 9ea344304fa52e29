import FlameDB.Go.Bytes
import FlameDB.Go.Float64

/-!
# Key layout

Everything a node stores lives in one ordered key-value store.  This file holds the functions that
build its keys, under the names the source gives them, and the one fact the rest of the development
needs about them: logical items with different names have different keys.

* `component` — escaping of names that contain a delimiter; injective (`component_injective`) and
  free of `:` (`colon_notMem_component`).
* `Key`, `Key.encode` — the logical items and their keys.
* **`Key.encode_inj`** — on well-formed items the encoding is injective, within a family and across
  families.
-/

namespace FlameDB

open Go

/-- `:` separates the parts of a key. -/
def colon : UInt8 := 0x3a

/-- The unit separator `\x1f`, forbidden in protocol identifiers. -/
def unitSep : UInt8 := 0x1f

/-- `keyspace.Component`. -/
def component (name : Bytes) : Bytes :=
  if name.any (fun c => c = colon ∨ c = unitSep) then unitSep :: hexEncode name else name

/-- `keyspace.DecodeComponent`. -/
def decodeComponent (name : Bytes) : Bytes :=
  match name with
  | c :: rest => if c = unitSep then (hexDecode rest).getD name else name
  | [] => name

/-- `aggregates.BoardMetric`. -/
def boardMetric (metric board : Bytes) : Bytes :=
  if board = [] then metric else metric ++ unitSep :: board

/-- `appendUint64(nil, uint64(timestamp))`. -/
def timestampBytes (t : Int64) : Bytes := beBytes 8 t.toUInt64.toNat

/-- The key of an event; big-endian time makes key order time order. -/
def eventKey (metric : Bytes) (timestamp : Int64) : Bytes :=
  component metric ++ colon :: timestampBytes timestamp

/-- The reference from a tag value to an event. -/
def indexKey (metric tagKey tagValue : Bytes) (timestamp : Int64) : Bytes :=
  bs "idx" ++ colon :: (component metric ++ colon :: (component tagKey ++ colon ::
    (tagValue ++ colon :: timestampBytes timestamp)))

/-- The inverted score: ascending keys are descending non-negative scores. -/
def invertedScore (value : Float64) : Bytes := beBytes 8 (2 ^ 64 - 1 - value.bits.toNat)

/-- The key that places an entity in the ranking of a board. -/
def lbKey (metric entityID : Bytes) (value : Float64) : Bytes :=
  bs "lb" ++ colon :: (component metric ++ colon :: (invertedScore value ++ colon :: entityID))

/-- The key with the present score of an entity. -/
def lbEntityKey (metric entityID : Bytes) : Bytes :=
  bs "lb-entity" ++ colon :: (component metric ++ colon :: entityID)

/-- The mark of a tag value that was seen. -/
def cardKey (metric tagKey tagValue : Bytes) : Bytes :=
  bs "card" ++ colon :: (component metric ++ colon :: (component tagKey ++ colon :: tagValue))

/-- The number of values of a tag. -/
def cardCountKey (metric tagKey : Bytes) : Bytes :=
  bs "card-count" ++ colon :: (component metric ++ colon :: component tagKey)

/-- The key that records an applied replica operation. -/
def receiptKey (operationID : Bytes) : Bytes := bs "repl-applied" ++ colon :: operationID

/-- A key of the replication outbox, whose body is the node and a sequence number. -/
def outboxKey (body : Bytes) : Bytes := bs "repl-outbox" ++ colon :: body

/-! ## Escaping

A name with a delimiter is written in hexadecimal behind a unit separator, which no other component
contains. -/

lemma component_of_mem {name : Bytes} (h : colon ∈ name ∨ unitSep ∈ name) :
    component name = unitSep :: hexEncode name := by
  have hany : name.any (fun c => c = colon ∨ c = unitSep) = true := by
    rcases h with h | h
    · exact List.any_eq_true.mpr ⟨_, h, by simp⟩
    · exact List.any_eq_true.mpr ⟨_, h, by simp⟩
  rw [component, if_pos hany]

lemma component_of_notMem {name : Bytes} (hc : colon ∉ name) (hu : unitSep ∉ name) :
    component name = name := by
  have hany : ¬ name.any (fun c => c = colon ∨ c = unitSep) = true := by
    intro h
    obtain ⟨c, hcn, hcc⟩ := List.any_eq_true.mp h
    rcases of_decide_eq_true hcc with rfl | rfl
    · exact hc hcn
    · exact hu hcn
  rw [component, if_neg hany]

/-- Either the name stands as it is, or its hexadecimal form stands behind the marker. -/
lemma component_cases (name : Bytes) :
    (colon ∉ name ∧ unitSep ∉ name ∧ component name = name) ∨
      component name = unitSep :: hexEncode name := by
  by_cases h : colon ∈ name ∨ unitSep ∈ name
  · exact Or.inr (component_of_mem h)
  · rw [not_or] at h
    exact Or.inl ⟨h.1, h.2, component_of_notMem h.1 h.2⟩

@[simp] lemma colon_notMem_component (name : Bytes) : colon ∉ component name := by
  rcases component_cases name with ⟨hc, -, h⟩ | h
  · rwa [h]
  · rw [h, List.mem_cons, not_or]
    refine ⟨by decide, fun hmem => ?_⟩
    exact absurd (isHexDigit_of_mem_hexEncode hmem) (by decide)

@[simp] lemma decodeComponent_component (name : Bytes) :
    decodeComponent (component name) = name := by
  rcases component_cases name with ⟨-, hu, h⟩ | h
  · rw [h]
    cases name with
    | nil => rfl
    | cons c rest =>
        have hne : c ≠ unitSep := by
          rintro rfl
          exact hu List.mem_cons_self
        simp [decodeComponent, hne]
  · rw [h]
    simp [decodeComponent]

/-- Escaping loses nothing. -/
theorem component_injective : Function.Injective component := fun a b h => by
  simpa using congrArg decodeComponent h

/-- Board names contain no separator, so a board's name is recovered from its ranking name. -/
lemma boardMetric_inj {m m' b b' : Bytes} (hm : unitSep ∉ m) (hm' : unitSep ∉ m')
    (h : boardMetric m b = boardMetric m' b') : m = m' ∧ b = b' := by
  unfold boardMetric at h
  split_ifs at h with hb hb' hb'
  · exact ⟨h, hb.trans hb'.symm⟩
  · exact absurd (h ▸ hm) (by simp)
  · exact absurd (h ▸ hm') (by simp)
  · exact append_cons_inj hm hm' h

/-! ## Logical keys

Distinct logical keys have distinct bytes, under the conditions on names that the parser enforces.
-/

/-- What a key stands for. -/
inductive Key where
  | event (metric : Bytes) (timestamp : Int64)
  | index (metric tagKey tagValue : Bytes) (timestamp : Int64)
  | rank (metric board entityID : Bytes) (value : Float64)
  | entity (metric board entityID : Bytes)
  | card (metric tagKey tagValue : Bytes)
  | cardCount (metric tagKey : Bytes)
  | receipt (operationID : Bytes)
  | outbox (body : Bytes)
  deriving DecidableEq

namespace Key

/-- The bytes of a logical key. -/
def encode : Key → Bytes
  | event m t => eventKey m t
  | index m k v t => indexKey m k v t
  | rank m b e s => lbKey (boardMetric m b) e s
  | entity m b e => lbEntityKey (boardMetric m b) e
  | card m k v => cardKey m k v
  | cardCount m k => cardCountKey m k
  | receipt op => receiptKey op
  | outbox body => outboxKey body

/-- Names that would put events under another family's keys. -/
def reserved : List Bytes :=
  [bs "idx", bs "lb", bs "lb-entity", bs "card", bs "card-count", bs "repl-applied",
    bs "repl-outbox"]

/-- What keeps items apart: no event under a missing or reserved name, no separator in the name of
a metric that has boards. -/
def WF : Key → Prop
  | event m _ => m ≠ [] ∧ m ∉ reserved
  | rank m .. => unitSep ∉ m
  | entity m .. => unitSep ∉ m
  | _ => True

instance : DecidablePred WF := fun k => by cases k <;> unfold WF <;> infer_instance

/-- The part of a key before its first delimiter. -/
def family : Key → Bytes
  | event m _ => component m
  | index .. => bs "idx"
  | rank .. => bs "lb"
  | entity .. => bs "lb-entity"
  | card .. => bs "card"
  | cardCount .. => bs "card-count"
  | receipt _ => bs "repl-applied"
  | outbox _ => bs "repl-outbox"

/-- The part of a key after its first delimiter. -/
def body : Key → Bytes
  | event _ t => timestampBytes t
  | index m k v t => component m ++ colon :: (component k ++ colon ::
      (v ++ colon :: timestampBytes t))
  | rank m b e s => component (boardMetric m b) ++ colon :: (invertedScore s ++ colon :: e)
  | entity m b e => component (boardMetric m b) ++ colon :: e
  | card m k v => component m ++ colon :: (component k ++ colon :: v)
  | cardCount m k => component m ++ colon :: component k
  | receipt op => op
  | outbox b => b

lemma encode_eq (k : Key) : k.encode = k.family ++ colon :: k.body := by
  cases k <;> rfl

lemma colon_notMem_family (k : Key) : colon ∉ k.family := by
  cases k with
  | event m t => exact colon_notMem_component m
  | _ => simp only [family]; decide

/-- Reserved names are stored as they are, so only they are stored under themselves. -/
lemma component_ne_reserved {m r : Bytes} (hm : m ∉ reserved) (hr : r ∈ reserved) :
    component m ≠ r := by
  intro h
  have hfix : ∀ r ∈ reserved, component r = r := by decide
  exact hm (component_injective (h.trans (hfix r hr).symm) ▸ hr)

end Key

lemma timestampBytes_inj {t t' : Int64} (h : timestampBytes t = timestampBytes t') : t = t' := by
  have hn := beBytes_inj (by have := t.toUInt64.toNat_lt; omega)
    (by have := t'.toUInt64.toNat_lt; omega) h
  simpa using congrArg UInt64.toInt64 (UInt64.toNat_inj.mp hn)

lemma invertedScore_inj {s s' : Float64} (h : invertedScore s = invertedScore s') : s = s' := by
  have hs := s.bits.isLt
  have hs' := s'.bits.isLt
  have hn := beBytes_inj (k := 8) (by omega) (by omega) h
  have hb : s.bits = s'.bits := BitVec.eq_of_toNat_eq (by omega)
  cases s
  cases s'
  simpa using hb

@[simp] lemma timestampBytes_length (t : Int64) : (timestampBytes t).length = 8 :=
  beBytes_length 8 _

@[simp] lemma invertedScore_length (s : Float64) : (invertedScore s).length = 8 :=
  beBytes_length 8 _

namespace Key

/-- Items of one family are told apart by the rest of the key. -/
lemma family_body_inj {k k' : Key} (hw : k.WF) (hw' : k'.WF) (hf : k.family = k'.family)
    (hb : k.body = k'.body) : k = k' := by
  cases k <;> cases k' <;> simp only [family, body] at hf hb
  -- two different families: their names differ, or an event has a reserved name
  all_goals first
    | exact absurd hf (by decide)
    | exact absurd hf (component_ne_reserved hw.2 (by decide))
    | exact absurd hf.symm (component_ne_reserved hw'.2 (by decide))
    | skip
  case event.event => rw [component_injective hf, timestampBytes_inj hb]
  case index.index =>
    obtain ⟨hm, hb⟩ := append_cons_inj (by simp) (by simp) hb
    obtain ⟨hk, hb⟩ := append_cons_inj (by simp) (by simp) hb
    obtain ⟨hv, ht⟩ := List.append_inj' hb (by simp)
    rw [component_injective hm, component_injective hk, hv,
      timestampBytes_inj (List.cons_eq_cons.mp ht).2]
  case rank.rank =>
    obtain ⟨hm, hb⟩ := append_cons_inj (by simp) (by simp) hb
    obtain ⟨hs, he⟩ := List.append_inj hb (by simp)
    obtain ⟨rfl, rfl⟩ := boardMetric_inj hw hw' (component_injective hm)
    rw [invertedScore_inj hs, (List.cons_eq_cons.mp he).2]
  case entity.entity =>
    obtain ⟨hm, he⟩ := append_cons_inj (by simp) (by simp) hb
    obtain ⟨rfl, rfl⟩ := boardMetric_inj hw hw' (component_injective hm)
    rw [he]
  case card.card =>
    obtain ⟨hm, hb⟩ := append_cons_inj (by simp) (by simp) hb
    obtain ⟨hk, hv⟩ := append_cons_inj (by simp) (by simp) hb
    rw [component_injective hm, component_injective hk, hv]
  case cardCount.cardCount =>
    obtain ⟨hm, hk⟩ := append_cons_inj (by simp) (by simp) hb
    rw [component_injective hm, component_injective hk]
  case receipt.receipt => rw [hb]
  case outbox.outbox => rw [hb]

/-- **Different items have different keys.** -/
theorem encode_inj {k k' : Key} (hw : k.WF) (hw' : k'.WF) (h : k.encode = k'.encode) : k = k' := by
  rw [encode_eq, encode_eq] at h
  obtain ⟨hf, hb⟩ := append_cons_inj k.colon_notMem_family k'.colon_notMem_family h
  exact family_body_inj hw hw' hf hb

lemma encode_inj_iff {k j : Key} (hw : k.WF) (hw' : j.WF) : k.encode = j.encode ↔ k = j :=
  ⟨encode_inj hw hw', fun h => h ▸ rfl⟩

end Key

end FlameDB
