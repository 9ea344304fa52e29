import FlameDB.Cluster.Replication
import FlameDB.Query.Lines

/-!
# Key families

Every item a node stores has a key of one of eight families, among them the outbox records, which
are filed under a node and a number.  The names come from accepted lines; tags, values, entities,
operation ids and node ids may be any bytes.

* `Item`, `Item.key` — the stored items and their keys, as the source builds them.
* `Item.key_inj` — different items have different keys, within a family and across families.
* `Item.mem_eventRange_iff` — the keys between `Component(m):` and `Component(m);`.
* **`key_families_separate`** — all of it.
-/

namespace FlameDB

open Go

/-- What the node stores. -/
inductive Item where
  | event (metric : Bytes) (timestamp : Int64)
  | index (metric tagKey tagValue : Bytes) (timestamp : Int64)
  | rank (metric board entityID : Bytes) (score : Float64)
  | entity (metric board entityID : Bytes)
  | card (metric tagKey tagValue : Bytes)
  | cardCount (metric tagKey : Bytes)
  | receipt (operationID : Bytes)
  | outbox (nodeID : Bytes) (seq : UInt64)
  deriving DecidableEq

/-- The families of keys of one store. -/
inductive Family where
  | event | index | rank | entity | card | cardCount | receipt | outbox
  deriving DecidableEq

/-- The metrics that some accepted line names. -/
def ParsedMetric (m : Bytes) : Prop := ∃ q, Parsed q ∧ q.type ≠ .metrics ∧ q.metric = m

lemma ParsedMetric.wf {m : Bytes} (h : ParsedMetric m) :
    (m ≠ [] ∧ m ∉ Key.reserved) ∧ unitSep ∉ m := by
  obtain ⟨q, hq, hty, rfl⟩ := h
  exact ⟨hq.admitted.metric_wf hty, hq.admitted.metric_noSep⟩

namespace Item

/-- The family of an item. -/
def family : Item → Family
  | event .. => .event
  | index .. => .index
  | rank .. => .rank
  | entity .. => .entity
  | card .. => .card
  | cardCount .. => .cardCount
  | receipt .. => .receipt
  | outbox .. => .outbox

/-- The key of an item. -/
def key : Item → Bytes
  | event m t => eventKey m t
  | index m k v t => indexKey m k v t
  | rank m b e s => lbKey (boardMetric m b) e s
  | entity m b e => lbEntityKey (boardMetric m b) e
  | card m k v => cardKey m k v
  | cardCount m k => cardCountKey m k
  | receipt op => receiptKey op
  | outbox id seq => recordKey ⟨id, []⟩ seq.toNat

/-- The item's metric, if it has one, is one the parser accepts. -/
def Named : Item → Prop
  | event m _ => ParsedMetric m
  | index m .. => ParsedMetric m
  | rank m .. => ParsedMetric m
  | entity m .. => ParsedMetric m
  | card m .. => ParsedMetric m
  | cardCount m _ => ParsedMetric m
  | receipt _ => True
  | outbox .. => True

/-- The item in the layout, where an outbox record is known by its body only. -/
def toKey : Item → Key
  | event m t => .event m t
  | index m k v t => .index m k v t
  | rank m b e s => .rank m b e s
  | entity m b e => .entity m b e
  | card m k v => .card m k v
  | cardCount m k => .cardCount m k
  | receipt op => .receipt op
  | outbox id seq => .outbox (id ++ colon :: fixedDecimal 20 seq.toNat)

lemma encode_toKey (K : Item) : K.toKey.encode = K.key := by
  cases K <;> rfl

lemma Named.wf {K : Item} (h : K.Named) : K.toKey.WF := by
  cases K with
  | event m t => exact (ParsedMetric.wf h).1
  | rank m b e s => exact (ParsedMetric.wf h).2
  | entity m b e => exact (ParsedMetric.wf h).2
  | _ => trivial

/-- The number behind a node id has a fixed width, so the id may contain anything. -/
lemma toKey_injective : Function.Injective toKey := by
  intro K L h
  cases K <;> cases L <;> simp only [toKey, Key.event.injEq, Key.index.injEq, Key.rank.injEq,
    Key.entity.injEq, Key.card.injEq, Key.cardCount.injEq, Key.receipt.injEq, Key.outbox.injEq,
    reduceCtorEq] at h
  case outbox.outbox id seq id' seq' =>
    obtain ⟨hid, hseq⟩ := List.append_inj' h (by simp)
    have hdigits := congrArg decimalValue (List.cons_eq_cons.mp hseq).2
    have hlt := seq.toNat_lt
    have hlt' := seq'.toNat_lt
    rw [decimalValue_fixedDecimal, decimalValue_fixedDecimal, Nat.mod_eq_of_lt (by omega),
      Nat.mod_eq_of_lt (by omega)] at hdigits
    rw [hid, UInt64.toNat_inj.mp hdigits]
  all_goals simp [h]

/-- **Different items have different keys.** -/
theorem key_inj {K L : Item} (hK : K.Named) (hL : L.Named) (h : K.key = L.key) : K = L := by
  rw [← encode_toKey, ← encode_toKey] at h
  exact toKey_injective (Key.encode_inj hK.wf hL.wf h)

/-- **The range of a metric** holds its event keys and no other key. -/
theorem mem_eventRange_iff {K : Item} (hK : K.Named) {m : Bytes} (hm : ParsedMetric m) :
    component m ++ [colon] ≤ K.key ∧ K.key < component m ++ [0x3b] ↔ ∃ t, K = .event m t := by
  rw [between_succ_iff _ colon 0x3b (by decide)]
  constructor
  · rintro ⟨rest, hrest⟩
    rw [← encode_toKey, Key.encode_eq, List.append_assoc] at hrest
    obtain ⟨hfamily, -⟩ := append_cons_inj K.toKey.colon_notMem_family
      (colon_notMem_component m) hrest
    have hne : ∀ r ∈ Key.reserved, r ≠ component m := fun r hr h =>
      Key.component_ne_reserved hm.wf.1.2 hr h.symm
    cases K with
    | event m' t => exact ⟨t, by rw [component_injective hfamily]⟩
    | _ => exact absurd hfamily (hne _ (by simp only [toKey, Key.family]; decide))
  · rintro ⟨t, rfl⟩
    exact ⟨timestampBytes t, (List.append_assoc _ [colon] _).symm⟩

end Item

/-- **The families are separate**: a key stands for one item and belongs to one family, and the
range of a metric holds exactly its events. -/
theorem key_families_separate {K L : Item} (hK : K.Named) (hL : L.Named) :
    (K.key = L.key ↔ K = L) ∧ (K.family ≠ L.family → K.key ≠ L.key) ∧
      ∀ m, ParsedMetric m →
        (component m ++ [colon] ≤ K.key ∧ K.key < component m ++ [0x3b] ↔ ∃ t, K = .event m t) := by
  refine ⟨⟨Item.key_inj hK hL, congrArg Item.key⟩, fun hne h => ?_, fun m hm => ?_⟩
  · exact hne (congrArg Item.family (Item.key_inj hK hL h))
  · exact Item.mem_eventRange_iff hK hm

lemma parsedMetric_of_parse (line : Bytes) {m : Bytes}
    (h : (parse 0 line).toOption.map (fun q => (q.type, q.metric)) = some (.leaderboard, m)) :
    ParsedMetric m := by
  cases hq : parse 0 line with
  | error msg => simp [hq, Except.toOption] at h
  | ok q =>
      obtain ⟨hty, hm⟩ : q.type = .leaderboard ∧ q.metric = m := by
        simpa [hq, Except.toOption] using h
      exact ⟨q, ⟨0, line, hq⟩, by simp [hty], hm⟩

/-- An event of `smp:kills` and an entity whose id imitates its key. -/
theorem key_families_separate_smp :
    (Item.event (bs "smp:kills") 7).key ≠ (Item.entity (bs "smp") [] (bs "kills:7")).key ∧
      (component (bs "smp:kills") ++ [colon] ≤ (Item.event (bs "smp:kills") 7).key ∧
        (Item.event (bs "smp:kills") 7).key < component (bs "smp:kills") ++ [0x3b]) := by
  have hkills : ParsedMetric (bs "smp:kills") :=
    parsedMetric_of_parse (bs "LEADERBOARD smp:kills") (by decide +kernel)
  have hsmp : ParsedMetric (bs "smp") :=
    parsedMetric_of_parse (bs "LEADERBOARD smp") (by decide +kernel)
  have hsep := key_families_separate (K := .event (bs "smp:kills") 7)
    (L := .entity (bs "smp") [] (bs "kills:7")) hkills hsmp
  exact ⟨hsep.2.1 (by decide), (hsep.2.2 _ hkills).mpr ⟨7, rfl⟩⟩

end FlameDB
