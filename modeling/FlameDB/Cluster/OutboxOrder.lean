import FlameDB.Cluster.Outbox
import FlameDB.Machine

/-!
# The order of the outbox

Records wait in the outbox under a key that ends in a number of twenty digits.  A node that starts
takes its clock for the last number, or the highest number it finds in a key if that is higher, and
recovery walks the keys in their order.

* `keySeq_recordKey` — the number is read back from a key whatever the node id is.
* `recordKey_lt_iff` — for one node, the keys are ordered as the numbers.
* `OutboxInv` — the records in the store are numbered in the order in which they were put, up to the
  last number given.
* `outbox_order_survives` — new keys are above the stored ones and recovery follows the order of the
  puts, over any puts, deletions, restarts and clocks, as long as the 64-bit number does not wrap
  around.
-/

namespace FlameDB

open Go KV

lemma recordKey_eq (node : Node) (n : ℕ) :
    recordKey node n = (bs "repl-outbox" ++ colon :: (node.id ++ [colon])) ++
      fixedDecimal 20 n := by
  simp [recordKey, outboxKey]

/-- For one node, the keys are ordered as the numbers. -/
lemma recordKey_lt_iff {node node' : Node} (hid : node.id = node'.id) (n m : UInt64) :
    recordKey node n.toNat < recordKey node' m.toNat ↔ n.toNat < m.toNat := by
  have hn := n.toNat_lt
  have hm := m.toNat_lt
  rw [recordKey_eq, recordKey_eq, hid, append_lt_append_iff,
    fixedDecimal_lt_iff (by omega) (by omega)]

/-- The node id in a key. -/
def keyNode (key : Bytes) : Bytes := (key.drop 12).take (key.length - 33)

lemma keyNode_recordKey (node : Node) (n : ℕ) : keyNode (recordKey node n) = node.id := by
  have hkey : recordKey node n =
      bs "repl-outbox:" ++ (node.id ++ colon :: fixedDecimal 20 n) := by
    rw [recordKey, outboxKey]
    rfl
  have hdrop : (recordKey node n).drop 12 = node.id ++ colon :: fixedDecimal 20 n := by
    rw [hkey]
    exact List.drop_left' rfl
  have hlength : (recordKey node n).length - 33 = node.id.length := by
    have hprefix : (bs "repl-outbox:").length = 12 := rfl
    rw [hkey, List.length_append, List.length_append, List.length_cons,
      length_fixedDecimal, hprefix]
    omega
  rw [keyNode, hdrop, hlength, List.take_left]

lemma colon_notMem_fixedDecimal (w n : ℕ) : colon ∉ fixedDecimal w n := fun h =>
  absurd (isDigit_of_mem_fixedDecimal h) (by decide)

/-- **The number of a key is read back**: the digits have no colon, so the last one is before
them. -/
lemma keySeq_recordKey (node : Node) (n : UInt64) :
    keySeq (recordKey node n.toNat) = some n.toNat := by
  have hn := n.toNat_lt
  have hall : ∀ b ∈ (fixedDecimal 20 n.toNat).reverse, decide (b ≠ colon) = true := by
    intro b hb
    refine decide_eq_true fun heq => ?_
    exact colon_notMem_fixedDecimal 20 n.toNat (heq ▸ List.mem_reverse.mp hb)
  have hdigits : ((recordKey node n.toNat).reverse.takeWhile (· ≠ colon)).reverse =
      fixedDecimal 20 n.toNat := by
    have hreverse : (recordKey node n.toNat).reverse =
        (fixedDecimal 20 n.toNat).reverse ++ colon ::
          (bs "repl-outbox" ++ colon :: node.id).reverse := by
      simp [recordKey_eq]
    rw [hreverse, List.takeWhile_append_of_pos hall, List.takeWhile_cons_of_neg (by simp),
      List.append_nil, List.reverse_reverse]
  have hvalue : decimalValue (fixedDecimal 20 n.toNat) = n.toNat := by
    rw [decimalValue_fixedDecimal, Nat.mod_eq_of_lt (by omega)]
  have hcolon : colon ∈ recordKey node n.toNat := by simp [recordKey_eq]
  have hne : fixedDecimal 20 n.toNat ≠ [] := List.ne_nil_of_length_pos (by simp)
  simp only [keySeq, hdigits, hvalue]
  rw [if_pos ⟨hcolon, hne, all_isDigit_fixedDecimal _ _, by omega⟩]

/-! ## The invariant -/

/-- The store holds exactly the surviving records, each under a number of its own. -/
structure OutboxInv (s : OutboxState) : Prop where
  given : ∀ p ∈ s.surviving, p.1.toNat ≤ s.seq.toNat
  increasing : s.surviving.Pairwise fun p q => p.1.toNat < q.1.toNat
  stored : ∀ key entry, s.entries.get? key = some entry ↔
    ∃ p ∈ s.surviving, key = numberedKey p ∧ entry = marshalOutboxEntry p.2

namespace OutboxInv

variable {s : OutboxState}

lemma new (clock : Int64) : OutboxInv (.new clock) :=
  ⟨by simp [OutboxState.new], List.Pairwise.nil, by simp [OutboxState.new]⟩

lemma toNat_add_one {seq : UInt64} (h : seq.toNat + 1 < 2 ^ 64) :
    (seq + 1).toNat = seq.toNat + 1 := by
  rw [UInt64.toNat_add, UInt64.toNat_one, Nat.mod_eq_of_lt h]

/-- A stored key of the node has a number that was given before. -/
lemma key_lt (h : OutboxInv s) {key : Bytes} {entry : OutboxEntry}
    (hget : s.entries.get? key = some entry) {node : Node}
      (hid : keyNode key = node.id) {n : UInt64}
    (hn : s.seq.toNat < n.toNat) : key < recordKey node n.toNat := by
  obtain ⟨p, hp, rfl, -⟩ := (h.stored key entry).mp hget
  have hnode : p.2.node.id = node.id := (keyNode_recordKey p.2.node p.1.toNat).symm.trans hid
  exact (recordKey_lt_iff hnode p.1 n).mpr ((h.given p hp).trans_lt hn)

lemma get?_eq_none (h : OutboxInv s) (node : Node) {n : UInt64} (hn : s.seq.toNat < n.toNat) :
    s.entries.get? (recordKey node n.toNat) = none := by
  by_contra hsome
  obtain ⟨entry, hget⟩ := Option.ne_none_iff_exists'.mp hsome
  exact lt_irrefl _ (h.key_lt hget (keyNode_recordKey node n.toNat) hn)

/-- The next number is larger than all stored ones. -/
lemma putRecord (h : OutboxInv s) (hwrap : s.seq.toNat + 1 < 2 ^ 64) (record : ReplicationRecord) :
    OutboxInv (s.putRecord record) := by
  have hnext : (s.seq + 1).toNat = s.seq.toNat + 1 := toNat_add_one hwrap
  have hold : ∀ p ∈ s.surviving, p.1.toNat < (s.seq + 1).toNat := by
    intro p hp
    have := h.given p hp
    omega
  refine ⟨fun p hp => ?_, ?_, fun key entry => ?_⟩
  · rcases List.mem_append.mp hp with hp | hp
    · exact (hold p hp).le
    · rw [List.mem_singleton.mp hp]
      exact le_refl (s.seq + 1).toNat
  · refine List.pairwise_append.mpr ⟨h.increasing, List.pairwise_singleton _ _, fun p hp q hq => ?_⟩
    rw [List.mem_singleton.mp hq]
    exact hold p hp
  · show (s.entries.set _ _).get? key = some entry ↔ ∃ p ∈ s.surviving ++ [(s.seq + 1, record)], _
    rw [OrdMap.get?_set]
    split_ifs with hkey
    · -- the key is new, so the record is the only one under it
      constructor
      · intro heq
        exact ⟨_, List.mem_append_right _ (List.mem_singleton_self _), hkey,
          (Option.some.inj heq).symm⟩
      · rintro ⟨p, hp, hpkey, rfl⟩
        rcases List.mem_append.mp hp with hp | hp
        · have hstored := (h.stored key _).mpr ⟨p, hp, hpkey, rfl⟩
          rw [hkey, h.get?_eq_none record.node (by omega)] at hstored
          exact absurd hstored (by simp)
        · rw [List.mem_singleton.mp hp]
    · rw [h.stored]
      constructor
      · rintro ⟨p, hp, hpkey⟩
        exact ⟨p, List.mem_append_left _ hp, hpkey⟩
      · rintro ⟨p, hp, hpkey, hentry⟩
        rcases List.mem_append.mp hp with hp | hp
        · exact ⟨p, hp, hpkey, hentry⟩
        · rw [List.mem_singleton.mp hp] at hpkey
          exact absurd hpkey hkey

lemma foldl_putRecord (h : OutboxInv s) {records : List ReplicationRecord}
    (hwrap : s.seq.toNat + records.length < 2 ^ 64) :
    OutboxInv (records.foldl OutboxState.putRecord s) := by
  induction records generalizing s with
  | nil => exact h
  | cons record rest ih =>
      rw [List.length_cons] at hwrap
      refine ih (h.putRecord (by omega) record) ?_
      show (s.seq + 1).toNat + rest.length < 2 ^ 64
      rw [toNat_add_one (by omega)]
      omega

/-- Numbers can be left out. -/
lemma setSeq (h : OutboxInv s) {seq : UInt64} (hseq : ∀ p ∈ s.surviving, p.1.toNat ≤ seq.toNat) :
    OutboxInv { s with seq := seq } := ⟨hseq, h.increasing, h.stored⟩

lemma toNat_foldl_succ {seq : UInt64} {records : List ReplicationRecord}
    (hwrap : seq.toNat + records.length < 2 ^ 64) :
    (records.foldl (fun seq _ => seq + 1) seq).toNat = seq.toNat + records.length := by
  induction records generalizing seq with
  | nil => rfl
  | cons record rest ih =>
      rw [List.length_cons] at hwrap ⊢
      have hnext : (seq + 1).toNat = seq.toNat + 1 := toNat_add_one (by omega)
      rw [List.foldl_cons, ih (by omega), hnext]
      omega

lemma putBatch (h : OutboxInv s) {records : List ReplicationRecord}
    (hwrap : s.seq.toNat + records.length < 2 ^ 64) (commits : Bool) :
    OutboxInv (s.putBatch records commits) := by
  cases commits with
  | true => exact h.foldl_putRecord hwrap
  | false =>
      refine h.setSeq fun p hp => ?_
      have hp := h.given p hp
      rw [toNat_foldl_succ hwrap]
      omega

lemma deleteBatch (h : OutboxInv s) (keys : List Bytes) : OutboxInv (s.deleteBatch keys) := by
  refine ⟨fun p hp => h.given p (List.mem_filter.mp hp).1, h.increasing.filter _,
    fun key entry => ?_⟩
  simp only [OutboxState.deleteBatch]
  generalize keys.filter (fun key => decide (key ≠ [])) = gone
  rw [OrdMap.get?_foldl_erase fun key : Bytes => key]
  split_ifs with hgone
  · obtain ⟨_, hgone, rfl⟩ := hgone
    refine ⟨fun hnone => absurd hnone (by simp), ?_⟩
    rintro ⟨p, hp, rfl, -⟩
    exact absurd hgone (by simpa using (List.mem_filter.mp hp).2)
  · have hkept : key ∉ gone := fun hmem => hgone ⟨key, hmem, rfl⟩
    rw [h.stored]
    constructor
    · rintro ⟨p, hp, rfl, hentry⟩
      exact ⟨p, List.mem_filter.mpr ⟨hp, by simpa using hkept⟩, rfl, hentry⟩
    · rintro ⟨p, hp, hpkey⟩
      exact ⟨p, (List.mem_filter.mp hp).1, hpkey⟩

/-! ## Restarts

The sequence starts again from the clock or the largest stored number, whichever is greater. -/

/-- The loop never falls behind a key it has seen. -/
lemma le_scanKey (seq : UInt64) (key : Bytes) :
    seq.toNat ≤ (OutboxState.scanKey seq key).toNat ∧ ∀ n : UInt64, keySeq key = some n.toNat →
      n.toNat ≤ (OutboxState.scanKey seq key).toNat := by
  unfold OutboxState.scanKey
  cases hkey : keySeq key with
  | none => exact ⟨le_rfl, by simp⟩
  | some m =>
      have hm : m < 2 ^ 64 := by
        simp only [keySeq] at hkey
        split_ifs at hkey with hdigits
        obtain rfl := Option.some.inj hkey
        exact hdigits.2.2.2
      have hself : (UInt64.ofNat m).toNat = m := by
        rw [UInt64.toNat_ofNat', Nat.mod_eq_of_lt hm]
      dsimp only
      split_ifs with hlt
      · rw [hself]
        refine ⟨hlt.le, fun n hn => ?_⟩
        rw [← Option.some.inj hn]
      · refine ⟨le_rfl, fun n hn => ?_⟩
        have := Option.some.inj hn
        omega

/-- The scan ends behind every number it has met. -/
lemma le_scanSeq (seq : UInt64) (keys : List Bytes) :
    seq.toNat ≤ (OutboxState.scanSeq seq keys).toNat ∧
      ∀ key ∈ keys, ∀ n : UInt64, keySeq key = some n.toNat →
        n.toNat ≤ (OutboxState.scanSeq seq keys).toNat := by
  induction keys generalizing seq with
  | nil => exact ⟨le_rfl, by simp⟩
  | cons key rest ih =>
      rw [OutboxState.scanSeq, List.foldl_cons, ← OutboxState.scanSeq]
      obtain ⟨hseq, hnumber⟩ := le_scanKey seq key
      obtain ⟨hnext, hrest⟩ := ih (OutboxState.scanKey seq key)
      refine ⟨hseq.trans hnext, fun k hk n hn => ?_⟩
      rcases List.mem_cons.mp hk with rfl | hk
      · exact (hnumber n hn).trans hnext
      · exact hrest k hk n hn

lemma reopen (h : OutboxInv s) (clock : Int64) : OutboxInv (s.reopen clock) := by
  refine h.setSeq fun p hp => ?_
  have hget := (h.stored (numberedKey p) _).mpr ⟨p, hp, rfl, rfl⟩
  have hmem : numberedKey p ∈ s.entries.entries.map Prod.fst :=
    List.mem_map.mpr ⟨(numberedKey p, _), (OrdMap.mem_entries_iff _ _ _).mpr hget, rfl⟩
  exact (le_scanSeq _ _).2 _ hmem p.1 (keySeq_recordKey p.2.node p.1)

/-! ## The order -/

/-- Recovery walks the records of a node in the order in which they were put. -/
lemma recover_eq (h : OutboxInv s) (id : Bytes) :
    s.recover.filter (fun record => keyNode record.outboxKey = id) =
      (s.surviving.filter fun p => p.2.node.id = id).map fun p =>
        ⟨(marshalOutboxEntry p.2).node, (marshalOutboxEntry p.2).query, numberedKey p, none⟩ := by
  have hrows : s.entries.entries.filter (fun row => keyNode row.1 = id) =
      (s.surviving.filter fun p => p.2.node.id = id).map fun p =>
        (numberedKey p, marshalOutboxEntry p.2) := by
    refine eq_of_pairwise_of_mem_iff (r := fun a b : Bytes × OutboxEntry => a.1 < b.1)
      (fun a => lt_irrefl a.1) (fun a b hab => lt_asymm hab) (s.entries.sorted.filter _) ?_ ?_
    · refine List.pairwise_map.mpr ((h.increasing.filter _).imp_of_mem fun hp hq hlt => ?_)
      have hidp := (List.mem_filter.mp hp).2
      have hidq := (List.mem_filter.mp hq).2
      simp only [decide_eq_true_eq] at hidp hidq
      exact (recordKey_lt_iff (hidp.trans hidq.symm) _ _).mpr hlt
    · rintro ⟨key, entry⟩
      rw [List.mem_filter, OrdMap.mem_entries_iff, h.stored, List.mem_map]
      simp only [decide_eq_true_eq, List.mem_filter, Prod.mk.injEq]
      constructor
      · rintro ⟨⟨p, hp, rfl, rfl⟩, hid⟩
        exact ⟨p, ⟨hp, (keyNode_recordKey _ _).symm.trans hid⟩, rfl, rfl⟩
      · rintro ⟨p, ⟨hp, hid⟩, rfl, rfl⟩
        exact ⟨⟨p, hp, rfl, rfl⟩, (keyNode_recordKey _ _).trans hid⟩
  rw [OutboxState.recover, List.filter_map]
  have hfilter : s.entries.entries.filter ((fun record : ReplicationRecord =>
      decide (keyNode record.outboxKey = id)) ∘ fun row : Bytes × OutboxEntry =>
        ⟨row.2.node, row.2.query, row.1, none⟩) =
      s.entries.entries.filter fun row => keyNode row.1 = id := rfl
  rw [hfilter, hrows, List.map_map]
  rfl

end OutboxInv

/-- What the order of the outbox means in a state: the keys of a next batch, if the numbers do not
wrap around, are new and above the stored and earlier ones of their nodes, and recovery keeps the
order of the puts. -/
structure OutboxOrdered (s : OutboxState) : Prop where
  appended : ∀ records, (s.putBatch records true).surviving = s.surviving ++ numbered s.seq records
  greater : ∀ records : List ReplicationRecord, s.seq.toNat + records.length < 2 ^ 64 →
    ∀ p ∈ numbered s.seq records, ∀ key entry, s.entries.get? key = some entry →
      keyNode key = p.2.node.id → key < numberedKey p
  unused : ∀ records : List ReplicationRecord, s.seq.toNat + records.length < 2 ^ 64 →
    ∀ p ∈ numbered s.seq records, s.entries.get? (numberedKey p) = none
  batch : ∀ records : List ReplicationRecord, s.seq.toNat + records.length < 2 ^ 64 →
    (numbered s.seq records).Pairwise fun p q => numberedKey p ≠ numberedKey q ∧
      (p.2.node.id = q.2.node.id → numberedKey p < numberedKey q)
  recovered : ∀ id, s.recover.filter (fun record => keyNode record.outboxKey = id) =
    (s.surviving.filter fun p => p.2.node.id = id).map fun p =>
      ⟨(marshalOutboxEntry p.2).node, (marshalOutboxEntry p.2).query, numberedKey p, none⟩

lemma lt_of_mem_numbered {seq : UInt64} {records : List ReplicationRecord}
    (hwrap : seq.toNat + records.length < 2 ^ 64) {p : UInt64 × ReplicationRecord}
    (hp : p ∈ numbered seq records) : seq.toNat < p.1.toNat := by
  induction records generalizing seq with
  | nil => exact absurd hp List.not_mem_nil
  | cons record rest ih =>
      rw [List.length_cons] at hwrap
      have hnext : (seq + 1).toNat = seq.toNat + 1 := OutboxInv.toNat_add_one (by omega)
      rcases List.mem_cons.mp hp with rfl | hp
      · show seq.toNat < (seq + 1).toNat
        omega
      · have := ih (by omega) hp
        omega

lemma numbered_increasing {seq : UInt64} {records : List ReplicationRecord}
    (hwrap : seq.toNat + records.length < 2 ^ 64) :
    (numbered seq records).Pairwise fun p q => p.1.toNat < q.1.toNat := by
  induction records generalizing seq with
  | nil => exact List.Pairwise.nil
  | cons record rest ih =>
      rw [List.length_cons] at hwrap
      have hnext : (seq + 1).toNat = seq.toNat + 1 := OutboxInv.toNat_add_one (by omega)
      have hrest : (seq + 1).toNat + rest.length < 2 ^ 64 := by omega
      exact List.pairwise_cons.mpr ⟨fun q hq => lt_of_mem_numbered hrest hq, ih hrest⟩

/-- The order is read off the numbers. -/
lemma OutboxInv.ordered {s : OutboxState} (h : OutboxInv s) : OutboxOrdered s where
  appended := surviving_putBatch s
  greater records hwrap p hp key entry hget hid :=
    h.key_lt hget hid (lt_of_mem_numbered hwrap hp)
  unused records hwrap p hp := h.get?_eq_none p.2.node (lt_of_mem_numbered hwrap hp)
  batch records hwrap := by
    refine (numbered_increasing hwrap).imp fun {p q} hlt => ⟨fun heq => ?_, fun hid => ?_⟩
    · have hnumbers := congrArg keySeq heq
      rw [numberedKey, numberedKey, keySeq_recordKey, keySeq_recordKey] at hnumbers
      have := Option.some.inj hnumbers
      omega
    · exact (recordKey_lt_iff hid p.1 q.1).mpr hlt
  recovered := h.recover_eq

/-- The numbers do not wrap around. -/
def OutboxState.NoWrap (s : OutboxState) : OutboxEvent → Prop
  | .put records _ => s.seq.toNat + records.length < 2 ^ 64
  | _ => True

instance (s : OutboxState) (e : OutboxEvent) : Decidable (s.NoWrap e) := by
  unfold OutboxState.NoWrap
  split <;> infer_instance

/-- Every operation keeps the invariant while numbers do not wrap around. -/
lemma OutboxInv.step {s s' : OutboxState} {e : OutboxEvent} (h : OutboxInv s) (he : s.NoWrap e)
    (hstep : s.step e = some s') : OutboxInv s' := by
  cases e with
  | put records commits =>
      obtain rfl := Option.some.inj hstep
      exact h.putBatch he commits
  | delete keys =>
      obtain rfl := Option.some.inj hstep
      exact h.deleteBatch keys
  | restart clock =>
      obtain rfl := Option.some.inj hstep
      exact h.reopen clock

/-- **The order of the outbox survives** puts, deletions and restarts with any clock, for all node
ids, in every run in which the numbers do not wrap around. -/
theorem outbox_order_survives {clock : Int64} {events : List OutboxEvent} {s : OutboxState}
    (hwrap : Machine.Along OutboxState.step OutboxState.NoWrap (.new clock) events)
    (hrun : Machine.run OutboxState.step (.new clock) events = some s) : OutboxOrdered s :=
  (Machine.run_invariant_along (fun h he hstep => OutboxInv.step h he hstep) (OutboxInv.new clock)
    hwrap hrun).ordered

def sampleRecord : ReplicationRecord := { node := ⟨bs "n:1", bs "a"⟩, query := bs "q" }

/-- Two records, one of them delivered, and a restart with a clock that went back. -/
theorem outbox_order_survives_sample :
    ∃ s, Machine.run OutboxState.step (.new 5)
      [.put [sampleRecord, sampleRecord] true,
        .delete [recordKey sampleRecord.node 6], .restart 3] =
        some s ∧ OutboxOrdered s := by
  have hwrap : Machine.Along OutboxState.step OutboxState.NoWrap (.new 5)
      [.put [sampleRecord, sampleRecord] true, .delete [recordKey sampleRecord.node 6],
        .restart 3] := by decide +kernel
  exact ⟨_, rfl, outbox_order_survives hwrap rfl⟩

/-- A clock one nanosecond before 1970 is the highest number there is: the next record gets the
number zero, below the record that is stored. -/
theorem outbox_order_lost :
    ∃ s, Machine.run OutboxState.step (.new 5) [.put [sampleRecord] true, .restart (-1)] = some s ∧
      s.entries.get? (recordKey sampleRecord.node 6) = some (marshalOutboxEntry sampleRecord) ∧
      (numbered s.seq [sampleRecord]).map numberedKey = [recordKey sampleRecord.node 0] ∧
      recordKey sampleRecord.node 0 < recordKey sampleRecord.node 6 := by
  refine ⟨_, rfl, ?_, ?_, ?_⟩
  · decide +kernel
  · decide +kernel
  · decide +kernel

end FlameDB
