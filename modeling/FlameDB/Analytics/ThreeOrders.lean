import FlameDB.Aggregates.Ranking
import FlameDB.Analytics.CacheAgreement

/-!
# One ranking order in three encodings

A leaderboard entry is ranked by the position of its key in the two passes of `TopN`, by the bytes
of its Redis member and by the SQL `ORDER BY`.  The three orders are compared entry against entry:
each is `rankLe`, the order by descending score with ties by id, ascending for scores from zero on
and descending below.

* `ScanBefore` — the order in which the two passes meet two keys, and `scannedKeys_pairwise`.
* `scanBefore_rankingKey_iff` — on ranking keys it is the ranking order.
* **`rankings_agree`** — key scan, member bytes and SQL order place any two entries alike, and a
  member reads back as its entry.
-/

namespace FlameDB.Analytics

open Go KV

/-! ## The order of the key scan -/

/-- The ranking key the leaderboard writes for an entry; a zero score loses its sign first. -/
def rankingKey (bm : Bytes) (a : LeaderboardEntry) : Bytes := lbKey bm a.entityID a.value.canonical

/-- The keys in the order `TopN` meets them: upwards from the boundary, then downwards from it. -/
def scannedKeys (db : Store) (bm : Bytes) : List Bytes :=
  (forwardRows db bm ++ (backwardRows db bm).reverse).map Prod.fst

/-- The boundary between the keys of the two passes. -/
def scanSplit (bm : Bytes) : Bytes := bs "lb" ++ colon :: (component bm ++ [colon]) ++ [0x80]

/-- The scan meets `k` before `k'`. -/
def ScanBefore (split k k' : Bytes) : Prop :=
  if split ≤ k then k' < split ∨ k < k' else k' < k

lemma ScanBefore.asymm {split k k' : Bytes} (h : ScanBefore split k k') :
    ¬ ScanBefore split k' k := by
  intro h'
  unfold ScanBefore at h h'
  split_ifs at h h' with hk hk' hk'
  · rcases h with h | h
    · exact not_lt.mpr hk' h
    · exact h'.elim (not_lt.mpr hk) (lt_asymm h)
  · exact not_lt.mpr hk (h'.trans (not_le.mp hk'))
  · exact hk (hk'.trans h.le)
  · exact lt_asymm h h'

lemma scannedKeys_pairwise (db : Store) (bm : Bytes) :
    (scannedKeys db bm).Pairwise (ScanBefore (scanSplit bm)) := by
  have hlow : ∀ row ∈ backwardRows db bm, row.1 < scanSplit bm := by
    rintro ⟨k, v⟩ hrow
    exact ((OrdMap.mem_range_iff _ _ _ _ _).mp hrow).2.2
  have hhigh : ∀ row ∈ forwardRows db bm, scanSplit bm ≤ row.1 := by
    rintro ⟨k, v⟩ hrow
    exact ((OrdMap.mem_range_iff _ _ _ _ _).mp hrow).2.1
  rw [scannedKeys, List.pairwise_map, List.pairwise_append]
  refine ⟨(OrdMap.range_sorted db _ _).imp_of_mem ?_, ?_, ?_⟩
  · intro x y hx _ hlt
    rw [ScanBefore, if_pos (hhigh x hx)]
    exact Or.inr hlt
  · refine List.pairwise_reverse.mpr ((OrdMap.range_sorted db _ _).imp_of_mem ?_)
    intro x y _ hy hlt
    rw [ScanBefore, if_neg (not_le.mpr (hlow y hy))]
    exact hlt
  · intro x hx y hy
    rw [ScanBefore, if_pos (hhigh x hx)]
    exact Or.inl (hlow y (List.mem_reverse.mp hy))

/-- Every ranking key a store holds is scanned. -/
lemma rankingKey_mem_scannedKeys {db : Store} {bm : Bytes} {a : LeaderboardEntry}
    (h : (db.get? (rankingKey bm a)).isSome = true) : rankingKey bm a ∈ scannedKeys db bm := by
  obtain ⟨v, hv⟩ := Option.isSome_iff_exists.mp h
  have hbounds := (between_succ_iff (bs "lb" ++ colon :: component bm) colon 0x3b (by decide)
    (rankingKey bm a)).mpr ⟨_, by simp [rankingKey, lbKey]; rfl⟩
  simp only [List.append_assoc, List.cons_append] at hbounds
  simp only [scannedKeys, List.map_append, List.map_reverse, List.mem_append, List.mem_reverse,
    List.mem_map]
  rcases le_or_gt (scanSplit bm) (rankingKey bm a) with hle | hlt
  · exact Or.inl ⟨_, (OrdMap.mem_range_iff _ _ _ _ _).mpr ⟨hv, hle, hbounds.2⟩, rfl⟩
  · exact Or.inr ⟨_, (OrdMap.mem_range_iff _ _ _ _ _).mpr ⟨hv, hbounds.1, hlt⟩, rfl⟩

/-- Of two members of a list one stands before the other. -/
lemma pair_sublist_or {α : Type*} {l : List α} {x y : α} (hx : x ∈ l) (hy : y ∈ l) (hne : x ≠ y) :
    [x, y].Sublist l ∨ [y, x].Sublist l := by
  induction l with
  | nil => exact absurd hx List.not_mem_nil
  | cons z l ih =>
      rcases List.mem_cons.mp hx with rfl | hx'
      · have hy' := (List.mem_cons.mp hy).resolve_left hne.symm
        exact Or.inl ((List.singleton_sublist.mpr hy').cons_cons _)
      · rcases List.mem_cons.mp hy with rfl | hy'
        · exact Or.inr ((List.singleton_sublist.mpr hx').cons_cons y)
        · exact (ih hx' hy').imp (.cons z) (.cons z)

/-- In a list sorted by an asymmetric order, the order says which member comes first. -/
lemma pair_sublist_iff {α : Type*} {R : α → α → Prop} (hR : ∀ x y, R x y → ¬ R y x) {l : List α}
    (hl : l.Pairwise R) {x y : α} (hx : x ∈ l) (hy : y ∈ l) : [x, y].Sublist l ↔ R x y := by
  have hsub : ∀ u v, [u, v].Sublist l → R u v := fun _ _ => List.pairwise_iff_forall_sublist.mp hl
  refine ⟨hsub x y, fun hxy => ?_⟩
  have hne : x ≠ y := by
    rintro rfl
    exact hR x x hxy hxy
  exact (pair_sublist_or hx hy hne).resolve_right fun h => hR _ _ hxy (hsub y x h)

/-- **Ranking keys are met in ranking order**: descending scores, ids ascending among equal scores
from zero on and descending among equal scores below zero. -/
lemma scanBefore_rankingKey_iff (bm : Bytes) {a b : LeaderboardEntry}
    (ha : a.value.isFinite = true) (hb : b.value.isFinite = true) :
    ScanBefore (scanSplit bm) (rankingKey bm a) (rankingKey bm b) ↔ ¬ rankLe b a = true := by
  have hca := Float64.canonical_of_isFinite ha
  have hcb := Float64.canonical_of_isFinite hb
  have hsplit : ∀ c : LeaderboardEntry,
      scanSplit bm ≤ rankingKey bm c ↔ c.value.canonical.negative = false :=
    fun c => split_le_lbKey_iff bm c.entityID c.value.canonical
  have heq : a.value.canonical = b.value.canonical ↔ a.value.units = b.value.units := by
    rw [← units_canonical a.value, ← units_canonical b.value]
    exact ⟨congrArg _, hca.eq_of_units hcb⟩
  rw [← memberOf_lt_iff ha hb, memberOf, memberOf, encodeMember_lt_iff ha hb, ScanBefore,
    ← not_le (a := scanSplit bm)]
  simp only [hsplit]
  rw [rankingKey, rankingKey, lbKey_lt_iff, lbKey_lt_iff, eq_comm (a := b.value.canonical), heq,
    ← units_canonical a.value, ← units_canonical b.value]
  generalize a.value.canonical = x at hca
  generalize b.value.canonical = y at hcb
  cases hx : x.negative with
  | false =>
      have hx0 := Float64.units_nonneg hx
      cases hy : y.negative with
      | false => simp [Float64.units_lt_iff_of_nonneg hy hx, not_lt.mpr hx0]
      | true =>
          have hlt : y.units < x.units := (hcb.units_neg hy).trans_le hx0
          simp [hlt]
  | true =>
      have hx0 := hca.units_neg hx
      cases hy : y.negative with
      | false =>
          have hlt : x.units < y.units := hx0.trans_le (Float64.units_nonneg hy)
          have hbits : y.bits.toNat < x.bits.toNat := by
            simp only [Float64.negative, decide_eq_true_eq, decide_eq_false_iff_not] at hx hy
            omega
          simp [hlt.ne, hlt.le, hbits.le, not_lt.mpr]
      | true => simp [Float64.units_lt_iff_of_negative hy hx, hx0]

/-! ## The three orders -/

/-- PostgreSQL lists the row `x` before the row `y`. -/
def RowBefore (x y : Bytes × Float64) : Prop := scoreOrder x y = true ∧ ¬ scoreOrder y x = true

instance (x y : Bytes × Float64) : Decidable (RowBefore x y) := inferInstanceAs (Decidable (_ ∧ _))

lemma rowBefore_rowOf_iff (a b : LeaderboardEntry) :
    RowBefore (rowOf a) (rowOf b) ↔ ¬ rankLe b a = true := by
  rw [RowBefore, scoreOrder_rowOf, scoreOrder_rowOf]
  refine ⟨fun h => h.2, fun h => ⟨?_, h⟩⟩
  have htotal := rankLe_total a b
  rw [Bool.or_eq_true] at htotal
  exact htotal.resolve_right h

/-- **Key scan, member bytes and SQL order rank alike.**  Take two entries with finite scores and
any byte strings as ids, and any store that holds their ranking keys.  `TopN` meets the key of the
first before the key of the second exactly when the member of the first is the smaller byte string,
and exactly when PostgreSQL lists its row first.  A member is read back as the entry it was made
from, a zero without its sign. -/
theorem rankings_agree (db : Store) (bm : Bytes) (a b : LeaderboardEntry)
    (ha : a.value.isFinite = true) (hb : b.value.isFinite = true)
    (hka : (db.get? (rankingKey bm a)).isSome = true)
    (hkb : (db.get? (rankingKey bm b)).isSome = true) :
    ([rankingKey bm a, rankingKey bm b].Sublist (scannedKeys db bm) ↔
        encodeMember a.value a.entityID < encodeMember b.value b.entityID) ∧
      (encodeMember a.value a.entityID < encodeMember b.value b.entityID ↔
        RowBefore (encodeString a.entityID, a.value) (encodeString b.entityID, b.value)) ∧
      decodeMember (encodeMember a.value a.entityID) = .ok ⟨a.entityID, a.value.canonical⟩ := by
  have hmember : encodeMember a.value a.entityID < encodeMember b.value b.entityID ↔
      ¬ rankLe b a = true := memberOf_lt_iff ha hb
  refine ⟨?_, ?_, decodeMember_encodeMember ha a.entityID⟩
  · rw [pair_sublist_iff (fun _ _ => ScanBefore.asymm) (scannedKeys_pairwise db bm)
      (rankingKey_mem_scannedKeys hka) (rankingKey_mem_scannedKeys hkb),
      scanBefore_rankingKey_iff bm ha hb, hmember]
  · rw [hmember]
    exact (rowBefore_rowOf_iff a b).symm

/-- Two negative scores that tie, one id a proper beginning of the other: the longer id is first. -/
theorem rankings_agree_tie :
    [rankingKey (bs "m") ⟨bs "pa", Float64.ofBits 0xBFF0000000000000⟩,
      rankingKey (bs "m") ⟨bs "p", Float64.ofBits 0xBFF0000000000000⟩].Sublist
        (scannedKeys (OrdMap.set (OrdMap.set ∅
          (rankingKey (bs "m") ⟨bs "p", Float64.ofBits 0xBFF0000000000000⟩) (.bytes []))
          (rankingKey (bs "m") ⟨bs "pa", Float64.ofBits 0xBFF0000000000000⟩) (.bytes []))
          (bs "m")) :=
  (rankings_agree _ _ _ _ (by decide +kernel) (by decide +kernel) (by decide +kernel)
    (by decide +kernel)).1.mpr (by decide +kernel)

end FlameDB.Analytics
