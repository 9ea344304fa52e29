import FlameDB.Aggregates.Leaderboard
import FlameDB.Storage.Index

/-!
# Leaderboards as maps from entities to scores

The abstract leaderboard of a metric and board is a finite map from entities to scores.  `LBInv`
relates it to the two key families of the store, for arbitrary bytes in entity ids; the writers
keep it (`LBInv.stageScore`, `LBInv.stageRemove`) as long as the caller passes the score an entity
really has, and then the readers answer from the map:

* `LBInv.get_eq`, `LBInv.existsEntry_eq` — point lookups;
* `LBInv.mem_rankRows` — the rows of a board are the entries of its map;
* `LBInv.store_ext` — two stores with the same map agree as soon as they agree on all other keys.
-/

namespace FlameDB

open Go KV

/-- The scores of every metric and board. -/
def Scores := Bytes → Bytes → OrdMap Bytes Float64

namespace Scores

/-- Change one board. -/
def update (σ : Scores) (m b : Bytes) (f : OrdMap Bytes Float64 → OrdMap Bytes Float64) : Scores :=
  fun m' b' => if m' = m ∧ b' = b then f (σ m b) else σ m' b'

/-- Sets one score. -/
def put (σ : Scores) (m b e : Bytes) (s : Float64) : Scores :=
  σ.update m b fun board => board.set e s

/-- Takes an entity off a board. -/
def remove (σ : Scores) (m b e : Bytes) : Scores := σ.update m b fun board => board.erase e

lemma get?_put (σ : Scores) (m b e : Bytes) (s : Float64) (m' b' e' : Bytes) :
    (σ.put m b e s m' b').get? e' =
      if m' = m ∧ b' = b ∧ e' = e then some s else (σ m' b').get? e' := by
  unfold put update
  by_cases h : m' = m ∧ b' = b
  · obtain ⟨rfl, rfl⟩ := h
    simp [OrdMap.get?_set]
  · rw [if_neg h, if_neg fun hc => h ⟨hc.1, hc.2.1⟩]

lemma get?_remove (σ : Scores) (m b e : Bytes) (m' b' e' : Bytes) :
    (σ.remove m b e m' b').get? e' =
      if m' = m ∧ b' = b ∧ e' = e then none else (σ m' b').get? e' := by
  unfold remove update
  by_cases h : m' = m ∧ b' = b
  · obtain ⟨rfl, rfl⟩ := h
    simp [OrdMap.get?_erase]
  · rw [if_neg h, if_neg fun hc => h ⟨hc.1, hc.2.1⟩]

end Scores

/-- **The score keys of the store are those of the map.** -/
structure LBInv (db : Store) (σ : Scores) : Prop where
  entity : ∀ m b e, unitSep ∉ m → lookup db (.entity m b e) =
    ((σ m b).get? e).map fun s => .bytes (encodeFloat64 s)
  rank : ∀ m b e s, unitSep ∉ m → lookup db (.rank m b e s) =
    if (σ m b).get? e = some s then some (.entryDoc ⟨toValidUtf8 e, s⟩) else none
  canonical : ∀ m b e s, (σ m b).get? e = some s → s.Canonical
  named : ∀ m b e s, (σ m b).get? e = some s → unitSep ∉ m

lemma lbInv_empty : LBInv ∅ fun _ _ => ∅ where
  entity := by intro m b e _; simp [lookup]
  rank := by intro m b e s _; simp [lookup]
  canonical := by intro m b e s h; simp at h
  named := by intro m b e s h; simp at h

/-- No scores under a name with a separator. -/
lemma LBInv.get?_eq_none {db : Store} {σ : Scores} (h : LBInv db σ) {m : Bytes} (hm : unitSep ∈ m)
    (b e : Bytes) : (σ m b).get? e = none :=
  Option.eq_none_iff_forall_ne_some.mpr fun s hs => h.named m b e s hs hm

/-- The items of the two score families. -/
def Key.IsScore : Key → Prop
  | .rank .. => True
  | .entity .. => True
  | _ => False

lemma LBInv.congr {db db' : Store} {σ : Scores} (h : LBInv db σ)
    (hsame : ∀ K : Key, K.WF → K.IsScore → lookup db' K = lookup db K) : LBInv db' σ where
  entity := fun m b e hm => (hsame (.entity m b e) hm trivial).trans (h.entity m b e hm)
  rank := fun m b e s hm => (hsame (.rank m b e s) hm trivial).trans (h.rank m b e s hm)
  canonical := h.canonical
  named := h.named

@[simp] lemma decodeFloat64_encodeFloat64 (s : Float64) :
    decodeFloat64 (.bytes (encodeFloat64 s)) = some s := by
  have := s.bits.isLt
  simp only [decodeFloat64, encodeFloat64, beBytes_length, if_true, beNat_beBytes]
  rw [Nat.mod_eq_of_lt (by omega)]
  simp [Float64.ofBits]

/-! ## Writing a score

Two keys change together. Every other key stays, which is what later frame arguments use. -/

/-- A key of one of the two score families. -/
def IsScoreKey (k : Bytes) : Prop :=
  ∃ body, k = bs "lb" ++ colon :: body ∨ k = bs "lb-entity" ++ colon :: body

lemma isScoreKey_lbKey (bm e : Bytes) (s : Float64) : IsScoreKey (lbKey bm e s) :=
  ⟨_, Or.inl rfl⟩

lemma isScoreKey_lbEntityKey (bm e : Bytes) : IsScoreKey (lbEntityKey bm e) := ⟨_, Or.inr rfl⟩

/-- The two stores differ in score keys at most. -/
def AgreeOffScores (db db' : Store) : Prop := ∀ k, ¬ IsScoreKey k → db'.get? k = db.get? k

lemma AgreeOffScores.refl (db : Store) : AgreeOffScores db db := fun _ _ => rfl

lemma AgreeOffScores.trans {db db' db'' : Store} (h : AgreeOffScores db db')
    (h' : AgreeOffScores db' db'') : AgreeOffScores db db'' :=
  fun k hk => (h' k hk).trans (h k hk)

/-- What staging a finite score amounts to. -/
lemma stageValueFromCurrent_put (batch : Store) (bm e : Bytes) (current : Float64) {v : Float64}
    (hv : v.isFinite = true) :
    Leaderboard.stageValueFromCurrent batch bm e current v false =
      .ok (((batch.erase (lbKey bm e current)).set (lbKey bm e v.canonical)
        (.entryDoc ⟨toValidUtf8 e, v.canonical⟩)).set (lbEntityKey bm e)
        (.bytes (encodeFloat64 v.canonical))) := by
  have hfin := (Float64.canonical_of_isFinite hv).1
  simp [Leaderboard.stageValueFromCurrent, hv, marshalEntry, hfin, bind, Except.bind, pure,
    Except.pure]

lemma lookup_put (batch : Store) {m : Bytes} (b e : Bytes) (current v : Float64) (d w : Value)
    (hm : unitSep ∉ m) {K : Key} (hK : K.WF) :
    lookup (((batch.erase (Key.rank m b e current).encode).set (Key.rank m b e v).encode d).set
        (Key.entity m b e).encode w) K =
      if K = .entity m b e then some w
      else if K = .rank m b e v then some d
      else if K = .rank m b e current then none
      else lookup batch K := by
  rw [lookup_set _ (k := .entity m b e) hm hK, lookup_set _ (k := .rank m b e v) hm hK,
    lookup_erase _ (k := .rank m b e current) hm hK]

/-- **Staging a score moves the map**, provided the caller knows the current one. -/
theorem LBInv.stageScore {batch : Store} {σ : Scores} (h : LBInv batch σ) {m b e : Bytes}
    (hm : unitSep ∉ m) {current v : Float64} (hv : v.isFinite = true)
    (hcur : ∀ s, (σ m b).get? e = some s → current = s) :
    ∃ batch', Leaderboard.stageValueFromCurrent batch (boardMetric m b) e current v false =
        .ok batch' ∧ LBInv batch' (σ.put m b e v.canonical) ∧
      (StoreInv batch → StoreInv batch') ∧
      AgreeOffScores batch batch' := by
  have hlook := @lookup_put batch m b e current v.canonical
    (.entryDoc ⟨toValidUtf8 e, v.canonical⟩) (.bytes (encodeFloat64 v.canonical)) hm
  refine ⟨_, stageValueFromCurrent_put batch _ e current hv, ⟨?_, ?_, ?_, ?_⟩, ?_, ?_⟩
  · intro m' b' e' hm'
    rw [Scores.get?_put]
    refine (hlook (K := .entity m' b' e') hm').trans ?_
    by_cases hk : m' = m ∧ b' = b ∧ e' = e
    · obtain ⟨rfl, rfl, rfl⟩ := hk
      simp
    · rw [if_neg (by rintro ⟨⟩; exact hk ⟨rfl, rfl, rfl⟩), if_neg (by simp), if_neg (by simp),
        if_neg hk]
      exact h.entity m' b' e' hm'
  · intro m' b' e' s hm'
    rw [Scores.get?_put]
    refine (hlook (K := .rank m' b' e' s) hm').trans ?_
    rw [if_neg (by simp)]
    by_cases hk : m' = m ∧ b' = b ∧ e' = e
    · obtain ⟨rfl, rfl, rfl⟩ := hk
      simp only [Key.rank.injEq, true_and, and_self, if_true, Option.some.injEq]
      by_cases hs : s = v.canonical
      · rw [if_pos hs, if_pos hs.symm, hs]
      · rw [if_neg hs, if_neg (Ne.symm hs), h.rank m' b' e' s hm']
        split_ifs with h1 h2
        · rfl
        · exact absurd (hcur s h2).symm h1
        · rfl
    · rw [if_neg (by rintro ⟨⟩; exact hk ⟨rfl, rfl, rfl⟩),
        if_neg (by rintro ⟨⟩; exact hk ⟨rfl, rfl, rfl⟩), if_neg hk]
      exact h.rank m' b' e' s hm'
  · intro m' b' e' s hs
    rw [Scores.get?_put] at hs
    split_ifs at hs
    · cases hs
      exact Float64.canonical_of_isFinite hv
    · exact h.canonical m' b' e' s hs
  · intro m' b' e' s hs
    rw [Scores.get?_put] at hs
    split_ifs at hs with hk
    · rw [hk.1]
      exact hm
    · exact h.named m' b' e' s hs
  · intro hinv
    exact ((hinv.erase _).set_notEvent (K := .rank m b e v.canonical) hm trivial _).set_notEvent
      (K := .entity m b e) hm trivial _
  · intro k hk
    rw [OrdMap.get?_set_of_ne, OrdMap.get?_set_of_ne, OrdMap.get?_erase_of_ne]
    · exact fun heq => hk (heq ▸ isScoreKey_lbKey _ _ _)
    · exact fun heq => hk (heq ▸ isScoreKey_lbKey _ _ _)
    · exact fun heq => hk (heq ▸ isScoreKey_lbEntityKey _ _)

/-- **Staging a removal.** -/
theorem LBInv.stageRemove {batch : Store} {σ : Scores} (h : LBInv batch σ) {m b e : Bytes}
    (hm : unitSep ∉ m) {current v : Float64} (hcur : ∀ s, (σ m b).get? e = some s → current = s) :
    ∃ batch', Leaderboard.stageValueFromCurrent batch (boardMetric m b) e current v true =
        .ok batch' ∧ LBInv batch' (σ.remove m b e) ∧
      (StoreInv batch → StoreInv batch') ∧
      AgreeOffScores batch batch' := by
  have hlook : ∀ {K : Key}, K.WF →
      lookup ((batch.erase (Key.rank m b e current).encode).erase (Key.entity m b e).encode) K =
        if K = .entity m b e then none else if K = .rank m b e current then none
        else lookup batch K := by
    intro K hK
    rw [lookup_erase _ (k := .entity m b e) hm hK, lookup_erase _ (k := .rank m b e current) hm hK]
  refine ⟨_, rfl, ⟨?_, ?_, ?_, ?_⟩, ?_, ?_⟩
  · intro m' b' e' hm'
    rw [Scores.get?_remove]
    refine (hlook (K := .entity m' b' e') hm').trans ?_
    by_cases hk : m' = m ∧ b' = b ∧ e' = e
    · obtain ⟨rfl, rfl, rfl⟩ := hk
      simp
    · rw [if_neg (by rintro ⟨⟩; exact hk ⟨rfl, rfl, rfl⟩), if_neg (by simp), if_neg hk]
      exact h.entity m' b' e' hm'
  · intro m' b' e' s hm'
    rw [Scores.get?_remove]
    refine (hlook (K := .rank m' b' e' s) hm').trans ?_
    rw [if_neg (by simp)]
    by_cases hk : m' = m ∧ b' = b ∧ e' = e
    · obtain ⟨rfl, rfl, rfl⟩ := hk
      simp only [Key.rank.injEq, true_and, and_self, if_true, reduceCtorEq, if_false]
      rw [h.rank m' b' e' s hm']
      split_ifs with h1 h2
      · rfl
      · exact absurd (hcur s h2).symm h1
      · rfl
    · rw [if_neg (by rintro ⟨⟩; exact hk ⟨rfl, rfl, rfl⟩), if_neg hk]
      exact h.rank m' b' e' s hm'
  · intro m' b' e' s hs
    rw [Scores.get?_remove] at hs
    split_ifs at hs
    exact h.canonical m' b' e' s hs
  · intro m' b' e' s hs
    rw [Scores.get?_remove] at hs
    split_ifs at hs with hk
    exact h.named m' b' e' s hs
  · intro hinv
    exact (hinv.erase _).erase _
  · intro k hk
    rw [OrdMap.get?_erase_of_ne, OrdMap.get?_erase_of_ne]
    · exact fun heq => hk (heq ▸ isScoreKey_lbKey _ _ _)
    · exact fun heq => hk (heq ▸ isScoreKey_lbEntityKey _ _)

/-! ## Reading scores -/

/-- A ranking key is the key of some metric, board, entity and score. -/
lemma Keyed.rank_of_front {db : Store} (h : Keyed db) {y : Bytes} {v : Value}
    (hv : db.get? (bs "lb" ++ colon :: y) = some v) :
    ∃ m b e s, unitSep ∉ m ∧ y = (Key.rank m b e s).body := by
  rcases h.of_front (by decide) hv with hbg | ⟨K, hK, hfam, rfl⟩
  · exact absurd hbg (by decide)
  · cases K with
    | rank m b e s => exact ⟨m, b, e, s, hK, rfl⟩
    | event m t => exact absurd hfam (Key.component_ne_reserved hK.2 (by decide))
    | _ => exact absurd hfam (by simp only [Key.family]; decide)

/-- An entity key is the key of some metric, board and entity. -/
lemma Keyed.entity_of_front {db : Store} (h : Keyed db) {y : Bytes} {v : Value}
    (hv : db.get? (bs "lb-entity" ++ colon :: y) = some v) :
    ∃ m b e, unitSep ∉ m ∧ y = (Key.entity m b e).body := by
  rcases h.of_front (by decide) hv with hbg | ⟨K, hK, hfam, rfl⟩
  · exact absurd hbg (by decide)
  · cases K with
    | entity m b e => exact ⟨m, b, e, hK, rfl⟩
    | event m t => exact absurd hfam (Key.component_ne_reserved hK.2 (by decide))
    | _ => exact absurd hfam (by simp only [Key.family]; decide)

/-- The score of an entity on a board. -/
def scoreAt (db : Store) (m b e : Bytes) : Option Float64 :=
  (lookup db (.entity m b e)).bind decodeFloat64

lemma scoreAt_eq {db : Store} {σ : Scores} (hσ : LBInv db σ) {m : Bytes} (hm : unitSep ∉ m)
    (b e : Bytes) : scoreAt db m b e = (σ m b).get? e := by
  rw [scoreAt, hσ.entity m b e hm]
  cases (σ m b).get? e <;> simp

/-- A stored ranking key belongs to an entity with that score. -/
lemma LBInv.rank_some_iff {db : Store} {σ : Scores} (h : LBInv db σ) {m : Bytes}
    (hm : unitSep ∉ m) (b e : Bytes) (s : Float64) (v : Value) :
    lookup db (.rank m b e s) = some v ↔
      (σ m b).get? e = some s ∧ v = .entryDoc ⟨toValidUtf8 e, s⟩ := by
  rw [h.rank m b e s hm]
  split_ifs with hs
  · simp [hs, eq_comm]
  · simp [hs]

/-- **The rows of a board are the entries of its map.** -/
theorem LBInv.mem_rankRows {db : Store} {σ : Scores} (h : LBInv db σ) (hkeyed : Keyed db)
    {m : Bytes} (hm : unitSep ∉ m) (b : Bytes) (row : Bytes × Value) :
    row ∈ rankRows db (boardMetric m b) ↔ ∃ e s, (σ m b).get? e = some s ∧
      row = (lbKey (boardMetric m b) e s, .entryDoc ⟨toValidUtf8 e, s⟩) := by
  obtain ⟨key, v⟩ := row
  have hbounds := between_succ_iff (bs "lb" ++ colon :: component (boardMetric m b)) colon 0x3b
    (by decide) key
  simp only [List.append_assoc, List.cons_append] at hbounds
  rw [rankRows, OrdMap.mem_range_iff, hbounds]
  constructor
  · rintro ⟨hget, y, rfl⟩
    obtain ⟨m', b', e, s, hm', hbody⟩ := hkeyed.rank_of_front hget
    simp only [List.nil_append, Key.body] at hbody
    obtain ⟨hbm, hy⟩ := append_cons_inj (by simp) (by simp) hbody
    obtain ⟨rfl, rfl⟩ := boardMetric_inj hm hm' (component_injective hbm)
    subst hy
    obtain ⟨hs, rfl⟩ := (h.rank_some_iff hm b e s v).mp hget
    exact ⟨e, s, hs, rfl⟩
  · rintro ⟨e, s, hs, hrow⟩
    obtain ⟨rfl, rfl⟩ := Prod.mk.inj hrow
    exact ⟨(h.rank_some_iff hm b e s _).mpr ⟨hs, rfl⟩, _, rfl⟩

/-- `Get` answers from the map, or from a legacy scan for an absent entity. -/
lemma LBInv.get_eq {db : Store} {σ : Scores} (h : LBInv db σ) {m : Bytes} (hm : unitSep ∉ m)
    (b e : Bytes) : Leaderboard.get db (boardMetric m b) e =
      ((σ m b).get? e).getD (legacyScan db (boardMetric m b) e) := by
  have hent : db.get? (lbEntityKey (boardMetric m b) e) = _ := h.entity m b e hm
  unfold Leaderboard.get
  rw [hent]
  cases (σ m b).get? e with
  | none => rfl
  | some s => simp

lemma LBInv.get_of_some {db : Store} {σ : Scores} (h : LBInv db σ) {m : Bytes} (hm : unitSep ∉ m)
    {b e : Bytes} {s : Float64} (hs : (σ m b).get? e = some s) :
    Leaderboard.get db (boardMetric m b) e = s := by
  rw [h.get_eq hm, hs]
  rfl

lemma LBInv.existsEntry_eq {db : Store} {σ : Scores} (h : LBInv db σ) {m : Bytes}
    (hm : unitSep ∉ m) (b e : Bytes) :
    Leaderboard.existsEntry db (boardMetric m b) e = ((σ m b).get? e).isSome := by
  have hent : db.get? (lbEntityKey (boardMetric m b) e) = _ := h.entity m b e hm
  unfold Leaderboard.existsEntry
  rw [hent]
  cases (σ m b).get? e <;> rfl

/-- The legacy scan finds nothing unless some other id on the board reads back as this one. -/
lemma LBInv.legacyScan_eq_zero {db : Store} {σ : Scores} (h : LBInv db σ) (hkeyed : Keyed db)
    {m : Bytes} (hm : unitSep ∉ m) {b e : Bytes}
    (hno : ∀ e' s, (σ m b).get? e' = some s → toValidUtf8 e' ≠ e) :
    legacyScan db (boardMetric m b) e = Float64.zero := by
  unfold legacyScan
  rw [List.find?_eq_none.mpr]
  intro entry hentry
  obtain ⟨row, hrow, hsome⟩ := List.mem_filterMap.mp hentry
  obtain ⟨e', s, hs, rfl⟩ := (h.mem_rankRows hkeyed hm b row).mp hrow
  cases hsome
  simpa using hno e' s hs

/-- **A store is determined by its scores and its other keys.** -/
theorem LBInv.store_ext {db db' : Store} {σ : Scores} (h : LBInv db σ) (h' : LBInv db' σ)
    (hkeyed : Keyed db) (hkeyed' : Keyed db') (hoff : AgreeOffScores db db') : db = db' := by
  -- a key of a score family is present in one store only if it is in the other
  have hsub : ∀ {db db' : Store}, LBInv db σ → LBInv db' σ → Keyed db → ∀ k v, IsScoreKey k →
      db.get? k = some v → db'.get? k = some v := by
    rintro db db' h h' hkeyed _ v ⟨y, rfl | rfl⟩ hv
    · obtain ⟨m, b, e, s, hm, rfl⟩ := hkeyed.rank_of_front hv
      exact (h'.rank_some_iff hm b e s v).mpr ((h.rank_some_iff hm b e s v).mp hv)
    · obtain ⟨m, b, e, hm, rfl⟩ := hkeyed.entity_of_front hv
      exact (h'.entity m b e hm).trans ((h.entity m b e hm).symm.trans hv)
  refine OrdMap.ext_get fun k => ?_
  by_cases hk : IsScoreKey k
  · refine Option.ext fun v => ⟨hsub h h' hkeyed k v hk, hsub h' h hkeyed' k v hk⟩
  · exact (hoff k hk).symm

end FlameDB
