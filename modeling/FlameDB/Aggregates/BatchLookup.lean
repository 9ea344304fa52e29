import FlameDB.Aggregates.Scores

/-!
# Score lookups shared by a batch

A batch of writes reads many scores under one set of locks.  `LockedBatchLookup` shares the legacy
scan of a board among all its entities: the first lookup that needs it walks the ranking rows once
and keeps the first row of every locked entity.

**`LockedBatchLookup.get_eq`** — every lookup returns what `Leaderboard.get` would.

**`LockedBatchLookup.batched_lookups_eq_single`** — so do all lookups of a batch, in whatever order
they are made, whatever the board holds.
-/

namespace FlameDB

open Go KV

/-- `LockedBatchLookup`: the locked entities of each board, and the legacy scans made so far. -/
structure LockedBatchLookup where
  targets : OrdMap Bytes (OrdMap Bytes Unit)
  legacy : OrdMap Bytes (OrdMap Bytes Float64)

namespace LockedBatchLookup

/-- The scan keeps the first row of every wanted entity and stops once it has them all. -/
def scan (wanted : OrdMap Bytes Unit) :
    List LeaderboardEntry → OrdMap Bytes Float64 → OrdMap Bytes Float64
  | [], values => values
  | entry :: rest, values =>
      if (wanted.get? entry.entityID).isSome then
        let values := if (values.get? entry.entityID).isSome then values
          else values.set entry.entityID entry.value
        if values.entries.length = wanted.entries.length then values
        else scan wanted rest values
      else scan wanted rest values

/-- One lookup. A target without an entity key costs one scan of its metric, which the next lookups
of the metric reuse. -/
def get (db : Store) (lookup : LockedBatchLookup) (metric entityID : Bytes) :
    Except Bytes (LockedBatchLookup × Float64) :=
  let wanted := (lookup.targets.get? metric).getD ∅
  if (wanted.get? entityID).isSome then
    match (db.get? (lbEntityKey metric entityID)).bind decodeFloat64 with
    | some v => .ok (lookup, v)
    | none =>
        match lookup.legacy.get? metric with
        | some values => .ok (lookup, (values.get? entityID).getD Float64.zero)
        | none =>
            let values := scan wanted (legacyEntries db metric) ∅
            .ok ({ lookup with legacy := lookup.legacy.set metric values },
              (values.get? entityID).getD Float64.zero)
  else .error (bs "score lookup target is not locked")

/-- `NewLockedBatchLookup`. -/
def new (targets : OrdMap Bytes (OrdMap Bytes Unit)) : LockedBatchLookup := ⟨targets, ∅⟩

/-- The lookups of a batch, one after the other; a refused one keeps nothing. -/
def getAll (db : Store) : LockedBatchLookup → List (Bytes × Bytes) → List (Except Bytes Float64)
  | _, [] => []
  | lookup, query :: rest =>
      match lookup.get db query.1 query.2 with
      | .ok (lookup, score) => .ok score :: getAll db lookup rest
      | .error e => .error e :: getAll db lookup rest

end LockedBatchLookup

/-! ## The shared scan finds what a single scan finds

Both scans see the same rows in the same order; the shared one keeps, of each wanted entity, the
entry that ends the single one. -/

namespace LockedBatchLookup

/-- The scan keeps what it has and adds the first row of each wanted entity. -/
lemma get?_scan {wanted : OrdMap Bytes Unit} (entries : List LeaderboardEntry)
    (values : OrdMap Bytes Float64) (hsub : ∀ k, (values.get? k).isSome → (wanted.get? k).isSome)
    {e : Bytes} (he : (wanted.get? e).isSome) :
    (scan wanted entries values).get? e = (values.get? e).or
      ((entries.find? fun entry => entry.entityID = e).map LeaderboardEntry.value) := by
  induction entries generalizing values with
  | nil => simp [scan]
  | cons entry rest ih =>
      rw [scan]
      by_cases hw : (wanted.get? entry.entityID).isSome
      · rw [if_pos hw]
        set values' := if (values.get? entry.entityID).isSome then values
          else values.set entry.entityID entry.value with hvalues'
        have hget : values'.get? e = (values.get? e).or
            (if entry.entityID = e then some entry.value else none) := by
          rw [hvalues']
          split_ifs with h1 h2 h2
          · subst h2
            obtain ⟨v, hv⟩ := Option.isSome_iff_exists.mp h1
            simp [hv]
          · simp
          · subst h2
            simp only [Option.not_isSome_iff_eq_none] at h1
            simp [h1]
          · rw [OrdMap.get?_set_of_ne _ _ (Ne.symm h2)]
            simp
        have hsub' : ∀ k, (values'.get? k).isSome → (wanted.get? k).isSome := by
          intro k hk
          rw [hvalues'] at hk
          split_ifs at hk
          · exact hsub k hk
          · rw [OrdMap.get?_set] at hk
            split_ifs at hk with hke
            · rw [hke]
              exact hw
            · exact hsub k hk
        by_cases hstop : values'.entries.length = wanted.entries.length
        · rw [if_pos hstop]
          -- every wanted entity has been found, so the rest of the rows is irrelevant
          obtain ⟨v, hv⟩ := Option.isSome_iff_exists.mp (OrdMap.isSome_of_length_eq hsub' hstop he)
          rw [hget] at hv ⊢
          by_cases hid : entry.entityID = e
          · simp [hid]
          · simp only [hid, if_false, Option.or_none] at hv ⊢
            simp [hv]
        · rw [if_neg hstop, ih values' hsub', hget, List.find?_cons]
          by_cases hid : entry.entityID = e <;> simp [hid]
      · have hid : entry.entityID ≠ e := by
          rintro rfl
          exact hw he
        rw [if_neg hw, ih values hsub, List.find?_cons]
        simp [hid]

/-- The scans kept so far agree with the database. -/
def Sound (db : Store) (lookup : LockedBatchLookup) : Prop :=
  ∀ metric values, lookup.legacy.get? metric = some values →
    ∀ e, (((lookup.targets.get? metric).getD ∅).get? e).isSome →
      (values.get? e).getD Float64.zero = legacyScan db metric e

/-- **A shared lookup returns what a single lookup returns.** -/
theorem get_eq {db : Store} {lookup : LockedBatchLookup} (h : lookup.Sound db) {m e : Bytes}
    (he : (((lookup.targets.get? m).getD ∅).get? e).isSome) :
    ∃ lookup', lookup.get db m e = .ok (lookup', Leaderboard.get db m e) ∧
      lookup'.Sound db ∧ lookup'.targets = lookup.targets := by
  unfold LockedBatchLookup.get Leaderboard.get
  rw [if_pos he]
  cases hent : (db.get? (lbEntityKey m e)).bind decodeFloat64 with
  | some v => exact ⟨lookup, rfl, h, rfl⟩
  | none =>
      cases hleg : lookup.legacy.get? m with
      | some values =>
          refine ⟨lookup, ?_, h, rfl⟩
          simp only [h m values hleg e he]
      | none =>
          set wanted := (lookup.targets.get? m).getD ∅ with hwanted
          have hscan : ∀ e, (wanted.get? e).isSome →
              ((scan wanted (legacyEntries db m) ∅).get? e).getD Float64.zero =
                legacyScan db m e := by
            intro e he
            rw [get?_scan _ _ (by simp) he, legacyScan]
            cases (legacyEntries db m).find? fun entry => entry.entityID = e <;> simp
          refine ⟨⟨lookup.targets, lookup.legacy.set m (scan wanted (legacyEntries db m) ∅)⟩,
            ?_, ?_, rfl⟩
          · simp only [hscan e he]
          · intro metric' values hvalues e' he'
            simp only [OrdMap.get?_set] at hvalues
            split_ifs at hvalues with hm
            · cases hvalues
              subst hm
              exact hscan e' he'
            · exact h metric' values hvalues e' he'

/-- The entity is one of the locked ones. -/
def Locked (targets : OrdMap Bytes (OrdMap Bytes Unit)) (query : Bytes × Bytes) : Prop :=
  (((targets.get? query.1).getD ∅).get? query.2).isSome = true

instance (targets : OrdMap Bytes (OrdMap Bytes Unit)) (query : Bytes × Bytes) :
    Decidable (Locked targets query) := inferInstanceAs (Decidable (_ = _))

lemma sound_new (db : Store) (targets : OrdMap Bytes (OrdMap Bytes Unit)) :
    (new targets).Sound db := by
  intro metric values hvalues
  exact absurd hvalues (by simp [new])

lemma getAll_of_sound {db : Store} {lookup : LockedBatchLookup} (h : lookup.Sound db)
    (queries : List (Bytes × Bytes)) :
    lookup.getAll db queries = queries.map fun query =>
      if Locked lookup.targets query then .ok (Leaderboard.get db query.1 query.2)
      else .error (bs "score lookup target is not locked") := by
  induction queries generalizing lookup with
  | nil => rfl
  | cons query rest ih =>
      rw [getAll, List.map_cons]
      by_cases hlocked : Locked lookup.targets query
      · obtain ⟨lookup', hget, hsound, htargets⟩ := get_eq h hlocked
        rw [hget, if_pos hlocked]
        dsimp only
        rw [ih hsound, htargets]
      · have hrefused : lookup.get db query.1 query.2 =
            .error (bs "score lookup target is not locked") := if_neg hlocked
        rw [hrefused, if_neg hlocked]
        dsimp only
        rw [ih h]

/-- **The lookups of a batch return the scores of single lookups**: for every content of the store,
every set of locked entities and every order of the lookups. -/
theorem batched_lookups_eq_single (db : Store) (targets : OrdMap Bytes (OrdMap Bytes Unit))
    (queries : List (Bytes × Bytes)) :
    (new targets).getAll db queries = queries.map fun query =>
      if Locked targets query then .ok (Leaderboard.get db query.1 query.2)
      else .error (bs "score lookup target is not locked") :=
  getAll_of_sound (sound_new db targets) queries

end LockedBatchLookup

end FlameDB
