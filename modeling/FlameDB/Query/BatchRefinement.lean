import FlameDB.Query.BatchInvariant

/-!
# A batch of writes is its writes in order

The batch loop keeps running scores and stages events into one shared batch; the sequential
execution commits after every query.  The simulation relation `Tracks` says how the running scores
stand for the sequential store: an entity the batch has changed has its running score there, any
other entity the score it had at the start.

* `Tracks.readScore` — the score the batch reads is the one the sequential execution reads;
* `Simulates.stageItem` — one item of the loop is one sequential mutation;
* `Simulates.flush` — writing the final scores once yields the sequential store.

An entity that has no entity key yet is read by a legacy scan.  The scan compares ids after JSON,
so it can find the row of an id that is not valid UTF-8; such rows do not change while the batch
only touches valid ids, which is where the restriction on ids enters.
-/

namespace FlameDB

open Go KV

/-- A legacy scan only depends on the ids that read back as the one it looks for. -/
lemma LBInv.legacyScan_congr {db db' : Store} {σ σ' : Scores} (h : LBInv db σ) (h' : LBInv db' σ')
    (hkeyed : Keyed db) (hkeyed' : Keyed db') {m : Bytes} (hm : unitSep ∉ m) {b e : Bytes}
    (hsame : ∀ e', toValidUtf8 e' = e → (σ m b).get? e' = (σ' m b).get? e') :
    legacyScan db (boardMetric m b) e = legacyScan db' (boardMetric m b) e := by
  -- the rows that name the entity are the same in both stores, in the same order
  let named : Bytes × Value → Bool := fun row =>
    (unmarshalEntry row.2).toOption.any fun entry => entry.entityID = e
  have hrows : (rankRows db (boardMetric m b)).filter named =
      (rankRows db' (boardMetric m b)).filter named := by
    refine eq_of_pairwise_of_mem_iff (fun a => lt_irrefl a.1) (fun a b hab => lt_asymm hab)
      ((OrdMap.range_sorted db _ _).filter _) ((OrdMap.range_sorted db' _ _).filter _) fun row => ?_
    simp only [List.mem_filter, h.mem_rankRows hkeyed hm b, h'.mem_rankRows hkeyed' hm b]
    constructor
    · rintro ⟨⟨e', s, hs, rfl⟩, hnamed⟩
      exact ⟨⟨e', s, (hsame e' (of_decide_eq_true hnamed)).symm.trans hs, rfl⟩, hnamed⟩
    · rintro ⟨⟨e', s, hs, rfl⟩, hnamed⟩
      exact ⟨⟨e', s, (hsame e' (of_decide_eq_true hnamed)).trans hs, rfl⟩, hnamed⟩
  have hfind : ∀ db : Store, (legacyEntries db (boardMetric m b)).filter (fun x => x.entityID = e) =
      ((rankRows db (boardMetric m b)).filter named).filterMap
        fun row => (unmarshalEntry row.2).toOption := by
    intro db
    rw [legacyEntries, List.filter_filterMap, List.filterMap_filter]
    have hopt : ∀ o : Option LeaderboardEntry, o.filter (fun x => x.entityID = e) =
        if o.any (fun x => x.entityID = e) then o else none := by
      rintro (_ | entry)
      · rfl
      · by_cases hid : entry.entityID = e <;> simp [Option.filter, hid]
    exact List.filterMap_congr fun row _ => hopt _
  have hhead : (legacyEntries db (boardMetric m b)).find? (fun x => x.entityID = e) =
      (legacyEntries db' (boardMetric m b)).find? (fun x => x.entityID = e) := by
    rw [← List.head?_filter, ← List.head?_filter, hfind, hfind, hrows]
  rw [legacyScan, legacyScan, hhead]

/-! ## Running scores

The table of the batch and the store of the sequence agree on every score that was touched. -/

/-- **The simulation relation** between the running scores and the sequential scores `σ`, for a
batch that started from the store `db₀` with scores `σ₀`. -/
structure Tracks (db₀ : Store) (σ₀ σ : Scores) (targets : OrdMap Bytes (OrdMap Bytes Unit))
    (reader : LockedBatchLookup) (scores : OrdMap ScoreKey ScoreState) : Prop where
  reader_sound : reader.Sound db₀
  reader_targets : reader.targets = targets
  keys : ∀ key st, scores.get? key = some st →
    ∃ m b e, unitSep ∉ m ∧ ValidUtf8 e ∧ key = toLex (boardMetric m b, e)
  known : ∀ m b e st, unitSep ∉ m → scores.get? (toLex (boardMetric m b, e)) = some st →
    st.initial = Leaderboard.get db₀ (boardMetric m b) e ∧
      if st.changed then (σ m b).get? e = some st.current
      else st.current = st.initial ∧ (σ m b).get? e = (σ₀ m b).get? e
  unknown : ∀ m b e, unitSep ∉ m → scores.get? (toLex (boardMetric m b, e)) = none →
    (σ m b).get? e = (σ₀ m b).get? e

section Track

variable {db₀ db : Store} {σ₀ σ : Scores} {targets : OrdMap Bytes (OrdMap Bytes Unit)}
  {reader : LockedBatchLookup} {scores : OrdMap ScoreKey ScoreState}

/-- An entity the batch has not changed has the score it had at the start. -/
lemma Tracks.get_eq_of_same (h : Tracks db₀ σ₀ σ targets reader scores) (h₀ : LBInv db₀ σ₀)
    (hkeyed₀ : Keyed db₀) (hσ : LBInv db σ) (hkeyed : Keyed db) {m : Bytes} (hm : unitSep ∉ m)
    {b e : Bytes} (hsame : (σ m b).get? e = (σ₀ m b).get? e) :
    Leaderboard.get db (boardMetric m b) e = Leaderboard.get db₀ (boardMetric m b) e := by
  rw [hσ.get_eq hm, h₀.get_eq hm, hsame]
  cases (σ₀ m b).get? e with
  | some s => rfl
  | none =>
      refine hσ.legacyScan_congr h₀ hkeyed hkeyed₀ hm fun e' he' => ?_
      by_cases hv : ValidUtf8 e'
      · rw [hv.toValid] at he'
        rw [he']
        exact hsame
      · -- an id that is not valid UTF-8 is never a key of the running scores
        refine h.unknown m b e' hm (Option.eq_none_iff_forall_ne_some.mpr fun st hst => ?_)
        obtain ⟨m', b', e'', -, hv', hkey⟩ := h.keys _ st hst
        obtain ⟨-, rfl⟩ := Prod.mk.inj (toLex.injective hkey)
        exact hv hv'

/-- **The running score is the sequential score.** -/
lemma Tracks.readScore (h : Tracks db₀ σ₀ σ targets reader scores) (h₀ : LBInv db₀ σ₀)
    (hkeyed₀ : Keyed db₀) (hσ : LBInv db σ) (hkeyed : Keyed db) {m : Bytes} (hm : unitSep ∉ m)
    {b e : Bytes} (hv : ValidUtf8 e)
    (htarget : (((targets.get? (boardMetric m b)).getD ∅).get? e).isSome) :
    ∃ reader' scores' st, readScore db₀ reader scores (toLex (boardMetric m b, e)) =
        .ok (reader', scores', st) ∧ Tracks db₀ σ₀ σ targets reader' scores' ∧
      st.current = Leaderboard.get db (boardMetric m b) e ∧
      scores'.get? (toLex (boardMetric m b, e)) = some st ∧
      (∀ key, key ≠ toLex (boardMetric m b, e) → scores'.get? key = scores.get? key) := by
  unfold FlameDB.readScore
  cases hst : scores.get? (toLex (boardMetric m b, e)) with
  | some st =>
      refine ⟨reader, scores, st, rfl, h, ?_, hst, fun _ _ => rfl⟩
      obtain ⟨hinit, hcur⟩ := h.known m b e st hm hst
      split_ifs at hcur with hchanged
      · exact (hσ.get_of_some hm hcur).symm
      · rw [hcur.1, hinit, h.get_eq_of_same h₀ hkeyed₀ hσ hkeyed hm hcur.2]
  | none =>
      obtain ⟨reader', hget, hsound, htargets⟩ := LockedBatchLookup.get_eq h.reader_sound
        (m := boardMetric m b) (e := e) (by rw [h.reader_targets]; exact htarget)
      have hsame := h.unknown m b e hm hst
      refine ⟨reader', _, _, by simp only [ofLex_toLex, hget]; rfl, ?_,
        (h.get_eq_of_same h₀ hkeyed₀ hσ hkeyed hm hsame).symm, OrdMap.get?_set_self _ _ _,
        fun key hkey => OrdMap.get?_set_of_ne _ _ hkey⟩
      exact {
        reader_sound := hsound
        reader_targets := htargets.trans h.reader_targets
        keys := by
          intro key st' hst'
          rw [OrdMap.get?_set] at hst'
          split_ifs at hst' with hkey
          · exact ⟨m, b, e, hm, hv, hkey⟩
          · exact h.keys key st' hst'
        known := by
          intro m' b' e' st' hm' hst'
          rw [OrdMap.get?_set] at hst'
          split_ifs at hst' with hkey
          · cases hst'
            obtain ⟨hbm, rfl⟩ := Prod.mk.inj (toLex.injective hkey)
            obtain ⟨rfl, rfl⟩ := boardMetric_inj hm' hm hbm
            exact ⟨rfl, rfl, hsame⟩
          · exact h.known m' b' e' st' hm' hst'
        unknown := by
          intro m' b' e' hm' hst'
          rw [OrdMap.get?_set] at hst'
          split_ifs at hst'
          exact h.unknown m' b' e' hm' hst' }

/-- The board loop reads the sequential scores: it finds an overflow exactly when there is one, and
otherwise computes the new scores. -/
lemma Tracks.checkBoards (h : Tracks db₀ σ₀ σ targets reader scores) (h₀ : LBInv db₀ σ₀)
    (hkeyed₀ : Keyed db₀) (hσ : LBInv db σ) (hkeyed : Keyed db) {q : Query}
    (hm : unitSep ∉ q.metric) {l : List (Bytes × Bytes)} (hv : ∀ kv ∈ l, ValidUtf8 kv.2)
    (htarget : ∀ kv ∈ l, (((targets.get? (boardMetric q.metric kv.1)).getD ∅).get? kv.2).isSome)
    (next : List (ScoreKey × Float64)) :
    ∃ check, checkBoards db₀ q l reader scores next = .ok check ∧
      Tracks db₀ σ₀ σ targets check.reader check.scores ∧
      (∀ key, (scores.get? key).isSome → (check.scores.get? key).isSome) ∧
      ((∃ kv ∈ l, (Leaderboard.get db (boardMetric q.metric kv.1) kv.2 +
        q.value).isFinite = false) →
        check.next = none) ∧
      ((∀ kv ∈ l, (Leaderboard.get db (boardMetric q.metric kv.1) kv.2 + q.value).isFinite = true) →
        check.next = some (next ++ l.map fun kv => (scoreKey q.metric kv,
          (Leaderboard.get db (boardMetric q.metric kv.1) kv.2 + q.value).canonical)) ∧
        ∀ kv ∈ l, (check.scores.get? (scoreKey q.metric kv)).isSome) := by
  induction l generalizing reader scores next with
  | nil => exact ⟨⟨reader, scores, some next⟩, rfl, h, fun _ hk => hk, by simp, by simp⟩
  | cons kv l ih =>
      obtain ⟨reader₁, scores₁, st, hread, h₁, hcur, hself, hother⟩ := h.readScore h₀ hkeyed₀ hσ
        hkeyed hm (hv kv List.mem_cons_self) (htarget kv List.mem_cons_self)
      have hmono : ∀ key, (scores.get? key).isSome → (scores₁.get? key).isSome := by
        intro key hkey
        by_cases hk : key = toLex (boardMetric q.metric kv.1, kv.2)
        · rw [hk, hself]
          rfl
        · rwa [hother key hk]
      rw [FlameDB.checkBoards, hread]
      simp only [bind, Except.bind, hcur]
      by_cases hfin : (Leaderboard.get db (boardMetric q.metric kv.1) kv.2 +
        q.value).isFinite = true
      · rw [if_pos hfin]
        obtain ⟨check, hcheck, htr, hmono', hover, hall⟩ := ih h₁
          (fun kv' hkv' => hv kv' (List.mem_cons_of_mem _ hkv'))
          (fun kv' hkv' => htarget kv' (List.mem_cons_of_mem _ hkv'))
          (next ++ [(scoreKey q.metric kv,
            (Leaderboard.get db (boardMetric q.metric kv.1) kv.2 + q.value).canonical)])
        refine ⟨check, hcheck, htr, fun key hk => hmono' key (hmono key hk), ?_, ?_⟩
        · rintro ⟨kv', hmem, hinf⟩
          rcases List.mem_cons.mp hmem with rfl | hmem
          · rw [hfin] at hinf
            cases hinf
          · exact hover ⟨kv', hmem, hinf⟩
        · intro hfinite
          obtain ⟨hnext, hsome⟩ := hall fun kv' hkv' => hfinite kv' (List.mem_cons_of_mem _ hkv')
          refine ⟨by rw [hnext]; simp, fun kv' hkv' => ?_⟩
          rcases List.mem_cons.mp hkv' with rfl | hmem
          · exact hmono' _ (by rw [scoreKey, hself]; rfl)
          · exact hsome kv' hmem
      · rw [if_neg hfin]
        refine ⟨_, rfl, h₁, hmono, fun _ => rfl, fun hfinite => ?_⟩
        exact absurd (hfinite kv List.mem_cons_self) hfin

/-- Recording a new running score is a sequential update of that score. -/
lemma Tracks.put (h : Tracks db₀ σ₀ σ targets reader scores) {m b e : Bytes} (hm : unitSep ∉ m)
    {st : ScoreState} (hst : scores.get? (toLex (boardMetric m b, e)) = some st) (w : Float64) :
    Tracks db₀ σ₀ (σ.put m b e w) targets reader
      (scores.set (toLex (boardMetric m b, e)) { st with current := w, changed := true }) where
  reader_sound := h.reader_sound
  reader_targets := h.reader_targets
  keys := by
    intro key st' hst'
    rw [OrdMap.get?_set] at hst'
    split_ifs at hst' with hkey
    · rw [hkey]
      exact h.keys _ st hst
    · exact h.keys key st' hst'
  known := by
    intro m' b' e' st' hm' hst'
    rw [OrdMap.get?_set] at hst'
    split_ifs at hst' with hkey
    · cases hst'
      obtain ⟨rfl, hkv⟩ := scoreKey_inj hm' hm (show scoreKey m' (b', e') = scoreKey m
        (b, e) from hkey)
      obtain ⟨rfl, rfl⟩ := Prod.mk.inj hkv
      exact ⟨(h.known m' b' e' st hm' hst).1, by simp [Scores.get?_put]⟩
    · have hput : (σ.put m b e w m' b').get? e' = (σ m' b').get? e' := by
        rw [Scores.get?_put, if_neg (by rintro ⟨rfl, rfl, rfl⟩; exact hkey rfl)]
      rw [hput]
      exact h.known m' b' e' st' hm' hst'
  unknown := by
    intro m' b' e' hm' hst'
    rw [OrdMap.get?_set] at hst'
    split_ifs at hst' with hkey
    rw [Scores.get?_put, if_neg (by rintro ⟨rfl, rfl, rfl⟩; exact hkey rfl)]
    exact h.unknown m' b' e' hm' hst'

lemma Tracks.applyScores (h : Tracks db₀ σ₀ σ targets reader scores) {m : Bytes} (hm : unitSep ∉ m)
    (v : Bytes × Bytes → Float64) {l : List (Bytes × Bytes)}
    (hsome : ∀ kv ∈ l, (scores.get? (scoreKey m kv)).isSome) :
    Tracks db₀ σ₀ (putBoards σ m v l) targets reader
      (applyScores scores (l.map fun kv => (scoreKey m kv, (v kv).canonical))) := by
  induction l generalizing σ scores with
  | nil => exact h
  | cons kv l ih =>
      obtain ⟨st, hst⟩ := Option.isSome_iff_exists.mp (hsome kv List.mem_cons_self)
      have hstep := h.put hm hst (v kv).canonical
      have := ih hstep fun kv' hkv' => by
        rw [OrdMap.get?_set]
        split_ifs
        · rfl
        · exact hsome kv' (List.mem_cons_of_mem _ hkv')
      simp only [FlameDB.applyScores, List.map_cons, List.foldl_cons, hst,
        Option.getD_some] at this ⊢
      exact this

end Track

/-! ## One item

Staging an item and executing it by itself have the same outcome and keep the correspondence. -/

/-- **The simulation**: the batch in progress stands for the sequential store `db`. -/
structure Simulates (db₀ : Store) (σ₀ : Scores) (targets : OrdMap Bytes (OrdMap Bytes Unit))
    (s : BatchState) (db : Store) (σ : Scores) : Prop where
  store : StoreInv db
  scores : LBInv db σ
  batch_store : StoreInv s.batch
  batch_scores : LBInv s.batch σ₀
  agree : AgreeOffScores db s.batch
  tracks : Tracks db₀ σ₀ σ targets s.reader s.scores

/-- The sequential execution of one item: the store, the accepted positions and the errors. -/
def seqItem (acc : Store × List ℕ × List (ℕ × Bytes)) (item : BatchItem) :
    Store × List ℕ × List (ℕ × Bytes) :=
  match mutationBatch acc.1 item.query with
  | .error msg => (acc.1, acc.2.1, acc.2.2 ++ [(item.index, msg)])
  | .ok (db, _) => (db, acc.2.1 ++ [item.index], acc.2.2)

/-- What the batch asks of its items: stageable writes whose entities are valid UTF-8 and locked. -/
structure ItemOK (targets : OrdMap Bytes (OrdMap Bytes Unit)) (q : Query) : Prop where
  stageable : q.Stageable
  type_write : q.type = .write
  valid : ∀ kv ∈ (boardsOf q).entries, ValidUtf8 kv.2
  locked : ∀ kv ∈ (boardsOf q).entries,
    (((targets.get? (boardMetric q.metric kv.1)).getD ∅).get? kv.2).isSome

/-- **One item of the batch is one sequential mutation.** -/
theorem Simulates.stageItem {db₀ : Store} {σ₀ : Scores} {targets : OrdMap Bytes (OrdMap Bytes Unit)}
    (h₀ : LBInv db₀ σ₀) (hkeyed₀ : Keyed db₀) {s : BatchState} {db : Store} {σ : Scores}
    (h : Simulates db₀ σ₀ targets s db σ) {item : BatchItem} (hq : ItemOK targets item.query) :
    ∃ s' db' σ', stageItem db₀ s item = .ok s' ∧
      seqItem (db, s.accepted, s.errors) item = (db', s'.accepted, s'.errors) ∧
      Simulates db₀ σ₀ targets s' db' σ' := by
  have hreceipt : s.batch.get? (receiptKey item.query.operationID) =
      db.get? (receiptKey item.query.operationID) :=
    h.agree.lookup (K := .receipt item.query.operationID) trivial (by simp [Key.IsScore])
  unfold FlameDB.stageItem seqItem mutationBatch
  simp only [hreceipt]
  by_cases hdone : hasReceipt item.query ∧ (db.get? (receiptKey item.query.operationID)).isSome
  · rw [if_pos hdone, if_pos hdone]
    exact ⟨_, db, σ, rfl, rfl, ⟨h.store, h.scores, h.batch_store, h.batch_scores,
      h.agree, h.tracks⟩⟩
  · rw [if_neg hdone, if_neg hdone]
    obtain ⟨check, hcheck, htr, -, hover, hall⟩ := h.tracks.checkBoards h₀ hkeyed₀ h.scores
      h.store.keyed hq.stageable.metric_noSep hq.valid hq.locked []
    obtain ⟨b₁, hstage, hfail, hok⟩ := stageWrite_spec h.store h.scores hq.stageable hq.type_write
    simp only [hcheck, Except.mapError, bind, Except.bind]
    by_cases ho : Overflows db item.query
    · rw [hover ho, hfail ho]
      exact ⟨_, db, σ, rfl, rfl, ⟨h.store, h.scores, h.batch_store, h.batch_scores, h.agree, htr⟩⟩
    · obtain ⟨b₂, hb₂, hs₂, hσ₂, hoff⟩ := hok ho
      obtain ⟨hnext, hsome⟩ := hall fun kv hkv => by
        by_contra hinf
        exact ho ⟨kv, hkv, by simpa using hinf⟩
      obtain ⟨c₁, hc₁, hagree⟩ := h.agree.stageEvent (e := eventOf item.query)
        hq.stageable.metric_wf hstage
      obtain ⟨hcs, hcσ⟩ := h.batch_scores.stageEvent h.batch_store (e := eventOf item.query)
        hq.stageable.metric_wf hq.stageable.value_isFinite hc₁
      have htr' := htr.applyScores hq.stageable.metric_noSep
        (fun kv => Leaderboard.get db (boardMetric item.query.metric kv.1) kv.2 + item.query.value)
        hsome
      rw [hnext, hb₂]
      simp only [hc₁, List.nil_append]
      refine ⟨_, _, writeScores db σ item.query, rfl, rfl, ?_⟩
      have hoff' : AgreeOffScores b₂ c₁ := hoff.symm.trans hagree
      cases hr : hasReceipt item.query with
      | true =>
          simp only [if_true]
          exact ⟨hs₂.setReceipt _ _, hσ₂.setReceipt _ _, hcs.setReceipt _ _, hcσ.setReceipt _ _,
            hoff'.set _ _, htr'⟩
      | false =>
          simp only [Bool.false_eq_true, if_false]
          exact ⟨hs₂, hσ₂, hcs, hcσ, hoff', htr'⟩

/-- The items in order. -/
lemma Simulates.stageItems {db₀ : Store} {σ₀ : Scores} {targets : OrdMap Bytes (OrdMap Bytes Unit)}
    (h₀ : LBInv db₀ σ₀) (hkeyed₀ : Keyed db₀) (items : List BatchItem)
    (hitems : ∀ item ∈ items, ItemOK targets item.query) {s : BatchState} {db : Store} {σ : Scores}
    (h : Simulates db₀ σ₀ targets s db σ) :
    ∃ s' db' σ', items.foldlM (FlameDB.stageItem db₀) s = .ok s' ∧
      items.foldl seqItem (db, s.accepted, s.errors) = (db', s'.accepted, s'.errors) ∧
      Simulates db₀ σ₀ targets s' db' σ' := by
  induction items generalizing s db σ with
  | nil => exact ⟨s, db, σ, rfl, rfl, h⟩
  | cons item items ih =>
      obtain ⟨s₁, db₁, σ₁, hstage, hseq, h₁⟩ :=
        h.stageItem h₀ hkeyed₀ (hitems item List.mem_cons_self)
      obtain ⟨s₂, db₂, σ₂, hstages, hseqs, h₂⟩ :=
        ih (fun item' hmem => hitems item' (List.mem_cons_of_mem _ hmem)) h₁
      refine ⟨s₂, db₂, σ₂, ?_, ?_, h₂⟩
      · rw [List.foldlM_cons, hstage]
        exact hstages
      · rw [List.foldl_cons, hseq, hseqs]

/-- **Writing each final score once yields the sequential store.** -/
theorem Simulates.flush {db₀ : Store} {σ₀ : Scores} {targets : OrdMap Bytes (OrdMap Bytes Unit)}
    (h₀ : LBInv db₀ σ₀) {s : BatchState} {db : Store} {σ : Scores}
    (h : Simulates db₀ σ₀ targets s db σ) : flushScores s.scores s.batch = .ok db := by
  have hentry : ∀ kv ∈ s.scores.entries, s.scores.get? kv.1 = some kv.2 := fun kv hmem =>
    (OrdMap.mem_entries_iff s.scores kv.1 kv.2).mp hmem
  have hkeys : ∀ kv ∈ s.scores.entries, ∃ m b e, unitSep ∉ m ∧ kv.1 = scoreKey m (b, e) ∧
      (∀ s, (σ₀ m b).get? e = some s → kv.2.initial = s) ∧
      (kv.2.changed = true → kv.2.current.Canonical) := by
    intro kv hmem
    obtain ⟨m, b, e, hm, -, hkey⟩ := h.tracks.keys _ _ (hentry kv hmem)
    obtain ⟨hinit, hcur⟩ := h.tracks.known m b e kv.2 hm (by rw [← hkey]; exact hentry kv hmem)
    refine ⟨m, b, e, hm, hkey, fun s hs => ?_, fun hch => ?_⟩
    · rw [hinit]
      exact h₀.get_of_some hm hs
    · rw [if_pos hch] at hcur
      exact h.scores.canonical m b e _ hcur
  obtain ⟨b', τ', hloop, hs', hτ', hoff, hget⟩ := flush_loop s.scores.entries s.scores.sorted hkeys
    h.batch_scores h.batch_store fun _ _ _ _ _ _ => rfl
  have hτσ : τ' = σ := by
    funext m b
    refine OrdMap.ext_get fun e => ?_
    by_cases hm : unitSep ∈ m
    · rw [hτ'.get?_eq_none hm, h.scores.get?_eq_none hm]
    · rw [hget m b e hm]
      cases hf : s.scores.entries.find? fun kv => kv.1 = scoreKey m (b, e) with
      | none =>
          have hnone : s.scores.get? (scoreKey m (b, e)) = none :=
            Option.eq_none_iff_forall_ne_some.mpr fun st hst => by
              simpa using List.find?_eq_none.mp hf _
                ((OrdMap.mem_entries_iff s.scores _ st).mpr hst)
          exact (h.tracks.unknown m b e hm hnone).symm
      | some kv =>
          have hkv : kv.1 = scoreKey m (b, e) := by simpa using List.find?_some hf
          have hsome := hentry kv (List.mem_of_find?_eq_some hf)
          rw [hkv] at hsome
          have hcur := (h.tracks.known m b e kv.2 hm hsome).2
          simp only
          split_ifs at hcur ⊢ with hch
          · exact hcur.symm
          · exact hcur.2.symm
  rw [hτσ] at hτ'
  have heq := h.scores.store_ext hτ' h.store.keyed hs'.keyed (h.agree.trans hoff)
  rw [flushScores, hloop, heq]

/-! ## The first loop -/

/-- The items with their timestamps, and the clock after handing them out. -/
def stampItems : ℕ → Int64 → List (Int64 × Query) → Int64 × List BatchItem
  | _, clock, [] => (clock, [])
  | i, clock, (now, q) :: rest =>
      let stamped := assignTimestamp now ⟨clock, ∅⟩ q
      let tail := stampItems (i + 1) stamped.1.clock rest
      (tail.1, ⟨i, stamped.2⟩ :: tail.2)

/-- What `executeWriteBatch` expects of an item before it is stamped. -/
structure WriteOK (q : Query) : Prop where
  stageable : q.Stageable
  type_write : q.type = .write
  timestamp_nonneg : ¬ q.timestamp < 0
  valid : ∀ kv ∈ (boardsOf q).entries, ValidUtf8 kv.2

/-- A timestamp changes neither the boards nor anything else staging relies on. -/
lemma WriteOK.assignTimestamp {q : Query} (h : WriteOK q) (now : Int64) (s : Executor) :
    (assignTimestamp now s q).2.Stageable ∧ (assignTimestamp now s q).2.type = .write ∧
      boardsOf (assignTimestamp now s q).2 = boardsOf q ∧
      (assignTimestamp now s q).2.metric = q.metric := by
  unfold FlameDB.assignTimestamp
  split_ifs
  · exact ⟨⟨h.stageable.metric_wf, h.stageable.metric_noSep, h.stageable.value_isFinite⟩,
      h.type_write, rfl, rfl⟩
  · exact ⟨h.stageable, h.type_write, rfl, rfl⟩

/-- Valid writes all pass the first loop and get their times there. -/
lemma planBatch_eq (i : ℕ) (items : List (Int64 × Query)) (hitems : ∀ nq ∈ items, WriteOK nq.2)
    (plan : BatchPlan) :
    planBatch i (items.map fun nq => (nq.1, some nq.2)) plan =
      { plan with
        clock := (stampItems i plan.clock items).1
        targets := (stampItems i plan.clock items).2.foldl
          (fun targets item => addTargets item.query targets) plan.targets
        valid := plan.valid ++ (stampItems i plan.clock items).2 } := by
  induction items generalizing i plan with
  | nil => simp [planBatch, stampItems]
  | cons nq items ih =>
      obtain ⟨now, q⟩ := nq
      have hq : WriteOK q := hitems (now, q) List.mem_cons_self
      have hbad : ¬ ((!q.value.isFinite) = true ∨ q.timestamp < 0) := by
        have := hq.stageable.value_isFinite
        have := hq.timestamp_nonneg
        simp_all
      rw [List.map_cons, planBatch, if_neg (by simp [hq.type_write]), if_neg hbad,
        ih (i + 1) (fun x hx => hitems x (List.mem_cons_of_mem _ hx))]
      by_cases hts : q.timestamp = 0
      · simp [stampItems, FlameDB.assignTimestamp, hts, hq.type_write]
      · simp [stampItems, FlameDB.assignTimestamp, hts]

/-- The entity is locked on the board. -/
def Locked (targets : OrdMap Bytes (OrdMap Bytes Unit)) (bm e : Bytes) : Prop :=
  (((targets.get? bm).getD ∅).get? e).isSome

lemma Locked.addTarget {targets : OrdMap Bytes (OrdMap Bytes Unit)} {bm e : Bytes}
    (h : Locked targets bm e) (m : Bytes) (kv : Bytes × Bytes) :
    Locked (addTarget m targets kv) bm e := by
  unfold Locked FlameDB.addTarget at *
  rw [OrdMap.get?_set]
  split_ifs with hbm
  · rw [Option.getD_some, OrdMap.get?_set]
    split_ifs
    · rfl
    · rwa [← hbm]
  · exact h

lemma locked_addTarget_self (m : Bytes) (targets : OrdMap Bytes (OrdMap Bytes Unit))
    (kv : Bytes × Bytes) : Locked (addTarget m targets kv) (boardMetric m kv.1) kv.2 := by
  simp [Locked, addTarget]

lemma Locked.foldl_addTarget {targets : OrdMap Bytes (OrdMap Bytes Unit)} {bm e : Bytes}
    (h : Locked targets bm e) (m : Bytes) (l : List (Bytes × Bytes)) :
    Locked (l.foldl (FlameDB.addTarget m) targets) bm e := by
  induction l generalizing targets with
  | nil => exact h
  | cons kv l ih => exact ih (h.addTarget m kv)

/-- The entities of a query are locked once it has been added. -/
lemma locked_addTargets (q : Query) (targets : OrdMap Bytes (OrdMap Bytes Unit))
    {kv : Bytes × Bytes} (hkv : kv ∈ (boardsOf q).entries) :
    Locked (addTargets q targets) (boardMetric q.metric kv.1) kv.2 := by
  unfold addTargets
  revert hkv
  generalize (boardsOf q).entries = l
  intro hkv
  induction l generalizing targets with
  | nil => simp at hkv
  | cons kv' l ih =>
      rcases List.mem_cons.mp hkv with rfl | hmem
      · exact (locked_addTarget_self _ _ _).foldl_addTarget _ l
      · exact ih _ hmem

/-- A locked entity stays locked while further items are added. -/
lemma Locked.foldl_addTargets {targets : OrdMap Bytes (OrdMap Bytes Unit)} {bm e : Bytes}
    (h : Locked targets bm e) (l : List BatchItem) :
    Locked (l.foldl (fun targets item => addTargets item.query targets) targets) bm e := by
  induction l generalizing targets with
  | nil => exact h
  | cons item l ih => exact ih (h.foldl_addTarget _ _)

/-- Every stamped item finds its entities locked. -/
lemma stampItems_ok (i : ℕ) (clock : Int64) (items : List (Int64 × Query))
    (hitems : ∀ nq ∈ items, WriteOK nq.2) (targets : OrdMap Bytes (OrdMap Bytes Unit)) :
    ∀ item ∈ (stampItems i clock items).2,
      ItemOK ((stampItems i clock items).2.foldl
        (fun targets item => addTargets item.query targets) targets) item.query := by
  induction items generalizing i clock targets with
  | nil => simp [stampItems]
  | cons nq items ih =>
      obtain ⟨now, q⟩ := nq
      have hq := hitems (now, q) List.mem_cons_self
      obtain ⟨hst, hty, hboards, hmetric⟩ := hq.assignTimestamp now ⟨clock, ∅⟩
      intro item hmem
      simp only [stampItems, List.foldl_cons] at hmem ⊢
      rcases List.mem_cons.mp hmem with rfl | hmem
      · refine ⟨hst, hty, fun kv hkv => hq.valid kv (by rwa [hboards] at hkv), fun kv hkv => ?_⟩
        exact (locked_addTargets _ _ hkv).foldl_addTargets _
      · exact ih (i + 1) _ (fun x hx => hitems x (List.mem_cons_of_mem _ hx)) _ item hmem

/-! ## Batch and sequence

The batch commits once and the sequence after every item; in the end the stores are equal. -/

/-- The queries executed one by one, with the answer to each. -/
def executeAll (s : Executor) : List (Int64 × Query) → Executor × List (Except Bytes MutationResult)
  | [] => (s, [])
  | (now, q) :: rest =>
      let first := executeMutation now s q
      let tail := executeAll first.1 rest
      (tail.1, first.2 :: tail.2)

/-- The positions that failed, with their messages. -/
def errorsFrom : ℕ → List (Except Bytes MutationResult) → List (ℕ × Bytes)
  | _, [] => []
  | i, .error msg :: rest => (i, msg) :: errorsFrom (i + 1) rest
  | i, .ok _ :: rest => errorsFrom (i + 1) rest

/-- The positions that were accepted. -/
def acceptedFrom : ℕ → List (Except Bytes MutationResult) → List ℕ
  | _, [] => []
  | i, .error _ :: rest => acceptedFrom (i + 1) rest
  | i, .ok _ :: rest => i :: acceptedFrom (i + 1) rest

/-- The batch answer that reports the answers of a sequence. -/
def batchResultOf (results : List (Except Bytes MutationResult)) : BatchResult :=
  ⟨errorsFrom 0 results = [], (acceptedFrom 0 results).length, (errorsFrom 0 results).length,
    errorsFrom 0 results⟩

/-- Executing one by one is the sequential loop over the stamped items. -/
lemma foldl_seqItem_stampItems (i : ℕ) (s : Executor) (items : List (Int64 × Query))
    (acc : List ℕ) (errs : List (ℕ × Bytes)) :
    (stampItems i s.clock items).2.foldl seqItem (s.db, acc, errs) =
        ((executeAll s items).1.db, acc ++ acceptedFrom i (executeAll s items).2,
          errs ++ errorsFrom i (executeAll s items).2) ∧
      (executeAll s items).1.clock = (stampItems i s.clock items).1 := by
  induction items generalizing i s acc errs with
  | nil => simp [stampItems, executeAll, acceptedFrom, errorsFrom]
  | cons nq items ih =>
      obtain ⟨now, q⟩ := nq
      have hstamp : (assignTimestamp now s q).1 =
            ⟨(assignTimestamp now ⟨s.clock, ∅⟩ q).1.clock, s.db⟩ ∧
          (assignTimestamp now s q).2 = (assignTimestamp now ⟨s.clock, ∅⟩ q).2 := by
        unfold assignTimestamp
        split_ifs <;> simp
      simp only [stampItems, List.foldl_cons, executeAll, executeMutation, seqItem, hstamp.1,
        hstamp.2]
      cases hm : mutationBatch s.db (assignTimestamp now ⟨s.clock, ∅⟩ q).2 with
      | error msg =>
          obtain ⟨h1, h2⟩ := ih (i + 1) ⟨(assignTimestamp now ⟨s.clock, ∅⟩ q).1.clock, s.db⟩ acc
            (errs ++ [(i, msg)])
          simp only [h1, h2, acceptedFrom, errorsFrom, List.append_assoc, List.singleton_append,
            and_self]
      | ok r =>
          obtain ⟨h1, h2⟩ := ih (i + 1) ⟨(assignTimestamp now ⟨s.clock, ∅⟩ q).1.clock, r.1⟩
            (acc ++ [i]) errs
          simp only [h1, h2, acceptedFrom, errorsFrom, List.append_assoc, List.singleton_append,
            and_self]

/-- **A batch of writes is its writes in order**: the same store, clock, accepted positions and
errors. -/
theorem executeWriteBatch_eq {s : Executor} (hs : StoreInv s.db) {σ : Scores} (hσ : LBInv s.db σ)
    (items : List (Int64 × Query)) (hitems : ∀ nq ∈ items, WriteOK nq.2) :
    executeWriteBatch s (items.map fun nq => (nq.1, some nq.2)) =
      ((executeAll s items).1, batchResultOf (executeAll s items).2) := by
  obtain ⟨hfold, hclock⟩ := foldl_seqItem_stampItems 0 s items [] []
  unfold executeWriteBatch
  simp only [planBatch_eq 0 items hitems, List.nil_append]
  have hok := stampItems_ok 0 s.clock items hitems ∅
  revert hok hfold hclock
  generalize stampItems 0 s.clock items = st
  intro hfold hclock hok
  by_cases hempty : st.2 = []
  · rw [if_pos hempty]
    rw [hempty] at hfold
    simp only [List.foldl_nil, List.nil_append, Prod.mk.injEq] at hfold
    obtain ⟨hdb, hacc, herr⟩ := hfold
    simp only [batchResultOf, ← herr, ← hacc, ← hclock, Prod.mk.injEq, List.length_nil, and_true]
    rw [hdb]
  · rw [if_neg hempty]
    have hinit : Simulates s.db σ (st.2.foldl (fun targets item => addTargets item.query targets) ∅)
        { batch := s.db, reader := ⟨st.2.foldl (fun targets item =>
          addTargets item.query targets) ∅,
          ∅⟩, errors := [] } s.db σ := by
      refine ⟨hs, hσ, hs, hσ, AgreeOffScores.refl _, ?_, rfl, ?_, ?_, fun _ _ _ _ _ => rfl⟩
      · intro metric values h
        simp at h
      · intro key st h
        simp at h
      · intro m b e st _ h
        simp at h
    obtain ⟨s', db', σ', hstage, hseq, hsim⟩ := hinit.stageItems hσ hs.keyed st.2 hok
    rw [hfold] at hseq
    simp only [List.nil_append, Prod.mk.injEq] at hseq
    obtain ⟨hdb, hacc, herr⟩ := hseq
    have hflush := hsim.flush hσ
    simp only [stageBatch, hstage, hflush, Except.mapError, bind, Except.bind, pure, Except.pure]
    simp only [batchResultOf, hacc, herr, ← hclock, ← hdb]

end FlameDB
