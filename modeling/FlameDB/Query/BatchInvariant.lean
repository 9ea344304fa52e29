import FlameDB.Query.Mutation
import FlameDB.Query.PebbleBatch

/-!
# A batch of writes keeps the invariants

Whatever a batch contains, the store it commits is sound, its score keys are those of some map of
scores, and its index is exact if no event loses tags.  A batch that fails commits nothing, so only
the steps that succeed are looked at.

* `BatchInv` — the invariant of the second loop: the shared batch is sound and still has the scores
  the batch started with, and each running score knows the score it replaces;
* `executeWriteBatch_induct` — what the items keep and the final scores give holds of the batch;
* `executeWriteBatch_inv` — the whole batch.
-/

namespace FlameDB

open Go KV

lemma AgreeOffScores.set {db db' : Store} (h : AgreeOffScores db db') (k : Bytes) (v : Value) :
    AgreeOffScores (db.set k v) (db'.set k v) := by
  intro k' hk'
  rw [OrdMap.get?_set, OrdMap.get?_set, h k' hk']

lemma AgreeOffScores.erase {db db' : Store} (h : AgreeOffScores db db') (k : Bytes) :
    AgreeOffScores (db.erase k) (db'.erase k) := by
  intro k' hk'
  rw [OrdMap.get?_erase, OrdMap.get?_erase, h k' hk']

lemma AgreeOffScores.symm {db db' : Store} (h : AgreeOffScores db db') : AgreeOffScores db' db :=
  fun k hk => (h k hk).symm

lemma AgreeOffScores.eraseIndex {db db' : Store} (h : AgreeOffScores db db') (m : Bytes) (t : Int64)
    (tags : Tags) : AgreeOffScores (eraseIndex db m t tags) (eraseIndex db' m t tags) := by
  unfold FlameDB.eraseIndex
  generalize tags.entries = l
  induction l generalizing db db' with
  | nil => exact h
  | cons kv l ih => exact ih (h.erase _)

lemma AgreeOffScores.setIndex {db db' : Store} (h : AgreeOffScores db db') (m : Bytes) (t : Int64)
    (tags : Tags) : AgreeOffScores (setIndex db m t tags) (setIndex db' m t tags) := by
  unfold FlameDB.setIndex
  generalize tags.entries = l
  induction l generalizing db db' with
  | nil => exact h
  | cons kv l ih => exact ih (h.set _ _)

/-- Staging an event does not look at scores. -/
lemma AgreeOffScores.stageEvent {db db' r : Store} (h : AgreeOffScores db db') {e : Event}
    (hw : (Key.event e.metric e.timestamp).WF) (hr : stageEvent db e = .ok r) :
    ∃ r', stageEvent db' e = .ok r' ∧ AgreeOffScores r r' := by
  obtain ⟨val, prev, hval, hprev, rfl⟩ := (stageEvent_ok_iff db r e).mp hr
  have hsame : db'.get? (eventKey e.metric e.timestamp) = db.get? (eventKey e.metric e.timestamp) :=
    h.lookup hw (by simp [Key.IsScore])
  refine ⟨_, (stageEvent_ok_iff db' _ e).mpr ⟨val, prev, hval, ?_, rfl⟩,
    ((h.eraseIndex _ _ _).set _ _).setIndex _ _ _⟩
  rw [previousTags, hsame]
  exact hprev

/-- Staging an event leaves the scores alone. -/
lemma LBInv.stageEvent {db r : Store} {σ : Scores} (hσ : LBInv db σ) (hs : StoreInv db) {e : Event}
    (hw : (Key.event e.metric e.timestamp).WF) (hfin : e.value.isFinite = true)
    (hr : stageEvent db e = .ok r) : StoreInv r ∧ LBInv r σ := by
  obtain ⟨val, r', hr', -, hs', -, hother⟩ := stageEvent_spec hs hw hfin
  rw [hr] at hr'
  cases hr'
  refine ⟨hs', hσ.congr fun K hK hscore => ?_⟩
  cases K with
  | rank m b e s => exact (hother _ hK trivial).trans (if_neg (by simp))
  | entity m b e => exact (hother _ hK trivial).trans (if_neg (by simp))
  | _ => exact hscore.elim

/-! ## Running scores

During a batch scores live in a table beside the store. Each begins as the stored score. -/

/-- Where the running score of an entity is kept. -/
def scoreKey (m : Bytes) (kv : Bytes × Bytes) : ScoreKey := toLex (boardMetric m kv.1, kv.2)

lemma scoreKey_inj {m m' : Bytes} (hm : unitSep ∉ m) (hm' : unitSep ∉ m') {kv kv' : Bytes × Bytes}
    (h : scoreKey m kv = scoreKey m' kv') : m = m' ∧ kv = kv' := by
  obtain ⟨hbm, he⟩ := Prod.mk.inj (toLex.injective h)
  obtain ⟨hmm, hb⟩ := boardMetric_inj hm hm' hbm
  exact ⟨hmm, Prod.ext hb he⟩

/-- What a running score must know for the final write to replace the score it started from, and the
metrics `R` the running scores belong to. -/
def RunningOK (R : Bytes → Prop) (σ₀ : Scores) (scores : OrdMap ScoreKey ScoreState) : Prop :=
  ∀ key st, scores.get? key = some st → ∃ m b e, (R m ∧ unitSep ∉ m) ∧ key = scoreKey m (b, e) ∧
    (∀ s, (σ₀ m b).get? e = some s → st.initial = s) ∧
    (st.changed = true → st.current.Canonical)

/-- A lookup that succeeds returns the stored score, if there is one. -/
lemma LBInv.lockedGet_of_some {db : Store} {σ : Scores} (h : LBInv db σ) {m b e : Bytes}
    (hm : unitSep ∉ m) {s : Float64} (hs : (σ m b).get? e = some s)
    {reader reader' : LockedBatchLookup} {v : Float64}
    (hget : reader.get db (boardMetric m b) e = .ok (reader', v)) : v = s := by
  have hent : db.get? (lbEntityKey (boardMetric m b) e) = _ := h.entity m b e hm
  unfold LockedBatchLookup.get at hget
  rw [hent, hs] at hget
  simp only [Option.map_some, Option.bind_some, decodeFloat64_encodeFloat64] at hget
  split_ifs at hget
  cases hget
  rfl

section Running

variable {R : Bytes → Prop} {db₀ : Store} {σ₀ : Scores} (h₀ : LBInv db₀ σ₀)

include h₀

/-- A score is loaded once and then taken from the table. -/
lemma RunningOK.readScore {reader reader' : LockedBatchLookup}
    {scores scores' : OrdMap ScoreKey ScoreState} (h : RunningOK R σ₀ scores) {m b e : Bytes}
    (hm : R m ∧ unitSep ∉ m) {st : ScoreState}
    (hread : readScore db₀ reader scores (scoreKey m (b, e)) = .ok (reader', scores', st)) :
    RunningOK R σ₀ scores' ∧ scores'.get? (scoreKey m (b, e)) = some st ∧
      ∀ key, (scores.get? key).isSome → (scores'.get? key).isSome := by
  unfold FlameDB.readScore at hread
  cases hst : scores.get? (scoreKey m (b, e)) with
  | some st₀ =>
      rw [hst] at hread
      cases hread
      exact ⟨h, hst, fun _ hk => hk⟩
  | none =>
      simp only [hst] at hread
      obtain ⟨⟨r, v⟩, hget, hread⟩ := bind_eq_ok_iff.mp hread
      cases hread
      refine ⟨?_, OrdMap.get?_set_self _ _ _, fun key hk => ?_⟩
      · intro key st' hst'
        rw [OrdMap.get?_set] at hst'
        split_ifs at hst' with hkey
        · cases hst'
          exact ⟨m, b, e, hm, hkey, fun s hs => h₀.lockedGet_of_some hm.2 hs hget, by simp⟩
        · exact h key st' hst'
      · rw [OrdMap.get?_set]
        split_ifs
        · rfl
        · exact hk

/-- The scores that will be set have been loaded. -/
lemma RunningOK.checkBoards {q : Query} (hm : R q.metric ∧ unitSep ∉ q.metric)
    {l : List (Bytes × Bytes)} {reader : LockedBatchLookup} {scores : OrdMap ScoreKey ScoreState}
    {next : List (ScoreKey × Float64)} (h : RunningOK R σ₀ scores)
    (hnext : ∀ kv ∈ next, (scores.get? kv.1).isSome ∧ kv.2.Canonical) {check : BoardCheck}
    (hcheck : checkBoards db₀ q l reader scores next = .ok check) :
    RunningOK R σ₀ check.scores ∧ ∀ next', check.next = some next' →
      ∀ kv ∈ next', (check.scores.get? kv.1).isSome ∧ kv.2.Canonical := by
  induction l generalizing reader scores next with
  | nil =>
      cases hcheck
      refine ⟨h, fun next' hn => ?_⟩
      cases hn
      exact hnext
  | cons kv l ih =>
      rw [FlameDB.checkBoards] at hcheck
      obtain ⟨⟨r, sc, st⟩, hread, hcheck⟩ := bind_eq_ok_iff.mp hcheck
      obtain ⟨h₁, hself, hmono⟩ := h.readScore h₀ hm hread
      simp only at hcheck
      split_ifs at hcheck with hfin
      · refine ih h₁ (fun kv' hkv' => ?_) hcheck
        rcases List.mem_append.mp hkv' with hmem | hmem
        · exact ⟨hmono _ (hnext kv' hmem).1, (hnext kv' hmem).2⟩
        · rw [List.mem_singleton.mp hmem]
          exact ⟨Option.isSome_iff_exists.mpr ⟨st, hself⟩, Float64.canonical_of_isFinite hfin⟩
      · cases hcheck
        exact ⟨h₁, fun next' hn => by simp at hn⟩

end Running

lemma RunningOK.applyScores {R : Bytes → Prop} {σ₀ : Scores}
    {scores : OrdMap ScoreKey ScoreState} (h : RunningOK R σ₀ scores)
    {next : List (ScoreKey × Float64)}
    (hnext : ∀ kv ∈ next, (scores.get? kv.1).isSome ∧ kv.2.Canonical) :
    RunningOK R σ₀ (applyScores scores next) := by
  induction next generalizing scores with
  | nil => exact h
  | cons kv next ih =>
      obtain ⟨⟨st, hst⟩, hcan⟩ := (hnext kv List.mem_cons_self).imp_left Option.isSome_iff_exists.mp
      simp only [FlameDB.applyScores, List.foldl_cons, hst, Option.getD_some] at ih ⊢
      refine ih ?_ fun kv' hkv' => ?_
      · intro key st' hst'
        rw [OrdMap.get?_set] at hst'
        split_ifs at hst' with hkey
        · cases hst'
          obtain ⟨m, b, e, hm, hk, hinit, -⟩ := h kv.1 st hst
          exact ⟨m, b, e, hm, hkey.trans hk, hinit, fun _ => hcan⟩
        · exact h key st' hst'
      · refine ⟨?_, (hnext kv' (List.mem_cons_of_mem _ hkv')).2⟩
        rw [OrdMap.get?_set]
        split_ifs
        · rfl
        · exact (hnext kv' (List.mem_cons_of_mem _ hkv')).1

/-- The loop that writes the scores: every changed entity ends at its running score. -/
lemma flush_loop {σ₀ : Scores} (l : List (ScoreKey × ScoreState))
    (hl : l.Pairwise fun x y => x.1 < y.1)
    (hkeys : ∀ kv ∈ l, ∃ m b e, unitSep ∉ m ∧ kv.1 = scoreKey m (b, e) ∧
      (∀ s, (σ₀ m b).get? e = some s → kv.2.initial = s) ∧
      (kv.2.changed = true → kv.2.current.Canonical))
    {batch : Store} {τ : Scores} (hτ : LBInv batch τ) (hs : StoreInv batch)
    (hsame : ∀ kv ∈ l, ∀ m b e, kv.1 = scoreKey m (b, e) → (τ m b).get? e = (σ₀ m b).get? e) :
    ∃ batch' τ', l.foldlM (fun batch kv =>
        if kv.2.changed then
          Leaderboard.stageValueFromCurrent batch (ofLex kv.1).1 (ofLex kv.1).2 kv.2.initial
            kv.2.current false
        else .ok batch) batch = .ok batch' ∧
      StoreInv batch' ∧ LBInv batch' τ' ∧ AgreeOffScores batch batch' ∧
      ∀ m b e, unitSep ∉ m → (τ' m b).get? e =
        match l.find? fun kv => kv.1 = scoreKey m (b, e) with
        | some kv => if kv.2.changed then some kv.2.current else (τ m b).get? e
        | none => (τ m b).get? e := by
  induction l generalizing batch τ with
  | nil => exact ⟨batch, τ, rfl, hs, hτ, AgreeOffScores.refl _, fun _ _ _ _ => rfl⟩
  | cons kv l ih =>
      rw [List.pairwise_cons] at hl
      have hkeys' : ∀ kv' ∈ l, _ := fun kv' hmem => hkeys kv' (List.mem_cons_of_mem _ hmem)
      have hfind : ∀ key, kv.1 = key → l.find? (fun kv => kv.1 = key) = none := by
        rintro _ rfl
        exact List.find?_eq_none.mpr fun kv' hmem => by simpa using (hl.1 kv' hmem).ne'
      rw [List.foldlM_cons]
      cases hch : kv.2.changed with
      | false =>
          obtain ⟨b', τ', hloop, hs', hτ', hoff, hget⟩ := ih hl.2 hkeys' hτ hs
            fun kv' hmem => hsame kv' (List.mem_cons_of_mem _ hmem)
          refine ⟨b', τ', hloop, hs', hτ', hoff, fun m b e hm => ?_⟩
          rw [hget m b e hm, List.find?_cons]
          by_cases hk : kv.1 = scoreKey m (b, e)
          · simp [hk, hfind _ hk, hch]
          · simp [hk]
      | true =>
          obtain ⟨m₀, b₀, e₀, hm₀, hkey, hinit, hcur⟩ := hkeys kv List.mem_cons_self
          have hcan := hcur hch
          obtain ⟨b₁, hstage, hτ₁, hs₁, hoff₁⟩ := hτ.stageScore hm₀ (v := kv.2.current) hcan.1
            (fun s hs' => hinit s (by rwa [hsame kv List.mem_cons_self m₀ b₀ e₀ hkey] at hs'))
          rw [hcan.2] at hτ₁
          have hput : ∀ m b e, unitSep ∉ m → kv.1 ≠ scoreKey m (b, e) →
              (τ.put m₀ b₀ e₀ kv.2.current m b).get? e = (τ m b).get? e := by
            intro m b e _ hk
            rw [Scores.get?_put, if_neg]
            rintro ⟨rfl, rfl, rfl⟩
            exact hk hkey
          obtain ⟨b', τ', hloop, hs', hτ', hoff, hget⟩ := ih hl.2 hkeys' hτ₁ (hs₁ hs)
            fun kv' hmem m b e hk => by
              have hne : kv.1 ≠ scoreKey m (b, e) := by
                rw [← hk]
                exact (hl.1 kv' hmem).ne
              by_cases hm : unitSep ∈ m
              · rw [hτ₁.get?_eq_none hm, ← hsame kv' (List.mem_cons_of_mem _ hmem) m b e hk,
                  hτ.get?_eq_none hm]
              · rw [hput m b e hm hne]
                exact hsame kv' (List.mem_cons_of_mem _ hmem) m b e hk
          refine ⟨b', τ', ?_, hs', hτ', hoff₁.trans hoff, fun m b e hm => ?_⟩
          · have hcall : Leaderboard.stageValueFromCurrent batch (ofLex kv.1).1 (ofLex kv.1).2
                kv.2.initial kv.2.current false = .ok b₁ := by
              rw [hkey]
              exact hstage
            simp only [if_true, hcall]
            exact hloop
          · rw [hget m b e hm, List.find?_cons]
            by_cases hk : kv.1 = scoreKey m (b, e)
            · obtain ⟨rfl, hkv⟩ := scoreKey_inj hm₀ hm (hkey.symm.trans hk)
              obtain ⟨rfl, rfl⟩ := Prod.mk.inj hkv
              simp [hk, hfind _ hk, hch, Scores.get?_put]
            · simp [hk, hput m b e hm hk]

/-! ## The loops

An item of the second loop is a repeated operation, or overflows a score, or is staged.  Everything
that is proved about a batch goes through `stageItem_cases` for one item and through
`executeWriteBatch_induct` for all of them. -/

/-- **One item of the second loop.** -/
lemma stageItem_cases {db₀ : Store} {s s' : BatchState} {item : BatchItem}
    (hok : stageItem db₀ s item = .ok s') :
    (s'.batch = s.batch ∧ s'.scores = s.scores) ∨
    ∃ check, checkBoards db₀ item.query (boardsOf item.query).entries s.reader s.scores [] =
        .ok check ∧
      ((s'.batch = s.batch ∧ s'.scores = check.scores) ∨
      ∃ next b, check.next = some next ∧ stageEvent s.batch (eventOf item.query) = .ok b ∧
        (s'.batch = b ∨ ∃ op v, s'.batch = b.set (receiptKey op) v) ∧
        s'.scores = applyScores check.scores next) := by
  unfold stageItem at hok
  by_cases hdone : hasReceipt item.query ∧
      (s.batch.get? (receiptKey item.query.operationID)).isSome
  · rw [if_pos hdone] at hok
    cases hok
    exact Or.inl ⟨rfl, rfl⟩
  · rw [if_neg hdone] at hok
    cases hcheck : checkBoards db₀ item.query (boardsOf item.query).entries s.reader
      s.scores [] with
    | error msg => simp [hcheck, Except.mapError, bind, Except.bind] at hok
    | ok check =>
        refine Or.inr ⟨check, rfl, ?_⟩
        simp only [hcheck, Except.mapError, bind, Except.bind] at hok
        cases hnext : check.next with
        | none =>
            rw [hnext] at hok
            cases hok
            exact Or.inl ⟨rfl, rfl⟩
        | some next =>
            simp only [hnext] at hok
            cases hstage : stageEvent s.batch (eventOf item.query) with
            | error msg => simp [hstage] at hok
            | ok b =>
                simp only [hstage] at hok
                cases hok
                refine Or.inr ⟨next, b, rfl, rfl, ?_, rfl⟩
                cases hasReceipt item.query with
                | true => exact Or.inr ⟨_, _, rfl⟩
                | false => exact Or.inl rfl

/-- What the first loop lets pass. -/
lemma planBatch_valid {P : Query → Prop} {i : ℕ} {items : List (Int64 × Option Query)}
    {plan : BatchPlan} (hplan : ∀ item ∈ plan.valid, P item.query)
    (hitems : ∀ x ∈ items, ∀ q, x.2 = some q → q.type = .write →
      ∀ ts, P { q with timestamp := ts }) :
    ∀ item ∈ (planBatch i items plan).valid, P item.query := by
  induction items generalizing i plan with
  | nil => exact hplan
  | cons x items ih =>
      have hrest : ∀ y ∈ items, ∀ q, y.2 = some q → q.type = .write →
          ∀ ts, P { q with timestamp := ts } := fun y hy => hitems y (List.mem_cons_of_mem _ hy)
      obtain ⟨now, _ | q⟩ := x
      · exact ih hplan hrest
      · unfold planBatch
        split_ifs with hty hbad hts
        · exact ih hplan hrest
        · exact ih hplan hrest
        all_goals
          refine ih (fun item hmem => ?_) hrest
          have hq := hitems (now, some q) List.mem_cons_self q rfl (not_not.mp hty)
          rcases List.mem_append.mp hmem with hmem | hmem
          · exact hplan item hmem
          · rw [List.mem_singleton.mp hmem]
            exact hq _

/-- **The induction rule for batches.**  `M` holds when the second loop starts and is kept by every
item; the batch then commits nothing, or the scores that end a state with `M`. -/
theorem executeWriteBatch_induct {s : Executor} {items : List (Int64 × Option Query)}
    {R : Query → Prop} {M : BatchState → Prop} {J : Store → Prop}
    (hitems : ∀ x ∈ items, ∀ q, x.2 = some q → q.type = .write →
      ∀ ts, R { q with timestamp := ts })
    (hinit : ∀ reader errors, M { batch := s.db, reader := reader, errors := errors })
    (hstep : ∀ {st st' : BatchState} {item : BatchItem}, M st → R item.query →
      stageItem s.db st item = .ok st' → M st')
    (hsame : J s.db)
    (hflush : ∀ {st : BatchState}, M st →
      ∃ batch, flushScores st.scores st.batch = .ok batch ∧ J batch) :
    J (executeWriteBatch s items).1.db := by
  have hloop : ∀ (valid : List BatchItem), (∀ item ∈ valid, R item.query) → ∀ {st st' : BatchState},
      M st → valid.foldlM (stageItem s.db) st = .ok st' → M st' := by
    intro valid
    induction valid with
    | nil =>
        intro _ st st' hst hok
        cases hok
        exact hst
    | cons item valid ih =>
        intro hvalid st st' hst hok
        rw [List.foldlM_cons] at hok
        obtain ⟨st₁, hitem, hrest⟩ := bind_eq_ok_iff.mp hok
        exact ih (fun x hx => hvalid x (List.mem_cons_of_mem _ hx))
          (hstep hst (hvalid item List.mem_cons_self) hitem) hrest
  have hvalid := @planBatch_valid R 0 items { clock := s.clock } (by simp) hitems
  unfold executeWriteBatch
  generalize planBatch 0 items { clock := s.clock } = plan at hvalid
  simp only
  split_ifs
  · exact hsame
  · cases hbatch : stageBatch s.db plan with
    | error failure => exact hsame
    | ok r =>
        rw [stageBatch] at hbatch
        obtain ⟨st, hst, hrest⟩ := bind_eq_ok_iff.mp hbatch
        obtain ⟨batch, hscores, hJ⟩ := hflush (hloop plan.valid hvalid (hinit _ _) hst)
        simp only [hscores, Except.mapError, bind, Except.bind, pure, Except.pure] at hrest
        cases hrest
        exact hJ

/-! ## The invariant -/

/-- The staged store is sound and still has the scores `σ₀`; the changes to them are in the running
scores. -/
structure BatchInv (R : Bytes → Prop) (σ₀ : Scores) (s : BatchState) : Prop where
  store : StoreInv s.batch
  scores : LBInv s.batch σ₀
  running : RunningOK R σ₀ s.scores

lemma batchInv_init {R : Bytes → Prop} {db : Store} (hs : StoreInv db) {σ : Scores}
    (hσ : LBInv db σ) (reader : LockedBatchLookup) (errors : List (ℕ × Bytes)) :
    BatchInv R σ { batch := db, reader := reader, errors := errors } :=
  ⟨hs, hσ, fun key st h => by simp at h⟩

/-- One item keeps the invariant. -/
lemma BatchInv.stageItem {R : Bytes → Prop} {db₀ : Store} {σ₀ : Scores} (h₀ : LBInv db₀ σ₀)
    {s s' : BatchState} (h : BatchInv R σ₀ s) {item : BatchItem} (hq : item.query.Stageable)
    (hR : R item.query.metric) (hok : stageItem db₀ s item = .ok s') : BatchInv R σ₀ s' := by
  rcases stageItem_cases hok with ⟨hb, hsc⟩ | ⟨check, hcheck, hrest⟩
  · exact ⟨hb ▸ h.store, hb ▸ h.scores, hsc ▸ h.running⟩
  · obtain ⟨hrun, hnew⟩ := h.running.checkBoards h₀ ⟨hR, hq.metric_noSep⟩ (by simp) hcheck
    rcases hrest with ⟨hb, hsc⟩ | ⟨next, b, hnext, hstage, hb, hsc⟩
    · exact ⟨hb ▸ h.store, hb ▸ h.scores, hsc ▸ hrun⟩
    · obtain ⟨hs, hσ⟩ := h.scores.stageEvent h.store (e := eventOf item.query)
        hq.metric_wf hq.value_isFinite hstage
      have hscores : RunningOK R σ₀ s'.scores := hsc ▸ hrun.applyScores (hnew next hnext)
      rcases hb with hb | ⟨op, v, hb⟩
      · exact ⟨hb ▸ hs, hb ▸ hσ, hscores⟩
      · exact ⟨hb ▸ hs.setReceipt _ _, hb ▸ hσ.setReceipt _ _, hscores⟩

/-- **The final scores**: no score of a metric outside `R` changes. -/
lemma BatchInv.flush {R : Bytes → Prop} {σ₀ : Scores} {s : BatchState} (h : BatchInv R σ₀ s) :
    ∃ batch σ, flushScores s.scores s.batch = .ok batch ∧ StoreInv batch ∧ LBInv batch σ ∧
      AgreeOffScores s.batch batch ∧ ∀ m b e, ¬ R m → (σ m b).get? e = (σ₀ m b).get? e := by
  have hkeys : ∀ kv ∈ s.scores.entries, ∃ m b e, (R m ∧ unitSep ∉ m) ∧ kv.1 = scoreKey m (b, e) ∧
      (∀ s, (σ₀ m b).get? e = some s → kv.2.initial = s) ∧
      (kv.2.changed = true → kv.2.current.Canonical) := fun kv hmem =>
    h.running kv.1 kv.2 ((OrdMap.mem_entries_iff s.scores kv.1 kv.2).mp hmem)
  obtain ⟨b', τ', hloop, hs', hτ', hoff, hget⟩ := flush_loop s.scores.entries s.scores.sorted
    (fun kv hmem => by
      obtain ⟨m, b, e, hm, hrest⟩ := hkeys kv hmem
      exact ⟨m, b, e, hm.2, hrest⟩)
    h.scores h.store fun _ _ _ _ _ _ => rfl
  refine ⟨b', τ', hloop, hs', hτ', hoff, fun m b e hR => ?_⟩
  by_cases hm : unitSep ∈ m
  · rw [hτ'.get?_eq_none hm, h.scores.get?_eq_none hm]
  · have hnone : s.scores.entries.find? (fun kv => kv.1 = scoreKey m (b, e)) = none := by
      rw [List.find?_eq_none]
      intro kv hmem hkey
      obtain ⟨m', b', e', hm', heq, -⟩ := hkeys kv hmem
      have hsame := scoreKey_inj hm'.2 hm (heq.symm.trans (of_decide_eq_true hkey))
      exact hR (hsame.1 ▸ hm'.1)
    rw [hget m b e hm, hnone]

/-- **A batch keeps the invariants.** -/
theorem executeWriteBatch_inv {s : Executor} (hs : StoreInv s.db) {σ : Scores} (hσ : LBInv s.db σ)
    (items : List (Int64 × Option Query))
    (hitems : ∀ x ∈ items, ∀ q, x.2 = some q → q.type = .write → q.Stageable) :
    StoreInv (executeWriteBatch s items).1.db ∧ (∃ σ', LBInv (executeWriteBatch s items).1.db σ') ∧
      (IndexExact s.db →
        (∀ x ∈ items, ∀ q, x.2 = some q → q.type = .write → (eventOf q).Lossless) →
        IndexExact (executeWriteBatch s items).1.db) := by
  have hstage : ∀ x ∈ items, ∀ q, x.2 = some q → q.type = .write →
      ∀ ts, Query.Stageable { q with timestamp := ts } := fun x hx q hq hty _ =>
    ⟨(hitems x hx q hq hty).metric_wf, (hitems x hx q hq hty).metric_noSep,
      (hitems x hx q hq hty).value_isFinite⟩
  have hinv : StoreInv (executeWriteBatch s items).1.db ∧
      ∃ σ', LBInv (executeWriteBatch s items).1.db σ' := by
    refine executeWriteBatch_induct (R := Query.Stageable) (M := BatchInv (fun _ => True) σ)
      (J := fun db => StoreInv db ∧ ∃ σ', LBInv db σ') hstage (batchInv_init hs hσ)
      (fun hst hq hok => hst.stageItem hσ hq trivial hok) ⟨hs, σ, hσ⟩ fun hst => ?_
    obtain ⟨batch, σ', hflush, hs', hσ', -⟩ := hst.flush
    exact ⟨batch, hflush, hs', σ', hσ'⟩
  refine ⟨hinv.1, hinv.2, fun hix hl => ?_⟩
  refine executeWriteBatch_induct (R := fun q => q.Stageable ∧ (eventOf q).Lossless)
    (M := fun st => BatchInv (fun _ => True) σ st ∧ IndexExact st.batch) (J := IndexExact)
    (fun x hx q hq hty ts => ⟨hstage x hx q hq hty ts, hl x hx q hq hty⟩)
    (fun reader errors => ⟨batchInv_init hs hσ reader errors, hix⟩)
    (fun {st st' item} hst hq hok => ⟨hst.1.stageItem hσ hq.1 trivial hok, ?_⟩) hix fun hst => ?_
  · rcases stageItem_cases hok with ⟨hb, -⟩ | ⟨check, -, ⟨hb, -⟩ | ⟨next, b, -, hev, hb, -⟩⟩
    · exact hb ▸ hst.2
    · exact hb ▸ hst.2
    · have hevent := hst.2.stageEvent hst.1.store (e := eventOf item.query) hq.1.metric_wf
        hq.1.value_isFinite hq.2 hev
      rcases hb with hb | ⟨op, v, hb⟩
      · exact hb ▸ hevent
      · exact hb ▸ hevent.setReceipt _ _
  · obtain ⟨batch, σ', hflush, -, -, hoff, -⟩ := hst.1.flush
    exact ⟨batch, hflush, hoff.indexExact hst.2⟩

end FlameDB
