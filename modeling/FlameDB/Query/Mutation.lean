import FlameDB.Aggregates.Scores
import FlameDB.Query.Executor

/-!
# What a mutation does

For each kind of mutation, its effect on the abstract scores, on the event store and on everything
else.  The invariants of whole runs are derived from these statements alone.

* `putBoards`, `removeBoards` — the effect on the scores.
* **`stageWrite_spec`**, **`stageSet_spec`**, **`stageDelete_spec`** — one per kind.
* **`mutationBatch_inv`** — an accepted mutation keeps `StoreInv`, `LBInv` and, when it stores its
  event without loss, `IndexExact`.
-/

namespace FlameDB

open Go KV

lemma not_isScoreKey_encode {K : Key} (hK : K.WF) (hns : ¬ K.IsScore) : ¬ IsScoreKey K.encode := by
  rintro ⟨y, hy | hy⟩
  all_goals
    rw [Key.encode_eq] at hy
    obtain ⟨hfam, -⟩ := append_cons_inj K.colon_notMem_family (by decide) hy
    cases K with
    | event m t => exact Key.component_ne_reserved hK.2 (by decide) hfam
    | rank m b e s => exact hns trivial
    | entity m b e => exact hns trivial
    | _ => exact absurd hfam (by simp only [Key.family]; decide)

lemma AgreeOffScores.lookup {db db' : Store} (h : AgreeOffScores db db') {K : Key} (hK : K.WF)
    (hns : ¬ K.IsScore) : lookup db' K = lookup db K :=
  h _ (not_isScoreKey_encode hK hns)

lemma AgreeOffScores.indexExact {db db' : Store} (h : AgreeOffScores db db')
    (hix : IndexExact db) : IndexExact db' :=
  hix.congr (fun _ _ _ _ => h.lookup trivial (by simp [Key.IsScore]))
    (fun _ _ hw => h.lookup hw (by simp [Key.IsScore]))

/-- Storing a receipt changes nothing else. -/
lemma lookup_setReceipt (db : Store) (op : Bytes) (v : Value) {K : Key} (hK : K.WF) :
    lookup (db.set (receiptKey op) v) K = if K = .receipt op then some v else lookup db K :=
  lookup_set db (k := .receipt op) trivial hK v

lemma LBInv.setReceipt {db : Store} {σ : Scores} (h : LBInv db σ) (op : Bytes) (v : Value) :
    LBInv (db.set (receiptKey op) v) σ := by
  refine h.congr fun K hK hs => ?_
  rw [lookup_setReceipt db op v hK, if_neg]
  rintro rfl
  exact hs

lemma StoreInv.setReceipt {db : Store} (h : StoreInv db) (op : Bytes) (v : Value) :
    StoreInv (db.set (receiptKey op) v) :=
  h.set_notEvent (K := .receipt op) trivial trivial v

lemma IndexExact.setReceipt {db : Store} (h : IndexExact db) (op : Bytes) (v : Value) :
    IndexExact (db.set (receiptKey op) v) := by
  refine h.congr (fun m k v' t => ?_) (fun m t hw => ?_)
  · rw [lookup_setReceipt db op v (K := .index m k v' t) trivial, if_neg (by simp)]
  · rw [lookup_setReceipt db op v hw, if_neg (by simp)]

/-! ## Loops over boards -/

/-- The scores after storing one value per board. -/
def putBoards (σ : Scores) (m : Bytes) (v : Bytes × Bytes → Float64) (l : List (Bytes × Bytes)) :
    Scores :=
  l.foldl (fun σ kv => σ.put m kv.1 kv.2 (v kv).canonical) σ

/-- The scores after removing one entity per board. -/
def removeBoards (σ : Scores) (m : Bytes) (l : List (Bytes × Bytes)) : Scores :=
  l.foldl (fun σ kv => σ.remove m kv.1 kv.2) σ

lemma get?_putBoards (σ : Scores) (m : Bytes) (v : Bytes × Bytes → Float64)
    (l : List (Bytes × Bytes)) (m' b' e' : Bytes) :
    (putBoards σ m v l m' b').get? e' =
      if m' = m ∧ (b', e') ∈ l then some (v (b', e')).canonical else (σ m' b').get? e' := by
  induction l generalizing σ with
  | nil => simp [putBoards]
  | cons kv l ih =>
      change (putBoards (σ.put m kv.1 kv.2 (v kv).canonical) m v l m' b').get? e' = _
      rw [ih, Scores.get?_put]
      by_cases hmem : (b', e') ∈ l
      · by_cases hm : m' = m <;> simp [hmem, hm]
      · by_cases hm : m' = m
        · by_cases hkv : (b', e') = kv
          · simp [hm, ← hkv]
          · have : ¬ (b' = kv.1 ∧ e' = kv.2) := fun hc => hkv (Prod.ext hc.1 hc.2)
            simp [hmem, hm, hkv, this]
        · simp [hm]

/-- The loop succeeds when every new score is finite, and then the scores move. -/
lemma LBInv.stageBoards_put {batch : Store} {σ : Scores} (h : LBInv batch σ) {m : Bytes}
    (hm : unitSep ∉ m) (cur v : Bytes × Bytes → Float64) {l : List (Bytes × Bytes)}
    (hl : l.Pairwise fun a b => a.1 < b.1)
    (hcur : ∀ kv ∈ l, ∀ s, (σ m kv.1).get? kv.2 = some s → cur kv = s)
    (hfin : ∀ kv ∈ l, (v kv).isFinite = true) :
    ∃ batch', l.foldlM (fun batch kv => Leaderboard.stageValueFromCurrent batch
        (boardMetric m kv.1) kv.2 (cur kv) (v kv) false) batch = .ok batch' ∧
      LBInv batch' (putBoards σ m v l) ∧ (StoreInv batch → StoreInv batch') ∧
      AgreeOffScores batch batch' := by
  induction l generalizing batch σ with
  | nil => exact ⟨batch, rfl, h, id, AgreeOffScores.refl _⟩
  | cons kv l ih =>
      rw [List.pairwise_cons] at hl
      obtain ⟨b₁, hstage, hinv, hstore, hoff⟩ := h.stageScore hm (hfin kv List.mem_cons_self)
        (hcur kv List.mem_cons_self)
      obtain ⟨b₂, hloop, hinv₂, hstore₂, hoff₂⟩ := ih hinv hl.2 (fun kv' hkv' s hs => by
          rw [Scores.get?_put, if_neg (fun hc => absurd (hl.1 kv' hkv') (by simp [hc.2.1]))] at hs
          exact hcur kv' (List.mem_cons_of_mem _ hkv') s hs)
        (fun kv' hkv' => hfin kv' (List.mem_cons_of_mem _ hkv'))
      refine ⟨b₂, ?_, hinv₂, fun hs => hstore₂ (hstore hs), hoff.trans hoff₂⟩
      rw [List.foldlM_cons, hstage]
      exact hloop

/-- One score that is not finite fails the loop. -/
lemma stageBoards_error (batch : Store) (m : Bytes) (cur v : Bytes × Bytes → Float64)
    {l : List (Bytes × Bytes)} (hinf : ∃ kv ∈ l, (v kv).isFinite = false) :
    l.foldlM (fun batch kv => Leaderboard.stageValueFromCurrent batch
      (boardMetric m kv.1) kv.2 (cur kv) (v kv) false) batch = .error Leaderboard.mustBeFinite := by
  induction l generalizing batch with
  | nil => simp at hinf
  | cons kv l ih =>
      rw [List.foldlM_cons]
      by_cases hkv : (v kv).isFinite = true
      · rw [stageValueFromCurrent_put batch _ kv.2 (cur kv) hkv]
        refine ih _ ?_
        obtain ⟨kv', hmem, hinf'⟩ := hinf
        rcases List.mem_cons.mp hmem with rfl | hmem
        · rw [hkv] at hinf'
          cases hinf'
        · exact ⟨kv', hmem, hinf'⟩
      · simp [Leaderboard.stageValueFromCurrent, hkv, bind, Except.bind]

lemma get?_removeBoards (σ : Scores) (m : Bytes) (l : List (Bytes × Bytes)) (m' b' e' : Bytes) :
    (removeBoards σ m l m' b').get? e' =
      if m' = m ∧ (b', e') ∈ l then none else (σ m' b').get? e' := by
  induction l generalizing σ with
  | nil => simp [removeBoards]
  | cons kv l ih =>
      change (removeBoards (σ.remove m kv.1 kv.2) m l m' b').get? e' = _
      rw [ih, Scores.get?_remove]
      by_cases hmem : (b', e') ∈ l
      · by_cases hm : m' = m <;> simp [hmem, hm]
      · by_cases hm : m' = m
        · by_cases hkv : (b', e') = kv
          · simp [hm, ← hkv]
          · have : ¬ (b' = kv.1 ∧ e' = kv.2) := fun hc => hkv (Prod.ext hc.1 hc.2)
            simp [hmem, hm, hkv, this]
        · simp [hm]

/-- Removing one entity per board.  A dry run only counts. -/
lemma LBInv.stageDeleteBoards {db : Store} {σ : Scores} (h : LBInv db σ) {q : Query}
    (hm : unitSep ∉ q.metric) :
    ∃ batch n, stageDeleteBoards db q db = .ok (batch, n) ∧
      LBInv batch (if q.dryRun then σ else removeBoards σ q.metric (boardsOf q).entries) ∧
      (StoreInv db → StoreInv batch) ∧ AgreeOffScores db batch ∧
        (q.dryRun = true → batch = db) := by
  unfold FlameDB.stageDeleteBoards
  have hl := (boardsOf q).sorted
  revert hl
  generalize (boardsOf q).entries = l
  intro hl
  -- the loop reads the database and changes the batch, which agree on the boards still to come
  suffices hgen : ∀ (l : List (Bytes × Bytes)) (batch : Store) (τ : Scores) (n : ℕ),
      l.Pairwise (fun a b => a.1 < b.1) → LBInv batch τ →
      (∀ kv ∈ l, τ q.metric kv.1 = σ q.metric kv.1) →
      ∃ batch' n', l.foldlM (deleteBoard db q) (batch, n) = .ok (batch', n') ∧
        LBInv batch' (if q.dryRun then τ else removeBoards τ q.metric l) ∧
        (StoreInv batch → StoreInv batch') ∧ AgreeOffScores batch batch' ∧
        (q.dryRun = true → batch' = batch) from hgen l db σ 0 hl h fun _ _ => rfl
  intro l
  induction l with
  | nil =>
      intro batch τ n _ hτ _
      refine ⟨batch, n, rfl, ?_, id, AgreeOffScores.refl _, fun _ => rfl⟩
      simpa [removeBoards] using hτ
  | cons kv l ih =>
      intro batch τ n hl hτ hsame
      rw [List.pairwise_cons] at hl
      rw [List.foldlM_cons]
      by_cases hdry : q.dryRun = true
      · obtain ⟨b', n', hloop, hinv, hstore, hoff, heq⟩ := ih batch τ
          (if Leaderboard.existsEntry db (boardMetric q.metric kv.1) kv.2 then n + 1 else n) hl.2 hτ
          fun kv' hkv' => hsame kv' (List.mem_cons_of_mem _ hkv')
        refine ⟨b', n', ?_, by simpa [hdry] using hinv, hstore, hoff, heq⟩
        rw [← hloop, deleteBoard]
        simp only [hdry, if_true, pure_bind]
      · have hcur : ∀ s, (τ q.metric kv.1).get? kv.2 = some s →
            Leaderboard.get db (boardMetric q.metric kv.1) kv.2 = s := by
          intro s hs
          rw [hsame kv List.mem_cons_self] at hs
          exact h.get_of_some hm hs
        obtain ⟨b₁, hstage, hinv₁, hstore₁, hoff₁⟩ :=
          hτ.stageRemove (v := Float64.zero) hm hcur
        obtain ⟨b', n', hloop, hinv, hstore, hoff, -⟩ := ih b₁ (τ.remove q.metric kv.1 kv.2)
          (if Leaderboard.existsEntry db (boardMetric q.metric kv.1) kv.2 then
            n + 1 else n) hl.2 hinv₁
          fun kv' hkv' => by
            have hne : ¬ (q.metric = q.metric ∧ kv'.1 = kv.1) := fun hc =>
              absurd (hl.1 kv' hkv') (by simp [hc.2])
            rw [Scores.remove, Scores.update, if_neg hne]
            exact hsame kv' (List.mem_cons_of_mem _ hkv')
        refine ⟨b', n', ?_, by simpa [hdry, removeBoards] using hinv, fun hs => hstore (hstore₁ hs),
          hoff₁.trans hoff, fun hc => absurd hc hdry⟩
        rw [← hloop, deleteBoard]
        simp only [hdry, Bool.false_eq_true, if_false, Leaderboard.stageValue, hstage, bind,
          Except.bind, pure, Except.pure]

/-! ## The three kinds

WRITE adds, SET replaces and DELETE removes; each is given as a map on scores. -/

/-- The scores a WRITE leaves, from the current score of each of its entities. -/
def writeScores (db : Store) (σ : Scores) (q : Query) : Scores :=
  putBoards σ q.metric
    (fun kv => Leaderboard.get db (boardMetric q.metric kv.1) kv.2 + q.value) (boardsOf q).entries

/-- A WRITE overflows when some board's new score is not finite. -/
def Overflows (db : Store) (q : Query) : Prop :=
  ∃ kv ∈ (boardsOf q).entries,
    (Leaderboard.get db (boardMetric q.metric kv.1) kv.2 + q.value).isFinite = false

instance (db : Store) (q : Query) : Decidable (Overflows db q) :=
  inferInstanceAs (Decidable (∃ kv ∈ _, _))

/-- The scores a SET leaves. -/
def setScores (σ : Scores) (q : Query) : Scores :=
  putBoards σ q.metric (fun _ => q.value) (boardsOf q).entries

/-- The scores a DELETE leaves. -/
def deleteScores (σ : Scores) (q : Query) : Scores :=
  if q.dryRun then σ else removeBoards σ q.metric (boardsOf q).entries

/-- The events a DELETE selects. -/
def deletedEvents (db : Store) (q : Query) : List Event :=
  if (boardsOf q).entries = [] ∨ q.where_.entries ≠ [] then
    let bounds := scanBounds db q.metric q.from_ q.stop q.where_
    hits db q.metric q.where_ (db.range bounds.1 bounds.2)
  else []

lemma LBInv.dropEvents {b : Store} {σ : Scores} (h : LBInv b σ) {m : Bytes}
    (hw : m ≠ [] ∧ m ∉ Key.reserved) (es : List Event) :
    LBInv (es.foldl (dropEvent m) b) σ := by
  induction es generalizing b with
  | nil => exact h
  | cons e es ih =>
      refine ih (h.congr fun K hK hscore => ?_)
      cases K with
      | rank m b e s =>
          exact (lookup_dropEvent_of_notIndex hw _ hK trivial).trans (if_neg (by simp))
      | entity m b e =>
          exact (lookup_dropEvent_of_notIndex hw _ hK trivial).trans (if_neg (by simp))
      | _ => exact hscore.elim

lemma StoreInv.rowsSound {db : Store} (hs : StoreInv db) {m : Bytes}
    (hw : m ≠ [] ∧ m ∉ Key.reserved) (start stop : Int64) (tags : Tags) :
    RowsSound db m tags (db.range (scanBounds db m start stop tags).1
      (scanBounds db m start stop tags).2) :=
  fun _ hrow => hs.fetchRow_spec hw hrow

/-- Every event a DELETE selects is stored. -/
lemma StoreInv.deletedEvents_spec {db : Store} (hs : StoreInv db) {q : Query}
    (hw : q.metric ≠ [] ∧ q.metric ∉ Key.reserved) {e : Event} (he : e ∈ deletedEvents db q) :
    eventAt db q.metric e.timestamp = some e ∧ matchTags q.where_ e = true := by
  unfold deletedEvents at he
  split_ifs at he
  · exact (hs.rowsSound hw q.from_ q.stop q.where_).hits_spec he
  · simp at he

section Kinds

variable {db : Store} (hs : StoreInv db) {σ : Scores} (hσ : LBInv db σ) {q : Query}
  (hq : q.Stageable)

include hs hσ hq

/-- **A WRITE** stages its event and moves the scores, or fails because a score overflows. -/
theorem stageWrite_spec (hty : q.type = .write) :
    ∃ b₁, stageEvent db (eventOf q) = .ok b₁ ∧
      (Overflows db q → stageMutation db q = .error Leaderboard.mustBeFinite) ∧
      (¬ Overflows db q → ∃ b₂, stageMutation db q = .ok (b₂, ⟨q.dryRun, 0, 0⟩) ∧ StoreInv b₂ ∧
        LBInv b₂ (writeScores db σ q) ∧ AgreeOffScores b₁ b₂) := by
  have hm := hq.metric_noSep
  have hw : (Key.event (eventOf q).metric (eventOf q).timestamp).WF := hq.metric_wf
  obtain ⟨val, b₁, hstage, -, hs₁, -, hother⟩ := stageEvent_spec hs hw hq.value_isFinite
  have hσ₁ : LBInv b₁ σ := hσ.congr fun K hK hscore => by
    cases K with
    | rank m b e s => exact (hother _ hK trivial).trans (if_neg (by simp))
    | entity m b e => exact (hother _ hK trivial).trans (if_neg (by simp))
    | _ => exact hscore.elim
  refine ⟨b₁, hstage, fun hover => ?_, fun hnot => ?_⟩
  · have := stageBoards_error b₁ q.metric
      (fun kv => Leaderboard.get db (boardMetric q.metric kv.1) kv.2)
      (fun kv => Leaderboard.get db (boardMetric q.metric kv.1) kv.2 + q.value) hover
    simp only [stageMutation, hty, hstage, stageWriteBoards, this, bind, Except.bind]
  · obtain ⟨b₂, hloop, hσ₂, hs₂, hoff⟩ := hσ₁.stageBoards_put hm
      (fun kv => Leaderboard.get db (boardMetric q.metric kv.1) kv.2)
      (fun kv => Leaderboard.get db (boardMetric q.metric kv.1) kv.2 + q.value)
      (boardsOf q).sorted (fun kv _ s hget => hσ.get_of_some hm hget)
      (fun kv hkv => by
        by_contra hinf
        exact hnot ⟨kv, hkv, by simpa using hinf⟩)
    refine ⟨b₂, ?_, hs₂ hs₁, hσ₂, hoff⟩
    simp only [stageMutation, hty, hstage, stageWriteBoards, hloop, bind, Except.bind, pure,
      Except.pure]

/-- **A SET** moves the scores and nothing else. -/
theorem stageSet_spec (hty : q.type = .set) :
    ∃ b, stageMutation db q = .ok (b, ⟨q.dryRun, 0, 0⟩) ∧ StoreInv b ∧
      LBInv b (setScores σ q) ∧ AgreeOffScores db b := by
  have hm := hq.metric_noSep
  obtain ⟨b, hloop, hσ', hs', hoff⟩ := hσ.stageBoards_put hm
    (fun kv => Leaderboard.get db (boardMetric q.metric kv.1) kv.2) (fun _ => q.value)
    (boardsOf q).sorted (fun kv _ s hget => hσ.get_of_some hm hget) (fun _ _ => hq.value_isFinite)
  refine ⟨b, ?_, hs' hs, hσ', hoff⟩
  simp only [stageMutation, hty, stageSetBoards, Leaderboard.stageValue, hloop, bind, Except.bind,
    pure, Except.pure]

/-- **A DELETE** removes the named entities and the selected events; a dry run only counts them. -/
theorem stageDelete_spec (hty : q.type = .delete) :
    ∃ b₁ n, stageMutation db q =
        .ok (if q.dryRun then db else (deletedEvents db q).foldl (dropEvent q.metric) b₁,
          ⟨q.dryRun, (deletedEvents db q).length, n⟩) ∧
      StoreInv b₁ ∧ LBInv b₁ (deleteScores σ q) ∧ AgreeOffScores db b₁ ∧
      (q.dryRun = true → b₁ = db) := by
  obtain ⟨b₁, n, hloop, hσ₁, hs₁, hoff, hdry⟩ := hσ.stageDeleteBoards hq.metric_noSep
  refine ⟨b₁, n, ?_, hs₁ hs, hσ₁, hoff, hdry⟩
  have hrows := hs.rowsSound hq.metric_wf q.from_ q.stop q.where_
  simp only [stageMutation, hty, hloop, bind, Except.bind, pure, Except.pure]
  unfold stageDeleteEvents deletedEvents
  by_cases hscan : (boardsOf q).entries = [] ∨ q.where_.entries ≠ []
  · rw [if_pos hscan, if_pos hscan, scanDeleteWhere, hrows.deleteLoop_eq]
    cases hd : q.dryRun with
    | true => simp [bind, Except.bind, pure, Except.pure, hdry hd]
    | false => simp [bind, Except.bind, pure, Except.pure]
  · rw [if_neg hscan, if_neg hscan]
    cases hd : q.dryRun with
    | true => simp [pure, Except.pure, hdry hd]
    | false => simp [pure, Except.pure]

end Kinds

/-! ## The whole batch -/

/-- The scores an accepted mutation leaves. -/
def mutationScores (db : Store) (σ : Scores) (q : Query) : Scores :=
  if hasReceipt q ∧ (db.get? (receiptKey q.operationID)).isSome then σ
  else match q.type with
    | .write => writeScores db σ q
    | .set => setScores σ q
    | .delete => deleteScores σ q
    | _ => σ

/-- **An accepted mutation keeps the invariants.** -/
theorem mutationBatch_inv {db : Store} (hs : StoreInv db) {σ : Scores} (hσ : LBInv db σ) {q : Query}
    (hq : q.Stageable) {db' : Store} {res : DeleteResult}
    (hok : mutationBatch db q = .ok (db', res)) :
    StoreInv db' ∧ LBInv db' (mutationScores db σ q) ∧
      (IndexExact db → (q.type = .write → (eventOf q).Lossless) → IndexExact db') := by
  unfold mutationBatch at hok
  unfold mutationScores
  by_cases hdone : hasReceipt q ∧ (db.get? (receiptKey q.operationID)).isSome
  · rw [if_pos hdone] at hok ⊢
    cases hok
    exact ⟨hs, hσ, fun hix _ => hix⟩
  · rw [if_neg hdone] at hok ⊢
    -- the receipt is set after the mutation and touches neither events nor scores
    obtain ⟨b, hstage, hb⟩ : ∃ b, stageMutation db q = .ok (b, res) ∧
        db' = if hasReceipt q then b.set (receiptKey q.operationID) (.bytes [1]) else b := by
      cases hstage : stageMutation db q with
      | error msg => simp [hstage, bind, Except.bind] at hok
      | ok r =>
          rw [hstage] at hok
          cases hok
          exact ⟨r.1, rfl, rfl⟩
    have hinv : StoreInv b ∧ LBInv b (match q.type with
          | .write => writeScores db σ q
          | .set => setScores σ q
          | .delete => deleteScores σ q
          | _ => σ) ∧
        (IndexExact db → (q.type = .write → (eventOf q).Lossless) → IndexExact b) := by
      cases hty : q.type with
      | write =>
          obtain ⟨b₁, hev, hover, hok'⟩ := stageWrite_spec hs hσ hq hty
          by_cases ho : Overflows db q
          · rw [hover ho] at hstage
            cases hstage
          · obtain ⟨b₂, hb₂, hs₂, hσ₂, hoff⟩ := hok' ho
            rw [hb₂] at hstage
            cases hstage
            exact ⟨hs₂, hσ₂, fun hix hl => hoff.indexExact
              (hix.stageEvent hs (e := eventOf q) hq.metric_wf hq.value_isFinite (hl rfl) hev)⟩
      | set =>
          obtain ⟨b₂, hb₂, hs₂, hσ₂, hoff⟩ := stageSet_spec hs hσ hq hty
          rw [hb₂] at hstage
          cases hstage
          exact ⟨hs₂, hσ₂, fun hix _ => hoff.indexExact hix⟩
      | delete =>
          obtain ⟨b₁, n, hb₁, hs₁, hσ₁, hoff, hdry⟩ := stageDelete_spec hs hσ hq hty
          rw [hb₁] at hstage
          cases hstage
          cases hd : q.dryRun with
          | true =>
              simp only [if_true]
              rw [hdry hd] at hσ₁
              exact ⟨hs, hσ₁, fun hix _ => hix⟩
          | false =>
              simp only [Bool.false_eq_true, if_false]
              refine ⟨hs₁.dropEvents _ _, hσ₁.dropEvents hq.metric_wf _, fun hix _ => ?_⟩
              refine (hoff.indexExact hix).dropEvents hq.metric_wf _ fun e he => ?_
              have hat := (hs.deletedEvents_spec hq.metric_wf he).1
              have hsame : lookup b₁ (.event q.metric e.timestamp) = _ :=
                hoff.lookup hq.metric_wf (by simp [Key.IsScore])
              rwa [eventAt, hsame]
      | _ =>
          simp only [stageMutation, hty, pure, Except.pure] at hstage
          cases hstage
          exact ⟨hs, hσ, fun hix _ => hix⟩
    subst hb
    split_ifs
    · exact ⟨hinv.1.setReceipt _ _, hinv.2.1.setReceipt _ _,
        fun hix hl => (hinv.2.2 hix hl).setReceipt _ _⟩
    · exact hinv

end FlameDB
