import FlameDB.Query.PebbleBatch

/-!
# Accounts of a batch

Whatever happens inside `executeWriteBatch`, its result accounts for every item once: the accepted
items and the positions in the error list are together the positions of the batch.

`executeBatch` adds the one outcome `executeWriteBatch` cannot produce by itself, a commit the
database refuses.
-/

namespace FlameDB

open Go KV

/-- `executeWriteBatch` with the outcome of its commit. -/
def executeBatch (commit : Option Bytes) (s : Executor) (items : List (Int64 × Option Query)) :
    Executor × BatchResult :=
  let plan := planBatch 0 items { clock := s.clock }
  match commit with
  | none => executeWriteBatch s items
  | some msg =>
      if plan.valid = [] then executeWriteBatch s items
      else
        let errors :=
          match stageBatch s.db plan with
          | .error failure => failAll failure.errors plan.valid failure.msg
          | .ok (_, state) => failAll state.errors plan.valid msg
        ({ s with clock := plan.clock }, ⟨errors = [], 0, errors.length, errors⟩)

/-- A result that accounts for `n` items. -/
structure BatchResult.Accounts (r : BatchResult) (n : ℕ) : Prop where
  total : r.accepted + r.failed = n
  failed : r.errors.length = r.failed
  distinct : (r.errors.map Prod.fst).Nodup
  known : ∀ e ∈ r.errors, e.1 < n
  ok : r.ok = true ↔ r.failed = 0

/-- Accepted positions and errors that share out the positions of a batch. -/
lemma accounts_of_perm (accepted : List ℕ) {errors : List (ℕ × Bytes)} {n : ℕ}
    (h : (accepted ++ errors.map Prod.fst).Perm (List.range n)) :
    BatchResult.Accounts ⟨errors = [], accepted.length, errors.length, errors⟩ n where
  total := by
    have hlen := h.length_eq
    rwa [List.length_append, List.length_map, List.length_range] at hlen
  failed := rfl
  distinct := (List.nodup_append.mp (h.nodup_iff.mpr List.nodup_range)).2.1
  known := by
    intro e he
    have hmem : e.1 ∈ accepted ++ errors.map Prod.fst :=
      List.mem_append_right _ (List.mem_map_of_mem he)
    exact List.mem_range.mp (h.mem_iff.mp hmem)
  ok := by simp

/-- The positions a plan has given out. -/
def BatchPlan.positions (plan : BatchPlan) : List ℕ :=
  plan.valid.map BatchItem.index ++ plan.errors.map Prod.fst

/-- The first loop gives each item one place: among the valid ones or among the errors. -/
lemma planBatch_positions (i : ℕ) (items : List (Int64 × Option Query)) (plan : BatchPlan) :
    (planBatch i items plan).positions.Perm
      (plan.positions ++ List.range' i items.length) := by
  induction items generalizing i plan with
  | nil => simp [planBatch]
  | cons item rest ih =>
    obtain ⟨now, q⟩ := item
    have hstep : ∀ plan' : BatchPlan, plan'.positions.Perm (plan.positions ++ [i]) →
        (planBatch (i + 1) rest plan').positions.Perm
          (plan.positions ++ List.range' i (rest.length + 1)) := by
      intro plan' h
      rw [List.range'_succ, ← List.singleton_append, ← List.append_assoc]
      exact (ih (i + 1) plan').trans (h.append_right _)
    have herror : ∀ msg, BatchPlan.positions { plan with errors := plan.errors ++ [(i, msg)] } =
        plan.positions ++ [i] := by
      intro msg
      simp [BatchPlan.positions]
    cases q with
    | none => exact hstep _ (List.Perm.of_eq (herror _))
    | some q =>
      rw [planBatch]
      by_cases htype : q.type ≠ .write
      · rw [if_pos htype]
        exact hstep _ (List.Perm.of_eq (herror _))
      rw [if_neg htype]
      by_cases hbad : (!q.value.isFinite) = true ∨ q.timestamp < 0
      · rw [if_pos hbad]
        exact hstep _ (List.Perm.of_eq (herror _))
      rw [if_neg hbad]
      refine hstep _ ?_
      simp only [BatchPlan.positions, List.map_append, List.map_cons, List.map_nil,
        List.append_assoc]
      exact List.perm_append_comm.append_left _

/-! ## The second loop

Every valid item is accepted or rejected once, at its own position. -/

/-- The positions the second loop has given out after `done`. -/
structure Staged (plan : BatchPlan) (done : List BatchItem) (accepted : List ℕ)
    (errors : List (ℕ × Bytes)) : Prop where
  positions : (accepted ++ errors.map Prod.fst).Perm
    (done.map BatchItem.index ++ plan.errors.map Prod.fst)
  started : plan.errors <+: errors

section Staged

variable {plan : BatchPlan} {done : List BatchItem}

lemma Staged.accept {accepted : List ℕ} {errors : List (ℕ × Bytes)}
    (h : Staged plan done accepted errors) (item : BatchItem) :
    Staged plan (done ++ [item]) (accepted ++ [item.index]) errors where
  positions := by
    simp only [List.map_append, List.map_cons, List.map_nil, List.append_assoc]
    refine (@List.perm_middle _ _ accepted _).trans ?_
    refine List.Perm.trans ?_ (@List.perm_middle _ _ (done.map BatchItem.index) _).symm
    exact h.positions.cons _
  started := h.started

lemma Staged.reject {accepted : List ℕ} {errors : List (ℕ × Bytes)}
    (h : Staged plan done accepted errors) (item : BatchItem) (msg : Bytes) :
    Staged plan (done ++ [item]) accepted (errors ++ [(item.index, msg)]) where
  positions := by
    simp only [List.map_append, List.map_cons, List.map_nil, List.append_assoc]
    rw [← List.append_assoc]
    refine (List.perm_append_singleton _ _).trans ?_
    refine List.Perm.trans ?_ (@List.perm_middle _ _ (done.map BatchItem.index) _).symm
    exact h.positions.cons _
  started := h.started.trans (List.prefix_append _ _)

/-- One item is accepted or rejected, or ends the batch with the errors so far. -/
lemma Staged.stageItem (db : Store) {s : BatchState} (h : Staged plan done s.accepted s.errors)
    (item : BatchItem) :
    (∃ s', FlameDB.stageItem db s item = .ok s' ∧
      Staged plan (done ++ [item]) s'.accepted s'.errors) ∨
    ∃ msg, FlameDB.stageItem db s item = .error ⟨msg, s.errors⟩ := by
  rw [FlameDB.stageItem]
  by_cases hdone : hasReceipt item.query ∧
      (s.batch.get? (receiptKey item.query.operationID)).isSome
  · rw [if_pos hdone]
    exact Or.inl ⟨_, rfl, h.accept item⟩
  rw [if_neg hdone]
  cases checkBoards db item.query (boardsOf item.query).entries s.reader s.scores [] with
  | error msg => exact Or.inr ⟨msg, rfl⟩
  | ok check =>
    obtain ⟨reader, scores, next⟩ := check
    cases next with
    | none => exact Or.inl ⟨_, rfl, h.reject item _⟩
    | some next =>
      cases stageEvent s.batch (eventOf item.query) with
      | error msg => exact Or.inr ⟨msg, rfl⟩
      | ok batch => exact Or.inl ⟨_, rfl, h.accept item⟩

lemma Staged.stageItems (db : Store) (items : List BatchItem) {s : BatchState}
    (h : Staged plan done s.accepted s.errors) :
    match items.foldlM (FlameDB.stageItem db) s with
    | .ok s' => Staged plan (done ++ items) s'.accepted s'.errors
    | .error failure => ∃ done' accepted, done' <+: done ++ items ∧
        Staged plan done' accepted failure.errors := by
  induction items generalizing done s with
  | nil =>
    rw [List.foldlM_nil, List.append_nil]
    exact h
  | cons item rest ih =>
    rw [List.foldlM_cons]
    rcases h.stageItem db item with ⟨s', hs', hnext⟩ | ⟨msg, herr⟩
    · rw [hs']
      have := ih hnext
      rwa [List.append_assoc, List.singleton_append] at this
    · rw [herr]
      exact ⟨done, s.accepted, List.prefix_append _ _, h⟩

/-- The callback gives every valid item its position, or ends early. -/
lemma stageBatch_staged (db : Store) (plan : BatchPlan) :
    match stageBatch db plan with
    | .ok (_, state) => Staged plan plan.valid state.accepted state.errors
    | .error failure => ∃ done accepted, done <+: plan.valid ∧
        Staged plan done accepted failure.errors := by
  have hstart : Staged plan [] [] plan.errors := ⟨by simp, List.prefix_rfl⟩
  have hloop := hstart.stageItems db plan.valid
    (s := { batch := db, reader := ⟨plan.targets, ∅⟩, errors := plan.errors })
  rw [stageBatch]
  cases hfold : plan.valid.foldlM (stageItem db)
      { batch := db, reader := ⟨plan.targets, ∅⟩, errors := plan.errors } with
  | error failure =>
    rw [hfold] at hloop
    exact hloop
  | ok s =>
    rw [hfold] at hloop
    simp only [bind, Except.bind]
    cases flushScores s.scores s.batch with
    | error msg => exact ⟨plan.valid, s.accepted, List.prefix_rfl, hloop⟩
    | ok batch => exact hloop

end Staged

/-! ## The result -/

/-- `failAll` adds the positions that have no error yet. -/
lemma failAll_spec {errors : List (ℕ × Bytes)} (items : List BatchItem) (msg : Bytes)
    (h : (errors.map Prod.fst).Nodup) :
    ((failAll errors items msg).map Prod.fst).Nodup ∧
      ∀ i, i ∈ (failAll errors items msg).map Prod.fst ↔
        i ∈ errors.map Prod.fst ∨ i ∈ items.map BatchItem.index := by
  induction items generalizing errors with
  | nil => exact ⟨h, fun i => by simp [failAll]⟩
  | cons item rest ih =>
    rw [failAll, List.foldl_cons]
    split_ifs with hdone
    · have hmem : item.index ∈ errors.map Prod.fst := by
        obtain ⟨e, he, heq⟩ := List.any_eq_true.mp hdone
        exact List.mem_map.mpr ⟨e, he, by simpa using heq⟩
      obtain ⟨hnodup, hiff⟩ := ih h
      refine ⟨hnodup, fun i => (hiff i).trans ?_⟩
      rw [List.map_cons, List.mem_cons]
      constructor
      · rintro (hi | hi)
        · exact Or.inl hi
        · exact Or.inr (Or.inr hi)
      · rintro (hi | rfl | hi)
        · exact Or.inl hi
        · exact Or.inl hmem
        · exact Or.inr hi
    · have hnew : item.index ∉ errors.map Prod.fst := by
        intro hmem
        obtain ⟨e, he, heq⟩ := List.mem_map.mp hmem
        exact hdone (List.any_eq_true.mpr ⟨e, he, by simpa using heq⟩)
      have h' : ((errors ++ [(item.index, msg)]).map Prod.fst).Nodup := by
        rw [List.map_append]
        exact List.Nodup.append h (List.nodup_singleton _) (by simpa using hnew)
      obtain ⟨hnodup, hiff⟩ := ih h'
      refine ⟨hnodup, fun i => (hiff i).trans ?_⟩
      simp only [List.map_append, List.map_cons, List.map_nil, List.mem_append, List.mem_cons,
        List.not_mem_nil, or_false, or_assoc]

section Result

variable {plan : BatchPlan} {n : ℕ} (hplan : plan.positions.Perm (List.range n))

include hplan

/-- A batch that ends early rejects every item. -/
lemma failAll_accounts {done : List BatchItem} {accepted : List ℕ} {errors : List (ℕ × Bytes)}
    (hdone : done <+: plan.valid) (h : Staged plan done accepted errors) (msg : Bytes) :
    let errors := failAll errors plan.valid msg
    BatchResult.Accounts ⟨errors = [], 0, errors.length, errors⟩ n := by
  have hsub : (done.map BatchItem.index ++ plan.errors.map Prod.fst).Nodup :=
    (hplan.nodup_iff.mpr List.nodup_range).sublist
      ((hdone.sublist.map _).append (List.Sublist.refl _))
  have hnodup := (List.nodup_append.mp (h.positions.nodup_iff.mpr hsub)).2.1
  obtain ⟨hfail, hiff⟩ := failAll_spec plan.valid msg hnodup
  refine accounts_of_perm [] ?_
  rw [List.nil_append]
  refine (List.perm_ext_iff_of_nodup hfail List.nodup_range).mpr fun i => ?_
  rw [hiff, ← hplan.mem_iff, BatchPlan.positions, List.mem_append, or_comm]
  refine or_congr_right' fun hvalid => ⟨fun hi => ?_, fun hi => ?_⟩
  · have := h.positions.mem_iff.mp (List.mem_append_right accepted hi)
    refine (List.mem_append.mp this).resolve_left fun hd => hvalid ?_
    exact (hdone.sublist.map _).subset hd
  · exact (h.started.sublist.map _).subset hi

end Result

/-- **A batch result accounts for every item**, whatever happens to the batch. -/
theorem executeBatch_accounts (commit : Option Bytes) (s : Executor)
    (items : List (Int64 × Option Query)) :
    (executeBatch commit s items).2.Accounts items.length := by
  have hplan : (planBatch 0 items { clock := s.clock }).positions.Perm
      (List.range items.length) := by
    have := planBatch_positions 0 items { clock := s.clock }
    rwa [show BatchPlan.positions { clock := s.clock } = [] from rfl, List.nil_append,
      ← List.range_eq_range'] at this
  have hstage := stageBatch_staged s.db (planBatch 0 items { clock := s.clock })
  have hwrite : (executeWriteBatch s items).2.Accounts items.length := by
    rw [executeWriteBatch]
    split_ifs with hvalid
    · refine accounts_of_perm [] ?_
      rwa [BatchPlan.positions, hvalid] at hplan
    · cases hb : stageBatch s.db (planBatch 0 items { clock := s.clock }) with
      | error failure =>
        rw [hb] at hstage
        obtain ⟨done, accepted, hdone, hstaged⟩ := hstage
        exact failAll_accounts hplan hdone hstaged failure.msg
      | ok r =>
        rw [hb] at hstage
        exact accounts_of_perm _ (hstage.positions.trans hplan)
  cases commit with
  | none => exact hwrite
  | some msg =>
    rw [executeBatch]
    split_ifs with hvalid
    · exact hwrite
    · cases hb : stageBatch s.db (planBatch 0 items { clock := s.clock }) with
      | error failure =>
        rw [hb] at hstage
        obtain ⟨done, accepted, hdone, hstaged⟩ := hstage
        exact failAll_accounts hplan hdone hstaged failure.msg
      | ok r =>
        rw [hb] at hstage
        exact failAll_accounts hplan List.prefix_rfl hstage msg

end FlameDB
