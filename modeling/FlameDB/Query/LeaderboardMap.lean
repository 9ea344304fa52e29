import FlameDB.Aggregates.Ranking
import FlameDB.Query.Reachable

/-!
# The leaderboards are a map

`BoardMap` is what the leaderboards are for, without any keys: a score for some entities of each
board, and the replica operations that have been applied.  A WRITE adds to a score, a SET stores
one, a DELETE removes one; a write whose sum leaves the finite range is rejected as a whole, and an
operation that was applied before does nothing.

`Tracked` runs the executor and the map side by side.  **`Tracked.leaderboard_is_map`** says that
every state of such a run holds exactly the keys of the map, and that reads answer from it.

Two restrictions are real.  Ids pass through JSON, so ids that are not valid UTF-8 are listed under
another name and can be mistaken for one another; and `TopN` lists negative scores by a backward
scan, which turns the order of ids with one negative score around.
`leaderboard_not_map_without_restrictions` shows both.
-/

namespace FlameDB

open Go KV

/-! ## The abstract machine

Boards as maps from entities to scores. It knows no keys, no bytes and no rank order. -/

/-- The boards as a map, and the operations applied to it. -/
structure BoardMap where
  scores : Scores := fun _ _ => ∅
  applied : List Bytes := []

namespace BoardMap

/-- The score of an entity, zero if it has none. -/
def score (a : BoardMap) (m b e : Bytes) : Float64 := ((a.scores m b).get? e).getD Float64.zero

/-- The score a WRITE gives to an entity. -/
def sum (a : BoardMap) (q : Query) (kv : Bytes × Bytes) : Float64 :=
  a.score q.metric kv.1 kv.2 + q.value

/-- The scores after a mutation, `none` if it is rejected. -/
def mutate (a : BoardMap) (q : Query) : Option Scores :=
  match q.type with
  | .write =>
      if ∃ kv ∈ (boardsOf q).entries, (a.sum q kv).isFinite = false then none
      else some (putBoards a.scores q.metric (a.sum q) (boardsOf q).entries)
  | .set => some (setScores a.scores q)
  | .delete => some (deleteScores a.scores q)
  | _ => some a.scores

/-- One operation: nothing if it was applied before or is rejected. -/
def apply (a : BoardMap) (q : Query) : BoardMap :=
  if hasReceipt q ∧ q.operationID ∈ a.applied then a
  else
    match a.mutate q with
    | none => a
    | some scores => ⟨scores, if hasReceipt q then q.operationID :: a.applied else a.applied⟩

end BoardMap

/-- The entity ids of the query survive JSON. -/
def Query.ValidIds (q : Query) : Prop := ∀ kv ∈ (boardsOf q).entries, ValidUtf8 kv.2

instance (q : Query) : Decidable q.ValidIds := inferInstanceAs (Decidable (∀ kv ∈ _, _))

/-- A run of the executor on valid ids, and the map that the same operations make. -/
inductive Tracked : Executor → BoardMap → Prop where
  | empty (clock : Int64) : Tracked ⟨clock, ∅⟩ {}
  | mutate {s : Executor} {a : BoardMap} {q : Query} (h : Tracked s a) (hq : Admitted q)
      (hmut : q.IsMutation) (hids : q.ValidIds) (now : Int64) :
      Tracked (executeMutation now s q).1 (a.apply q)
  | batch {s : Executor} {a : BoardMap} {items : List (Int64 × Query)} (h : Tracked s a)
      (hitems : ∀ nq ∈ items, Admitted nq.2 ∧ nq.2.type = .write ∧ nq.2.ValidIds) :
      Tracked (executeWriteBatch s (items.map fun nq => (nq.1, some nq.2))).1
        (items.foldl (fun a nq => a.apply nq.2) a)
  | background {s : Executor} {a : BoardMap} {db : Store} (h : Tracked s a)
      (hdb : ∀ k, ¬ IsBackground k → db.get? k = s.db.get? k) : Tracked { s with db := db } a

/-- **The refinement relation.** -/
structure Represents (db : Store) (a : BoardMap) : Prop where
  store : StoreInv db
  scores : LBInv db a.scores
  receipts : ∀ op, (db.get? (receiptKey op)).isSome = true ↔ op ∈ a.applied
  valid : ∀ m b e x, (a.scores m b).get? e = some x → ValidUtf8 e

/-- A mutation leaves the receipts alone. -/
lemma stageMutation_receipt {db : Store} (hs : StoreInv db) {σ : Scores} (hσ : LBInv db σ)
    {q : Query} (hq : q.Stageable) {b : Store} {r : DeleteResult}
    (hok : stageMutation db q = .ok (b, r)) (op : Bytes) :
    b.get? (receiptKey op) = db.get? (receiptKey op) := by
  have hscore : ¬ (Key.receipt op).IsScore := by simp [Key.IsScore]
  cases hty : q.type with
  | write =>
      have hw : (Key.event (eventOf q).metric (eventOf q).timestamp).WF := hq.metric_wf
      obtain ⟨b₁, hstage, hover, hok'⟩ := stageWrite_spec hs hσ hq hty
      obtain ⟨_, b₁', hstage', -, -, -, hother⟩ := stageEvent_spec hs hw hq.value_isFinite
      obtain rfl : b₁ = b₁' := by simpa using hstage.symm.trans hstage'
      by_cases ho : Overflows db q
      · rw [hover ho] at hok
        cases hok
      · obtain ⟨b₂, hb₂, -, -, hoff⟩ := hok' ho
        rw [hb₂] at hok
        cases hok
        exact (hoff.lookup (K := .receipt op) trivial hscore).trans
          ((hother (.receipt op) trivial trivial).trans (if_neg (by simp)))
  | set =>
      obtain ⟨b₂, hb₂, -, -, hoff⟩ := stageSet_spec hs hσ hq hty
      rw [hb₂] at hok
      cases hok
      exact hoff.lookup (K := .receipt op) trivial hscore
  | delete =>
      obtain ⟨b₁, n, hb₁, -, -, hoff, -⟩ := stageDelete_spec hs hσ hq hty
      rw [hb₁] at hok
      cases hok
      split_ifs
      · rfl
      · have hdrop : ∀ (es : List Event) (b : Store),
            (es.foldl (dropEvent q.metric) b).get? (receiptKey op) = b.get? (receiptKey op) := by
          intro es
          induction es with
          | nil => exact fun b => rfl
          | cons e es ih =>
              intro b
              exact (ih _).trans ((lookup_dropEvent_of_notIndex hq.metric_wf b (K := .receipt op)
                trivial trivial).trans (if_neg (by simp)))
        exact (hdrop _ _).trans (hoff.lookup (K := .receipt op) trivial hscore)
  | _ =>
      simp only [stageMutation, hty, pure, Except.pure] at hok
      cases hok
      rfl

/-! ## One operation

DELETE, SET and WRITE each do to the store what they do to the map, repeated operations included. -/

section Represented

variable {db : Store} {a : BoardMap} (h : Represents db a)

include h

/-- With valid ids no scan mistakes one entity for another. -/
lemma Represents.get_eq {m : Bytes} (hm : unitSep ∉ m) (b e : Bytes) :
    Leaderboard.get db (boardMetric m b) e = a.score m b e := by
  rw [h.scores.get_eq hm, BoardMap.score]
  cases hget : (a.scores m b).get? e with
  | some x => rfl
  | none =>
      refine h.scores.legacyScan_eq_zero h.store.keyed hm fun e' x hx hee' => ?_
      rw [(h.valid m b e' x hx).toValid] at hee'
      rw [hee', hget] at hx
      simp at hx

lemma Represents.overflows_iff {q : Query} (hm : unitSep ∉ q.metric) :
    Overflows db q ↔ ∃ kv ∈ (boardsOf q).entries, (a.sum q kv).isFinite = false := by
  simp only [Overflows, BoardMap.sum, h.get_eq hm]

/-- The mutation succeeds exactly when the map accepts it, and then has the scores of the map. -/
lemma Represents.mutate {q : Query} (hq : q.Stageable) :
    (a.mutate q = none → ∃ msg, stageMutation db q = .error msg) ∧
      ∀ σ, a.mutate q = some σ → ∃ b r, stageMutation db q = .ok (b, r) ∧ StoreInv b ∧
        LBInv b σ := by
  unfold BoardMap.mutate
  cases hty : q.type with
  | write =>
      obtain ⟨b₁, -, hover, hok⟩ := stageWrite_spec h.store h.scores hq hty
      have hscores : writeScores db a.scores q =
          putBoards a.scores q.metric (a.sum q) (boardsOf q).entries := by
        simp only [writeScores, h.get_eq hq.metric_noSep]
        rfl
      rw [h.overflows_iff hq.metric_noSep] at hover hok
      split_ifs with ho
      · exact ⟨fun _ => ⟨_, hover ho⟩, by simp⟩
      · obtain ⟨b₂, hb₂, hs₂, hσ₂, -⟩ := hok ho
        refine ⟨by simp, fun σ hσ => ?_⟩
        cases hσ
        exact ⟨b₂, _, hb₂, hs₂, hscores ▸ hσ₂⟩
  | set =>
      obtain ⟨b₂, hb₂, hs₂, hσ₂, -⟩ := stageSet_spec h.store h.scores hq hty
      refine ⟨by simp, fun σ hσ => ?_⟩
      cases hσ
      exact ⟨b₂, _, hb₂, hs₂, hσ₂⟩
  | delete =>
      obtain ⟨b₁, n, hb₁, hs₁, hσ₁, -, hdry⟩ := stageDelete_spec h.store h.scores hq hty
      refine ⟨by simp, fun σ hσ => ?_⟩
      cases hσ
      refine ⟨_, _, hb₁, ?_⟩
      split_ifs with hd
      · rw [hdry hd] at hσ₁
        exact ⟨h.store, hσ₁⟩
      · exact ⟨hs₁.dropEvents _ _, hσ₁.dropEvents hq.metric_wf _⟩
  | _ =>
      refine ⟨by simp, fun σ hσ => ?_⟩
      cases hσ
      exact ⟨db, _, by simp only [stageMutation, hty]; rfl, h.store, h.scores⟩

/-- The ids stay valid. -/
lemma Represents.mutate_valid {q : Query} (hids : q.ValidIds) {σ : Scores}
    (hσ : a.mutate q = some σ) {m b e : Bytes} {x : Float64} (hx : (σ m b).get? e = some x) :
    ValidUtf8 e := by
  have hput : ∀ v, (putBoards a.scores q.metric v (boardsOf q).entries m b).get? e = some x →
      ValidUtf8 e := by
    intro v hv
    rw [get?_putBoards] at hv
    split_ifs at hv with hmem
    · exact hids (b, e) hmem.2
    · exact h.valid m b e x hv
  unfold BoardMap.mutate at hσ
  cases hty : q.type with
  | write =>
      simp only [hty] at hσ
      split_ifs at hσ
      cases hσ
      exact hput _ hx
  | set =>
      simp only [hty] at hσ
      cases hσ
      exact hput _ hx
  | delete =>
      simp only [hty] at hσ
      cases hσ
      unfold deleteScores at hx
      split_ifs at hx
      · exact h.valid m b e x hx
      · rw [get?_removeBoards] at hx
        split_ifs at hx
        exact h.valid m b e x hx
  | _ =>
      simp only [hty] at hσ
      cases hσ
      exact h.valid m b e x hx

/-- One batch of the executor is one operation of the map. -/
lemma Represents.mutationBatch {q : Query} (hq : q.Stageable) (hids : q.ValidIds) :
    match mutationBatch db q with
    | .error _ => Represents db (a.apply q)
    | .ok (db', _) => Represents db' (a.apply q) := by
  unfold FlameDB.mutationBatch BoardMap.apply
  have hsame : (hasReceipt q ∧ (db.get? (receiptKey q.operationID)).isSome) ↔
      (hasReceipt q ∧ q.operationID ∈ a.applied) := and_congr_right fun _ => h.receipts _
  by_cases hdone : hasReceipt q ∧ q.operationID ∈ a.applied
  · rw [if_pos (hsame.mpr hdone), if_pos hdone]
    exact h
  · rw [if_neg (mt hsame.mp hdone), if_neg hdone]
    obtain ⟨hreject, haccept⟩ := h.mutate hq
    cases hm : a.mutate q with
    | none =>
        obtain ⟨msg, hmsg⟩ := hreject hm
        simp only [hmsg, bind, Except.bind]
        exact h
    | some σ =>
        obtain ⟨b, r, hb, hs, hσ⟩ := haccept σ hm
        have hvalid : ∀ m b e x, (σ m b).get? e = some x → ValidUtf8 e := fun m b e x =>
          h.mutate_valid hids hm
        have hreceipt := stageMutation_receipt h.store h.scores hq hb
        simp only [hb, bind, Except.bind, pure, Except.pure]
        cases hr : hasReceipt q with
        | false =>
            simp only [Bool.false_eq_true, if_false]
            exact ⟨hs, hσ, fun op => by rw [hreceipt op]; exact h.receipts op, hvalid⟩
        | true =>
            simp only [if_true]
            refine ⟨hs.setReceipt _ _, hσ.setReceipt _ _, fun op => ?_, hvalid⟩
            have hset := lookup_setReceipt b q.operationID (.bytes [1]) (K := .receipt op) trivial
            rw [List.mem_cons, ← h.receipts op, ← hreceipt op]
            rw [show (b.set (receiptKey q.operationID) (.bytes [1])).get?
              (receiptKey op) = _ from hset]
            by_cases hop : op = q.operationID
            · simp [hop]
            · simp only [Key.receipt.injEq, hop, if_false, false_or]
              rfl

end Represented

lemma BoardMap.apply_assignTimestamp (a : BoardMap) (now : Int64) (s : Executor) (q : Query) :
    a.apply (assignTimestamp now s q).2 = a.apply q ∧
      ((assignTimestamp now s q).2.ValidIds ↔ q.ValidIds) ∧
        (assignTimestamp now s q).1.db = s.db := by
  unfold assignTimestamp
  split_ifs <;> exact ⟨rfl, Iff.rfl, rfl⟩

/-- **One mutation of the executor is one operation of the map.** -/
lemma Represents.executeMutation {s : Executor} {a : BoardMap} (h : Represents s.db a) {q : Query}
    (hq : q.Stageable) (hids : q.ValidIds) (now : Int64) :
    Represents (executeMutation now s q).1.db (a.apply q) := by
  obtain ⟨happly, hids', hdb⟩ := a.apply_assignTimestamp now s q
  have hstage := hq.assignTimestamp now s
  have hids := hids'.mpr hids
  rw [← happly]
  rw [← hdb] at h
  unfold FlameDB.executeMutation
  generalize assignTimestamp now s q = p at *
  have hbatch := h.mutationBatch hstage hids
  simp only
  cases hm : FlameDB.mutationBatch p.1.db p.2 with
  | error msg => simpa only [hm] using hbatch
  | ok r => simpa only [hm] using hbatch

lemma Represents.executeAll {s : Executor} {a : BoardMap} (h : Represents s.db a)
    (items : List (Int64 × Query)) (hitems : ∀ nq ∈ items, nq.2.Stageable ∧ nq.2.ValidIds) :
    Represents (executeAll s items).1.db (items.foldl (fun a nq => a.apply nq.2) a) := by
  induction items generalizing s a with
  | nil => exact h
  | cons nq items ih =>
      obtain ⟨hq, hids⟩ := hitems nq List.mem_cons_self
      exact ih (h.executeMutation hq hids nq.1) fun x hx => hitems x (List.mem_cons_of_mem _ hx)

/-! ## Every run -/

/-- Along every run the store represents the map. -/
theorem Tracked.represents {s : Executor} {a : BoardMap} (h : Tracked s a) : Represents s.db a := by
  induction h with
  | empty clock =>
      exact ⟨storeInv_empty, lbInv_empty, fun op => by simp, fun m b e x hx => by simp at hx⟩
  | mutate _ hq hmut hids now ih => exact ih.executeMutation (hq.stageable hmut.ne_metrics) hids now
  | @batch s a items _ hitems ih =>
      rw [executeWriteBatch_eq ih.store ih.scores items fun nq hnq =>
        ⟨(hitems nq hnq).1.stageable (by simp [(hitems nq hnq).2.1]), (hitems nq hnq).2.1,
          (hitems nq hnq).1.timestamp_nonneg, (hitems nq hnq).2.2⟩]
      exact ih.executeAll items fun nq hnq =>
        ⟨(hitems nq hnq).1.stageable (by simp [(hitems nq hnq).2.1]), (hitems nq hnq).2.2⟩
  | background _ hdb ih =>
      refine ⟨ih.store.background hdb, ih.scores.background hdb, fun op => ?_, ih.valid⟩
      have := lookup_of_background hdb (K := .receipt op) trivial (by simp [Key.Background])
      rw [← ih.receipts op]
      exact Eq.congr_left (congrArg Option.isSome this)

/-- **The leaderboards are a map.**  In every state of a run on valid ids: an entity has exactly the
ranking key and the entity key of its score, if it has one; there are no other keys of the two
families; and `Get`, `Exists` and `TopN` answer from the map.  `ranking` lists descending scores,
ids ascending within a score that is not negative and descending within a negative one. -/
theorem Tracked.leaderboard_is_map {s : Executor} {a : BoardMap} (h : Tracked s a) :
    (∀ m b e, unitSep ∉ m →
      s.db.get? (lbEntityKey (boardMetric m b) e) =
          ((a.scores m b).get? e).map (fun x => .bytes (encodeFloat64 x)) ∧
        ∀ x, s.db.get? (lbKey (boardMetric m b) e x) =
          if (a.scores m b).get? e = some x then some (.entryDoc ⟨e, x⟩) else none) ∧
    (∀ k v, s.db.get? k = some v → IsScoreKey k → ∃ m b e x, (a.scores m b).get? e = some x ∧
      (k = lbKey (boardMetric m b) e x ∨ k = lbEntityKey (boardMetric m b) e)) ∧
    (∀ m b e, unitSep ∉ m →
      Leaderboard.get s.db (boardMetric m b) e = a.score m b e ∧
        Leaderboard.existsEntry s.db (boardMetric m b) e = ((a.scores m b).get? e).isSome) ∧
    ∀ m b, unitSep ∉ m → ∀ limit offset : ℕ,
      Leaderboard.topN s.db (boardMetric m b) limit offset =
        .ok (page limit offset (ranking (a.scores m b))) := by
  have hrep := h.represents
  refine ⟨fun m b e hm => ⟨hrep.scores.entity m b e hm, fun x => ?_⟩, fun k v hk hscore => ?_,
    fun m b e hm => ⟨hrep.get_eq hm b e, hrep.scores.existsEntry_eq hm b e⟩,
    fun m b hm limit offset => ?_⟩
  · have hrank : s.db.get? (lbKey (boardMetric m b) e x) = _ := hrep.scores.rank m b e x hm
    rw [hrank]
    split_ifs with hx
    · rw [(hrep.valid m b e x hx).toValid]
    · rfl
  · obtain ⟨body, rfl | rfl⟩ := hscore
    · obtain ⟨m, b, e, x, hm, rfl⟩ := hrep.store.keyed.rank_of_front hk
      exact ⟨m, b, e, x, ((hrep.scores.rank_some_iff hm b e x v).mp hk).1, Or.inl rfl⟩
    · obtain ⟨m, b, e, hm, rfl⟩ := hrep.store.keyed.entity_of_front hk
      have hent := (hrep.scores.entity m b e hm).symm.trans hk
      obtain ⟨x, hx, -⟩ := Option.map_eq_some_iff.mp hent
      exact ⟨m, b, e, x, hx, Or.inr rfl⟩
  · have := hrep.scores.topN_eq hrep.store.keyed hm b (hrep.valid m b) (Int.natCast_nonneg limit)
      (Int.natCast_nonneg offset)
    simpa using this

/-- The map that the mutations among some lines make. -/
def mapOfLines (lines : List Bytes) : BoardMap :=
  lines.foldl (fun a line => (parse 0 line).toOption.elim a
    fun q => if q.IsMutation then a.apply q else a) {}

lemma tracked_runLines (lines : List Bytes)
    (hids : ∀ line ∈ lines, ∀ q ∈ (parse 0 line).toOption, q.ValidIds) :
    Tracked (runLines lines) (mapOfLines lines) := by
  induction lines using List.reverseRecOn with
  | nil => exact .empty 0
  | append_singleton lines line ih =>
      have hlines := ih fun l hl => hids l (List.mem_append_left _ hl)
      have hline := hids line (by simp)
      rw [runLines, mapOfLines, List.foldl_append, List.foldl_append]
      cases hparse : parse 0 line with
      | error e =>
          simp only [List.foldl_cons, List.foldl_nil, hparse, Except.toOption, Option.elim]
          exact hlines
      | ok q =>
          simp only [List.foldl_cons, List.foldl_nil, hparse, Except.toOption, Option.elim]
          split_ifs with hmut
          · have hvalid := hline q (by rw [hparse]; rfl)
            exact hlines.mutate (Parsed.admitted ⟨0, line, hparse⟩) hmut hvalid 0
          · exact hlines

/-- The sample run, and a player who is set twice and removed. -/
def arenaRun : List Bytes :=
  arenaLines ++ [bs "SET hits 9 lb=zoe", bs "SET hits 3 lb=zoe", bs "DELETE hits lb=zoe"]

/-- Two players in two metrics, and a third player who is set twice and then removed: the second row
of the ranking. -/
theorem leaderboard_is_map_arena :
    Leaderboard.topN (runLines arenaRun).db (boardMetric (bs "hits") []) 1 1 =
        .ok (page 1 1 (ranking ((mapOfLines arenaRun).scores (bs "hits") []))) ∧
      Leaderboard.topN (runLines arenaRun).db (boardMetric (bs "hits") []) 1 1 =
        .ok [⟨bs "amy", Float64.ofBits 0x4000000000000000⟩] ∧
      Leaderboard.existsEntry (runLines arenaRun).db (boardMetric (bs "hits") []) (bs "zoe") =
        (((mapOfLines arenaRun).scores (bs "hits") []).get? (bs "zoe")).isSome ∧
      Leaderboard.existsEntry (runLines arenaRun).db (boardMetric (bs "hits") []) (bs "zoe") =
        false := by
  have h := Tracked.leaderboard_is_map (tracked_runLines arenaRun (by decide +kernel))
  exact ⟨h.2.2.2 (bs "hits") [] (by decide) 1 1, by decide +kernel,
    (h.2.2.1 (bs "hits") [] (bs "zoe") (by decide)).2, by decide +kernel⟩

/-- **Both restrictions are needed.**  Two entities with the score `-1` are listed against the order
of their ranking keys.  An entity whose id is the byte `0xFF` is listed as `U+FFFD`, and the score
of the entity `U+FFFD`, which does not exist, is read as that of `0xFF`. -/
theorem leaderboard_not_map_without_restrictions :
    (∃ s, Reachable (fun _ => True) s ∧
      lbKey (bs "hits") (bs "a") (Float64.ofBits 0xBFF0000000000000) <
        lbKey (bs "hits") (bs "b") (Float64.ofBits 0xBFF0000000000000) ∧
      Leaderboard.topN s.db (bs "hits") 0 0 =
        .ok [⟨bs "b", Float64.ofBits 0xBFF0000000000000⟩,
          ⟨bs "a", Float64.ofBits 0xBFF0000000000000⟩]) ∧
    ∃ s, Reachable (fun _ => True) s ∧
      Leaderboard.existsEntry s.db (bs "hits") [0xFF] = true ∧
      Leaderboard.topN s.db (bs "hits") 0 0 =
        .ok [⟨[0xEF, 0xBF, 0xBD], Float64.ofBits 0x4014000000000000⟩] ∧
      Leaderboard.existsEntry s.db (bs "hits") [0xEF, 0xBF, 0xBD] = false ∧
      Leaderboard.get s.db (bs "hits") [0xEF, 0xBF, 0xBD] = Float64.ofBits 0x4014000000000000 := by
  refine ⟨⟨runLines [bs "SET hits -1 lb=a", bs "SET hits -1 lb=b"],
    reachable_runLines _ fun _ _ _ _ => trivial, by decide +kernel, by decide +kernel⟩,
    ⟨runLines [bs "SET hits 5 lb=\"\\xff\""], reachable_runLines _ fun _ _ _ _ => trivial, ?_⟩⟩
  exact ⟨by decide +kernel, by decide +kernel, by decide +kernel, by decide +kernel⟩

end FlameDB
