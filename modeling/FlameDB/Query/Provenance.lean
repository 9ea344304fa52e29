import FlameDB.Query.Reachable

/-!
# Where stored events come from

The rows of the event family are written by WRITE items only, so whatever holds of the events of all
accepted writes holds of every stored event.

* `Kept` — what the kinds of changes to a store keep, mutations and batches keep.
* `EventsFrom` — every stored row encodes an event with a property.
* `Reachable.eventsFrom` — the property of the writes is one of the rows of any reachable store.
* `SameBackground` — mutations and batches leave the keys of the background workers alone.
* `Reachable.finiteEvents` — stored values are finite.
-/

namespace FlameDB

open Go KV

/-! ## What every step keeps

Four kinds of changes make up every mutation and every batch.  What is proved about them once is
known of all steps. -/

/-- A property of stores that the four kinds of changes keep: an event with the property `P` is
staged, scores of metrics in `R` change, a receipt is written, events of a metric in `R` are
dropped. -/
structure Kept (P : Event → Prop) (R : Bytes → Prop) (I : Store → Prop) : Prop where
  stageEvent : ∀ {db db' : Store} {e : Event}, I db → StoreInv db →
    (Key.event e.metric e.timestamp).WF → e.value.isFinite = true → P e →
      FlameDB.stageEvent db e = .ok db' → I db'
  scores : ∀ {db db' : Store} {σ σ' : Scores}, I db → LBInv db σ → LBInv db' σ' →
    AgreeOffScores db db' → (∀ m b e, ¬ R m → (σ' m b).get? e = (σ m b).get? e) → I db'
  setReceipt : ∀ {db : Store} (op : Bytes) (v : Value), I db → I (db.set (receiptKey op) v)
  dropEvents : ∀ {db : Store} {m : Bytes} (es : List Event), m ≠ [] ∧ m ∉ Key.reserved → R m →
    I db → I (es.foldl (dropEvent m) db)

/-- The property holds of the event of a query, whatever time it is given. -/
def EventAnyTime (P : Event → Prop) (q : Query) : Prop :=
  q.type = .write → ∀ t, P { eventOf q with timestamp := t }

section Steps

variable {P : Event → Prop} {R : Bytes → Prop} {I : Store → Prop} (hI : Kept P R I)

include hI

/-- **One mutation.** -/
lemma Kept.mutationBatch {db db' : Store} (h : I db) (hs : StoreInv db) {σ : Scores}
    (hσ : LBInv db σ) {q : Query} (hq : q.Stageable) (hR : R q.metric)
    (hP : q.type = .write → P (eventOf q)) {res : DeleteResult}
    (hok : FlameDB.mutationBatch db q = .ok (db', res)) : I db' := by
  have hput : ∀ (v : Bytes × Bytes → Float64) m b e, ¬ R m →
      (putBoards σ q.metric v (boardsOf q).entries m b).get? e = (σ m b).get? e := by
    intro v m b e hm
    rw [get?_putBoards, if_neg (by rintro ⟨rfl, -⟩; exact hm hR)]
  unfold FlameDB.mutationBatch at hok
  by_cases hdone : hasReceipt q ∧ (db.get? (receiptKey q.operationID)).isSome
  · rw [if_pos hdone] at hok
    cases hok
    exact h
  · rw [if_neg hdone] at hok
    obtain ⟨⟨b, res'⟩, hstage, hret⟩ := bind_eq_ok_iff.mp hok
    have hb : I b := by
      cases hty : q.type with
      | write =>
        obtain ⟨b₁, hev, hover, hrest⟩ := stageWrite_spec hs hσ hq hty
        by_cases ho : Overflows db q
        · rw [hover ho] at hstage
          cases hstage
        · obtain ⟨b₂, hb₂, -, hσ₂, hoff⟩ := hrest ho
          rw [hb₂] at hstage
          cases hstage
          have hσ₁ := (hσ.stageEvent hs (e := eventOf q) hq.metric_wf hq.value_isFinite hev).2
          exact hI.scores (hI.stageEvent (e := eventOf q) h hs hq.metric_wf
            hq.value_isFinite (hP hty) hev) hσ₁ hσ₂ hoff (hput _)
      | set =>
        obtain ⟨b₂, hb₂, -, hσ₂, hoff⟩ := stageSet_spec hs hσ hq hty
        rw [hb₂] at hstage
        cases hstage
        exact hI.scores h hσ hσ₂ hoff (hput _)
      | delete =>
        obtain ⟨b₁, n, hb₁, -, hσ₁, hoff, -⟩ := stageDelete_spec hs hσ hq hty
        rw [hb₁] at hstage
        cases hstage
        split_ifs with hdry
        · exact h
        · refine hI.dropEvents _ hq.metric_wf hR (hI.scores h hσ hσ₁ hoff fun m b e hm => ?_)
          rw [deleteScores, if_neg hdry, get?_removeBoards,
            if_neg (by rintro ⟨rfl, -⟩; exact hm hR)]
      | _ =>
        simp only [stageMutation, hty, pure, Except.pure] at hstage
        cases hstage
        exact h
    obtain ⟨rfl, -⟩ := Prod.mk.inj (Except.ok.inj hret)
    split_ifs
    · exact hI.setReceipt _ _ hb
    · exact hb

lemma Kept.executeMutation {s : Executor} (h : I s.db) (hs : StoreInv s.db) {σ : Scores}
    (hσ : LBInv s.db σ) {q : Query} (hq : q.Stageable) (hR : R q.metric) (hP : EventAnyTime P q)
    (now : Int64) : I (executeMutation now s q).1.db := by
  have hdb : (assignTimestamp now s q).1.db = s.db := by
    unfold assignTimestamp
    split_ifs <;> rfl
  have hown : R (assignTimestamp now s q).2.metric ∧ ((assignTimestamp now s q).2.type = .write →
      P (eventOf (assignTimestamp now s q).2)) := by
    unfold assignTimestamp
    split_ifs
    · exact ⟨hR, fun hty => hP hty _⟩
    · exact ⟨hR, fun hty => hP hty q.timestamp⟩
  have hstage := hq.assignTimestamp now s
  unfold FlameDB.executeMutation
  rw [← hdb] at h hs hσ
  generalize assignTimestamp now s q = p at *
  simp only
  cases hm : FlameDB.mutationBatch p.1.db p.2 with
  | error msg => exact h
  | ok r => exact hI.mutationBatch h hs hσ hstage hown.1 hown.2 hm

lemma Kept.stageItem {db₀ : Store} {s s' : BatchState} (h : I s.batch) (hs : StoreInv s.batch)
    {item : BatchItem} (hq : item.query.Stageable) (hP : P (eventOf item.query))
    (hok : stageItem db₀ s item = .ok s') : I s'.batch := by
  rcases stageItem_cases hok with ⟨hb, -⟩ | ⟨check, -, ⟨hb, -⟩ | ⟨next, b, -, hev, hb, -⟩⟩
  · exact hb ▸ h
  · exact hb ▸ h
  · have hevent :=
      hI.stageEvent (e := eventOf item.query) h hs hq.metric_wf hq.value_isFinite hP hev
    rcases hb with hb | ⟨op, v, hb⟩
    · exact hb ▸ hevent
    · exact hb ▸ hI.setReceipt _ _ hevent

/-- **One batch.** -/
lemma Kept.executeWriteBatch {s : Executor} (h : I s.db)
    (hs : StoreInv s.db) {σ : Scores} (hσ : LBInv s.db σ) {items : List (Int64 × Option Query)}
    (hitems : ∀ x ∈ items, ∀ q, x.2 = some q → q.type = .write →
      q.Stageable ∧ R q.metric ∧ EventAnyTime P q) :
    I (executeWriteBatch s items).1.db := by
  refine executeWriteBatch_induct
    (R := fun q => q.Stageable ∧ R q.metric ∧ P (eventOf q))
    (M := fun st => BatchInv R σ st ∧ I st.batch) (J := I) (fun x hx q hq hty ts => ?_)
    (fun reader errors => ⟨batchInv_init hs hσ reader errors, h⟩)
    (fun hst hq hok => ⟨hst.1.stageItem hσ hq.1 hq.2.1 hok,
      hI.stageItem hst.2 hst.1.store hq.1 hq.2.2 hok⟩) h fun hst => ?_
  · obtain ⟨hstage, hR, hP⟩ := hitems x hx q hq hty
    exact ⟨⟨hstage.metric_wf, hstage.metric_noSep, hstage.value_isFinite⟩, hR, hP hty ts⟩
  · obtain ⟨batch, σ', hflush, -, hσ', hoff, hsame⟩ := hst.1.flush
    exact ⟨batch, hflush, hI.scores hst.2 hst.1.scores hσ' hoff hsame⟩

end Steps

/-! ## Stored events -/

/-- Every stored row encodes an event with the property. -/
def EventsFrom (P : Event → Prop) (db : Store) : Prop :=
  ∀ m t v, (Key.event m t).WF → lookup db (.event m t) = some v →
    ∃ e, P e ∧ e.metric = m ∧ e.timestamp = t ∧ encodeEventValue e = .ok v

lemma eventsFrom_empty (P : Event → Prop) : EventsFrom P ∅ := by
  intro m t v _ hv
  simp [lookup] at hv

section Events

variable {P : Event → Prop} {db db' : Store} (h : EventsFrom P db)

include h

lemma EventsFrom.of_sub (hsub : ∀ m t, (Key.event m t).WF → ∀ v,
    lookup db' (.event m t) = some v → lookup db (.event m t) = some v) : EventsFrom P db' :=
  fun m t v hw hv => h m t v hw (hsub m t hw v hv)

lemma EventsFrom.agreeOffScores (hoff : AgreeOffScores db db') : EventsFrom P db' := by
  refine h.of_sub fun m t hw v hv => ?_
  rwa [hoff.lookup (K := .event m t) hw (by simp [Key.IsScore])] at hv

lemma EventsFrom.setReceipt (op : Bytes) (v : Value) :
    EventsFrom P (db.set (receiptKey op) v) := by
  refine h.of_sub fun m t hw v' hv => ?_
  rwa [lookup_setReceipt db op v (K := .event m t) hw, if_neg (by simp)] at hv

lemma EventsFrom.dropEvents {m : Bytes} (hw : m ≠ [] ∧ m ∉ Key.reserved) (es : List Event) :
    EventsFrom P (es.foldl (dropEvent m) db) := by
  induction es generalizing db with
  | nil => exact h
  | cons e es ih =>
    refine ih (h.of_sub fun m' t hmt v hv => ?_)
    rw [lookup_dropEvent_of_notIndex hw db (K := .event m' t) hmt trivial] at hv
    split_ifs at hv
    exact hv

lemma EventsFrom.stageEvent (hs : StoreInv db) {e : Event}
    (hw : (Key.event e.metric e.timestamp).WF) (hfin : e.value.isFinite = true) (hP : P e)
    (hstage : stageEvent db e = .ok db') : EventsFrom P db' := by
  obtain ⟨val, db₂, hstage₂, hval, -, -, hother⟩ := stageEvent_spec hs hw hfin
  rw [hstage] at hstage₂
  cases hstage₂
  intro m t v hmt hv
  rw [hother _ hmt trivial] at hv
  split_ifs at hv with hkey
  · obtain ⟨rfl, rfl⟩ := Key.event.inj hkey
    cases hv
    exact ⟨e, hP, rfl, rfl, hval⟩
  · exact h m t v hmt hv

lemma EventsFrom.background (hdb : ∀ k, ¬ IsBackground k → db'.get? k = db.get? k) :
    EventsFrom P db' := by
  refine h.of_sub fun m t hw v hv => ?_
  rwa [lookup_of_background hdb (K := .event m t) hw (by simp [Key.Background])] at hv

end Events

lemma kept_eventsFrom (P : Event → Prop) : Kept P (fun _ => True) (EventsFrom P) where
  stageEvent h hs hw hfin hP hstage := h.stageEvent hs hw hfin hP hstage
  scores h _ _ hoff _ := h.agreeOffScores hoff
  setReceipt op v h := h.setReceipt op v
  dropEvents es hw _ h := h.dropEvents hw es

/-- **What holds of all writes holds of all stored events.** -/
theorem Reachable.eventsFrom {Q : Query → Prop} {P : Event → Prop}
    (hP : ∀ q, Admitted q → Q q → EventAnyTime P q) {s : Executor} (h : Reachable Q s) :
    EventsFrom P s.db := by
  induction h with
  | empty clock => exact eventsFrom_empty P
  | mutate hr hq hmut hQ now ih =>
    obtain ⟨hs, σ, hσ⟩ := hr.inv
    exact (kept_eventsFrom P).executeMutation ih hs hσ (hq.stageable hmut.ne_metrics) trivial
      (hP _ hq hQ) now
  | @batch s items hr hitems ih =>
    obtain ⟨hs, σ, hσ⟩ := hr.inv
    refine (kept_eventsFrom P).executeWriteBatch ih hs hσ fun x hx q hq hty => ?_
    obtain ⟨hadm, hQ⟩ := hitems x hx q hq
    exact ⟨hadm.stageable (by simp [hty]), trivial, hP q hadm hQ⟩
  | background _ hdb ih => exact ih.background hdb

/-! ## Background keys -/

/-- Two stores agree on the keys of the background workers. -/
def SameBackground (db₀ db : Store) : Prop := ∀ k, IsBackground k → db.get? k = db₀.get? k

lemma kept_sameBackground (db₀ : Store) :
    Kept (fun _ => True) (fun _ => True) (SameBackground db₀) where
  stageEvent := by
    intro db db' e h _ hw _ _ hstage k hk
    obtain ⟨val, prev, -, -, rfl⟩ := (stageEvent_ok_iff _ _ _).mp hstage
    have hne : k ≠ eventKey e.metric e.timestamp :=
      ne_of_isBackground (K := .event e.metric e.timestamp) hk hw id
    rw [get?_setIndex_background _ _ _ _ hk, OrdMap.get?_set_of_ne _ _ hne,
      get?_eraseIndex_background _ _ _ _ hk, h k hk]
  scores := by
    intro db db' _ _ h _ _ hoff _ k hk
    rw [hoff k (not_isScoreKey_of_isBackground hk), h k hk]
  setReceipt := by
    intro db op v h k hk
    have hne : k ≠ receiptKey op := ne_of_isBackground (K := .receipt op) hk trivial id
    rw [OrdMap.get?_set_of_ne _ _ hne, h k hk]
  dropEvents := by
    intro db m es hw _ h
    induction es generalizing db with
    | nil => exact h
    | cons e es ih =>
        exact ih fun k hk => (get?_dropEvent_background hw db e hk).trans (h k hk)

/-- **Mutations leave the keys of the workers alone.** -/
lemma sameBackground_executeMutation {s : Executor} (hs : StoreInv s.db) {σ : Scores}
    (hσ : LBInv s.db σ) {q : Query} (hq : q.Stageable) (now : Int64) :
    SameBackground s.db (executeMutation now s q).1.db :=
  (kept_sameBackground s.db).executeMutation (fun _ _ => rfl) hs hσ hq trivial
    (fun _ _ => trivial) now

lemma sameBackground_executeWriteBatch {s : Executor} (hs : StoreInv s.db) {σ : Scores}
    (hσ : LBInv s.db σ) {items : List (Int64 × Option Query)}
    (hitems : ∀ x ∈ items, ∀ q, x.2 = some q → q.type = .write → q.Stageable) :
    SameBackground s.db (executeWriteBatch s items).1.db :=
  (kept_sameBackground s.db).executeWriteBatch (fun _ _ => rfl) hs hσ fun x hx q hq hty =>
    ⟨hitems x hx q hq hty, trivial, fun _ _ => trivial⟩

/-! ## Finite values -/

/-- Stored values are finite. -/
def FiniteEvents (db : Store) : Prop :=
  ∀ m t e, (Key.event m t).WF → eventAt db m t = some e → e.value.isFinite = true

lemma EventsFrom.finiteEvents {db : Store} (h : EventsFrom (fun e => e.value.isFinite = true) db) :
    FiniteEvents db := by
  intro m t e hw he
  obtain ⟨v, hv, hdec⟩ := Option.bind_eq_some_iff.mp he
  obtain ⟨e₀, hfin, -, -, henc⟩ := h m t v hw hv
  rw [decode_encode henc hw.1] at hdec
  cases hdec
  exact hfin

/-- **In every reachable store the values are finite.** -/
theorem Reachable.finiteEvents {Q : Query → Prop} {s : Executor} (h : Reachable Q s) :
    FiniteEvents s.db :=
  (h.eventsFrom fun _ hq _ _ _ => hq.value_isFinite).finiteEvents

end FlameDB
