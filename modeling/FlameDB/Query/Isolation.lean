import FlameDB.Query.Provenance

/-!
# What a mutation leaves alone

Everything stored for a metric lies under keys of that metric: its events, their references, and the
two rows of each score.  A mutation or a batch on other metrics changes none of them.

* `Key.Of`, `Untouched` — the items of a metric, and that two stores agree on them.
* `kept_untouched` — each kind of change to another metric leaves them alone, so do mutations and
  batches.
* `Reachable.metric_wf` — in a reachable store only admitted names have scores.
-/

namespace FlameDB

open Go KV

/-- The items of a metric. -/
def Key.Of (m : Bytes) : Key → Prop
  | .event m' _ => m' = m
  | .index m' _ _ _ => m' = m
  | .rank m' _ _ _ => m' = m
  | .entity m' _ _ => m' = m
  | _ => False

/-- Two stores hold the same items of a metric. -/
def Untouched (m : Bytes) (db db' : Store) : Prop :=
  ∀ K : Key, K.WF → K.Of m → lookup db' K = lookup db K

lemma Untouched.refl (m : Bytes) (db : Store) : Untouched m db db := fun _ _ _ => rfl

lemma Untouched.trans {m : Bytes} {db db' db'' : Store} (h : Untouched m db db')
    (h' : Untouched m db' db'') : Untouched m db db'' :=
  fun K hK hm => (h' K hK hm).trans (h K hK hm)

/-! ## The kinds of changes

Every write goes to keys of the metric it names, and no such key belongs to another metric. -/

section Changes

variable {m : Bytes} {db db' : Store}

/-- Scores move on other metrics. -/
lemma Untouched.of_scores {σ σ' : Scores} (hσ : LBInv db σ) (hσ' : LBInv db' σ')
    (hoff : AgreeOffScores db db') (hsame : ∀ b e, (σ' m b).get? e = (σ m b).get? e) :
    Untouched m db db' := by
  intro K hK hm
  cases K with
  | rank m' b e s =>
      obtain rfl : m' = m := hm
      rw [hσ'.rank m' b e s hK, hσ.rank m' b e s hK, hsame]
  | entity m' b e =>
      obtain rfl : m' = m := hm
      rw [hσ'.entity m' b e hK, hσ.entity m' b e hK, hsame]
  | event m' t => exact hoff.lookup hK (by simp [Key.IsScore])
  | index m' k v t => exact hoff.lookup hK (by simp [Key.IsScore])
  | _ => exact hm.elim

lemma Untouched.setReceipt (op : Bytes) (v : Value) :
    Untouched m db (db.set (receiptKey op) v) := by
  intro K hK hm
  rw [lookup_setReceipt db op v hK, if_neg]
  rintro rfl
  exact hm

lemma Untouched.stageEvent (hs : StoreInv db) {e : Event} (hw : (Key.event e.metric e.timestamp).WF)
    (hfin : e.value.isFinite = true) (hne : e.metric ≠ m) (hstage : stageEvent db e = .ok db') :
    Untouched m db db' := by
  obtain ⟨val, db₂, hstage₂, -, -, hindex, hother⟩ := stageEvent_spec hs hw hfin
  obtain rfl : db' = db₂ := Except.ok.inj (hstage.symm.trans hstage₂)
  intro K hK hm
  cases K with
  | index m' k v t =>
      obtain rfl : m' = m := hm
      rw [hindex, if_neg fun h => hne h.1.symm]
  | event m' t =>
      obtain rfl : m' = m := hm
      rw [hother _ hK trivial, if_neg fun h => hne (Key.event.inj h).1.symm]
  | rank m' b e s => rw [hother _ hK trivial, if_neg (by simp)]
  | entity m' b e => rw [hother _ hK trivial, if_neg (by simp)]
  | _ => exact hm.elim

lemma Untouched.dropEvent {m' : Bytes} (hw : m' ≠ [] ∧ m' ∉ Key.reserved)
    (hne : m' ≠ m) (e : Event) :
    Untouched m db (dropEvent m' db e) := by
  intro K hK hm
  cases K with
  | index m'' k v t =>
      obtain rfl : m'' = m := hm
      rw [lookup_dropEvent_index hw, if_neg fun h => hne h.1.symm]
  | event m'' t =>
      obtain rfl : m'' = m := hm
      rw [lookup_dropEvent_of_notIndex hw db hK trivial, if_neg fun h =>
        hne (Key.event.inj h).1.symm]
  | rank m'' b e s => rw [lookup_dropEvent_of_notIndex hw db hK trivial, if_neg (by simp)]
  | entity m'' b e => rw [lookup_dropEvent_of_notIndex hw db hK trivial, if_neg (by simp)]
  | _ => exact hm.elim

lemma Untouched.dropEvents {m' : Bytes} (hw : m' ≠ [] ∧ m' ∉ Key.reserved) (hne : m' ≠ m)
    (es : List Event) : Untouched m db (es.foldl (FlameDB.dropEvent m') db) := by
  induction es generalizing db with
  | nil => exact .refl m db
  | cons e es ih => exact (Untouched.dropEvent hw hne e).trans ih

end Changes

lemma kept_untouched (m : Bytes) (db₀ : Store) :
    Kept (fun e => e.metric ≠ m) (· ≠ m) (Untouched m db₀) where
  stageEvent h hs hw hfin hne hstage := h.trans (.stageEvent hs hw hfin hne hstage)
  scores h hσ hσ' hoff hsame := h.trans (.of_scores hσ hσ' hoff fun b e => hsame m b e (by simp))
  setReceipt op v h := h.trans (.setReceipt op v)
  dropEvents es hw hne h := h.trans (.dropEvents hw hne es)

/-- **A mutation leaves other metrics alone.** -/
theorem Untouched.executeMutation {m : Bytes} {s : Executor} (hs : StoreInv s.db) {σ : Scores}
    (hσ : LBInv s.db σ) {q : Query} (hq : q.Stageable) (hne : q.metric ≠ m) (now : Int64) :
    Untouched m s.db (executeMutation now s q).1.db :=
  (kept_untouched m s.db).executeMutation (.refl m _) hs hσ hq hne (fun _ _ => hne) now

/-- **A batch leaves other metrics alone.** -/
theorem Untouched.executeWriteBatch {m : Bytes} {s : Executor} (hs : StoreInv s.db) {σ : Scores}
    (hσ : LBInv s.db σ) {items : List (Int64 × Option Query)}
    (hitems : ∀ x ∈ items, ∀ q, x.2 = some q → q.type = .write → q.Stageable ∧ q.metric ≠ m) :
    Untouched m s.db (executeWriteBatch s items).1.db :=
  (kept_untouched m s.db).executeWriteBatch (.refl m _) hs hσ fun x hx q hq hty =>
    have h := hitems x hx q hq hty
    ⟨h.1, h.2, fun _ _ => h.2⟩

/-- The workers leave the items of every metric alone. -/
lemma Untouched.background {m : Bytes} {db db' : Store}
    (hdb : ∀ k, ¬ IsBackground k → db'.get? k = db.get? k) : Untouched m db db' := by
  intro K hK hm
  refine lookup_of_background hdb hK ?_
  cases K <;> simp_all [Key.Of, Key.Background]

/-- A name no query can have stays without items. -/
lemma Reachable.untouched {P : Query → Prop} {s : Executor} (h : Reachable P s) {m : Bytes}
    (hbad : ¬ (m ≠ [] ∧ m ∉ Key.reserved)) : Untouched m ∅ s.db := by
  have hne : ∀ {q : Query}, q.Stageable → q.metric ≠ m := by
    rintro q hq rfl
    exact hbad hq.metric_wf
  induction h with
  | empty clock => exact .refl m ∅
  | mutate hr hq hmut hP now ih =>
      obtain ⟨hs, σ, hσ⟩ := hr.inv
      have hstage := hq.stageable hmut.ne_metrics
      exact ih.trans (.executeMutation hs hσ hstage (hne hstage) now)
  | @batch s items hr hitems ih =>
      obtain ⟨hs, σ, hσ⟩ := hr.inv
      refine ih.trans (.executeWriteBatch hs hσ fun x hx q hq hty => ?_)
      have hstage := (hitems x hx q hq).1.stageable (by simp [hty])
      exact ⟨hstage, hne hstage⟩
  | background _ hdb ih => exact ih.trans (.background hdb)

/-- **Only admitted names have scores.** -/
theorem Reachable.metric_wf {P : Query → Prop} {s : Executor} (h : Reachable P s) {m b e : Bytes}
    (hm : unitSep ∉ m) (hscore : (lookup s.db (.entity m b e)).isSome) :
    m ≠ [] ∧ m ∉ Key.reserved := by
  by_contra hbad
  rw [h.untouched hbad (.entity m b e) hm rfl] at hscore
  cases hscore

end FlameDB
