import FlameDB.Query.LeaderboardMap

/-!
# Repeated deliveries on a replica

A primary retries a replication frame until it is answered, so a replica may meet a record again
after it was applied, alone or in another frame, before or after a restart.  Each record carries an
operation id, and the batch that applies it leaves a receipt under that id.

`deliver` runs a list of deliveries and logs every attempt as it was staged.  `firstSuccesses` keeps
from the log, for each operation id, the first attempt that was accepted, and `applyOnce` applies
one of them without looking at any receipt.

* `Explains.append` — logs of consecutive runs compose;
* `explains_executeMutation` — one attempt either applies its operation or changes nothing;
* `Reachable.deliver_eq_firstSuccesses` — any run of deliveries leaves the store that applying each
  operation once, where it first succeeded, leaves.
-/

namespace FlameDB

open Go KV

/-! ## The replica's side of replication

A replica may get a record any number of times, alone or in frames that are cut short. -/

/-- What the run leaves in the log: an attempt with the query as it was staged, or the writes of the
workers that keep the counters and the outbox. -/
inductive LogEntry where
  | attempt (q : Query) (accepted : Bool)
  | workers (writes : List (Bytes × Option Value))

/-- The attempt of a single execution. -/
def attempted (now : Int64) (s : Executor) (q : Query) : LogEntry :=
  .attempt (assignTimestamp now s q).2 (executeMutation now s q).2.isOk

/-- The loop over a frame that is not all WRITE: it ends at the first error. -/
def replEach (s : Executor) : List (Int64 × Query) → Executor × List LogEntry
  | [] => (s, [])
  | (now, q) :: rest =>
      let first := executeMutation now s q
      match first.2 with
      | .error _ => (first.1, [attempted now s q])
      | .ok _ =>
          let tail := replEach first.1 rest
          (tail.1, attempted now s q :: tail.2)

/-- A frame of WRITEs is one batch; the items without an error were accepted. -/
def replWrites (s : Executor) (items : List (Int64 × Query)) : Executor × List LogEntry :=
  let batch := items.map fun nq => (nq.1, some nq.2)
  let result := executeWriteBatch s batch
  (result.1, (planBatch 0 batch { clock := s.clock }).valid.map fun item =>
    .attempt item.query (result.2.errors.all fun e => e.1 ≠ item.index))

/-- The records of one `REPL_BATCH` line. -/
def replBatch (s : Executor) (items : List (Int64 × Query)) : Executor × List LogEntry :=
  if ∀ nq ∈ items, nq.2.type = .write then replWrites s items else replEach s items

/-- Store or drop each of the given keys. -/
def writeAll (db : Store) (writes : List (Bytes × Option Value)) : Store :=
  writes.foldl (fun db w => match w.2 with
    | some v => db.set w.1 v
    | none => db.erase w.1) db

/-- What may happen to a replica. -/
inductive Delivery where
  /-- a record on a line of its own -/
  | record (now : Int64) (q : Query)
  /-- a frame of several records -/
  | frame (items : List (Int64 × Query))
  /-- a frame during which the process stops after `n` records; a batch commits all or nothing -/
  | cutFrame (items : List (Int64 × Query)) (n : ℕ)
  /-- a new process on the same database -/
  | restart (clock : Int64)
  /-- the workers write their own keys -/
  | workers (writes : List (Bytes × Option Value))

/-- What a delivery does to the replica, with the log of it. -/
def Delivery.run (s : Executor) : Delivery → Executor × List LogEntry
  | .record now q => ((executeMutation now s q).1, [attempted now s q])
  | .frame items => replBatch s items
  | .cutFrame items n =>
      if ∀ nq ∈ items, nq.2.type = .write then (s, []) else replEach s (items.take n)
  | .restart clock => ({ s with clock := clock }, [])
  | .workers writes => ({ s with db := writeAll s.db writes }, [.workers writes])

/-- Deliveries one after the other. -/
def deliver (s : Executor) : List Delivery → Executor × List LogEntry
  | [] => (s, [])
  | d :: rest =>
      let first := d.run s
      let tail := deliver first.1 rest
      (tail.1, first.2 ++ tail.2)

/-- A mutation as replicas receive it. -/
structure ReplicaOp (q : Query) : Prop where
  admitted : Admitted q
  mutation : q.IsMutation
  isReplica : q.isReplica = true
  operationID_ne : q.operationID ≠ []
  validIds : q.ValidIds

/-- The delivery carries replica operations. -/
def Delivery.OK : Delivery → Prop
  | .record _ q => ReplicaOp q
  | .frame items => ∀ nq ∈ items, ReplicaOp nq.2
  | .cutFrame items _ => ∀ nq ∈ items, ReplicaOp nq.2
  | .restart _ => True
  | .workers writes => ∀ w ∈ writes, IsBackground w.1

/-! ## Each operation once

The specification: the first successful attempt of each operation counts. -/

/-- The store has a receipt for the operation. -/
def received (db : Store) (op : Bytes) : Bool := (db.get? (receiptKey op)).isSome

/-- The attempts that applied an operation for the first time, with the workers' writes in
between. -/
def firstSuccesses (done : Bytes → Bool) : List LogEntry → List LogEntry
  | [] => []
  | .workers writes :: rest => .workers writes :: firstSuccesses done rest
  | .attempt q accepted :: rest =>
      if accepted && !done q.operationID then
        .attempt q accepted :: firstSuccesses (fun op => op = q.operationID || done op) rest
      else firstSuccesses done rest

/-- The effect of one operation, whether or not a receipt is there. -/
def applyOnce (db : Store) : LogEntry → Except Bytes Store
  | .attempt q _ => do
      let (batch, _) ← stageMutation db q
      return batch.set (receiptKey q.operationID) (.bytes [1])
  | .workers writes => return writeAll db writes

def LogEntry.operationID : LogEntry → Option Bytes
  | .attempt q _ => some q.operationID
  | .workers _ => none

/-- The log has an accepted attempt of the operation. -/
def succeeded (log : List LogEntry) (op : Bytes) : Bool :=
  log.any fun
    | .attempt q accepted => accepted && q.operationID = op
    | .workers _ => false

@[simp]
lemma succeeded_nil (op : Bytes) : succeeded [] op = false := rfl

lemma succeeded_append (l₁ l₂ : List LogEntry) (op : Bytes) :
    succeeded (l₁ ++ l₂) op = (succeeded l₁ op || succeeded l₂ op) :=
  List.any_append

/-- A log in two parts: the second begins with what the first has done. -/
lemma firstSuccesses_append (done : Bytes → Bool) (l₁ l₂ : List LogEntry) :
    firstSuccesses done (l₁ ++ l₂) =
      firstSuccesses done l₁ ++ firstSuccesses (fun op => done op || succeeded l₁ op) l₂ := by
  induction l₁ generalizing done with
  | nil => simp [firstSuccesses]
  | cons e l₁ ih =>
      cases e with
      | workers writes =>
          simp only [List.cons_append, firstSuccesses, ih]
          rfl
      | attempt q accepted =>
          simp only [List.cons_append, firstSuccesses]
          split_ifs with hnew
          · rw [ih, List.cons_append]
            congr 3
            funext op
            simp only [Bool.and_eq_true] at hnew
            simp only [succeeded, List.any_cons, hnew.1, Bool.true_and, eq_comm (a := op)]
            cases done op <;> simp
          · rw [ih]
            congr 2
            funext op
            simp only [succeeded, List.any_cons]
            -- the attempt was refused, or its operation was done before
            by_cases hop : q.operationID = op
            · subst hop
              cases accepted <;> cases hd : done q.operationID <;> simp_all
            · simp [hop]

/-- The ids kept are the new ones that succeeded. -/
lemma mem_firstSuccesses (done : Bytes → Bool) (log : List LogEntry) (op : Bytes) :
    op ∈ (firstSuccesses done log).filterMap LogEntry.operationID ↔
      done op = false ∧ succeeded log op = true := by
  induction log generalizing done with
  | nil => simp [firstSuccesses]
  | cons e log ih =>
      cases e with
      | workers writes => simpa [firstSuccesses, LogEntry.operationID, succeeded] using ih done
      | attempt q accepted =>
          simp only [firstSuccesses]
          by_cases hop : q.operationID = op
          · subst hop
            split_ifs with hnew
            · simp_all [LogEntry.operationID, succeeded]
            · rw [ih]
              cases accepted <;> cases hd : done q.operationID <;> simp_all [succeeded]
          · split_ifs with hnew
            · simp_all [LogEntry.operationID, succeeded, eq_comm (a := op)]
            · simp_all [succeeded]

/-- Each id is kept once. -/
lemma nodup_firstSuccesses (done : Bytes → Bool) (log : List LogEntry) :
    ((firstSuccesses done log).filterMap LogEntry.operationID).Nodup := by
  induction log generalizing done with
  | nil => exact List.nodup_nil
  | cons e log ih =>
      cases e with
      | workers writes =>
          rw [firstSuccesses, List.filterMap_cons_none rfl]
          exact ih done
      | attempt q accepted =>
          simp only [firstSuccesses]
          split_ifs with hnew
          · have hid : (LogEntry.attempt q accepted).operationID = some q.operationID := rfl
            rw [List.filterMap_cons_some hid, List.nodup_cons]
            refine ⟨fun hmem => ?_, ih _⟩
            simpa using ((mem_firstSuccesses _ _ _).mp hmem).1
          · exact ih done

/-- What every reachable store is. -/
structure SoundStore (db : Store) : Prop where
  store : StoreInv db
  scores : ∃ σ, LBInv db σ

/-- **The log accounts for the change from `db` to `db'`.** -/
structure Explains (db : Store) (log : List LogEntry) (db' : Store) : Prop where
  sound : SoundStore db'
  received_eq : ∀ op, received db' op = (received db op || succeeded log op)
  once : (firstSuccesses (received db) log).foldlM applyOnce db = .ok db'

lemma Explains.refl {db : Store} (h : SoundStore db) : Explains db [] db :=
  ⟨h, by simp, rfl⟩

lemma Explains.append {db db₁ db₂ : Store} {l₁ l₂ : List LogEntry} (h₁ : Explains db l₁ db₁)
    (h₂ : Explains db₁ l₂ db₂) : Explains db (l₁ ++ l₂) db₂ where
  sound := h₂.sound
  received_eq op := by rw [h₂.received_eq, h₁.received_eq, succeeded_append, Bool.or_assoc]
  once := by
    have hdone : (fun op => received db op || succeeded l₁ op) = received db₁ :=
      funext fun op => (h₁.received_eq op).symm
    rw [firstSuccesses_append, hdone, List.foldlM_append, h₁.once]
    exact h₂.once

/-! ## One delivery

What a delivery did to the store is accounted for by its log. -/

lemma assignTimestamp_db (now : Int64) (s : Executor) (q : Query) :
    (assignTimestamp now s q).1.db = s.db := by
  unfold assignTimestamp
  split_ifs <;> rfl

lemma ReplicaOp.hasReceipt_assignTimestamp {q : Query} (h : ReplicaOp q) (now : Int64)
    (s : Executor) : hasReceipt (assignTimestamp now s q).2 = true := by
  have hq : hasReceipt q = true := by simp [hasReceipt, h.isReplica, h.operationID_ne]
  unfold assignTimestamp
  split_ifs
  · exact hq
  · exact hq

lemma received_set (db : Store) (op op' : Bytes) (v : Value) :
    received (db.set (receiptKey op) v) op' = (received db op' || op = op') := by
  have hset := lookup_setReceipt db op v (K := .receipt op') trivial
  simp only [lookup, Key.encode, Key.receipt.injEq] at hset
  rw [received, received, hset]
  split_ifs with hop
  · simp [hop]
  · simp [Ne.symm hop]

/-- **One attempt**: it applies its operation, or is refused, or the operation was applied before;
in the last two cases the store stays as it is. -/
theorem explains_executeMutation {s : Executor} (hs : SoundStore s.db) {q : Query}
    (hq : ReplicaOp q) (now : Int64) :
    Explains s.db [attempted now s q] (executeMutation now s q).1.db := by
  obtain ⟨σ, hσ⟩ := hs.scores
  have hstage := hq.admitted.stageable hq.mutation.ne_metrics
  obtain ⟨hinv, hinv', -⟩ := executeMutation_inv hs.store hσ hstage now
  have hsound : SoundStore (executeMutation now s q).1.db := ⟨hinv, hinv'⟩
  have hdb := assignTimestamp_db now s q
  have hreceipt := hq.hasReceipt_assignTimestamp now s
  replace hstage := hstage.assignTimestamp now s
  revert hsound
  unfold attempted executeMutation
  generalize assignTimestamp now s q = p at *
  obtain ⟨⟨clock, db⟩, q'⟩ := p
  simp only at hdb hreceipt hstage ⊢
  subst hdb
  by_cases hdone : received s.db q'.operationID = true
  · -- applied before: accepted, and nothing is written
    have hm : mutationBatch s.db q' = .ok (s.db, ⟨q'.dryRun, 0, 0⟩) := if_pos ⟨hreceipt, hdone⟩
    rw [hm]
    intro hsound
    refine ⟨hsound, fun op => ?_, ?_⟩
    · by_cases hop : q'.operationID = op
      · simp [← hop, hdone]
      · simp [succeeded, hop]
    · simp [firstSuccesses, hdone, pure, Except.pure]
  · have hm : mutationBatch s.db q' = (do
        let (batch, deleted) ← stageMutation s.db q'
        return (batch.set (receiptKey q'.operationID) (.bytes [1]), deleted)) := by
      rw [mutationBatch, if_neg fun h => hdone h.2]
      simp only [hreceipt, if_true]
    rw [Bool.not_eq_true] at hdone
    cases hb : stageMutation s.db q' with
    | error msg =>
        rw [hm, hb]
        intro hsound
        refine ⟨hsound, fun op => ?_, rfl⟩
        simp [succeeded, bind, Except.bind, Except.isOk, Except.toBool]
    | ok r =>
        obtain ⟨batch, deleted⟩ := r
        rw [hm, hb]
        intro hsound
        refine ⟨hsound, fun op => ?_, ?_⟩
        · change received (batch.set _ _) op = _
          rw [received_set, received, stageMutation_receipt hs.store hσ hstage hb op]
          simp [received, succeeded, bind, Except.bind, pure, Except.pure, Except.isOk,
            Except.toBool]
        · simp [firstSuccesses, hdone, applyOnce, hb, bind, Except.bind, pure, Except.pure,
            Except.isOk, Except.toBool]

lemma explains_replEach {s : Executor} (hs : SoundStore s.db) (items : List (Int64 × Query))
    (hitems : ∀ nq ∈ items, ReplicaOp nq.2) :
    Explains s.db (replEach s items).2 (replEach s items).1.db := by
  induction items generalizing s with
  | nil => exact .refl hs
  | cons nq items ih =>
      obtain ⟨now, q⟩ := nq
      have hfirst := explains_executeMutation hs (hitems _ List.mem_cons_self) now
      simp only [replEach]
      cases (executeMutation now s q).2 with
      | error msg => exact hfirst
      | ok r => exact hfirst.append (ih hfirst.sound fun nq hnq => hitems nq (.tail _ hnq))

/-- The attempts of a sequence that goes on after errors. -/
def attemptAll (s : Executor) : List (Int64 × Query) → List LogEntry
  | [] => []
  | (now, q) :: rest => attempted now s q :: attemptAll (executeMutation now s q).1 rest

lemma explains_attemptAll {s : Executor} (hs : SoundStore s.db) (items : List (Int64 × Query))
    (hitems : ∀ nq ∈ items, ReplicaOp nq.2) :
    Explains s.db (attemptAll s items) (executeAll s items).1.db := by
  induction items generalizing s with
  | nil => exact .refl hs
  | cons nq items ih =>
      have hfirst := explains_executeMutation hs (hitems _ List.mem_cons_self) nq.1
      exact hfirst.append (ih hfirst.sound fun nq hnq => hitems nq (.tail _ hnq))

lemma le_of_mem_errorsFrom {i : ℕ} {results : List (Except Bytes MutationResult)} {e : ℕ × Bytes}
    (he : e ∈ errorsFrom i results) : i ≤ e.1 := by
  induction results generalizing i with
  | nil => simp [errorsFrom] at he
  | cons r results ih =>
      cases r with
      | error msg =>
          rcases List.mem_cons.mp he with rfl | he
          · exact le_rfl
          · exact (Nat.le_succ i).trans (ih he)
      | ok r => exact (Nat.le_succ i).trans (ih he)

lemma executeMutation_clock (now : Int64) (s : Executor) (q : Query) :
    (executeMutation now s q).1.clock = (assignTimestamp now ⟨s.clock, ∅⟩ q).1.clock := by
  unfold executeMutation assignTimestamp
  split_ifs <;> simp only <;> split <;> rfl

lemma assignTimestamp_query (now : Int64) (s : Executor) (q : Query) :
    (assignTimestamp now ⟨s.clock, ∅⟩ q).2 = (assignTimestamp now s q).2 := by
  unfold assignTimestamp
  split_ifs <;> rfl

lemma le_of_mem_stampItems {i : ℕ} {clock : Int64} {items : List (Int64 × Query)} {item : BatchItem}
    (h : item ∈ (stampItems i clock items).2) : i ≤ item.index := by
  induction items generalizing i clock with
  | nil => simp [stampItems] at h
  | cons nq items ih =>
      rcases List.mem_cons.mp h with rfl | h
      · exact le_rfl
      · exact (Nat.le_succ i).trans (ih h)

/-- The log of a batch is the log of its writes one by one. -/
lemma stampItems_attempts (i : ℕ) (s : Executor) (items : List (Int64 × Query)) :
    ((stampItems i s.clock items).2.map fun item => LogEntry.attempt item.query
      ((errorsFrom i (executeAll s items).2).all fun e => e.1 ≠ item.index)) =
        attemptAll s items := by
  induction items generalizing i s with
  | nil => rfl
  | cons nq items ih =>
      obtain ⟨now, q⟩ := nq
      have hlater : ∀ e ∈ errorsFrom (i + 1) (executeAll (executeMutation now s q).1 items).2,
          e.1 ≠ i := fun e he => Nat.ne_of_gt (le_of_mem_errorsFrom he)
      have htail := ih (i + 1) (executeMutation now s q).1
      rw [executeMutation_clock] at htail
      simp only [stampItems, executeAll, attemptAll, List.map_cons, attempted,
        assignTimestamp_query,
        ← htail]
      congr 1
      · congr 1
        cases (executeMutation now s q).2 with
        | error msg => simp [errorsFrom, Except.isOk, Except.toBool]
        | ok r => simpa [errorsFrom, Except.isOk, Except.toBool] using hlater
      · -- an error of this item is at an index that no later item has
        refine List.map_congr_left fun item hitem => ?_
        have hi : i ≠ item.index := Nat.ne_of_lt (le_of_mem_stampItems hitem)
        cases (executeMutation now s q).2 with
        | error msg => simp [errorsFrom, hi]
        | ok r => rfl

lemma explains_replWrites {s : Executor} (hs : SoundStore s.db) (items : List (Int64 × Query))
    (hitems : ∀ nq ∈ items, ReplicaOp nq.2) (hwrite : ∀ nq ∈ items, nq.2.type = .write) :
    Explains s.db (replWrites s items).2 (replWrites s items).1.db := by
  obtain ⟨σ, hσ⟩ := hs.scores
  have hok : ∀ nq ∈ items, WriteOK nq.2 := fun nq hnq =>
    have hq := hitems nq hnq
    ⟨hq.admitted.stageable hq.mutation.ne_metrics, hwrite nq hnq, hq.admitted.timestamp_nonneg,
      hq.validIds⟩
  have hlog : (replWrites s items).2 = attemptAll s items := by
    simp only [replWrites, executeWriteBatch_eq hs.store hσ items hok, planBatch_eq 0 items hok,
      List.nil_append]
    exact stampItems_attempts 0 s items
  rw [hlog, replWrites, executeWriteBatch_eq hs.store hσ items hok]
  exact explains_attemptAll hs items hitems

lemma get?_writeAll {writes : List (Bytes × Option Value)} {k : Bytes} (hk : ∀ w ∈ writes, w.1 ≠ k)
    (db : Store) : (writeAll db writes).get? k = db.get? k := by
  induction writes generalizing db with
  | nil => rfl
  | cons w writes ih =>
      have hw : k ≠ w.1 := (hk w List.mem_cons_self).symm
      refine (ih (fun w hw => hk w (.tail _ hw)) _).trans ?_
      obtain ⟨key, v⟩ := w
      cases v with
      | some v => exact OrdMap.get?_set_of_ne db v hw
      | none => exact OrdMap.get?_erase_of_ne db hw

lemma explains_workers {db : Store} (hs : SoundStore db) {writes : List (Bytes × Option Value)}
    (hw : ∀ w ∈ writes, IsBackground w.1) :
    Explains db [.workers writes] (writeAll db writes) := by
  have hsame : ∀ k, ¬ IsBackground k → (writeAll db writes).get? k = db.get? k :=
    fun k hk => get?_writeAll (fun w hmem (hwk : w.1 = k) => hk (hwk ▸ hw w hmem)) db
  obtain ⟨σ, hσ⟩ := hs.scores
  refine ⟨⟨hs.store.background hsame, σ, hσ.background hsame⟩, fun op => ?_, rfl⟩
  have hop : lookup (writeAll db writes) (.receipt op) = lookup db (.receipt op) :=
    lookup_of_background hsame trivial (by simp [Key.Background])
  simp only [lookup, Key.encode] at hop
  simp [received, hop, succeeded]

/-- **Every delivery is accounted for by its log.** -/
theorem Delivery.explains {s : Executor} (hs : SoundStore s.db) {d : Delivery} (hd : d.OK) :
    Explains s.db (d.run s).2 (d.run s).1.db := by
  cases d with
  | record now q => exact explains_executeMutation hs hd now
  | frame items =>
      simp only [Delivery.run, replBatch]
      split_ifs with hwrite
      · exact explains_replWrites hs items hd hwrite
      · exact explains_replEach hs items hd
  | cutFrame items n =>
      simp only [Delivery.run]
      split_ifs
      · exact .refl hs
      · exact explains_replEach hs _ fun nq hnq => hd nq (List.mem_of_mem_take hnq)
  | restart clock => exact .refl hs
  | workers writes => exact explains_workers hs hd

/-! ## Every run -/

lemma explains_deliver {s : Executor} (hs : SoundStore s.db) (deliveries : List Delivery)
    (hok : ∀ d ∈ deliveries, d.OK) :
    Explains s.db (deliver s deliveries).2 (deliver s deliveries).1.db := by
  induction deliveries generalizing s with
  | nil => exact .refl hs
  | cons d deliveries ih =>
      have hfirst := Delivery.explains hs (hok d List.mem_cons_self)
      exact hfirst.append (ih hfirst.sound fun d hd => hok d (.tail _ hd))

/-- **Replays are harmless**: whatever records and frames are delivered, repeated, cut short or
repeated after a restart, the store is the one that applying each operation once, in the order of
the first successful attempts, makes of the initial store.  The operations applied are those that
succeeded and had no receipt before. -/
theorem Reachable.deliver_eq_firstSuccesses {s : Executor} (hs : Reachable (fun _ => True) s)
    (deliveries : List Delivery) (hok : ∀ d ∈ deliveries, d.OK) :
    let log := (deliver s deliveries).2
    let once := firstSuccesses (received s.db) log
    once.foldlM applyOnce s.db = .ok (deliver s deliveries).1.db ∧
      (once.filterMap LogEntry.operationID).Nodup ∧
      ∀ op, op ∈ once.filterMap LogEntry.operationID ↔
        received s.db op = false ∧ succeeded log op = true := by
  obtain ⟨hstore, hscores⟩ := hs.inv
  exact ⟨(explains_deliver ⟨hstore, hscores⟩ deliveries hok).once, nodup_firstSuccesses _ _,
    mem_firstSuccesses _ _⟩

/-- A write arrives in a frame, again after a restart, and again on a line of its own. -/
theorem deliver_eq_firstSuccesses_sample :
    let deliveries : List Delivery :=
      [.frame [(1, sampleReplica), (1, sampleReplica)], .restart 0, .record 9 sampleReplica]
    let once := firstSuccesses (received ∅) (deliver ⟨0, ∅⟩ deliveries).2
    once.filterMap LogEntry.operationID = [sampleReplica.operationID] ∧
      once.foldlM applyOnce ∅ = .ok (deliver ⟨0, ∅⟩ deliveries).1.db := by
  have hop : ReplicaOp sampleReplica :=
    ⟨sampleReplica_parsed.admitted, by decide, rfl, by decide, by decide +kernel⟩
  refine ⟨by decide +kernel, (Reachable.deliver_eq_firstSuccesses (.empty 0) _ ?_).1⟩
  intro d hd
  simp only [List.mem_cons, List.not_mem_nil, or_false] at hd
  rcases hd with rfl | rfl | rfl
  · intro nq hnq
    simp only [List.mem_cons, List.not_mem_nil, or_false, or_self] at hnq
    exact hnq ▸ hop
  · trivial
  · exact hop

end FlameDB
