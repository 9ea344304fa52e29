import FlameDB.Server.WriteBatch

/-!
# What a primary leaves in its outbox

A mutation is committed first and replicated second, and the replication can end early: a quorum
item without enough replica nodes stores nothing, and the first quorum item that fails ends its
batch.

* `Stored` — the records of some items have been added to the outbox, one for each item and each of
  its replica nodes.
* `executeLocal_stored_iff`, `handleWriteBatch_stored_iff` — in fair weather everything committed is
  stored exactly when no quorum item fails with a record still to be written.
-/

namespace FlameDB

open Go KV

def replicationFailed : Bytes := bs "replication failed (local write applied): "

/-- `executeLocal` for a mutation, with a clock reading and the outcome of the commit. -/
def executeLocal (c : Cluster) (w : Weather) (now : Int64) (commit : Option Bytes) (s : ServerState)
    (line : Bytes) (q : Query) : ServerState × Except Bytes MutationResult :=
  match executeMutation now s.exec q with
  | (exec, .error msg) => ({ s with exec := exec }, .error msg)
  | (exec, .ok result) =>
      match commit with
      | some msg => ({ s with exec := { exec with db := s.exec.db } }, .error msg)
      | none =>
          if !q.dryRun ∧ !q.isReplica ∧ q.IsMutation then
            -- The query is a pointer in the source and carries the assigned timestamp by now.
            let q := (assignTimestamp now s.exec q).2
            match replicateWrite c w s.replicator q.metric (replicaLine line q) q.quorum with
            | (replicator, none) => (⟨exec, replicator⟩, .ok result)
            | (replicator, some err) => (⟨exec, replicator⟩, .error (replicationFailed ++ err))
          else ({ s with exec := exec }, .ok result)

/-- The mutation as an item to replicate, if it was committed and does not come from a primary. -/
def committedMutation (now : Int64) (commit : Option Bytes) (s : ServerState) (line : Bytes)
    (q : Query) : List ReplicationItem :=
  match (executeMutation now s.exec q).2 with
  | .error _ => []
  | .ok _ =>
      if commit = none ∧ !q.dryRun ∧ !q.isReplica ∧ q.IsMutation then
        let q := (assignTimestamp now s.exec q).2
        [⟨q.metric, replicaLine line q, q.quorum⟩]
      else []

/-- The executed lines of a batch that were committed and do not come from a primary. -/
def committedItems (env : BatchEnv) (s : Executor) (items : List LocalItem) : List LocalItem :=
  let result := (executeBatch env.commit s (localQueries env items)).2
  (stampedItems env s items).filter fun item =>
    item.index ∉ (localErrors items result).map Prod.fst ∧ !item.query.isReplica

/-- Whether this node still replicates a line when the batch has been executed. -/
def stillPrimary (env : BatchEnv) (item : LocalItem) : Bool :=
  (env.later item.index).isPrimaryFor item.query.metric ∨
    (!item.query.updateLB ∧ item.query.lbEntities.entries = [])

lemma replicationItems_eq (env : BatchEnv) (s : Executor) (items : List LocalItem) :
    replicationItems env s items = (committedItems env s items).filter (stillPrimary env) := by
  simp only [replicationItems, committedItems, List.filter_filter]
  refine List.filter_congr fun item _ => ?_
  simp only [replicatesHere, stillPrimary]
  rw [← Bool.decide_and]
  exact decide_eq_decide.mpr (by tauto)

/-- The lines of a batch that this node executes. -/
def executedItems (env : BatchEnv) (header : Bytes) (lines : List Bytes) (internal : Bool) :
    List LocalItem :=
  (routeLines env internal (contains (toUpper header) (bs "QUORUM")) 0 lines {}).localItems

/-! ## Stored records -/

/-- What was added to the outbox holds the records of the items, each as often as it is due. -/
def Stored (c : Cluster) (before after : Replicator) (items : List ReplicationItem) : Prop :=
  ∃ added, after.outbox.records = before.outbox.records ++ added ∧ (recordsOf c items).Subperm added

/-- Nothing is lost by a filter that drops empty contributions only. -/
lemma flatMap_filter_eq_iff {α β : Type} (f : α → List β) (p : α → Bool) (l : List α) :
    l.flatMap f = (l.filter p).flatMap f ↔ ∀ a ∈ l, p a = false → f a = [] := by
  induction l with
  | nil => simp
  | cons a l ih =>
    rw [List.forall_mem_cons, List.flatMap_cons]
    cases hp : p a with
    | true =>
      rw [List.filter_cons_of_pos hp, List.flatMap_cons, List.append_cancel_left_eq, ih]
      simp
    | false =>
      rw [List.filter_cons_of_neg (by simp [hp]), ← ih]
      have hle : ((l.filter p).flatMap f).length ≤ (l.flatMap f).length :=
        (List.filter_sublist.flatMap f).length_le
      constructor
      · intro h
        have hnil : f a = [] := by
          have hlen := congrArg List.length h
          rw [List.length_append] at hlen
          exact List.length_eq_zero_iff.mp (by omega)
        exact ⟨fun _ => hnil, by rwa [hnil, List.nil_append] at h⟩
      · rintro ⟨hnil, h⟩
        rw [hnil rfl, List.nil_append, h]

/-- A replication that runs through some of the items stores all of them exactly when the others
have no replica node and nothing deliverable is left out. -/
lemma stored_iff {c : Cluster} {w : Weather} {before after : Replicator}
    {items replicated : List ReplicationItem} (hsub : replicated.Sublist items)
    (h : after.outbox.records =
      before.outbox.records ++ recordsOf c (reached c w 0 replicated)) :
    Stored c before after items ↔
      recordsOf c items = recordsOf c replicated ∧ Deliverable c w 0 replicated := by
  have hpre := recordsOf_reached_prefix c w 0 replicated
  have hrecords : (recordsOf c replicated).Sublist (recordsOf c items) := hsub.flatMap _
  rw [← reached_complete_iff]
  constructor
  · rintro ⟨added, hadded, hperm⟩
    obtain rfl : _ = added := List.append_cancel_left (h.symm.trans hadded)
    have hlen := hperm.length_le
    have hreplicated := hpre.eq_of_length_le (hrecords.length_le.trans hlen)
    refine ⟨(hrecords.eq_of_length_le ?_).symm, hreplicated⟩
    rwa [hreplicated] at hlen
  · rintro ⟨hitems, hreplicated⟩
    exact ⟨_, h, by rw [hreplicated, hitems]⟩

section Fair

/-- A single mutation is stored exactly when its quorum does not lack nodes. -/
theorem executeLocal_stored_iff {w : Weather} (hw : w.Fair) (c : Cluster) (now : Int64)
    (commit : Option Bytes) (s : ServerState) (line : Bytes) (q : Query) :
    Stored c s.replicator (executeLocal c w now commit s line q).1.replicator
        (committedMutation now commit s line q) ↔
      Deliverable c w 0 (committedMutation now commit s line q) := by
  have hnone : ∀ after : ServerState, after.replicator = s.replicator →
      (Stored c s.replicator after.replicator [] ↔ Deliverable c w 0 []) := by
    intro after hafter
    refine (stored_iff (w := w) (List.Sublist.refl []) ?_).trans (by simp)
    rw [hafter]
    exact (List.append_nil _).symm
  rw [executeLocal, committedMutation]
  rcases executeMutation now s.exec q with ⟨exec, _ | result⟩
  · exact hnone _ rfl
  · cases commit with
    | some msg => exact hnone _ rfl
    | none =>
      simp only [true_and]
      split_ifs with happlied
      · refine (stored_iff (w := w) (List.Sublist.refl _) ?_).trans (and_iff_right rfl)
        rw [← replicateWrite_fair hw]
        split <;> rename_i heq <;> rw [heq]
      · exact hnone _ rfl

/-- When a batch leaves everything it committed in the outbox: this node replicates all committed
lines that have replica nodes, and no quorum line fails with a record still to be written. -/
def BatchDeliverable (env : BatchEnv) (s : Executor) (items : List LocalItem) : Prop :=
  (∀ item ∈ committedItems env s items, stillPrimary env item = false →
    env.replicating.getReplicaNodes item.query.metric = []) ∧
  Deliverable env.replicating env.weather 0 ((replicationItems env s items).map replicationItem)

/-- The part of a batch that this node executes. -/
lemma runLocal_stored_iff {env : BatchEnv} (hw : env.weather.Fair) (s : ServerState)
    (items : List LocalItem) (r : BatchReply) :
    Stored env.replicating s.replicator (runLocal env s items r).1.replicator
        ((committedItems env s.exec items).map replicationItem) ↔
      BatchDeliverable env s.exec items := by
  have hafter : (runLocal env s items r).1.replicator.outbox.records =
      s.replicator.outbox.records ++ recordsOf env.replicating
        (reached env.replicating env.weather 0
        ((replicationItems env s.exec items).map replicationItem)) := by
    rw [runLocal]
    split_ifs with hnil
    · subst hnil
      exact (List.append_nil _).symm
    · exact replicateBatch_fair hw _ _
  have hsub : ((replicationItems env s.exec items).map replicationItem).Sublist
      ((committedItems env s.exec items).map replicationItem) := by
    rw [replicationItems_eq]
    exact List.filter_sublist.map _
  rw [stored_iff hsub hafter, BatchDeliverable]
  refine and_congr_left fun _ => ?_
  rw [replicationItems_eq]
  simp only [recordsOf, List.flatMap_map]
  rw [flatMap_filter_eq_iff]
  simp [replicationItem]

/-- Every committed item of a batch reaches the outbox just when the batch is deliverable. -/
theorem handleWriteBatch_stored_iff {env : BatchEnv} (hw : env.weather.Fair) (s : ServerState)
    (header : Bytes) (lines : List Bytes) (internal : Bool) :
    Stored env.replicating s.replicator
        (handleWriteBatch env s header lines internal).1.replicator
        ((committedItems env s.exec (executedItems env header lines internal)).map
          replicationItem) ↔
      BatchDeliverable env s.exec (executedItems env header lines internal) :=
  runLocal_stored_iff hw s _ _

end Fair

/-- Two nodes, of which this one is the primary of every metric. -/
def twoNodes (replicationFactor : ℕ) : Cluster where
  self := ⟨bs "a", []⟩
  replicationFactor := replicationFactor
  ring _ n := [⟨bs "a", []⟩, ⟨bs "b", []⟩].take n

/-- Outbox writes succeed, the node stays up and every quorum is reached. -/
def calm : Weather := ⟨fun _ => none, fun _ => false, fun _ => .acknowledged⟩

lemma calm_fair : calm.Fair := ⟨fun _ => rfl, fun _ => rfl, fun _ => by simp [calm]⟩

/-- An environment without failures. -/
def calmEnv (c : Cluster) : BatchEnv where
  now _ := 0
  cluster _ := c
  operationID _ := bs "op"
  send _ _ := .garbled
  clock _ := 1
  commit := none
  later _ := c
  replicating := c
  weather := calm

def quorumBody : List Bytes := [bs "WRITE m 1 QUORUM", bs "WRITE n 2 lb=p"]

def shortWrite : Query where
  type := .write
  metric := bs "m"
  value := (parseFloat (bs "1")).getD Float64.zero
  quorum := true

end FlameDB
