import FlameDB.Cluster.Outbox

/-!
# Routing and replication

The ring names the nodes of a metric: the first is its primary, all others but this node are the
replicas a mutation is sent to.  Before a mutation is answered its replica lines are written to the
outbox, from where workers deliver them; a quorum mutation waits for acknowledgements on top.

What the outside decides is a `Weather`: errors of outbox writes and the shutdown of the node, read
at a running count of such events, and the end of the wait for each item of a batch.
-/

namespace FlameDB

open Go

/-- What a node knows of the cluster.  `ring metric n` is `Ring.GetN`: up to `n` nodes for a
metric. -/
structure Cluster where
  self : Node
  replicationFactor : ℕ
  ring : Bytes → ℕ → List Node

/-- Where a metric lives. -/
structure RouteInfo where
  nodes : List Node
  primary : Option Node
  replicas : List Node
  isLocal : Bool
  isPrimary : Bool

namespace Cluster

/-- The route of a metric on the present ring. -/
def getRoute (c : Cluster) (metric : Bytes) : RouteInfo :=
  let nodes := c.ring metric c.replicationFactor
  { nodes := nodes
    primary := nodes.head?
    replicas := nodes.filter fun node => node.id ≠ c.self.id
    isLocal := nodes.any fun node => node.id = c.self.id
    isPrimary := nodes.head?.any fun node => node.id = c.self.id }

def getReplicaNodes (c : Cluster) (metric : Bytes) : List Node := (c.getRoute metric).replicas

def getWriteNode (c : Cluster) (metric : Bytes) : Option Node :=
  (c.getRoute metric).nodes.find? fun node => node.id ≠ c.self.id

/-- A node without an id stands for no primary. -/
def getPrimaryNode (c : Cluster) (metric : Bytes) : Option Node :=
  (c.getRoute metric).primary.filter fun node => node.id ≠ []

def isPrimaryFor (c : Cluster) (metric : Bytes) : Bool := (c.getRoute metric).isPrimary

def isLocal (c : Cluster) (metric : Bytes) : Bool := (c.getRoute metric).isLocal

end Cluster

/-! ## Replicating -/

/-- A committed mutation on its way to the replicas. -/
structure ReplicationItem where
  metric : Bytes
  query : Bytes
  quorum : Bool
  deriving DecidableEq

/-- How the wait for a quorum ends. -/
inductive QuorumWait where
  | acknowledged | timeout | closed
  deriving DecidableEq

/-- What the outside does: the error of an outbox write and whether the node is shutting down, by
event; the end of the wait for an item, by its position. -/
structure Weather where
  put : ℕ → Option Bytes
  closed : ℕ → Bool
  wait : ℕ → QuorumWait

/-- The replication state: the outbox and the number of outside events so far. -/
structure Replicator where
  outbox : OutboxState := .new 0
  events : ℕ := 0

def errServerBusy : Bytes := bs "server busy"

def notEnoughNodes : Bytes := bs "not enough available nodes for configured quorum"

def quorumTimeout : Bytes := bs "quorum timeout (outcome unknown; delivery remains pending)"

/-- Fewer replica nodes than a quorum needs. -/
def Short (c : Cluster) (item : ReplicationItem) : Prop :=
  (c.getReplicaNodes item.metric).length < c.replicationFactor / 2

instance (c : Cluster) (item : ReplicationItem) : Decidable (Short c item) :=
  inferInstanceAs (Decidable (_ < _))

section Replicate

variable (c : Cluster) (w : Weather)

/-- A look at the shutdown signal: `waitRecovery`, and each send to a fanout queue. -/
def checkOpen (s : Replicator) : Replicator × Option Bytes :=
  ({ s with events := s.events + 1 }, if w.closed s.events then some errServerBusy else none)

/-- `putBatch`, which uses up its numbers even if it fails. -/
def putRecords (s : Replicator) (records : List ReplicationRecord) : Replicator × Option Bytes :=
  let error := w.put s.events
  (⟨s.outbox.putBatch records error.isNone, s.events + 1⟩, error)

/-- One send to a fanout queue per metric, until the node shuts down. -/
def enqueueFanouts : List Bytes → Replicator → Replicator × Option Bytes
  | [], s => (s, none)
  | _ :: rest, s =>
      match checkOpen w s with
      | (s, some err) => (s, some err)
      | (s, none) => enqueueFanouts rest s

/-- The records of some items: one per replica node. -/
def recordsOf (items : List ReplicationItem) : List ReplicationRecord :=
  items.flatMap fun item => (c.getReplicaNodes item.metric).map fun node =>
    { node := node, query := item.query }

/-- Stores the records of all items and returns without waiting for a replica. -/
def replicateAsyncBatch (s : Replicator) (items : List ReplicationItem) :
    Replicator × Option Bytes :=
  let records := recordsOf c items
  if records = [] then (s, none)
  else
    match putRecords w s records with
    | (s, some err) => (s, some err)
    | (s, none) =>
        let metrics := (items.filter fun item => c.getReplicaNodes item.metric ≠ []).map (·.metric)
        enqueueFanouts w metrics.dedup s

/-- `ReplicateQuorum` after its `waitRecovery`. -/
def replicateQuorumItem (s : Replicator) (item : ReplicationItem) (outcome : QuorumWait) :
    Replicator × Option Bytes :=
  if Short c item then (s, some notEnoughNodes)
  else if c.replicationFactor / 2 = 0 then replicateAsyncBatch c w s [item]
  else
    match putRecords w s (recordsOf c [item]) with
    | (s, some err) => (s, some err)
    | (s, none) =>
        match checkOpen w s with
        | (s, some err) => (s, some err)
        | (s, none) =>
            (s, match outcome with
              | .acknowledged => none
              | .timeout => some quorumTimeout
              | .closed => some errServerBusy)

/-- Stores the records of one item and waits for a quorum. -/
def replicateQuorum (s : Replicator) (item : ReplicationItem) (outcome : QuorumWait) :
    Replicator × Option Bytes :=
  match checkOpen w s with
  | (s, some err) => (s, some err)
  | (s, none) => replicateQuorumItem c w s item outcome

/-- The loop of `ReplicateBatch` from position `i` on; `pending` are the items since the last quorum
item. -/
def replicateItems : ℕ → List ReplicationItem → List ReplicationItem → Replicator →
    Replicator × Option Bytes
  | _, pending, [], s => replicateAsyncBatch c w s pending
  | i, pending, item :: rest, s =>
      if !item.quorum then replicateItems (i + 1) (pending ++ [item]) rest s
      else
        match replicateAsyncBatch c w s pending with
        | (s, some err) => (s, some err)
        | (s, none) =>
            match replicateQuorum c w s item (w.wait i) with
            | (s, some err) => (s, some err)
            | (s, none) => replicateItems (i + 1) [] rest s

/-- Replicates items in order, up to the first failure. -/
def replicateBatch (s : Replicator) (items : List ReplicationItem) : Replicator × Option Bytes :=
  match checkOpen w s with
  | (s, some err) => (s, some err)
  | (s, none) => replicateItems c w 0 [] items s

/-- `ReplicateWrite`; without a quorum it is a batch of one. -/
def replicateWrite (s : Replicator) (metric query : Bytes) (quorum : Bool) :
    Replicator × Option Bytes :=
  if quorum then replicateQuorum c w s ⟨metric, query, true⟩ (w.wait 0)
  else replicateBatch c w s [⟨metric, query, false⟩]

end Replicate

/-! ## What reaches the outbox

In fair weather outbox writes succeed and the node is not shutting down; only waits may time out. -/

/-- Nothing fails but the quorum. -/
structure Weather.Fair (w : Weather) : Prop where
  put : ∀ n, w.put n = none
  closed : ∀ n, w.closed n = false
  wait : ∀ i, w.wait i ≠ .closed

section Fair

variable {c : Cluster} {w : Weather}

/-- A quorum item that ends its batch: too few replica nodes, or no acknowledgement in time. -/
def QuorumFails (c : Cluster) (w : Weather) (i : ℕ) (item : ReplicationItem) : Prop :=
  item.quorum = true ∧
    (Short c item ∨ (c.replicationFactor / 2 ≠ 0 ∧ w.wait i = .timeout))

instance (c : Cluster) (w : Weather) (i : ℕ) (item : ReplicationItem) :
    Decidable (QuorumFails c w i item) := inferInstanceAs (Decidable (_ ∧ _))

/-- The items whose records are written: up to the first quorum item that fails, and that one too
unless it lacks nodes. -/
def reached (c : Cluster) (w : Weather) : ℕ → List ReplicationItem → List ReplicationItem
  | _, [] => []
  | i, item :: rest =>
      if QuorumFails c w i item then if Short c item then [] else [item]
      else item :: reached c w (i + 1) rest

variable (hw : w.Fair)

include hw

lemma checkOpen_fair (s : Replicator) :
    checkOpen w s = ({ s with events := s.events + 1 }, none) := by
  simp [checkOpen, hw.closed]

lemma putRecords_fair (s : Replicator) (records : List ReplicationRecord) :
    putRecords w s records = (⟨s.outbox.putBatch records true, s.events + 1⟩, none) := by
  simp [putRecords, hw.put]

lemma enqueueFanouts_fair (metrics : List Bytes) (s : Replicator) :
    (enqueueFanouts w metrics s).1.outbox = s.outbox ∧ (enqueueFanouts w metrics s).2 = none := by
  induction metrics generalizing s with
  | nil => exact ⟨rfl, rfl⟩
  | cons m rest ih =>
    rw [enqueueFanouts, checkOpen_fair hw]
    exact ih _

lemma replicateAsyncBatch_fair (s : Replicator) (items : List ReplicationItem) :
    (replicateAsyncBatch c w s items).1.outbox.records =
      s.outbox.records ++ recordsOf c items ∧ (replicateAsyncBatch c w s items).2 = none := by
  rw [replicateAsyncBatch]
  split_ifs with hnil
  · exact ⟨by rw [hnil, List.append_nil], rfl⟩
  · rw [putRecords_fair hw]
    have henq := enqueueFanouts_fair hw
    exact ⟨by rw [(henq _ _).1, OutboxState.records_putBatch], (henq _ _).2⟩

/-- A quorum item is stored unless it lacks nodes, and reports exactly its failure. -/
lemma replicateQuorum_fair (s : Replicator) (item : ReplicationItem) (hq : item.quorum = true)
    (i : ℕ) : (replicateQuorum c w s item (w.wait i)).1.outbox.records =
        s.outbox.records ++ (if Short c item then [] else recordsOf c [item]) ∧
      ((replicateQuorum c w s item (w.wait i)).2 = none ↔ ¬ QuorumFails c w i item) := by
  rw [replicateQuorum, checkOpen_fair hw]
  show (replicateQuorumItem c w _ item _).1.outbox.records = _ ∧
    ((replicateQuorumItem c w _ item _).2 = none ↔ _)
  simp only [replicateQuorumItem, QuorumFails, hq, true_and]
  split_ifs with hshort hneeded
  · simp [hshort]
  · obtain ⟨hentries, hnone⟩ := replicateAsyncBatch_fair (c := c) hw
      { s with events := s.events + 1 } [item]
    exact ⟨hentries, by simp [hnone, hneeded, hshort]⟩
  · have hclosed := hw.wait i
    simp only [putRecords_fair hw, checkOpen_fair hw, OutboxState.records_putBatch, true_and]
    cases hwait : w.wait i <;> simp_all

/-- The loop stores the records of every item up to the first failed quorum. -/
lemma replicateItems_fair (i : ℕ) (pending items : List ReplicationItem) (s : Replicator) :
    (replicateItems c w i pending items s).1.outbox.records =
      s.outbox.records ++ recordsOf c (pending ++ reached c w i items) := by
  induction items generalizing i pending s with
  | nil =>
    rw [replicateItems, reached, List.append_nil]
    exact (replicateAsyncBatch_fair hw s pending).1
  | cons item rest ih =>
    rw [replicateItems, reached]
    cases hq : item.quorum with
    | false =>
      have hok : ¬ QuorumFails c w i item := fun hfail => by simp [hfail.1] at hq
      rw [if_neg hok]
      simp only [Bool.not_false, if_true]
      rw [ih, List.append_assoc, List.singleton_append]
    | true =>
      simp only [Bool.not_true, Bool.false_eq_true, if_false]
      have hasync := replicateAsyncBatch_fair (c := c) hw s pending
      rcases ha : replicateAsyncBatch c w s pending with ⟨s₁, e₁⟩
      simp only [ha] at hasync ⊢
      obtain ⟨hentries, rfl⟩ := hasync
      have hquorum := replicateQuorum_fair (c := c) hw s₁ item hq i
      rcases hr : replicateQuorum c w s₁ item (w.wait i) with ⟨s₂, e₂⟩
      simp only [hr] at hquorum ⊢
      obtain ⟨hentries', hfails⟩ := hquorum
      cases e₂ with
      | none =>
        rw [if_neg (hfails.mp rfl)]
        have hshort : ¬ Short c item := fun h => hfails.mp rfl ⟨hq, Or.inl h⟩
        show (replicateItems c w (i + 1) [] rest s₂).1.outbox.records = _
        rw [ih, hentries', hentries, if_neg hshort]
        simp [recordsOf]
      | some err =>
        have hfail : QuorumFails c w i item := by
          by_contra hok
          exact absurd (hfails.mpr hok) (by simp)
        rw [if_pos hfail]
        show s₂.outbox.records = _
        rw [hentries', hentries]
        split_ifs <;> simp [recordsOf]

/-- **What a batch leaves in the outbox**: the records of the items it reaches. -/
theorem replicateBatch_fair (s : Replicator) (items : List ReplicationItem) :
    (replicateBatch c w s items).1.outbox.records =
      s.outbox.records ++ recordsOf c (reached c w 0 items) := by
  rw [replicateBatch, checkOpen_fair hw]
  exact replicateItems_fair hw 0 [] items _

/-- A single write leaves what a batch of one leaves. -/
theorem replicateWrite_fair (s : Replicator) (metric query : Bytes) (quorum : Bool) :
    (replicateWrite c w s metric query quorum).1.outbox.records =
      s.outbox.records ++ recordsOf c (reached c w 0 [⟨metric, query, quorum⟩]) := by
  cases quorum with
  | false => exact replicateBatch_fair hw s _
  | true =>
    obtain ⟨hentries, hfails⟩ := replicateQuorum_fair (c := c) hw s ⟨metric, query, true⟩ rfl 0
    rw [replicateWrite, if_pos rfl, hentries, reached, reached]
    split_ifs with hshort hfail hfail
    · rfl
    · exact absurd ⟨rfl, Or.inl hshort⟩ hfail
    · rfl
    · rfl

end Fair

/-- Every quorum item that fails does so without leaving out a record: it has no replica node if it
lacks nodes, and neither has any item after it. -/
def Deliverable (c : Cluster) (w : Weather) (i : ℕ) (items : List ReplicationItem) : Prop :=
  ∀ before item later, items = before ++ item :: later → QuorumFails c w (i + before.length) item →
    (Short c item → c.getReplicaNodes item.metric = []) ∧
      ∀ x ∈ later, c.getReplicaNodes x.metric = []

lemma recordsOf_cons (c : Cluster) (item : ReplicationItem) (items : List ReplicationItem) :
    recordsOf c (item :: items) = recordsOf c [item] ++ recordsOf c items := by
  simp [recordsOf]

lemma recordsOf_eq_nil {c : Cluster} {items : List ReplicationItem} :
    recordsOf c items = [] ↔ ∀ x ∈ items, c.getReplicaNodes x.metric = [] := by
  simp [recordsOf]

lemma deliverable_cons {c : Cluster} {w : Weather} {i : ℕ} {item : ReplicationItem}
    {rest : List ReplicationItem} : Deliverable c w i (item :: rest) ↔
      (QuorumFails c w i item → (Short c item → c.getReplicaNodes item.metric = []) ∧
        ∀ x ∈ rest, c.getReplicaNodes x.metric = []) ∧ Deliverable c w (i + 1) rest := by
  constructor
  · intro h
    refine ⟨fun hfail => h [] item rest rfl hfail, ?_⟩
    rintro before x later rfl hfail
    exact h (item :: before) x later rfl
      (by rwa [List.length_cons, ← Nat.add_assoc, Nat.add_right_comm])
  · rintro ⟨hfirst, hrest⟩ before x later heq hfail
    cases before with
    | nil =>
      obtain ⟨rfl, rfl⟩ := List.cons_eq_cons.mp heq
      exact hfirst hfail
    | cons y before =>
      obtain ⟨rfl, rfl⟩ := List.cons_eq_cons.mp heq
      refine hrest before x later rfl ?_
      rwa [List.length_cons, ← Nat.add_assoc, Nat.add_right_comm] at hfail

instance decidableDeliverable (c : Cluster) (w : Weather) :
    (i : ℕ) → (items : List ReplicationItem) → Decidable (Deliverable c w i items)
  | _, [] => .isTrue fun before item later heq => by simp at heq
  | i, _ :: rest =>
      haveI := decidableDeliverable c w (i + 1) rest
      decidable_of_iff' _ deliverable_cons

lemma deliverable_of_no_replicas {c : Cluster} {w : Weather} {i : ℕ} {items : List ReplicationItem}
    (h : ∀ x ∈ items, c.getReplicaNodes x.metric = []) : Deliverable c w i items := by
  rintro before item later rfl -
  exact ⟨fun _ => h item (by simp), fun x hx => h x (by simp [hx])⟩

/-- What reaches the outbox is the front of the batch. -/
lemma recordsOf_reached_prefix (c : Cluster) (w : Weather) (i : ℕ) (items : List ReplicationItem) :
    recordsOf c (reached c w i items) <+: recordsOf c items := by
  induction items generalizing i with
  | nil => exact List.prefix_rfl
  | cons item rest ih =>
    rw [reached, recordsOf_cons c item rest]
    split_ifs
    · exact List.nil_prefix
    · exact List.prefix_append _ _
    · rw [recordsOf_cons]
      exact (List.prefix_append_right_inj _).mpr (ih (i + 1))

/-- All records are among those of the reached items exactly when nothing deliverable is left
out. -/
theorem reached_complete_iff (c : Cluster) (w : Weather) (i : ℕ) (items : List ReplicationItem) :
    recordsOf c (reached c w i items) = recordsOf c items ↔ Deliverable c w i items := by
  induction items generalizing i with
  | nil => exact iff_of_true rfl fun before item later heq => by simp at heq
  | cons item rest ih =>
    rw [reached, deliverable_cons]
    split_ifs with hfail hshort
    · rw [show recordsOf c [] = [] from rfl, eq_comm, recordsOf_eq_nil, List.forall_mem_cons]
      constructor
      · rintro ⟨hitem, hrest⟩
        exact ⟨fun _ => ⟨fun _ => hitem, hrest⟩, deliverable_of_no_replicas hrest⟩
      · rintro ⟨hfirst, -⟩
        exact ⟨(hfirst hfail).1 hshort, (hfirst hfail).2⟩
    · rw [recordsOf_cons c item rest, List.self_eq_append_right, recordsOf_eq_nil]
      constructor
      · intro hrest
        exact ⟨fun _ => ⟨fun h => absurd h hshort, hrest⟩, deliverable_of_no_replicas hrest⟩
      · rintro ⟨hfirst, -⟩
        exact (hfirst hfail).2
    · rw [recordsOf_cons, recordsOf_cons c item rest, List.append_cancel_left_eq, ih]
      simp [hfail]

end FlameDB
