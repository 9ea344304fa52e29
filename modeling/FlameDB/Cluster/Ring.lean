import FlameDB.Go.Search
import FlameDB.Cluster.Replication
import FlameDB.KV.OrdMap

/-!
# The hash ring

Every node stands on the ring under the hashes of its labels `id:0`, `id:1`, …; the owner of a
metric is the first node at or after the hash of the metric, and its replicas are the next other
nodes.

The labels name the nodes they belong to, so as long as the hash keeps the labels apart, the ring is
a function of the nodes that are live.  `Ring.Holds` says which function: an entry for each label of
a live node and the sorted list of their hashes.  `Add` and `Remove` keep it, whatever the history.

* `Ring.Holds`, `holds_run` — the ring after any history stands for the live nodes.
* `get_eq_circle`, `getN_spec` — owner and replica list are read off one walk around the circle.
* **`ring_agreement`** — histories with the same live nodes route alike, a route has as many nodes
  as there are, and a change of one node moves only the metrics of that node.
-/

namespace FlameDB

open Go KV

/-- The virtual nodes by hash, the sorted hashes, and the number of virtual nodes of a node. -/
structure Ring where
  nodes : OrdMap ℕ Node := ∅
  keys : List ℕ := []
  replicas : ℤ

/-- The first eight bytes of the digest. -/
def hashKey (sha256 : Bytes → Bytes) (key : Bytes) : ℕ := beNat ((sha256 key).take 8)

/-- The label of a virtual node. -/
def nodeLabel (id : Bytes) (i : ℕ) : Bytes := id ++ colon :: formatNat i

namespace Ring

/-- A missing hash reads as the zero node. -/
def nodeAt (r : Ring) (hash : ℕ) : Node := (r.nodes.get? hash).getD ⟨[], []⟩

section Operations

variable (sha256 : Bytes → Bytes)

/-- One virtual node. -/
def addVirtual (node : Node) (r : Ring) (i : ℕ) : Ring :=
  let hash := hashKey sha256 (nodeLabel node.id i)
  { r with nodes := r.nodes.set hash node, keys := r.keys ++ [hash] }

/-- Adds a node with all its virtual nodes, unless its id is on the ring. -/
def add (r : Ring) (node : Node) : Ring :=
  if r.nodes.entries.any fun entry => entry.2.id = node.id then r
  else
    let r := (List.range r.replicas.toNat).foldl (addVirtual sha256 node) r
    { r with keys := r.keys.insertionSort (· ≤ ·) }

/-- Removes the virtual nodes of a node by their labels. -/
def remove (r : Ring) (nodeID : Bytes) : Ring :=
  let nodes := (List.range r.replicas.toNat).foldl
    (fun nodes i => nodes.erase (hashKey sha256 (nodeLabel nodeID i))) r.nodes
  { r with nodes := nodes, keys := (nodes.entries.map Prod.fst).insertionSort (· ≤ ·) }

/-- The index of the first hash from the hash of the metric on, with the wrap around. -/
def start (r : Ring) (metric : Bytes) : ℕ :=
  let idx := search r.keys.length fun i => hashKey sha256 metric ≤ r.keys.getD i 0
  if r.keys.length ≤ idx then 0 else idx

/-- The node at a step of the walk from `idx`. -/
def visit (r : Ring) (idx i : ℕ) : Node := r.nodeAt (r.keys.getD ((idx + i) % r.keys.length) 0)

/-- The loop of `GetN` over the positions that are left. -/
def getNLoop (r : Ring) (n idx : ℕ) : List ℕ → List Bytes → List Node → List Node
  | [], _, nodes => nodes
  | i :: rest, seen, nodes =>
      let node := r.visit idx i
      let seen' := if node.id ∈ seen then seen else seen ++ [node.id]
      let nodes' := if node.id ∈ seen then nodes else nodes ++ [node]
      if n ≤ nodes'.length then nodes' else getNLoop r n idx rest seen' nodes'

/-- The first `n` nodes on the circle behind a metric. -/
def getN (r : Ring) (metric : Bytes) (n : ℤ) : List Node :=
  if r.keys = [] ∨ n ≤ 0 then []
  else getNLoop r n.toNat (r.start sha256 metric) (List.range r.keys.length) [] []

/-- The node behind a metric. -/
def get (r : Ring) (metric : Bytes) : Option Node :=
  if r.keys = [] then none else some (r.nodeAt (r.keys.getD (r.start sha256 metric) 0))

end Operations

end Ring

/-! ## Histories -/

/-- A change of membership. -/
inductive RingOp where
  | add (node : Node)
  | remove (nodeID : Bytes)
  deriving DecidableEq

def RingOp.nodeID : RingOp → Bytes
  | add node => node.id
  | remove nodeID => nodeID

/-- One change of membership. -/
def Ring.apply (sha256 : Bytes → Bytes) (r : Ring) : RingOp → Ring
  | .add node => r.add sha256 node
  | .remove nodeID => r.remove sha256 nodeID

/-- The ring after a history of calls, from `NewRing` on. -/
def Ring.run (sha256 : Bytes → Bytes) (replicas : ℤ) (ops : List RingOp) : Ring :=
  ops.foldl (Ring.apply sha256) { replicas := replicas }

/-- What a call does to the live nodes: the first address of an id stays until the id is removed. -/
def liveStep (live : OrdMap Bytes Bytes) : RingOp → OrdMap Bytes Bytes
  | .add node => if (live.get? node.id).isSome then live else live.set node.id node.addr
  | .remove nodeID => live.erase nodeID

/-- The live nodes after a history, address by id. -/
def liveNodes (ops : List RingOp) : OrdMap Bytes Bytes := ops.foldl liveStep ∅

lemma liveNodes_append (ops : List RingOp) (op : RingOp) :
    liveNodes (ops ++ [op]) = liveStep (liveNodes ops) op := by
  rw [liveNodes, List.foldl_append]
  rfl

/-- The hash keeps the labels of the given ids apart. -/
def NoCollisions (sha256 : Bytes → Bytes) (replicas : ℤ) (ids : List Bytes) : Prop :=
  ∀ id ∈ ids, ∀ id' ∈ ids, ∀ i < replicas.toNat, ∀ i' < replicas.toNat,
    hashKey sha256 (nodeLabel id i) = hashKey sha256 (nodeLabel id' i') →
      nodeLabel id i = nodeLabel id' i'

instance (sha256 : Bytes → Bytes) (replicas : ℤ) (ids : List Bytes) :
    Decidable (NoCollisions sha256 replicas ids) := by
  unfold NoCollisions
  infer_instance

/-- A label names its node and its number. -/
lemma nodeLabel_inj {id id' : Bytes} {i i' : ℕ} (h : nodeLabel id i = nodeLabel id' i') :
    id = id' ∧ i = i' := by
  have hno : ∀ n, colon ∉ (formatNat n).reverse := by
    intro n hmem
    have := isDigit_of_mem_formatNat (List.mem_reverse.mp hmem)
    exact absurd this (by decide)
  have hrev := congrArg List.reverse h
  simp only [nodeLabel, List.reverse_append, List.reverse_cons, List.append_assoc,
    List.singleton_append] at hrev
  obtain ⟨hi, hid⟩ := append_cons_inj (hno i) (hno i') hrev
  refine ⟨List.reverse_injective hid, ?_⟩
  rw [← decimalValue_formatNat i, ← decimalValue_formatNat i', List.reverse_injective hi]

lemma NoCollisions.inj {sha256 : Bytes → Bytes} {replicas : ℤ} {ids : List Bytes}
    (h : NoCollisions sha256 replicas ids) {id id' : Bytes} (hid : id ∈ ids) (hid' : id' ∈ ids)
    {i i' : ℕ} (hi : i < replicas.toNat) (hi' : i' < replicas.toNat)
    (heq : hashKey sha256 (nodeLabel id i) = hashKey sha256 (nodeLabel id' i')) :
    id = id' ∧ i = i' :=
  nodeLabel_inj (h id hid id' hid' i hi i' hi' heq)

/-! ## The ring stands for the live nodes

Whatever the history, the keys are the sorted hashes of the virtual nodes that are in, as long as no
two of them collide. -/

/-- The ring has an entry for each label of a live node, and the list of their hashes. -/
structure Ring.Holds (sha256 : Bytes → Bytes) (r : Ring) (live : OrdMap Bytes Bytes) : Prop where
  nodes : ∀ hash node, r.nodes.get? hash = some node ↔
    live.get? node.id = some node.addr ∧
      ∃ i < r.replicas.toNat, hashKey sha256 (nodeLabel node.id i) = hash
  keys : r.keys = r.nodes.entries.map Prod.fst

namespace Ring

variable {sha256 : Bytes → Bytes}

/-- Two rings with the same number of virtual nodes that stand for the same nodes are equal. -/
lemma Holds.unique {r s : Ring} {live : OrdMap Bytes Bytes} (hr : r.Holds sha256 live)
    (hs : s.Holds sha256 live) (hrep : r.replicas = s.replicas) : r = s := by
  have hnodes : r.nodes = s.nodes := by
    refine OrdMap.ext_get fun hash => Option.ext fun node => ?_
    rw [hr.nodes, hs.nodes, hrep]
  have hkeys : r.keys = s.keys := by rw [hr.keys, hs.keys, hnodes]
  cases r
  cases s
  simp_all

lemma Holds.keys_sorted {r : Ring} {live : OrdMap Bytes Bytes} (h : r.Holds sha256 live) :
    r.keys.Pairwise (· < ·) := by
  rw [h.keys]
  exact List.pairwise_map.mpr r.nodes.sorted

lemma Holds.mem_keys_iff {r : Ring} {live : OrdMap Bytes Bytes} (h : r.Holds sha256 live)
    (hash : ℕ) : hash ∈ r.keys ↔ ∃ node, r.nodes.get? hash = some node := by
  rw [h.keys, OrdMap.mem_keys_iff, Option.isSome_iff_exists]

lemma nodeAt_of_get? {r : Ring} {hash : ℕ} {node : Node} (h : r.nodes.get? hash = some node) :
    r.nodeAt hash = node := by
  rw [nodeAt, h]
  rfl

/-- The loop of `Add` in one piece. -/
lemma foldl_addVirtual (node : Node) (is : List ℕ) (r : Ring) :
    is.foldl (addVirtual sha256 node) r =
      { r with
        nodes := is.foldl (fun nodes i => nodes.set (hashKey sha256 (nodeLabel node.id i)) node)
          r.nodes
        keys := r.keys ++ is.map fun i => hashKey sha256 (nodeLabel node.id i) } := by
  induction is generalizing r with
  | nil => simp
  | cons i is ih =>
      rw [List.foldl_cons, ih]
      simp [addVirtual]

@[simp] lemma replicas_add (r : Ring) (node : Node) :
    (r.add sha256 node).replicas = r.replicas := by
  unfold add
  split_ifs
  · rfl
  · simp only [foldl_addVirtual]

/-- Sorting a list without repetitions gives the only sorted list with its members. -/
lemma insertionSort_eq_of_mem {l l' : List ℕ} (hl : l.Nodup) (hl' : l'.Pairwise (· < ·))
    (h : ∀ k, k ∈ l ↔ k ∈ l') : l.insertionSort (· ≤ ·) = l' := by
  have hperm : (l.insertionSort (· ≤ ·)).Perm l' :=
    (List.perm_insertionSort _ _).trans
      ((List.perm_ext_iff_of_nodup hl (hl'.imp fun hlt => ne_of_lt hlt)).mpr h)
  exact hperm.eq_of_pairwise (fun _ _ _ _ => le_antisymm) (List.pairwise_insertionSort _ _)
    (hl'.imp fun hlt => hlt.le)

section Step

variable {r : Ring} {live : OrdMap Bytes Bytes} (h : r.Holds sha256 live) {ids : List Bytes}
  (hids : ∀ id, (live.get? id).isSome = true → id ∈ ids)
  (hcol : NoCollisions sha256 r.replicas ids)

include h

/-- A node found on the ring is live. -/
lemma Holds.live_of_any {id : Bytes}
    (hany : (r.nodes.entries.any fun entry => entry.2.id = id) = true) :
    (live.get? id).isSome = true := by
  simp only [List.any_eq_true, decide_eq_true_eq] at hany
  obtain ⟨⟨hash, node⟩, hmem, rfl⟩ := hany
  rw [((h.nodes hash node).mp ((OrdMap.mem_entries_iff _ _ _).mp hmem)).1]
  rfl

/-- With at least one virtual node a live node is found on the ring. -/
lemma Holds.any_of_live (hrep : 0 < r.replicas.toNat) {id : Bytes}
    (hlive : (live.get? id).isSome = true) :
    (r.nodes.entries.any fun entry => entry.2.id = id) = true := by
  obtain ⟨addr, haddr⟩ := Option.isSome_iff_exists.mp hlive
  simp only [List.any_eq_true, decide_eq_true_eq]
  exact ⟨(_, ⟨id, addr⟩), (OrdMap.mem_entries_iff _ _ _).mpr ((h.nodes _ ⟨id, addr⟩).mpr
    ⟨haddr, 0, hrep, rfl⟩), rfl⟩

/-- A ring without virtual nodes stays empty. -/
lemma Holds.of_no_replicas (hrep : r.replicas.toNat = 0) (live' : OrdMap Bytes Bytes) :
    r.Holds sha256 live' := by
  refine ⟨fun hash node => ?_, h.keys⟩
  rw [h.nodes, hrep]
  simp

include hids hcol

/-- `Add` of a node that is not live. -/
lemma Holds.add_new {node : Node} (hnew : live.get? node.id = none) (hid : node.id ∈ ids) :
    Holds sha256 { (List.range r.replicas.toNat).foldl (addVirtual sha256 node) r with
      keys := ((List.range r.replicas.toNat).foldl (addVirtual sha256 node) r).keys.insertionSort
        (· ≤ ·) } (live.set node.id node.addr) := by
  rw [foldl_addVirtual]
  have hget := fun hash => OrdMap.get?_foldl_set
    (fun i => hashKey sha256 (nodeLabel node.id i)) node (List.range r.replicas.toNat) r.nodes hash
  simp only [List.mem_range] at hget
  -- a label of the new node is not the label of a live one
  have hfresh : ∀ i < r.replicas.toNat,
      r.nodes.get? (hashKey sha256 (nodeLabel node.id i)) = none := by
    intro i hi
    rw [Option.eq_none_iff_forall_ne_some]
    intro other hother
    obtain ⟨hlive, j, hj, heq⟩ := (h.nodes _ other).mp hother
    have hoid := hids other.id (by rw [hlive]; rfl)
    rw [(hcol.inj hoid hid hj hi heq).1, hnew] at hlive
    cases hlive
  constructor
  · intro hash other
    show ((List.range r.replicas.toNat).foldl _ r.nodes).get? hash = some other ↔ _
    rw [hget, OrdMap.get?_set]
    split_ifs with hlab hsame hsame
    · constructor
      · rintro ⟨⟩
        exact ⟨rfl, hlab⟩
      · rintro ⟨haddr, -⟩
        obtain ⟨id, addr⟩ := other
        obtain ⟨id', addr'⟩ := node
        simp_all
    · obtain ⟨i, hi, rfl⟩ := hlab
      refine iff_of_false (fun heq => hsame (by rw [Option.some.inj heq])) ?_
      rintro ⟨hlive, j, hj, heq⟩
      have hoid := hids other.id (by rw [hlive]; rfl)
      exact hsame (hcol.inj hoid hid hj hi heq).1
    · refine iff_of_false (fun hold => ?_) (fun hnow => hlab (hsame ▸ hnow.2))
      have := ((h.nodes hash other).mp hold).1
      rw [hsame, hnew] at this
      cases this
    · exact h.nodes hash other
  · refine insertionSort_eq_of_mem ?_ (List.pairwise_map.mpr (OrdMap.sorted _)) ?_
    · refine List.Nodup.append ?_ ?_ ?_
      · exact h.keys_sorted.imp fun hlt => ne_of_lt hlt
      · refine List.Nodup.map_on ?_ List.nodup_range
        intro i hi j hj heq
        exact (hcol.inj hid hid (List.mem_range.mp hi) (List.mem_range.mp hj) heq).2
      · intro hash hold hnow
        obtain ⟨i, hi, rfl⟩ := List.mem_map.mp hnow
        obtain ⟨other, hother⟩ := (h.mem_keys_iff _).mp hold
        rw [hfresh i (List.mem_range.mp hi)] at hother
        cases hother
    · intro hash
      rw [OrdMap.mem_keys_iff, hget, List.mem_append, h.mem_keys_iff, List.mem_map]
      simp only [List.mem_range]
      split_ifs with hlab
      · exact iff_of_true (Or.inr hlab) rfl
      · rw [or_iff_left hlab, Option.isSome_iff_exists]

/-- **A call keeps the ring in step with the live nodes.** -/
lemma Holds.apply {op : RingOp} (hop : op.nodeID ∈ ids) :
    (r.apply sha256 op).Holds sha256 (liveStep live op) := by
  cases op with
  | add node =>
      show (r.add sha256 node).Holds sha256 _
      simp only [Ring.add, liveStep]
      split_ifs with hany hlive hlive
      · exact h
      · exact absurd (h.live_of_any hany) hlive
      · -- the node is live and not found: there are no virtual nodes at all
        have hzero : r.replicas.toNat = 0 := by
          by_contra hrep
          exact hany (h.any_of_live (Nat.pos_of_ne_zero hrep) hlive)
        refine ((h.of_no_replicas hzero ∅).add_new (by simp) hcol (by simp) hop).of_no_replicas ?_ _
        rw [foldl_addVirtual]
        exact hzero
      · exact h.add_new hids hcol (Option.not_isSome_iff_eq_none.mp hlive) hop
  | remove nodeID =>
      have hget := fun hash => OrdMap.get?_foldl_erase
        (fun i => hashKey sha256 (nodeLabel nodeID i)) (List.range r.replicas.toNat) r.nodes hash
      simp only [List.mem_range] at hget
      constructor
      · intro hash node
        show ((List.range r.replicas.toNat).foldl _ r.nodes).get? hash = some node ↔
          (live.erase nodeID).get? node.id = some node.addr ∧ _
        rw [hget, OrdMap.get?_erase]
        split_ifs with hlab hsame hsame
        · simp
        · obtain ⟨i, hi, rfl⟩ := hlab
          refine iff_of_false (by simp) ?_
          rintro ⟨hlive, j, hj, heq⟩
          have hoid := hids node.id (by rw [hlive]; rfl)
          exact hsame (hcol.inj hoid hop hj hi heq).1
        · refine iff_of_false (fun hold => ?_) (by simp)
          exact hlab (hsame ▸ ((h.nodes hash node).mp hold).2)
        · exact h.nodes hash node
      · have hsorted : ((r.remove sha256 nodeID).nodes.entries.map Prod.fst).Pairwise (· < ·) :=
          List.pairwise_map.mpr (OrdMap.sorted _)
        exact insertionSort_eq_of_mem (hsorted.imp fun hlt => ne_of_lt hlt) hsorted fun _ => Iff.rfl

end Step

/-- **The ring after a history stands for the live nodes.** -/
theorem holds_run {replicas : ℤ} {ops : List RingOp}
    (hcol : NoCollisions sha256 replicas (ops.map RingOp.nodeID)) :
    (run sha256 replicas ops).Holds sha256 (liveNodes ops) ∧
      (run sha256 replicas ops).replicas = replicas := by
  have hstep : ∀ (ops : List RingOp) (r : Ring) (live : OrdMap Bytes Bytes) (ids : List Bytes),
      r.Holds sha256 live → r.replicas = replicas →
      (∀ id, (live.get? id).isSome = true → id ∈ ids) → ops.map RingOp.nodeID ⊆ ids →
      NoCollisions sha256 replicas ids →
      (ops.foldl (Ring.apply sha256) r).Holds sha256 (ops.foldl liveStep live) ∧
        (ops.foldl (Ring.apply sha256) r).replicas = replicas := by
    intro ops
    induction ops with
    | nil => exact fun r live ids h hrep _ _ _ => ⟨h, hrep⟩
    | cons op ops ih =>
        intro r live ids h hrep hids hsub hcol
        rw [List.map_cons, List.cons_subset] at hsub
        refine ih _ _ ids (h.apply hids (hrep ▸ hcol) hsub.1) ?_ ?_ hsub.2 hcol
        · cases op with
          | add node => exact (replicas_add r node).trans hrep
          | remove nodeID => exact hrep
        · intro id hlive
          cases op with
          | add node =>
              simp only [liveStep] at hlive
              split_ifs at hlive
              · exact hids id hlive
              · rw [OrdMap.get?_set] at hlive
                split_ifs at hlive with heq
                · exact heq ▸ hsub.1
                · exact hids id hlive
          | remove nodeID =>
              simp only [liveStep, OrdMap.get?_erase] at hlive
              split_ifs at hlive
              · cases hlive
              · exact hids id hlive
  refine hstep ops _ ∅ _ ⟨?_, rfl⟩ rfl (fun id hid => by cases hid) (List.Subset.refl _) hcol
  intro hash node
  simp

/-! ## The walk around the circle

The loop skips nodes it has already taken. It returns the first distinct ones, which is all of them
when there are not more. -/

section Walk

variable {r : Ring} {live : OrdMap Bytes Bytes} (h : r.Holds sha256 live)

include h

lemma Holds.rotate_start (metric : Bytes) :
    r.keys.rotate (r.start sha256 metric) = circle r.keys (hashKey sha256 metric) := by
  refine rotate_search_eq_circle h.keys_sorted _ fun k hk => ?_
  rw [List.getD_eq_getElem _ _ hk, decide_eq_true_eq]

omit h in
lemma start_lt (metric : Bytes) (hne : r.keys ≠ []) : r.start sha256 metric < r.keys.length := by
  have hpos := List.length_pos_iff.mpr hne
  simp only [start]
  split_ifs <;> omega

/-- The owner is the node of the first hash on the circle. -/
lemma Holds.get_eq_circle (metric : Bytes) :
    r.get sha256 metric = (circle r.keys (hashKey sha256 metric)).head?.map r.nodeAt := by
  rw [get]
  split_ifs with hnil
  · simp [hnil, circle]
  · have hlt : r.start sha256 metric < r.keys.length := start_lt metric hnil
    rw [← h.rotate_start, List.head?_rotate hlt, List.getElem?_eq_getElem hlt,
      List.getD_eq_getElem _ _ hlt]
    rfl

end Walk

/-- What the walk has collected when it ends. -/
structure Collected (n : ℕ) (nodes visited res : List Node) : Prop where
  front : nodes <+: res
  distinct : (res.map Node.id).Nodup
  met : ∀ node ∈ res, node ∈ nodes ∨ node ∈ visited
  bound : res.length ≤ n
  complete : res.length = n ∨ ∀ node ∈ visited, node.id ∈ res.map Node.id

/-- The walk collects the next nodes it has not seen, up to `n`. -/
lemma getNLoop_collected (r : Ring) (n idx : ℕ) (is : List ℕ) (nodes : List Node)
    (hlen : nodes.length < n) (hnd : (nodes.map Node.id).Nodup) :
    Collected n nodes (is.map (r.visit idx)) (r.getNLoop n idx is (nodes.map Node.id) nodes) := by
  induction is generalizing nodes with
  | nil => exact ⟨List.prefix_refl _, hnd, fun _ => Or.inl, hlen.le, Or.inr (by simp)⟩
  | cons i is ih =>
      rw [getNLoop]
      by_cases hseen : (r.visit idx i).id ∈ nodes.map Node.id
      · simp only [hseen, if_true, if_neg (not_le.mpr hlen)]
        have hrest := ih nodes hlen hnd
        refine ⟨hrest.front, hrest.distinct, ?_, hrest.bound, hrest.complete.imp_right ?_⟩
        · intro node hnode
          exact (hrest.met node hnode).imp_right (List.mem_cons_of_mem _)
        · intro hall node hnode
          rcases List.mem_cons.mp hnode with rfl | hnode
          · exact (hrest.front.map Node.id).subset hseen
          · exact hall node hnode
      · have hnd' : ((nodes ++ [r.visit idx i]).map Node.id).Nodup := by
          rw [List.map_append, List.map_singleton]
          exact hnd.append (List.nodup_singleton _) (List.disjoint_singleton.mpr hseen)
        have hids : (nodes.map Node.id) ++ [(r.visit idx i).id] =
            (nodes ++ [r.visit idx i]).map Node.id := by simp
        simp only [hseen, if_false, hids]
        have hfront : nodes <+: nodes ++ [r.visit idx i] := List.prefix_append _ _
        split_ifs with hfull
        · rw [List.length_append, List.length_singleton] at hfull
          refine ⟨hfront, hnd', ?_, ?_, Or.inl ?_⟩
          · intro node hnode
            rcases List.mem_append.mp hnode with hnode | hnode
            · exact Or.inl hnode
            · exact Or.inr (List.mem_cons.mpr (Or.inl (List.mem_singleton.mp hnode)))
          · simp only [List.length_append, List.length_singleton]
            omega
          · simp only [List.length_append, List.length_singleton]
            omega
        · have hrest := ih (nodes ++ [r.visit idx i]) (not_le.mp hfull) hnd'
          refine ⟨hfront.trans hrest.front, hrest.distinct, ?_, hrest.bound,
            hrest.complete.imp_right ?_⟩
          · intro node hnode
            rcases hrest.met node hnode with hnode | hnode
            · rcases List.mem_append.mp hnode with hnode | hnode
              · exact Or.inl hnode
              · exact Or.inr (List.mem_cons.mpr (Or.inl (List.mem_singleton.mp hnode)))
            · exact Or.inr (List.mem_cons_of_mem _ hnode)
          · intro hall node hnode
            rcases List.mem_cons.mp hnode with rfl | hnode
            · exact (hrest.front.map Node.id).subset (by simp)
            · exact hall node hnode

/-- The walk passes every hash of the ring once. -/
lemma map_visit_range (r : Ring) (idx : ℕ) :
    (List.range r.keys.length).map (r.visit idx) = (r.keys.rotate idx).map r.nodeAt := by
  refine List.ext_getElem (by simp) fun i hi hi' => ?_
  simp only [List.length_map, List.length_range] at hi
  have hmod : (i + idx) % r.keys.length < r.keys.length := Nat.mod_lt _ (by omega)
  simp only [List.getElem_map, List.getElem_range, visit, List.getElem_rotate, Nat.add_comm idx i,
    List.getD_eq_getElem _ _ hmod]

section Routes

variable {r : Ring} {live : OrdMap Bytes Bytes} (h : r.Holds sha256 live)

include h

/-- A hash on the circle belongs to a live node. -/
lemma Holds.live_nodeAt {hash : ℕ} (hmem : hash ∈ r.keys) :
    live.get? (r.nodeAt hash).id = some (r.nodeAt hash).addr := by
  obtain ⟨node, hnode⟩ := (h.mem_keys_iff hash).mp hmem
  rw [nodeAt_of_get? hnode]
  exact ((h.nodes hash node).mp hnode).1

/-- With at least one virtual node every live node is met on the circle. -/
lemma Holds.exists_key (hrep : 0 < r.replicas.toNat) {id : Bytes}
    (hlive : (live.get? id).isSome = true) : ∃ hash ∈ r.keys, (r.nodeAt hash).id = id := by
  obtain ⟨addr, haddr⟩ := Option.isSome_iff_exists.mp hlive
  have hnode := (h.nodes _ ⟨id, addr⟩).mpr ⟨haddr, 0, hrep, rfl⟩
  exact ⟨_, (h.mem_keys_iff _).mpr ⟨_, hnode⟩, by rw [nodeAt_of_get? hnode]⟩

/-- A ring without virtual nodes has no hashes. -/
lemma Holds.keys_eq_nil (hrep : r.replicas.toNat = 0) : r.keys = [] := by
  refine List.eq_nil_iff_forall_not_mem.mpr fun hash hmem => ?_
  obtain ⟨node, hnode⟩ := (h.mem_keys_iff hash).mp hmem
  obtain ⟨-, i, hi, -⟩ := (h.nodes hash node).mp hnode
  omega

/-- `GetN` collects along the circle. -/
lemma Holds.getN_collected (metric : Bytes) {n : ℤ} (hn : 0 < n) (hne : r.keys ≠ []) :
    Collected n.toNat [] ((circle r.keys (hashKey sha256 metric)).map r.nodeAt)
      (r.getN sha256 metric n) := by
  rw [getN, if_neg (by simp [hne, hn]), ← h.rotate_start, ← map_visit_range]
  exact getNLoop_collected r n.toNat _ _ [] (by simp; omega) List.nodup_nil

omit h in
/-- The first node of a route is the owner. -/
lemma head?_getN (metric : Bytes) {n : ℤ} (hn : 0 < n) :
    (r.getN sha256 metric n).head? = r.get sha256 metric := by
  rw [get, getN]
  by_cases hne : r.keys = []
  · simp [hne]
  · have hpos := List.length_pos_iff.mpr hne
    rw [if_neg (by simp [hne, hn]), if_neg hne]
    obtain ⟨m, hm⟩ := Nat.exists_eq_succ_of_ne_zero hpos.ne'
    have hvisit : r.visit (r.start sha256 metric) 0 =
        r.nodeAt (r.keys.getD (r.start sha256 metric) 0) := by
      rw [visit, Nat.add_zero, Nat.mod_eq_of_lt (start_lt metric hne)]
    rw [hm, List.range_succ_eq_map, getNLoop, ← hvisit]
    simp only [List.not_mem_nil, if_false, List.nil_append, List.length_singleton]
    split_ifs with hone
    · rfl
    · have hrest := getNLoop_collected r n.toNat (r.start sha256 metric)
        ((List.range m).map Nat.succ) [r.visit (r.start sha256 metric) 0]
        (by simpa using hone) (by simp)
      obtain ⟨rest, hres⟩ := hrest.front
      rw [List.map_singleton] at hres
      rw [← hres]
      rfl

/-- The number of nodes on the ring. -/
lemma Holds.length_getN (metric : Bytes) (n : ℤ) :
    (r.getN sha256 metric n).length =
      min n.toNat (if r.replicas.toNat = 0 then 0 else live.entries.length) := by
  by_cases hn : 0 < n
  swap
  · have hz : n.toNat = 0 := by omega
    simp [getN, not_lt.mp hn, hz]
  by_cases hne : r.keys = []
  · have hnone : (if r.replicas.toNat = 0 then 0 else live.entries.length) = 0 := by
      split_ifs with hrep
      · rfl
      · rw [List.length_eq_zero_iff, List.eq_nil_iff_forall_not_mem]
        rintro ⟨id, addr⟩ hmem
        rw [OrdMap.mem_entries_iff] at hmem
        have hlive : (live.get? id).isSome = true := by
          rw [hmem]
          rfl
        obtain ⟨hash, hkey, -⟩ := h.exists_key (Nat.pos_of_ne_zero hrep) hlive
        rw [hne] at hkey
        cases hkey
    rw [hnone, Nat.min_zero, getN, if_pos (Or.inl hne), List.length_nil]
  have hrep : r.replicas.toNat ≠ 0 := fun hz => hne (h.keys_eq_nil hz)
  rw [if_neg hrep]
  have hcol := h.getN_collected metric hn hne
  generalize r.getN sha256 metric n = res at hcol
  have hlive : (live.entries.map Prod.fst).Nodup :=
    List.pairwise_map.mpr (live.sorted.imp fun hlt => ne_of_lt hlt)
  have hle : res.length ≤ live.entries.length := by
    have hsub : res.map Node.id ⊆ live.entries.map Prod.fst := by
      intro id hid
      obtain ⟨node, hnode, rfl⟩ := List.mem_map.mp hid
      obtain ⟨hash, hhash, rfl⟩ := List.mem_map.mp ((hcol.met node hnode).resolve_left (by simp))
      rw [OrdMap.mem_keys_iff, h.live_nodeAt (mem_circle_iff.mp hhash)]
      rfl
    simpa using (List.subperm_of_subset hcol.distinct hsub).length_le
  rcases hcol.complete with hfull | hall
  · rw [hfull] at hle ⊢
    exact (min_eq_left hle).symm
  · have hge : live.entries.length ≤ res.length := by
      have hsub : live.entries.map Prod.fst ⊆ res.map Node.id := by
        intro id hid
        obtain ⟨hash, hkey, rfl⟩ := h.exists_key (Nat.pos_of_ne_zero hrep)
          ((OrdMap.mem_keys_iff _ _).mp hid)
        exact hall _ (List.mem_map_of_mem (mem_circle_iff.mpr hkey))
      simpa using (List.subperm_of_subset hlive hsub).length_le
    have := hcol.bound
    omega

omit h in
/-- The nodes of a route are distinct. -/
lemma nodup_getN (metric : Bytes) (n : ℤ) : ((r.getN sha256 metric n).map Node.id).Nodup := by
  rw [getN]
  split_ifs with hnone
  · exact List.nodup_nil
  · rw [not_or, not_le] at hnone
    exact (getNLoop_collected r n.toNat _ _ [] (by simp; omega) List.nodup_nil).distinct

/-- **A ring with fewer hashes** keeps the owner of a metric unless the owner's hash is missing. -/
lemma Holds.get_of_subset {s : Ring} {live' : OrdMap Bytes Bytes} (hs : s.Holds sha256 live')
    (hsub : ∀ hash node, s.nodes.get? hash = some node → r.nodes.get? hash = some node)
    (metric : Bytes) :
    s.get sha256 metric = r.get sha256 metric ∨
      ∃ hash node, r.nodes.get? hash = some node ∧ s.nodes.get? hash = none ∧
        r.get sha256 metric = some node := by
  have hkeys : s.keys = r.keys.filter fun hash => (s.nodes.get? hash).isSome := by
    refine eq_of_pairwise_of_mem_iff (fun a => lt_irrefl a) (fun a b => lt_asymm) hs.keys_sorted
      (h.keys_sorted.filter _) fun hash => ?_
    rw [List.mem_filter, hs.mem_keys_iff, h.mem_keys_iff, Option.isSome_iff_exists]
    exact ⟨fun ⟨node, hnode⟩ => ⟨⟨node, hsub hash node hnode⟩, node, hnode⟩, fun hmem => hmem.2⟩
  rw [hs.get_eq_circle, h.get_eq_circle, hkeys, circle_filter]
  cases hc : circle r.keys (hashKey sha256 metric) with
  | nil => exact Or.inl (by simp)
  | cons hash rest =>
      have hmem : hash ∈ r.keys := mem_circle_iff.mp (hc ▸ List.mem_cons_self)
      obtain ⟨node, hnode⟩ := (h.mem_keys_iff hash).mp hmem
      cases hget : s.nodes.get? hash with
      | none =>
          refine Or.inr ⟨hash, node, hnode, hget, ?_⟩
          simp [nodeAt_of_get? hnode]
      | some other =>
          refine Or.inl ?_
          rw [List.filter_cons_of_pos (by rw [hget]; rfl)]
          simp only [List.head?_cons, Option.map_some]
          rw [nodeAt_of_get? hget, nodeAt_of_get? (hsub hash other hget)]

variable {s : Ring} (hrep : s.replicas = r.replicas)

include hrep

/-- Adding a node leaves an owner or makes the node the owner. -/
lemma Holds.get_of_add {node : Node} (hs : s.Holds sha256 (liveStep live (.add node)))
    (metric : Bytes) :
    s.get sha256 metric = r.get sha256 metric ∨ s.get sha256 metric = some node := by
  simp only [liveStep] at hs
  split_ifs at hs with hlive
  · rw [hs.unique h hrep]
    exact Or.inl rfl
  · rw [Option.not_isSome_iff_eq_none] at hlive
    have hold : ∀ other : Node, other.id ≠ node.id → ∀ hash,
        s.nodes.get? hash = some other ↔ r.nodes.get? hash = some other := by
      intro other hne hash
      rw [hs.nodes, h.nodes, OrdMap.get?_set_of_ne _ _ hne, hrep]
    have hsub : ∀ hash other, r.nodes.get? hash = some other → s.nodes.get? hash = some other := by
      intro hash other hother
      refine (hold other ?_ hash).mpr hother
      intro heq
      have := ((h.nodes hash other).mp hother).1
      rw [heq, hlive] at this
      cases this
    rcases hs.get_of_subset h hsub metric with heq | ⟨hash, other, hother, hnone, howner⟩
    · exact Or.inl heq.symm
    · -- the hash is new, so it is one of the added node
      have hid : other.id = node.id := by
        by_contra hne
        rw [(hold other hne hash).mp hother] at hnone
        cases hnone
      have haddr := ((hs.nodes hash other).mp hother).1
      rw [hid, OrdMap.get?_set_self] at haddr
      rw [howner]
      cases other
      cases node
      simp_all

/-- Removing a node leaves an owner unless it was the owner. -/
lemma Holds.get_of_remove {nodeID : Bytes} (hs : s.Holds sha256 (liveStep live (.remove nodeID)))
    (metric : Bytes) : s.get sha256 metric = r.get sha256 metric ∨
      ∃ node, r.get sha256 metric = some node ∧ node.id = nodeID := by
  have hiff : ∀ hash other, s.nodes.get? hash = some other ↔
      other.id ≠ nodeID ∧ r.nodes.get? hash = some other := by
    intro hash other
    rw [hs.nodes, h.nodes, hrep, liveStep, OrdMap.get?_erase]
    split_ifs with heq
    · simp [heq]
    · simp [heq]
  have hsub := fun hash other hother => ((hiff hash other).mp hother).2
  refine (h.get_of_subset hs hsub metric).imp_right ?_
  rintro ⟨hash, node, hnode, hnone, howner⟩
  refine ⟨node, howner, ?_⟩
  by_contra hne
  rw [(hiff hash node).mpr ⟨hne, hnode⟩] at hnone
  cases hnone

end Routes

end Ring

/-! ## Agreement -/

/-- **Rings agree.**  Let the hash keep apart the labels of the ids a history names.

* Histories that leave the same live nodes give every metric the same owner and the same route.
* A route of length `n` has `min n k` distinct nodes, where `k` is the number of nodes on the ring:
  the live nodes, or none if a node has no virtual nodes.  It begins with the owner.
* Adding a node changes an owner only to that node; removing one changes only what it owned. -/
theorem ring_agreement (sha256 : Bytes → Bytes) (replicas : ℤ) (ops : List RingOp)
    (hcol : NoCollisions sha256 replicas (ops.map RingOp.nodeID)) :
    (∀ ops', NoCollisions sha256 replicas (ops'.map RingOp.nodeID) →
      liveNodes ops' = liveNodes ops → ∀ metric n,
        (Ring.run sha256 replicas ops').get sha256 metric =
            (Ring.run sha256 replicas ops).get sha256 metric ∧
          (Ring.run sha256 replicas ops').getN sha256 metric n =
            (Ring.run sha256 replicas ops).getN sha256 metric n) ∧
    (∀ metric n, let route := (Ring.run sha256 replicas ops).getN sha256 metric n
      route.length =
          min n.toNat (if replicas.toNat = 0 then 0 else (liveNodes ops).entries.length) ∧
        (route.map Node.id).Nodup ∧
        (0 < n → route.head? = (Ring.run sha256 replicas ops).get sha256 metric)) ∧
    (∀ node, NoCollisions sha256 replicas ((ops ++ [RingOp.add node]).map RingOp.nodeID) → ∀ metric,
      (Ring.run sha256 replicas (ops ++ [RingOp.add node])).get sha256 metric ≠
          (Ring.run sha256 replicas ops).get sha256 metric →
        (Ring.run sha256 replicas (ops ++ [RingOp.add node])).get sha256 metric = some node) ∧
    ∀ nodeID, NoCollisions sha256 replicas ((ops ++ [RingOp.remove nodeID]).map RingOp.nodeID) →
      ∀ metric, (Ring.run sha256 replicas (ops ++ [RingOp.remove nodeID])).get sha256 metric ≠
          (Ring.run sha256 replicas ops).get sha256 metric →
        ∃ node, (Ring.run sha256 replicas ops).get sha256 metric = some node ∧
          node.id = nodeID := by
  obtain ⟨h, hrep⟩ := Ring.holds_run hcol
  refine ⟨?_, ?_, ?_, ?_⟩
  · intro ops' hcol' hlive metric n
    obtain ⟨h', hrep'⟩ := Ring.holds_run hcol'
    rw [hlive] at h'
    rw [h'.unique h (hrep'.trans hrep.symm)]
    exact ⟨rfl, rfl⟩
  · intro metric n
    have hlen := h.length_getN metric n
    rw [hrep] at hlen
    exact ⟨hlen, Ring.nodup_getN metric n, Ring.head?_getN metric⟩
  · intro node hcol' metric hne
    obtain ⟨h', hrep'⟩ := Ring.holds_run hcol'
    rw [liveNodes_append] at h'
    exact (h.get_of_add (hrep'.trans hrep.symm) h' metric).resolve_left hne
  · intro nodeID hcol' metric hne
    obtain ⟨h', hrep'⟩ := Ring.holds_run hcol'
    rw [liveNodes_append] at h'
    exact (h.get_of_remove (hrep'.trans hrep.symm) h' metric).resolve_left hne

/-- SHA-256 of the labels of two nodes and of a metric. -/
def labelDigest (key : Bytes) : Bytes :=
  beBytes 32 (([(bs "a:0", 0x0ed32d3352f0cddd88b03a266c387e1a4683d5356ce381463b4b42cf9ccadfaf),
    (bs "a:1", 0x2b2c40a6706d9e5f320d553628313833e3668d8b0c8f5b0a25a2ca7d926df6d4),
    (bs "b:0", 0xc107dfed5b01e372079e0514cc467382ff7322fee809648179679851f22f7e1e),
    (bs "b:1", 0x34340f0e82d75a3446150f4a916c20c1fe83f9d7cf6b61f4cc8ad69c420ab0a3),
    (bs "hits", 0x62f51d296d3429d8f502e2a1cf5fd430a118615b9c4b97d7fbac538e9966fe26)].lookup
      key).getD 0)

/-- Two nodes with two virtual nodes each, in two histories: in one of them a node comes first,
goes, comes back and is added once more with another address. -/
theorem ring_agreement_two_nodes :
    (Ring.run labelDigest 2 [.add ⟨bs "a", bs "x"⟩, .add ⟨bs "b", bs "y"⟩, .remove (bs "a"),
        .add ⟨bs "a", bs "x"⟩, .add ⟨bs "a", bs "z"⟩]).getN labelDigest (bs "hits") 3 =
      (Ring.run labelDigest 2 [.add ⟨bs "b", bs "y"⟩, .add ⟨bs "a", bs "x"⟩]).getN labelDigest
        (bs "hits") 3 ∧
    (Ring.run labelDigest 2 [.add ⟨bs "b", bs "y"⟩, .add ⟨bs "a", bs "x"⟩]).getN labelDigest
      (bs "hits") 3 = [⟨bs "b", bs "y"⟩, ⟨bs "a", bs "x"⟩] :=
  ⟨((ring_agreement labelDigest 2 [.add ⟨bs "b", bs "y"⟩, .add ⟨bs "a", bs "x"⟩]
    (by decide +kernel)).1 [.add ⟨bs "a", bs "x"⟩, .add ⟨bs "b", bs "y"⟩, .remove (bs "a"),
      .add ⟨bs "a", bs "x"⟩, .add ⟨bs "a", bs "z"⟩] (by decide +kernel) (by decide +kernel)
      (bs "hits") 3).2, by decide +kernel⟩

end FlameDB
