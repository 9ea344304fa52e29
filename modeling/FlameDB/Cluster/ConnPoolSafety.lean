import FlameDB.Cluster.ConnPool

/-!
# Replies of pooled connections are not mixed

The invariant of one connection carries over to the pool because a call that fails still holds the
lock of the connection when it evicts it: the next call finds it closed.  That needs the pool to
have the connection.

* `ConnPool.PoolInv` — an open connection is in the pool of its node, and that pool is in the map or
  about to be closed.
* `ConnPool.replies_never_mixed` — every reply returned is the peer's reply to the caller's own
  query, and no connection is used after a failure, in runs that keep clear of two races: a read
  that fails when a part of the reply has arrived, which the scanner then returns as a line, and an
  eviction between the two halves of `CloseAll`, which finds no pool and leaves the connection open.
-/

namespace FlameDB

open Go KV

namespace ConnPool

variable {s s' : ConnPool}

/-- The call that holds the lock of a connection: it was sent to the connection's node, and the pool
from which it removes the connection has it, if it is open. -/
structure HolderOk (s : ConnPool) (c : ℕ) (conn : PooledConn) (h : LockHolder) : Prop where
  made : c < s.connCount
  node : conn.node = h.node
  removing : ∀ e p, h.stage = .removing e p → conn.isOpen = true → c ∈ (s.nodePools p).conns

/-- Where a call is that has no lock; the reply it returned was given to its own query. -/
def PhaseOk (s : ConnPool) (i : ℕ) : SendPhase → Prop
  | .inPool node _ p => p < s.poolCount ∧ (s.nodePools p).node = node ∧
      ((s.nodePools p).closed = true ∨ p ∈ s.taken ∨ s.pools.get? node = some p)
  | .waiting node _ c => c < s.connCount ∧ (s.conns c).node = node
  | .returned _ query (.ok reply) => ∃ c, (s.conns c).Answered i query reply
  | _ => True

/-- **The invariant of the pool**: an open connection is in the pool of its node, which is in the
map or about to be closed. -/
structure PoolInv (s : ConnPool) : Prop where
  conn : ∀ c, (s.conns c).Ok
  home : ∀ c, (s.conns c).isOpen = true → ∃ p, c ∈ (s.nodePools p).conns ∧
    (p ∈ s.taken ∨ s.pools.get? (s.conns c).node = some p)
  member : ∀ p, ∀ c ∈ (s.nodePools p).conns, c < s.connCount ∧
    (s.conns c).node = (s.nodePools p).node
  mapped : ∀ node p, s.pools.get? node = some p → p < s.poolCount ∧ (s.nodePools p).node = node
  unmade : ∀ p, s.poolCount ≤ p → (s.nodePools p).conns = []
  undialed : ∀ c, s.connCount ≤ c → (s.conns c).requests = []
  closed : s.closed = true → s.pools = ∅
  taken : ∀ p ∈ s.taken, s.closed = true
  phase : ∀ i, s.PhaseOk i (s.sends i)
  holder : ∀ c h, (s.conns c).mu = some h → s.HolderOk c (s.conns c) h

lemma poolInv_new : PoolInv new where
  conn _ := PooledConn.ok_absent
  home c hopen := absurd hopen (by simp [new, PooledConn.absent])
  member p c hc := absurd hc (by simp [new])
  mapped node p hget := absurd hget (by simp [new])
  unmade _ _ := rfl
  undialed _ _ := rfl
  closed hclosed := absurd hclosed (by simp [new])
  taken p hp := absurd hp (by simp [new])
  phase _ := trivial
  holder c h hmu := absurd hmu (by simp [new, PooledConn.absent, PooledConn.dialed])

/-! ### What a step leaves as it was -/

/-- What the calls rely on: a pool keeps its node and is found or closed, and connections keep what
was written. -/
structure Grows (s s' : ConnPool) : Prop where
  poolCount : s.poolCount ≤ s'.poolCount
  connCount : s.connCount ≤ s'.connCount
  node : ∀ p < s.poolCount, (s'.nodePools p).node = (s.nodePools p).node
  place : ∀ p < s.poolCount, ∀ node,
    ((s.nodePools p).closed = true ∨ p ∈ s.taken ∨ s.pools.get? node = some p) →
      (s'.nodePools p).closed = true ∨ p ∈ s'.taken ∨ s'.pools.get? node = some p
  conn : ∀ c < s.connCount, (s.conns c).Kept (s'.conns c)

/-- What a call knows stays true while others take steps. -/
lemma PhaseOk.grows {i : ℕ} {phase : SendPhase} (h : s.PhaseOk i phase) (hs : s.PoolInv)
    (hg : s.Grows s') : s'.PhaseOk i phase := by
  cases phase with
  | fresh => trivial
  | lookup node query => trivial
  | insert node query => trivial
  | inPool node query p =>
      obtain ⟨hp, hnode, hplace⟩ := h
      exact ⟨hp.trans_le hg.poolCount, (hg.node p hp).trans hnode, hg.place p hp node hplace⟩
  | waiting node query c =>
      obtain ⟨hc, hnode⟩ := h
      exact ⟨hc.trans_le hg.connCount, (hg.conn c hc).node.trans hnode⟩
  | holding => trivial
  | returned node query result =>
      cases result with
      | error e => trivial
      | ok reply =>
          obtain ⟨c, ha⟩ := h
          have hc : c < s.connCount := by
            by_contra hc
            obtain ⟨k, hline, -⟩ := ha
            rw [hs.undialed c (Nat.le_of_not_lt hc)] at hline
            exact absurd hline (by simp)
          exact ⟨c, ha.kept (hg.conn c hc)⟩

lemma PoolInv.setSend (hs : s.PoolInv) {i : ℕ} {phase : SendPhase} (h : s.PhaseOk i phase) :
    (s.setSend i phase).PoolInv := by
  refine ⟨hs.conn, hs.home, hs.member, hs.mapped, hs.unmade, hs.undialed, hs.closed, hs.taken,
    fun j => ?_, fun c h hmu => ?_⟩
  · show s.PhaseOk j (Function.update s.sends i phase j)
    by_cases hj : j = i
    · subst hj
      rw [Function.update_self]
      exact h
    · rw [Function.update_of_ne hj]
      exact hs.phase j
  · obtain ⟨hmade, hnode, hremoving⟩ := hs.holder c h hmu
    exact ⟨hmade, hnode, hremoving⟩

lemma conns_setConn (s : ConnPool) (c : ℕ) (x : PooledConn) (c' : ℕ) :
    (s.setConn c x).conns c' = if c' = c then x else s.conns c' := Function.update_apply _ _ _ _

/-- A step on one connection leaves the others alone. -/
lemma PoolInv.setConn (hs : s.PoolInv) {c : ℕ} {x : PooledConn} (hc : c < s.connCount)
    (hk : (s.conns c).Kept x) (hok : x.Ok) (hholder : ∀ h, x.mu = some h → s.HolderOk c x h) :
    (s.setConn c x).PoolInv := by
  have hconn : ∀ c', (s.conns c').Kept ((s.setConn c x).conns c') := by
    intro c'
    rw [conns_setConn]
    split_ifs with heq
    · exact heq ▸ hk
    · exact (s.conns c').kept_setMu _
  have hgrows : s.Grows (s.setConn c x) :=
    ⟨le_rfl, le_rfl, fun _ _ => rfl, fun _ _ _ hplace => hplace, fun c' _ => hconn c'⟩
  refine ⟨fun c' => ?_, fun c' hopen => ?_, fun p c' hc' => ?_, hs.mapped, hs.unmade,
    fun c' hc' => ?_, hs.closed, hs.taken, fun i => (hs.phase i).grows hs hgrows,
      fun c' h hmu => ?_⟩
  · rw [conns_setConn]
    split_ifs
    · exact hok
    · exact hs.conn c'
  · obtain ⟨p, hp, hplace⟩ := hs.home c' ((hconn c').isOpen hopen)
    refine ⟨p, hp, ?_⟩
    rw [(hconn c').node]
    exact hplace
  · obtain ⟨hlt, hnode⟩ := hs.member p c' hc'
    exact ⟨hlt, (hconn c').node.trans hnode⟩
  · have hne : c' ≠ c := fun heq => absurd (heq ▸ hc') (Nat.not_le.mpr hc)
    rw [conns_setConn, if_neg hne]
    exact hs.undialed c' hc'
  · rw [conns_setConn] at hmu ⊢
    split_ifs at hmu ⊢ with heq
    · subst heq
      obtain ⟨hmade, hnode, hremoving⟩ := hholder h hmu
      exact ⟨hmade, hnode, hremoving⟩
    · obtain ⟨hmade, hnode, hremoving⟩ := hs.holder c' h hmu
      exact ⟨hmade, hnode, hremoving⟩

/-- A step of the call that holds a lock. -/
lemma PoolInv.setConn_mu (hs : s.PoolInv) {c : ℕ} {h : LockHolder} {x : PooledConn}
    (hmu : (s.conns c).mu = some h) (hk : (s.conns c).Kept x) (hok : x.Ok) {stage : HoldStage}
    (hx : x.mu = some { h with stage := stage }) (hstage : ∀ e p, stage ≠ .removing e p) :
    (s.setConn c x).PoolInv := by
  have hholder := hs.holder c h hmu
  refine hs.setConn hholder.made hk hok fun h' hh => ?_
  obtain rfl := Option.some.inj (hx.symm.trans hh)
  exact ⟨hholder.made, hk.node.trans hholder.node, fun e p heq => absurd heq (hstage e p)⟩

lemma nodePools_setPool (s : ConnPool) (p : ℕ) (x : NodePool) (p' : ℕ) :
    (s.setPool p x).nodePools p' = if p' = p then x else s.nodePools p' :=
  Function.update_apply _ _ _ _

/-- A pool of the same node, with all of its open connections. -/
lemma PoolInv.setPool (hs : s.PoolInv) {p : ℕ} {x : NodePool}
    (hnode : x.node = (s.nodePools p).node)
    (hclosed : x.closed = (s.nodePools p).closed) (hsub : ∀ c ∈ x.conns, c ∈ (s.nodePools p).conns)
    (hkeep : ∀ c ∈ (s.nodePools p).conns, (s.conns c).isOpen = true → c ∈ x.conns) :
    (s.setPool p x).PoolInv := by
  have hpool : ∀ p', ((s.setPool p x).nodePools p').node = (s.nodePools p').node ∧
      ((s.setPool p x).nodePools p').closed = (s.nodePools p').closed ∧
      (∀ c ∈ ((s.setPool p x).nodePools p').conns, c ∈ (s.nodePools p').conns) ∧
      ∀ c ∈ (s.nodePools p').conns, (s.conns c).isOpen = true →
        c ∈ ((s.setPool p x).nodePools p').conns := by
    intro p'
    rw [nodePools_setPool]
    split_ifs with heq
    · subst heq
      exact ⟨hnode, hclosed, hsub, hkeep⟩
    · exact ⟨rfl, rfl, fun _ h => h, fun _ h _ => h⟩
  have hgrows : s.Grows (s.setPool p x) := by
    refine ⟨le_rfl, le_rfl, fun p' _ => (hpool p').1, fun p' _ node hplace => ?_,
      fun c _ => (s.conns c).kept_setMu _⟩
    rw [(hpool p').2.1]
    exact hplace
  refine ⟨hs.conn, fun c hopen => ?_, fun p' c hc => ?_, fun node p' hget => ?_, fun p' hp' => ?_,
    hs.undialed, hs.closed, hs.taken, fun i => (hs.phase i).grows hs hgrows, fun c h hmu => ?_⟩
  · obtain ⟨p', hmem, hplace⟩ := hs.home c hopen
    exact ⟨p', (hpool p').2.2.2 c hmem hopen, hplace⟩
  · rw [(hpool p').1]
    exact hs.member p' c ((hpool p').2.2.1 c hc)
  · rw [(hpool p').1]
    exact hs.mapped node p' hget
  · refine List.eq_nil_iff_forall_not_mem.mpr fun c hc => ?_
    have hmem := (hpool p').2.2.1 c hc
    rw [hs.unmade p' hp'] at hmem
    exact absurd hmem List.not_mem_nil
  · obtain ⟨hmade, hnode, hremoving⟩ := hs.holder c h hmu
    exact ⟨hmade, hnode, fun e p' hstage hopen =>
      (hpool p').2.2.2 c (hremoving e p' hstage hopen) hopen⟩

/-! ### Calls without a lock -/

lemma PoolInv.send (hs : s.PoolInv) {i : ℕ} {node query : Bytes}
    (hstep : s.send i node query = some s') : s'.PoolInv := by
  unfold ConnPool.send at hstep
  split at hstep
  · obtain rfl := Option.some.inj hstep
    exact hs.setSend trivial
  · exact absurd hstep (by simp)

/-- A pool that was found in the map. -/
lemma PoolInv.phaseOk_inPool (hs : s.PoolInv) {i p : ℕ} {node query : Bytes}
    (hget : s.pools.get? node = some p) : s.PhaseOk i (.inPool node query p) := by
  obtain ⟨hp, hnode⟩ := hs.mapped node p hget
  exact ⟨hp, hnode, Or.inr (Or.inr hget)⟩

lemma PoolInv.lookup (hs : s.PoolInv) {i : ℕ} (hstep : s.lookup i = some s') : s'.PoolInv := by
  unfold ConnPool.lookup at hstep
  split at hstep
  · rename_i node query hphase
    by_cases hclosed : s.closed = true
    · rw [if_pos hclosed] at hstep
      obtain rfl := Option.some.inj hstep
      exact hs.setSend trivial
    · rw [if_neg hclosed] at hstep
      cases hget : s.pools.get? node with
      | some p =>
          rw [hget] at hstep
          obtain rfl := Option.some.inj hstep
          exact hs.setSend (hs.phaseOk_inPool hget)
      | none =>
          rw [hget] at hstep
          obtain rfl := Option.some.inj hstep
          exact hs.setSend trivial
  · exact absurd hstep (by simp)

/-- A new pool for a node that has none. -/
lemma PoolInv.newPool (hs : s.PoolInv) {node : Bytes} (hclosed : s.closed = false)
    (hget : s.pools.get? node = none) :
    PoolInv { s.setPool s.poolCount ⟨node, false, 0, []⟩ with
      pools := s.pools.set node s.poolCount, poolCount := s.poolCount + 1 } := by
  set t : ConnPool := { s.setPool s.poolCount ⟨node, false, 0, []⟩ with
    pools := s.pools.set node s.poolCount, poolCount := s.poolCount + 1 } with ht
  have hold : ∀ p < s.poolCount, t.nodePools p = s.nodePools p := fun p hp =>
    Function.update_of_ne hp.ne _ _
  have hconns : ∀ p, (t.nodePools p).conns = (s.nodePools p).conns := by
    intro p
    have hpool : t.nodePools p = if p = s.poolCount then ⟨node, false, 0, []⟩ else s.nodePools p :=
      nodePools_setPool _ _ _ _
    rw [hpool]
    split_ifs with heq
    · exact (hs.unmade p heq.ge).symm
    · rfl
  have hfound : ∀ n p, s.pools.get? n = some p → t.pools.get? n = some p := by
    intro n p hp
    have hne : n ≠ node := fun heq => absurd (heq ▸ hp) (by simp [hget])
    exact (OrdMap.get?_set_of_ne _ _ hne).trans hp
  have hgrows : s.Grows t := by
    refine ⟨Nat.le_succ _, le_rfl, fun p hp => by rw [hold p hp], fun p hp n hplace => ?_,
      fun c _ => (s.conns c).kept_setMu _⟩
    rw [hold p hp]
    exact hplace.imp_right (Or.imp_right (hfound n p))
  refine ⟨hs.conn, fun c hopen => ?_, fun p c hc => ?_, fun n p hp => ?_, fun p hp => ?_,
    hs.undialed, fun htrue => absurd (htrue.symm.trans hclosed) (by simp), hs.taken,
    fun i => (hs.phase i).grows hs hgrows, fun c h hmu => ?_⟩
  · obtain ⟨p, hp, hplace⟩ := hs.home c hopen
    exact ⟨p, by rw [hconns]; exact hp, hplace.imp_right (hfound _ p)⟩
  · rw [hconns] at hc
    have hp : p < s.poolCount := by
      by_contra hp
      rw [hs.unmade p (Nat.le_of_not_lt hp)] at hc
      exact absurd hc List.not_mem_nil
    rw [hold p hp]
    exact hs.member p c hc
  · rw [OrdMap.get?_set] at hp
    split_ifs at hp with heq
    · obtain rfl := Option.some.inj hp
      have hnew : t.nodePools s.poolCount = ⟨node, false, 0, []⟩ := Function.update_self _ _ _
      rw [hnew, heq]
      exact ⟨Nat.lt_succ_self _, rfl⟩
    · obtain ⟨hlt, hnode⟩ := hs.mapped n p hp
      exact ⟨hlt.trans (Nat.lt_succ_self _), (congrArg NodePool.node (hold p hlt)).trans hnode⟩
  · rw [hconns]
    exact hs.unmade p ((Nat.le_succ _).trans hp)
  · obtain ⟨hmade, hnode, hremoving⟩ := hs.holder c h hmu
    refine ⟨hmade, hnode, fun e p hstage hopen => ?_⟩
    rw [hconns]
    exact hremoving e p hstage hopen

lemma PoolInv.insert (hs : s.PoolInv) {i : ℕ} (hstep : s.insert i = some s') : s'.PoolInv := by
  unfold ConnPool.insert at hstep
  split at hstep
  · rename_i node query hphase
    by_cases hclosed : s.closed = true
    · rw [if_pos hclosed] at hstep
      obtain rfl := Option.some.inj hstep
      exact hs.setSend trivial
    · rw [if_neg hclosed] at hstep
      cases hget : s.pools.get? node with
      | some p =>
          rw [hget] at hstep
          obtain rfl := Option.some.inj hstep
          exact hs.setSend (hs.phaseOk_inPool hget)
      | none =>
          rw [hget] at hstep
          obtain rfl := Option.some.inj hstep
          have hnew := hs.newPool (by simpa using hclosed) hget
          exact hnew.setSend (hnew.phaseOk_inPool (OrdMap.get?_set_self _ _ _))
  · exact absurd hstep (by simp)

lemma PoolInv.pickNext (hs : s.PoolInv) {i p : ℕ} {node query : Bytes}
    (hnode : (s.nodePools p).node = node) (hstep : s.pickNext i node query p = some s') :
    s'.PoolInv := by
  obtain ⟨c, hc, rfl⟩ := Option.map_eq_some_iff.mp hstep
  obtain ⟨hlt, hmember⟩ := hs.member p c (List.mem_of_getElem? hc)
  have hnext := @PoolInv.setPool s hs p
    { s.nodePools p with next := (s.nodePools p).next + 1 } rfl rfl
    (fun _ h => h) fun _ h _ => h
  exact hnext.setSend ⟨hlt, hmember.trans hnode⟩

/-- A new connection in the pool of a call. -/
lemma PoolInv.dialed (hs : s.PoolInv) {p : ℕ} {node : Bytes}
    (hnode : (s.nodePools p).node = node) (hp : p < s.poolCount)
    (hplace : p ∈ s.taken ∨ s.pools.get? node = some p) :
    PoolInv { (s.setPool p { s.nodePools p with
        conns := (s.nodePools p).conns ++ [s.connCount] }).setConn s.connCount (.dialed node) with
      connCount := s.connCount + 1 } := by
  set t : ConnPool := { (s.setPool p { s.nodePools p with
      conns := (s.nodePools p).conns ++ [s.connCount] }).setConn s.connCount (.dialed node) with
    connCount := s.connCount + 1 } with ht
  have hpool : ∀ p', (t.nodePools p').node = (s.nodePools p').node ∧
      (t.nodePools p').closed = (s.nodePools p').closed ∧
      (t.nodePools p').conns =
        (s.nodePools p').conns ++ (if p' = p then [s.connCount] else []) := by
    intro p'
    have hp' : t.nodePools p' = if p' = p then
        { s.nodePools p with conns := (s.nodePools p).conns ++ [s.connCount] }
        else s.nodePools p' := nodePools_setPool _ _ _ _
    rw [hp']
    split_ifs with heq
    · subst heq
      exact ⟨rfl, rfl, rfl⟩
    · exact ⟨rfl, rfl, (List.append_nil _).symm⟩
  have hsub : ∀ p' c, c ∈ (s.nodePools p').conns → c ∈ (t.nodePools p').conns := by
    intro p' c hc
    rw [(hpool p').2.2]
    exact List.mem_append_left _ hc
  have hnew : t.conns s.connCount = .dialed node := Function.update_self _ _ _
  have hold : ∀ c, c ≠ s.connCount → t.conns c = s.conns c := fun c hc =>
    Function.update_of_ne hc _ _
  have hgrows : s.Grows t := by
    refine ⟨le_rfl, Nat.le_succ _, fun p' _ => (hpool p').1, fun p' _ n hplace => ?_,
      fun c hc => ?_⟩
    · rw [(hpool p').2.1]
      exact hplace
    · rw [hold c hc.ne]
      exact (s.conns c).kept_setMu _
  refine ⟨fun c => ?_, fun c hopen => ?_, fun p' c hc => ?_, fun n p' hget => ?_, fun p' hp' => ?_,
    fun c hc => ?_, hs.closed, hs.taken, fun i => (hs.phase i).grows hs hgrows, fun c h hmu => ?_⟩
  · by_cases hc : c = s.connCount
    · rw [hc, hnew]
      exact PooledConn.ok_dialed node
    · rw [hold c hc]
      exact hs.conn c
  · by_cases hc : c = s.connCount
    · subst hc
      refine ⟨p, ?_, ?_⟩
      · rw [(hpool p).2.2, if_pos rfl]
        exact List.mem_append_right _ (List.mem_singleton_self _)
      · rw [hnew]
        exact hplace
    · rw [hold c hc] at hopen ⊢
      obtain ⟨p', hp', hplace'⟩ := hs.home c hopen
      exact ⟨p', hsub p' c hp', hplace'⟩
  · rw [(hpool p').2.2] at hc
    rw [(hpool p').1]
    rcases List.mem_append.mp hc with hc | hc
    · obtain ⟨hlt, hmember⟩ := hs.member p' c hc
      rw [hold c hlt.ne]
      exact ⟨hlt.trans (Nat.lt_succ_self _), hmember⟩
    · split_ifs at hc with heq
      · obtain rfl := List.mem_singleton.mp hc
        rw [hnew, heq, hnode]
        exact ⟨Nat.lt_succ_self _, rfl⟩
      · exact absurd hc List.not_mem_nil
  · rw [(hpool p').1]
    exact hs.mapped n p' hget
  · have hne : p' ≠ p := fun heq => absurd (heq ▸ hp') (Nat.not_le.mpr hp)
    rw [(hpool p').2.2, if_neg hne, List.append_nil]
    exact hs.unmade p' hp'
  · rw [hold c (Nat.lt_of_succ_le hc).ne']
    exact hs.undialed c ((Nat.le_succ _).trans hc)
  · by_cases hc : c = s.connCount
    · rw [hc, hnew] at hmu
      exact absurd hmu (by simp [PooledConn.dialed])
    · rw [hold c hc] at hmu ⊢
      obtain ⟨hmade, hnode', hremoving⟩ := hs.holder c h hmu
      exact ⟨hmade.trans (Nat.lt_succ_self _), hnode',
        fun e p' hstage hopen => hsub p' c (hremoving e p' hstage hopen)⟩

/-- A call dials a connection of its own while there is room, and then takes the next in turn. -/
lemma PoolInv.pick (hs : s.PoolInv) {i : ℕ} {dialed : Bool} (hstep : s.pick i dialed = some s') :
    s'.PoolInv := by
  unfold ConnPool.pick at hstep
  split at hstep
  · rename_i node query p hphase
    have hpool := hs.phase i
    rw [hphase] at hpool
    obtain ⟨hp, hnode, hplace⟩ := hpool
    dsimp only at hstep
    by_cases hclosed : (s.nodePools p).closed = true
    · rw [if_pos hclosed] at hstep
      obtain rfl := Option.some.inj hstep
      exact hs.setSend trivial
    rw [if_neg hclosed] at hstep
    by_cases hfull : connsPerNode ≤ (s.nodePools p).conns.length
    · rw [if_pos hfull] at hstep
      exact hs.pickNext hnode hstep
    rw [if_neg hfull] at hstep
    by_cases hdial : dialed = true
    · rw [if_pos hdial] at hstep
      obtain rfl := Option.some.inj hstep
      have hnew := hs.dialed hnode hp (hplace.resolve_left hclosed)
      refine hnew.setSend ⟨Nat.lt_succ_self _, ?_⟩
      show (Function.update s.conns s.connCount (.dialed node) s.connCount).node = node
      rw [Function.update_self]
      rfl
    rw [if_neg hdial] at hstep
    by_cases hnone : (s.nodePools p).conns = []
    · rw [if_pos hnone] at hstep
      obtain rfl := Option.some.inj hstep
      exact hs.setSend trivial
    · rw [if_neg hnone] at hstep
      exact hs.pickNext hnode hstep
  · exact absurd hstep (by simp)

lemma PoolInv.lock (hs : s.PoolInv) {i : ℕ} (hstep : s.lock i = some s') : s'.PoolInv := by
  unfold ConnPool.lock at hstep
  split at hstep
  · rename_i node query c hphase
    have hwaiting := hs.phase i
    rw [hphase] at hwaiting
    obtain ⟨hc, hnode⟩ := hwaiting
    split_ifs at hstep with hmu
    obtain rfl := Option.some.inj hstep
    refine PoolInv.setSend (hs.setConn hc ((s.conns c).kept_setMu _)
      ((hs.conn c).lock hmu i node query)
      fun h hh => ?_) trivial
    obtain rfl := Option.some.inj hh
    exact ⟨hc, hnode, fun e p hstage => absurd hstage (by simp)⟩
  · exact absurd hstep (by simp)

/-! ### The call that holds a lock -/

lemma PoolInv.write (hs : s.PoolInv) {c : ℕ} {outcome : WriteOutcome}
    (hstep : s.write c outcome = some s') : s'.PoolInv := by
  unfold ConnPool.write at hstep
  split at hstep
  · rename_i i node query hmu
    obtain ⟨x, hx, rfl⟩ := Option.map_eq_some_iff.mp hstep
    obtain ⟨hk, stage, hxmu, hstage⟩ := PooledConn.kept_write hx
    exact hs.setConn_mu hmu hk ((hs.conn c).write hmu rfl hx) hxmu hstage
  · exact absurd hstep (by simp)

lemma PoolInv.receive (hs : s.PoolInv) {c n : ℕ} (hstep : s.receive c n = some s') :
    s'.PoolInv := by
  unfold ConnPool.receive at hstep
  split at hstep
  · rename_i i node query hmu
    obtain ⟨x, hx, rfl⟩ := Option.map_eq_some_iff.mp hstep
    obtain ⟨hk, hxmu⟩ := PooledConn.kept_receive hx
    exact hs.setConn_mu hmu hk ((hs.conn c).receive hmu rfl hx) (hxmu.trans hmu) (by simp)
  · exact absurd hstep (by simp)

lemma PoolInv.readError (hs : s.PoolInv) {c : ℕ} (hbuffer : (s.conns c).buffer = [])
    (hstep : s.readError c = some s') : s'.PoolInv := by
  unfold ConnPool.readError at hstep
  split at hstep
  · rename_i i node query hmu
    obtain ⟨x, hx, rfl⟩ := Option.map_eq_some_iff.mp hstep
    obtain ⟨hk, hxmu⟩ := PooledConn.kept_readError hx
    exact hs.setConn_mu hmu hk ((hs.conn c).readError hmu rfl hbuffer hx) (hxmu.trans hmu) (by simp)
  · exact absurd hstep (by simp)

lemma PoolInv.scan (hs : s.PoolInv) {c : ℕ} (hstep : s.scan c = some s') : s'.PoolInv := by
  unfold ConnPool.scan at hstep
  split at hstep
  · rename_i i node query hmu
    obtain ⟨r, hr, rfl⟩ := Option.map_eq_some_iff.mp hstep
    rcases PooledConn.scan_cases hr with ⟨token, rest, hlines, rfl⟩ | ⟨x, hk, hreused, rfl⟩
    · obtain ⟨hok, hanswered⟩ := (hs.conn c).scan_token hmu rfl hlines
      have hkept : (s.conns c).Kept { s.conns c with buffer := rest, mu := none } :=
        ⟨List.prefix_rfl, List.prefix_rfl, rfl, id⟩
      refine PoolInv.setSend (hs.setConn (hs.holder c _ hmu).made hkept hok fun h hh =>
        absurd hh (by simp)) ⟨c, ?_⟩
      rw [conns_setConn, if_pos rfl]
      exact hanswered.kept hkept
    · refine hs.setConn_mu hmu ⟨hk.requests, hk.replies, hk.node, hk.isOpen⟩
        (PooledConn.ok_scanFailed (hreused.trans (hs.conn c).reused) _) rfl (by simp)
  · exact absurd hstep (by simp)

/-- While its node's pool is in the map, an open connection is in it. -/
lemma PoolInv.mem_of_found (hs : s.PoolInv) {c p : ℕ} (hopen : (s.conns c).isOpen = true)
    (hget : s.pools.get? (s.conns c).node = some p) : c ∈ (s.nodePools p).conns := by
  obtain ⟨p', hmem, hplace⟩ := hs.home c hopen
  rcases hplace with htaken | hfound
  · rw [hs.closed (hs.taken p' htaken), OrdMap.get?_empty] at hget
    exact absurd hget (by simp)
  · obtain rfl := Option.some.inj (hfound.symm.trans hget)
    exact hmem

lemma PoolInv.evict (hs : s.PoolInv) {c : ℕ}
    (hfound : ∀ h, (s.conns c).mu = some h → (s.conns c).isOpen = true →
      s.pools.get? h.node ≠ none)
    (hstep : s.evict c = some s') : s'.PoolInv := by
  unfold ConnPool.evict at hstep
  split at hstep
  · rename_i i node query e hmu
    have hfailed : (s.conns c).failed = true := (hs.conn c).stage _ hmu
    have hholder := hs.holder c _ hmu
    cases hget : s.pools.get? node with
    | none =>
        rw [hget] at hstep
        obtain rfl := Option.some.inj hstep
        have hclosed : (s.conns c).isOpen = false := by
          by_contra hopen
          exact hfound _ hmu (by simpa using hopen) hget
        exact PoolInv.setSend (hs.setConn hholder.made ((s.conns c).kept_setMu _)
          ((hs.conn c).unlock hfailed hclosed) fun h hh => absurd hh (by simp)) trivial
    | some p =>
        rw [hget] at hstep
        obtain rfl := Option.some.inj hstep
        refine hs.setConn hholder.made ((s.conns c).kept_setMu _) ⟨(hs.conn c).reused,
          fun hnone => absurd hnone (by simp), fun h hh => ?_⟩ fun h hh => ?_
        · obtain rfl := Option.some.inj hh
          exact hfailed
        · obtain rfl := Option.some.inj hh
          refine ⟨hholder.made, hholder.node, fun e' p' hstage hopen => ?_⟩
          obtain ⟨-, rfl⟩ := HoldStage.removing.inj hstage
          exact hs.mem_of_found hopen (by rw [hholder.node]; exact hget)
  · exact absurd hstep (by simp)

/-- The failed connection leaves its pool. -/
lemma PoolInv.remove (hs : s.PoolInv) {c : ℕ} (hstep : s.remove c = some s') : s'.PoolInv := by
  unfold ConnPool.remove at hstep
  split at hstep
  · rename_i i node query e p hmu
    have hfailed : (s.conns c).failed = true := (hs.conn c).stage _ hmu
    have hholder := hs.holder c _ hmu
    -- the connection is in the pool and closed now, or was closed before
    have hisOpen : ((s.conns c).isOpen && !decide (c ∈ (s.nodePools p).conns)) = false := by
      by_contra htrue
      simp only [Bool.not_eq_false, Bool.and_eq_true, Bool.not_eq_eq_eq_not, Bool.not_true,
        decide_eq_false_iff_not] at htrue
      exact htrue.2 (hholder.removing e p rfl htrue.1)
    dsimp only at hstep
    rw [hisOpen] at hstep
    obtain rfl := Option.some.inj hstep
    have hclosed : (s.setConn c { s.conns c with isOpen := false, mu := none }).PoolInv :=
      hs.setConn hholder.made ⟨List.prefix_rfl, List.prefix_rfl, rfl, fun h => absurd h (by simp)⟩
        ((hs.conn c).close.unlock hfailed rfl) fun h hh => absurd hh (by simp)
    have hkeep : ∀ c' ∈ (s.nodePools p).conns,
        ((s.setConn c { s.conns c with isOpen := false, mu := none }).conns c').isOpen = true →
          c' ∈ (s.nodePools p).conns.erase c := by
      intro c' hmem hopen
      have hne : c' ≠ c := by
        rintro rfl
        rw [conns_setConn, if_pos rfl] at hopen
        exact absurd hopen (by simp)
      exact (List.mem_erase_of_ne hne).mpr hmem
    have hdrop := @PoolInv.setPool _ hclosed p
      { s.nodePools p with conns := (s.nodePools p).conns.erase c } rfl rfl
      (fun c' => List.mem_of_mem_erase) hkeep
    exact PoolInv.setSend hdrop trivial
  · exact absurd hstep (by simp)

/-! ### Closing -/

lemma PoolInv.closeAll (hs : s.PoolInv) : s.closeAll.PoolInv := by
  have htaken : ∀ p node, s.pools.get? node = some p → p ∈ s.closeAll.taken := by
    intro p node hget
    refine List.mem_append_right _ (List.mem_map.mpr ⟨(node, p), ?_, rfl⟩)
    exact (OrdMap.mem_entries_iff _ _ _).mpr hget
  have hgrows : s.Grows s.closeAll := by
    refine ⟨le_rfl, le_rfl, fun _ _ => rfl, fun p _ node hplace => ?_,
      fun c _ => (s.conns c).kept_setMu _⟩
    rcases hplace with hclosed | hold | hget
    · exact Or.inl hclosed
    · exact Or.inr (Or.inl (List.mem_append_left _ hold))
    · exact Or.inr (Or.inl (htaken p node hget))
  refine ⟨hs.conn, fun c hopen => ?_, hs.member, fun node p hget => absurd hget
    (by simp [ConnPool.closeAll]),
    hs.unmade, hs.undialed, fun _ => rfl, fun _ _ => rfl, fun i => (hs.phase i).grows hs hgrows,
    fun c h hmu => ?_⟩
  · obtain ⟨p, hp, hplace⟩ := hs.home c hopen
    refine ⟨p, hp, Or.inl ?_⟩
    rcases hplace with hold | hget
    · exact List.mem_append_left _ hold
    · exact htaken p _ hget
  · obtain ⟨hmade, hnode, hremoving⟩ := hs.holder c h hmu
    exact ⟨hmade, hnode, hremoving⟩

/-- Closing a node pool closes all its connections, held or not. -/
lemma PoolInv.closePool (hs : s.PoolInv) {p : ℕ} (hstep : s.closePool p = some s') :
    s'.PoolInv := by
  unfold ConnPool.closePool at hstep
  split_ifs at hstep with hp
  obtain rfl := Option.some.inj hstep
  set t : ConnPool := { s.setPool p { s.nodePools p with closed := true, conns := [] } with
    taken := s.taken.erase p
    conns := fun c => if c ∈ (s.nodePools p).conns then { s.conns c with isOpen := false }
      else s.conns c } with ht
  have hself : t.nodePools p = { s.nodePools p with closed := true, conns := [] } :=
    Function.update_self _ _ _
  have hother : ∀ p', p' ≠ p → t.nodePools p' = s.nodePools p' := fun p' hp' =>
    Function.update_of_ne hp' _ _
  have hconn : ∀ c, t.conns c = if c ∈ (s.nodePools p).conns then { s.conns c with isOpen := false }
      else s.conns c := fun _ => rfl
  have hkept : ∀ c, (s.conns c).Kept (t.conns c) ∧ (t.conns c).mu = (s.conns c).mu := by
    intro c
    rw [hconn]
    split_ifs
    · exact ⟨⟨List.prefix_rfl, List.prefix_rfl, rfl, fun h => absurd h (by simp)⟩, rfl⟩
    · exact ⟨(s.conns c).kept_setMu _, rfl⟩
  -- what is open now was not in the closed pool
  have hopen' : ∀ c, (t.conns c).isOpen = true → c ∉ (s.nodePools p).conns := by
    intro c hopen hmem
    rw [hconn, if_pos hmem] at hopen
    exact absurd hopen (by simp)
  have hgrows : s.Grows t := by
    refine ⟨le_rfl, le_rfl, fun p' _ => ?_, fun p' _ node hplace => ?_, fun c _ => (hkept c).1⟩
    · by_cases heq : p' = p
      · rw [heq, hself]
      · rw [hother p' heq]
    · by_cases heq : p' = p
      · rw [heq, hself]
        exact Or.inl rfl
      · rw [hother p' heq]
        exact hplace.imp_right (Or.imp_left (List.mem_erase_of_ne heq).mpr)
  refine ⟨fun c => ?_, fun c hopen => ?_, fun p' c hc => ?_, fun node p' hget => ?_,
    fun p' hp' => ?_,
    fun c hc => ?_, hs.closed, fun p' hp' => hs.taken p' (List.mem_of_mem_erase hp'),
    fun i => (hs.phase i).grows hs hgrows, fun c h hmu => ?_⟩
  · rw [hconn]
    split_ifs
    · exact (hs.conn c).close
    · exact hs.conn c
  · obtain ⟨p', hmem, hplace⟩ := hs.home c ((hkept c).1.isOpen hopen)
    have hne : p' ≠ p := fun heq => hopen' c hopen (heq ▸ hmem)
    refine ⟨p', by rw [hother p' hne]; exact hmem, ?_⟩
    rw [(hkept c).1.node]
    exact hplace.imp_left (List.mem_erase_of_ne hne).mpr
  · by_cases heq : p' = p
    · rw [heq, hself] at hc
      exact absurd hc List.not_mem_nil
    · rw [hother p' heq] at hc ⊢
      obtain ⟨hlt, hnode⟩ := hs.member p' c hc
      exact ⟨hlt, (hkept c).1.node.trans hnode⟩
  · obtain ⟨hlt, hnode⟩ := hs.mapped node p' hget
    exact ⟨hlt, (hgrows.node p' hlt).trans hnode⟩
  · by_cases heq : p' = p
    · rw [heq, hself]
    · rw [hother p' heq]
      exact hs.unmade p' hp'
  · rw [hconn]
    split_ifs
    · exact hs.undialed c hc
    · exact hs.undialed c hc
  · obtain ⟨hmade, hnode, hremoving⟩ := hs.holder c h ((hkept c).2.symm.trans hmu)
    refine ⟨hmade, (hkept c).1.node.trans hnode, fun e p' hstage hopen => ?_⟩
    have hmem := hremoving e p' hstage ((hkept c).1.isOpen hopen)
    have hne : p' ≠ p := fun heq => hopen' c hopen (heq ▸ hmem)
    rw [hother p' hne]
    exact hmem

lemma PoolInv.answer (hs : s.PoolInv) {c : ℕ} {reply : Bytes} {x : PooledConn}
    (hx : (s.conns c).answer reply = some x) : (s.setConn c x).PoolInv := by
  obtain ⟨hk, hmu⟩ := PooledConn.kept_answer hx
  have hc : c < s.connCount := by
    by_contra hc
    rw [PooledConn.answer, hs.undialed c (Nat.le_of_not_lt hc), if_neg (by simp)] at hx
    exact absurd hx (by simp)
  refine hs.setConn hc hk ((hs.conn c).answer hx) fun h hh => ?_
  obtain ⟨hmade, hnode, hremoving⟩ := hs.holder c h (hmu.symm.trans hh)
  exact ⟨hmade, hk.node.trans hnode, fun e p hstage hopen => hremoving e p hstage (hk.isOpen hopen)⟩

/-! ## Main result -/

/-- The event is none of the two races: a read that fails in the middle of a reply, and an eviction
that finds its pool taken by `CloseAll` while the connection is still open. -/
def Careful (s : ConnPool) : PoolEvent → Prop
  | .readError c => (s.conns c).buffer = []
  | .evict c => ∀ h ∈ (s.conns c).mu, (s.conns c).isOpen = true → s.pools.get? h.node ≠ none
  | _ => True

instance (s : ConnPool) (e : PoolEvent) : Decidable (s.Careful e) := by
  unfold Careful
  split <;> infer_instance

/-- Every step keeps the invariant. -/
lemma PoolInv.step (hs : s.PoolInv) {e : PoolEvent} (he : s.Careful e)
    (hstep : s.step e = some s') :
    s'.PoolInv := by
  cases e with
  | send i node query => exact hs.send hstep
  | lookup i => exact hs.lookup hstep
  | insert i => exact hs.insert hstep
  | pick i dialed => exact hs.pick hstep
  | lock i => exact hs.lock hstep
  | write c outcome => exact hs.write hstep
  | receive c n => exact hs.receive hstep
  | readError c => exact hs.readError he hstep
  | scan c => exact hs.scan hstep
  | evict c => exact hs.evict (fun h hmu => he h hmu) hstep
  | remove c => exact hs.remove hstep
  | closeAll =>
      obtain rfl := Option.some.inj hstep
      exact hs.closeAll
  | closePool p => exact hs.closePool hstep
  | answer c reply =>
      obtain ⟨x, hx, rfl⟩ := Option.map_eq_some_iff.mp hstep
      exact hs.answer hx

/-- Every reply returned is the peer's reply to a request that is the caller's query and nothing
else, and nothing was written to a connection after a call failed on it. -/
structure Unmixed (s : ConnPool) : Prop where
  own : ∀ i node query reply, s.sends i = .returned node query (.ok reply) →
    ∃ c, (s.conns c).Answered i query reply
  unused : ∀ c, (s.conns c).reused = false

/-- **Replies are never mixed** in a run without the two races. -/
theorem replies_never_mixed {events : List PoolEvent}
    (hcareful : Machine.Along step Careful new events)
      (hrun : Machine.run step new events = some s) :
    s.Unmixed := by
  have hinv := Machine.run_invariant_along (fun hs he hstep => PoolInv.step hs he hstep) poolInv_new
    hcareful hrun
  refine ⟨fun i node query reply hreturned => ?_, fun c => (hinv.conn c).reused⟩
  have hphase := hinv.phase i
  rw [hreturned] at hphase
  exact hphase

/-- A call that asks `q` and is answered `ab`, up to the events of reading the reply. -/
def sampleCall : List PoolEvent :=
  [.send 0 (bs "n") (bs "q"), .lookup 0, .insert 0, .pick 0 true, .lock 0, .write 0 .complete,
    .answer 0 (bs "ab")]

/-- A batch of three lines sent over the same connection after the first call has its reply, which
arrives in two pieces. -/
def sampleCalls : List PoolEvent :=
  sampleCall ++ [.receive 0 1, .receive 0 2, .scan 0] ++
    [.send 1 (bs "n") (bs "B\nw\nEND"), .lookup 1, .pick 1 false, .lock 1, .write 0 .complete,
      .answer 0 (bs "ok"), .receive 0 3, .scan 0]

/-- The second of two calls that share a connection gets its own reply. -/
theorem replies_never_mixed_sampleCall :
    ∃ s, Machine.run step new sampleCalls = some s ∧
      s.sends 1 = .returned (bs "n") (bs "B\nw\nEND") (.ok (bs "ok")) ∧ s.Unmixed := by
  have hcareful : Machine.Along step Careful new sampleCalls := by decide +kernel
  exact ⟨_, rfl, rfl, replies_never_mixed hcareful rfl⟩

/-- A call fails after one byte of its query while another waits for the connection, and `CloseAll`
takes the pools before the eviction looks for them. -/
def closingRun : List PoolEvent :=
  [.send 0 (bs "n") (bs "qq"), .lookup 0, .insert 0, .pick 0 true,
    .send 1 (bs "n") (bs "r"), .lookup 1, .pick 1 false,
    .lock 0, .write 0 (.torn 1), .closeAll, .evict 0,
    .lock 1, .write 0 .complete, .answer 0 (bs "x"), .receive 0 2, .scan 0]

/-- A timeout after one byte of the reply: the call returns that byte as the reply.  And when the
pool closes: the second call's request starts with the first call's byte, and it returns the answer
to that. -/
theorem replies_mixed :
    (∃ s, Machine.run step new (sampleCall ++ [.receive 0 1, .readError 0, .scan 0]) = some s ∧
      s.sends 0 = .returned (bs "n") (bs "q") (.ok (bs "a")) ∧ ¬ s.Unmixed) ∧
    ∃ s, Machine.run step new closingRun = some s ∧
      s.sends 1 = .returned (bs "n") (bs "r") (.ok (bs "x")) ∧
      (s.conns 0).requests = [⟨bs "qr", [0, 1]⟩] ∧ ¬ s.Unmixed := by
  constructor
  · refine ⟨_, rfl, rfl, fun h => ?_⟩
    obtain ⟨c, k, -, hreply⟩ := h.own 0 (bs "n") (bs "q") (bs "a") rfl
    cases c with
    | zero =>
        have hone : [bs "ab"][k]? = some (bs "a") := hreply
        have hmem := List.mem_of_getElem? hone
        exact absurd hmem (by decide)
    | succ c =>
        have hnone : ([] : List Bytes)[k]? = some (bs "a") := hreply
        exact absurd hnone (by simp)
  · refine ⟨_, rfl, rfl, rfl, fun h => ?_⟩
    exact absurd (h.unused 0) (by decide)

end ConnPool

end FlameDB
