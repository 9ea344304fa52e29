import FlameDB.Server.Shared

/-!
# Accounts of WRITE_BATCH

Every line of a batch ends up in exactly one group, and every group adds to the reply what it owes
for its lines.  `Tally` keeps the books: the lines answered for so far, those of them that failed,
and the reply that says so.

* `failedLines`, `sharedFailures` — the lines that failed, by cause.
* **`writeBatch_accounts`** — the replies of both servers account for every line of the body, and
  their errors name the lines that failed.
-/

namespace FlameDB

open Go KV

/-- A reply that accounts for `n` lines: one error, under its own position, for each failed one. -/
structure BatchReply.Accounts (r : BatchReply) (n : ℕ) : Prop where
  total : r.accepted + r.failed = n
  count : (r.errors.length : ℤ) = r.failed
  distinct : (r.errors.map Prod.fst).Nodup
  known : ∀ e ∈ r.errors, 0 ≤ e.1 ∧ e.1 < n
  ok : r.ok = true ↔ r.failed = 0

/-- The order of the errors does not matter. -/
lemma BatchReply.Accounts.perm {r : BatchReply} {n : ℕ} (h : r.Accounts n)
    {errors : List (ℤ × Bytes)} (hperm : errors.Perm r.errors) :
    BatchReply.Accounts { r with errors := errors } n where
  total := h.total
  count := by
    show (errors.length : ℤ) = r.failed
    rw [hperm.length_eq, h.count]
  distinct := (hperm.map Prod.fst).nodup_iff.mpr h.distinct
  known e he := h.known e (hperm.mem_iff.mp he)
  ok := h.ok

/-- The books of a batch in progress: the lines answered for, the failed ones among them. -/
structure Tally (lines failed : List ℕ) (r : BatchReply) : Prop where
  total : r.accepted + r.failed = lines.length
  count : r.failed = failed.length
  errors : r.errors.map Prod.fst = failed.map Int.ofNat
  failed_subperm : failed.Subperm lines
  ok : r.ok = true

namespace Tally

variable {lines failed : List ℕ} {r : BatchReply}

lemma empty : Tally [] [] {} := ⟨rfl, rfl, rfl, List.nil_subperm, rfl⟩

/-- A group of lines with its own share of the reply. -/
lemma group (h : Tally lines failed r) {part partFailed : List ℕ} {accepted rejected : ℤ}
    {errors : List (ℤ × Bytes)} (htotal : accepted + rejected = part.length)
    (hcount : rejected = partFailed.length)
    (herrors : errors.map Prod.fst = partFailed.map Int.ofNat) (hsub : partFailed.Subperm part) :
    Tally (lines ++ part) (failed ++ partFailed)
      { r with
        accepted := r.accepted + accepted
        failed := r.failed + rejected
        errors := r.errors ++ errors } where
  total := by
    have := h.total
    simp only [List.length_append, Nat.cast_add]
    omega
  count := by simp [h.count, hcount]
  errors := by simp [h.errors, herrors]
  failed_subperm := h.failed_subperm.append hsub
  ok := h.ok

lemma fail (h : Tally lines failed r) (i : ℕ) (msg : Bytes) :
    Tally (lines ++ [i]) (failed ++ [i]) (r.fail i msg) where
  total := by
    have := h.total
    simp only [BatchReply.fail, List.length_append, List.length_singleton, Nat.cast_add]
    omega
  count := by simp [BatchReply.fail, h.count]
  errors := by simp [BatchReply.fail, h.errors]
  failed_subperm := h.failed_subperm.append (List.Subperm.refl _)
  ok := h.ok

/-- A group of lines that fail together. -/
lemma failAll (h : Tally lines failed r) {α : Type} (index : α → ℕ) (items : List α) (msg : Bytes) :
    Tally (lines ++ items.map index) (failed ++ items.map index)
      (items.foldl (fun r item => r.fail (index item) msg) r) := by
  induction items generalizing lines failed r with
  | nil => simpa using h
  | cons item rest ih =>
    have := ih (h.fail (index item) msg)
    rwa [List.append_assoc, List.append_assoc] at this

/-- Lines that were accepted and fail after all. -/
lemma revoke (h : Tally lines failed r) (items : List LocalItem) (msg : Bytes)
    (hsub : (failed ++ items.map LocalItem.index).Subperm lines) :
    Tally lines (failed ++ items.map LocalItem.index)
      (items.foldl (fun r item =>
        { r.fail item.index msg with accepted := r.accepted - 1 }) r) := by
  induction items generalizing failed r with
  | nil => simpa using h
  | cons item rest ih =>
    have hstep : Tally lines (failed ++ [item.index])
        { r.fail item.index msg with accepted := r.accepted - 1 } := by
      refine ⟨?_, by simp [BatchReply.fail, h.count], by simp [BatchReply.fail, h.errors], ?_, h.ok⟩
      · have := h.total
        simp only [BatchReply.fail]
        omega
      · refine List.Subperm.trans (List.Sublist.subperm ?_) hsub
        simp
    have := ih hstep (by simpa using hsub)
    rwa [List.append_assoc] at this

/-- Books over all lines of a body are accounts, once `ok` is set. -/
lemma accounts {n : ℕ} (h : Tally lines failed r) (hlines : lines.Perm (List.range n)) {ok : Bool}
    (hok : ok = true ↔ r.failed = 0) : BatchReply.Accounts { r with ok := ok } n ∧
      ∀ k : ℕ, (k : ℤ) ∈ r.errors.map Prod.fst ↔ k ∈ failed := by
  have hmem : ∀ k ∈ failed, k < n := fun k hk =>
    List.mem_range.mp (hlines.mem_iff.mp (h.failed_subperm.subset hk))
  have hnodup : failed.Nodup := by
    obtain ⟨l, hperm, hsub⟩ := h.failed_subperm
    exact hperm.nodup_iff.mp ((hlines.nodup_iff.mpr List.nodup_range).sublist hsub)
  refine ⟨⟨?_, ?_, ?_, ?_, hok⟩, fun k => ?_⟩
  · show r.accepted + r.failed = n
    rw [h.total, hlines.length_eq, List.length_range]
  · show (r.errors.length : ℤ) = r.failed
    rw [h.count, ← List.length_map, h.errors, List.length_map]
  · show (r.errors.map Prod.fst).Nodup
    rw [h.errors]
    exact hnodup.map Int.ofNat_injective
  · intro e he
    have : e.1 ∈ failed.map Int.ofNat := h.errors ▸ List.mem_map_of_mem he
    obtain ⟨k, hk, heq⟩ := List.mem_map.mp this
    have hlt := hmem k hk
    rw [← heq]
    exact ⟨Int.natCast_nonneg k, Int.ofNat_lt.mpr hlt⟩
  · rw [h.errors]
    exact List.mem_map_of_injective Int.ofNat_injective

end Tally

lemma filterMap_range_index {α : Type} (items : List α) (index : α → ℕ) :
    ((List.range items.length).filterMap fun k => items[k]?.map index) = items.map index := by
  induction items with
  | nil => rfl
  | cons a items ih =>
    rw [List.length_cons, List.range_succ_eq_map, List.filterMap_cons, List.filterMap_map,
      List.map_cons]
    exact congrArg (index a :: ·) ih

/-- Distinct positions of a part name distinct lines of it. -/
lemma subperm_of_positions {α : Type} (items : List α) (index : α → ℕ) {ks : List ℕ}
    (hnodup : ks.Nodup) (hlt : ∀ k ∈ ks, k < items.length) :
    (ks.filterMap fun k => items[k]?.map index).Subperm (items.map index) := by
  rw [← filterMap_range_index items index]
  obtain ⟨l, hperm, hsub⟩ := List.subperm_of_subset hnodup
    (fun k hk => List.mem_range.mpr (hlt k hk))
  exact ⟨l.filterMap _, hperm.filterMap _, hsub.filterMap _⟩

/-- Positions inside the part, with any value for those outside. -/
lemma filterMap_positions {α : Type} (items : List α) (index : α → ℕ) (d : ℕ → ℕ) {ks : List ℕ}
    (hlt : ∀ k ∈ ks, k < items.length) :
    (ks.filterMap fun k => items[k]?.map index) = ks.map fun k =>
      (items[k]?.map index).getD (d k) := by
  induction ks with
  | nil => rfl
  | cons k rest ih =>
    have hk := hlt k List.mem_cons_self
    have hget : items[k]? = some items[k] := List.getElem?_eq_getElem hk
    rw [List.filterMap_cons, List.map_cons, ih fun x hx => hlt x (List.mem_cons_of_mem k hx), hget]
    rfl

/-! ## The clustered server

Lines are executed here, sent to other nodes or rejected. Errors come back at the position of their
line. -/

section Clustered

variable (env : BatchEnv) (internal quorum : Bool)

/-- The lines refused while routing. -/
def rejectedLines : ℕ → List Bytes → List ℕ
  | _, [] => []
  | i, line :: rest =>
      match routeItem env internal quorum i line with
      | .rejected _ => i :: rejectedLines (i + 1) rest
      | _ => rejectedLines (i + 1) rest

/-- The lines of one remote group that failed: all of them, or those its reply names. -/
def groupFailures (header : Bytes) (group : Node × List RemoteItem) : List ℕ :=
  match upstreamBatchResult (env.send group.1 (batchLines header group.2)) with
  | .error _ => group.2.map RemoteItem.index
  | .ok (_, errors) =>
      (errors.map fun e => e.1.toNat).filterMap fun k => group.2[k]?.map RemoteItem.index

/-- The lines executed here that failed: those the engine rejects, and those sent to replication if
that fails. -/
def localFailures (s : ServerState) (items : List LocalItem) : List ℕ :=
  let result := (executeBatch env.commit s.exec (localQueries env items)).2
  let replicated := replicationItems env s.exec items
  let err := (replicateBatch env.replicating env.weather s.replicator
    (replicated.map replicationItem)).2
  (localErrors items result).map Prod.fst ++
    if err.isSome then replicated.map LocalItem.index else []

/-- The lines of a body that failed. -/
def failedLines (s : ServerState) (header : Bytes) (lines : List Bytes) : List ℕ :=
  let quorum := contains (toUpper header) (bs "QUORUM")
  let work := routeLines env internal quorum 0 lines {}
  rejectedLines env internal quorum 0 lines ++ work.remote.flatMap (groupFailures env header) ++
    if work.localItems = [] then [] else localFailures env s work.localItems

/-- The lines waiting in the groups. -/
def BatchWork.positions (work : BatchWork) : List ℕ :=
  work.remote.flatMap (fun group => group.2.map RemoteItem.index) ++
    work.localItems.map LocalItem.index

lemma positions_addRemote (node : Node) (item : RemoteItem)
    (remote : List (Node × List RemoteItem)) :
    ((addRemote node item remote).flatMap fun group => group.2.map RemoteItem.index).Perm
      (remote.flatMap (fun group => group.2.map RemoteItem.index) ++ [item.index]) := by
  induction remote with
  | nil => exact List.Perm.refl _
  | cons group rest ih =>
    obtain ⟨n, items⟩ := group
    rw [addRemote]
    split_ifs
    · simp only [List.flatMap_cons, List.map_append, List.map_cons, List.map_nil,
        List.append_assoc]
      exact List.perm_append_comm.append_left _
    · simp only [List.flatMap_cons, List.append_assoc]
      exact ih.append_left _

/-- Routing rejects a line or passes it on, each position once. -/
lemma routeLines_tally (i : ℕ) (lines : List Bytes) {work : BatchWork} {rejected : List ℕ}
    (h : Tally rejected rejected work.reply) :
    Tally (rejected ++ rejectedLines env internal quorum i lines)
        (rejected ++ rejectedLines env internal quorum i lines)
        (routeLines env internal quorum i lines work).reply ∧
      (rejected ++ rejectedLines env internal quorum i lines ++
        (routeLines env internal quorum i lines work).positions).Perm
        (rejected ++ work.positions ++ List.range' i lines.length) := by
  induction lines generalizing i work rejected with
  | nil => simpa [routeLines, rejectedLines] using h
  | cons line rest ih =>
    rw [routeLines, rejectedLines, List.length_cons, List.range'_succ]
    cases routeItem env internal quorum i line with
    | rejected msg =>
      obtain ⟨htally, hperm⟩ := @ih (i + 1) { work with reply := work.reply.fail i msg } _
        (h.fail i msg)
      simp only [List.append_assoc, List.singleton_append] at htally hperm
      refine ⟨htally, ?_⟩
      simp only [List.append_assoc, List.cons_append]
      exact hperm.trans (List.perm_middle.symm.append_left _)
    | remote node line =>
      obtain ⟨htally, hperm⟩ := @ih (i + 1)
        { work with remote := addRemote node ⟨i, line⟩ work.remote } _ h
      refine ⟨htally, hperm.trans ?_⟩
      have hgroup := positions_addRemote node ⟨i, line⟩ work.remote
      simp only [BatchWork.positions, List.append_assoc]
      refine List.Perm.append_left _ ((hgroup.append_right _).trans ?_)
      simp only [List.append_assoc, List.singleton_append]
      exact List.perm_middle.symm.append_left _
    | executed q =>
      obtain ⟨htally, hperm⟩ := @ih (i + 1)
        { work with localItems := work.localItems ++ [⟨i, line, q⟩] } _ h
      refine ⟨htally, hperm.trans ?_⟩
      simp [BatchWork.positions]

lemma remapIndex_known (items : List RemoteItem) {errors : List (ℤ × Bytes)}
    (h : ∀ e ∈ errors, 0 ≤ e.1 ∧ e.1 < items.length) :
    (errors.map fun e => remapIndex items e.1) =
      ((errors.map fun e => e.1.toNat).filterMap fun k => items[k]?.map RemoteItem.index).map
        Int.ofNat := by
  have hlt : ∀ k ∈ errors.map fun e => e.1.toNat, k < items.length := by
    intro k hk
    obtain ⟨e, he, rfl⟩ := List.mem_map.mp hk
    have := h e he
    omega
  rw [filterMap_positions items RemoteItem.index (fun _ => 0) hlt, List.map_map, List.map_map]
  refine List.map_congr_left fun e he => ?_
  have hget : items[e.1.toNat]? = some _ :=
    List.getElem?_eq_getElem (hlt _ (List.mem_map_of_mem he))
  rw [remapIndex, if_pos (h e he).1, Function.comp_apply, Function.comp_apply, hget]
  rfl

/-- The other nodes keep the contract: a batch reply accounts for the lines that were sent, which
stand between the header and `END`. -/
def UpstreamContract : Prop :=
  ∀ node lines r, env.send node lines = .reply r → r.Accounts (lines.length - 2)

variable {env}

/-- The replies of other nodes, put back into the positions of this batch. -/
lemma sendRemote_tally (henv : UpstreamContract env) (header : Bytes)
    (remote : List (Node × List RemoteItem)) {lines failed : List ℕ} {r : BatchReply}
    (h : Tally lines failed r) :
    Tally (lines ++ remote.flatMap fun group => group.2.map RemoteItem.index)
      (failed ++ remote.flatMap (groupFailures env header)) (sendRemote env header remote r) := by
  induction remote generalizing lines failed r with
  | nil => simpa [sendRemote] using h
  | cons group rest ih =>
    obtain ⟨node, items⟩ := group
    rw [sendRemote, List.flatMap_cons, List.flatMap_cons, ← List.append_assoc, ← List.append_assoc]
    refine ih ?_
    rw [groupFailures]
    cases hsend : env.send node (batchLines header items) with
    | unreachable msg => exact h.failAll RemoteItem.index items msg
    | refused msg => exact h.failAll RemoteItem.index items msg
    | garbled => exact h.failAll RemoteItem.index items _
    | reply reply =>
      have hacc := henv node _ reply hsend
      rw [show (batchLines header items).length - 2 = items.length by simp [batchLines]] at hacc
      have herrors := remapIndex_known items hacc.known
      have hlen := congrArg List.length herrors
      rw [List.length_map, List.length_map] at hlen
      have hnodup : (reply.errors.map fun e => e.1.toNat).Nodup := by
        have hinj : ∀ x ∈ reply.errors.map Prod.fst, ∀ y ∈ reply.errors.map Prod.fst,
            x.toNat = y.toNat → x = y := by
          intro x hx y hy hxy
          obtain ⟨e, he, rfl⟩ := List.mem_map.mp hx
          obtain ⟨e', he', rfl⟩ := List.mem_map.mp hy
          have := (hacc.known e he).1
          have := (hacc.known e' he').1
          omega
        have := hacc.distinct.map_on hinj
        rwa [List.map_map] at this
      have hlt : ∀ k ∈ reply.errors.map fun e => e.1.toNat, k < items.length := by
        intro k hk
        obtain ⟨e, he, rfl⟩ := List.mem_map.mp hk
        have := hacc.known e he
        omega
      have htotal := hacc.total
      have hcount := hacc.count
      refine h.group ?_ ?_ (by rw [List.map_map]; exact herrors)
        (subperm_of_positions items RemoteItem.index hnodup hlt)
      · rw [List.length_map]
        show reply.accepted + ((items.length : ℤ) - reply.accepted) = items.length
        omega
      · show (items.length : ℤ) - reply.accepted =
          ((reply.errors.map fun e => e.1.toNat).filterMap
            fun k => items[k]?.map RemoteItem.index).length
        omega

/-- The positions of the local errors, in the numbering of the body. -/
lemma localErrors_fst (items : List LocalItem) {result : BatchResult}
    (h : ∀ k ∈ result.errors.map Prod.fst, k < items.length) :
    (localErrors items result).map Prod.fst =
      (result.errors.map Prod.fst).filterMap fun k => items[k]?.map LocalItem.index := by
  rw [filterMap_positions items LocalItem.index (fun _ => 0) h, localErrors, List.map_map,
    List.map_map]
  rfl

lemma stampedItems_index (s : Executor) (items : List LocalItem) :
    (stampedItems env s items).map LocalItem.index = items.map LocalItem.index := by
  refine List.ext_getElem? fun i => ?_
  simp only [stampedItems, List.getElem?_map, List.getElem?_mapIdx, Option.map_map]
  refine congrFun (congrArg Option.map (funext fun item => ?_)) _
  simp only [Function.comp_apply]
  split <;> rfl

/-- The replicated lines are lines executed here that had no error. -/
lemma replicationItems_subperm (env : BatchEnv) (s : Executor) {items : List LocalItem}
    (hnodup : (items.map LocalItem.index).Nodup)
    (hsub : ((localErrors items (executeBatch env.commit s (localQueries env items)).2).map
      Prod.fst).Subperm (items.map LocalItem.index)) :
    ((localErrors items (executeBatch env.commit s (localQueries env items)).2).map Prod.fst ++
      (replicationItems env s items).map LocalItem.index).Subperm (items.map LocalItem.index) := by
  have hlist : ((replicationItems env s items).map LocalItem.index).Sublist
      (items.map LocalItem.index) := by
    rw [← stampedItems_index s items]
    exact List.filter_sublist.map _
  have herrors : ((localErrors items (executeBatch env.commit s (localQueries env items)).2).map
      Prod.fst).Nodup := by
    obtain ⟨l, hperm, hl⟩ := hsub
    exact hperm.nodup_iff.mp (hnodup.sublist hl)
  refine List.subperm_of_subset (herrors.append (hnodup.sublist hlist) ?_) ?_
  · intro k hk hk'
    obtain ⟨item, hitem, rfl⟩ := List.mem_map.mp hk'
    have hkept := (List.mem_filter.mp hitem).2
    simp only [replicatesHere, decide_eq_true_eq] at hkept
    exact hkept.1 hk
  · intro k hk
    rcases List.mem_append.mp hk with hk | hk
    · exact hsub.subset hk
    · exact hlist.subset hk

/-- The writes of this node. -/
lemma runLocal_tally (s : ServerState) {items : List LocalItem} (hitems : items ≠ [])
    (hnodup : (items.map LocalItem.index).Nodup) {lines failed : List ℕ} {r : BatchReply}
    (h : Tally lines failed r) :
    Tally (lines ++ items.map LocalItem.index) (failed ++ localFailures env s items)
      (runLocal env s items r).2 := by
  have hacc := executeBatch_accounts env.commit s.exec (localQueries env items)
  rw [show (localQueries env items).length = items.length from List.length_map ..] at hacc
  have hknown : ∀ k ∈ ((executeBatch env.commit s.exec (localQueries env items)).2.errors).map
      Prod.fst, k < items.length := by
    intro k hk
    obtain ⟨e, he, rfl⟩ := List.mem_map.mp hk
    exact hacc.known e he
  have hsub := subperm_of_positions items LocalItem.index hacc.distinct hknown
  rw [← localErrors_fst items hknown] at hsub
  have hreplicated := replicationItems_subperm env s.exec hnodup hsub
  rw [runLocal, if_neg hitems, localFailures]
  rcases hexec : executeBatch env.commit s.exec (localQueries env items) with ⟨exec, result⟩
  simp only [hexec] at hacc hsub hreplicated ⊢
  have hgroup : Tally (lines ++ items.map LocalItem.index)
      (failed ++ (localErrors items result).map Prod.fst)
      { r with
        accepted := r.accepted + result.accepted
        failed := r.failed + result.failed
        errors := r.errors ++ (localErrors items result).map fun e => ((e.1 : ℤ), e.2) } := by
    refine h.group ?_ ?_ (by simp) hsub
    · rw [List.length_map, ← hacc.total]
      push_cast
      rfl
    · rw [List.length_map, localErrors, List.length_map, hacc.failed]
  cases (replicateBatch env.replicating env.weather s.replicator
      ((replicationItems env s.exec items).map replicationItem)).2 with
  | none => simpa using hgroup
  | some msg =>
    have := hgroup.revoke (replicationItems env s.exec items) msg (by
      rw [List.append_assoc]
      exact h.failed_subperm.append hreplicated)
    simpa [List.append_assoc] using this

/-- The clustered reply accounts for its lines and names the failed ones. -/
theorem handleWriteBatch_accounts (henv : UpstreamContract env) (s : ServerState) (header : Bytes)
    (lines : List Bytes) (internal : Bool) :
    (handleWriteBatch env s header lines internal).2.Accounts lines.length ∧
      ∀ k : ℕ, (k : ℤ) ∈ (handleWriteBatch env s header lines internal).2.errors.map Prod.fst ↔
        k ∈ failedLines env internal s header lines := by
  obtain ⟨hroute, hperm⟩ := @routeLines_tally env internal
    (contains (toUpper header) (bs "QUORUM")) 0 lines {} [] Tally.empty
  rw [handleWriteBatch, failedLines]
  generalize contains (toUpper header) (bs "QUORUM") = quorum at hroute hperm ⊢
  generalize routeLines env internal quorum 0 lines {} = work at hroute hperm ⊢
  have hremote := sendRemote_tally henv header work.remote hroute
  rw [BatchWork.positions, ← List.append_assoc, ← List.range_eq_range'] at hperm
  simp only [List.nil_append] at hremote hperm
  have hall : (rejectedLines env internal quorum 0 lines ++
      work.remote.flatMap (fun group => group.2.map RemoteItem.index) ++
      work.localItems.map LocalItem.index).Perm (List.range lines.length) := by
    simpa [BatchWork.positions] using hperm
  have hnodup := (List.nodup_append.mp (hall.nodup_iff.mpr List.nodup_range)).2.1
  -- both cases end in books over all lines
  have hbooks : Tally (rejectedLines env internal quorum 0 lines ++
        work.remote.flatMap (fun group => group.2.map RemoteItem.index) ++
        work.localItems.map LocalItem.index)
      (rejectedLines env internal quorum 0 lines ++ work.remote.flatMap
        (groupFailures env header) ++
        if work.localItems = [] then [] else localFailures env s work.localItems)
      (runLocal env s work.localItems (sendRemote env header work.remote work.reply)).2 := by
    by_cases hlocal : work.localItems = []
    · rw [hlocal, runLocal, if_pos rfl, if_pos rfl]
      simpa using hremote
    · rw [if_neg hlocal]
      exact runLocal_tally s hlocal hnodup hremote
  generalize runLocal env s work.localItems (sendRemote env header work.remote work.reply) = out
    at hbooks ⊢
  obtain ⟨s', r⟩ := out
  have hcount := hbooks.count
  by_cases hfailed : 0 < r.failed
  · simp only [hfailed, if_true]
    exact hbooks.accounts hall (by simp; omega)
  · simp only [hfailed, if_false]
    have hok : r.ok = true := hbooks.ok
    have hzero : r.failed = 0 := by
      simp only at hcount
      omega
    have haccounts : BatchReply.Accounts { r with ok := r.ok } lines.length ∧ _ :=
      hbooks.accounts hall (iff_of_true hok hzero)
    exact haccounts

end Clustered

/-! ## The shared server -/

section Shared

variable (env : SharedEnv) (quorum internal : Bool)

/-- The lines refused by the checks. -/
def sharedRejected : ℕ → List Bytes → List ℕ
  | _, [] => []
  | i, line :: rest =>
      match checkSharedItem env quorum internal i line with
      | .error _ => i :: sharedRejected (i + 1) rest
      | .ok _ => sharedRejected (i + 1) rest

/-- The lines of a body that failed: refused ones, and those the backend rejects. -/
def sharedFailures (lines : List Bytes) : List ℕ :=
  let kept := (checkShared env quorum internal 0 lines {} []).2
  sharedRejected env quorum internal 0 lines ++
    if kept = [] then []
    else
      match env.refusal with
      | some _ => kept.map Prod.fst
      | none =>
          let result := Analytics.executeBatchContext env.settings env.transactions
            (kept.map fun iq => some iq.2)
          (result.errors.map Prod.fst).filterMap fun k => kept[k]?.map Prod.fst

/-- The checks reject a line or keep it. -/
lemma checkShared_tally (i : ℕ) (lines : List Bytes) {out : BatchReply} {kept : List (ℕ × Query)}
    {rejected : List ℕ} (h : Tally rejected rejected out) :
    Tally (rejected ++ sharedRejected env quorum internal i lines)
        (rejected ++ sharedRejected env quorum internal i lines)
        (checkShared env quorum internal i lines out kept).1 ∧
      (rejected ++ sharedRejected env quorum internal i lines ++
        (checkShared env quorum internal i lines out kept).2.map Prod.fst).Perm
        (rejected ++ kept.map Prod.fst ++ List.range' i lines.length) := by
  induction lines generalizing i out kept rejected with
  | nil => simpa [checkShared, sharedRejected] using h
  | cons line rest ih =>
    rw [checkShared, sharedRejected, List.length_cons, List.range'_succ]
    cases checkSharedItem env quorum internal i line with
    | error msg =>
      obtain ⟨htally, hperm⟩ := @ih (i + 1) _ kept _ (h.fail i msg)
      simp only [List.append_assoc, List.singleton_append] at htally hperm
      refine ⟨htally, ?_⟩
      simp only [List.append_assoc, List.cons_append]
      exact hperm.trans (List.perm_middle.symm.append_left _)
    | ok q =>
      obtain ⟨htally, hperm⟩ := @ih (i + 1) out (kept ++ [(i, q)]) _ h
      refine ⟨htally, hperm.trans ?_⟩
      simp

/-- The shared reply accounts for its lines and names the failed ones. -/
theorem handleSharedBatch_accounts (lines : List Bytes) :
    (handleSharedBatch env lines quorum internal).Accounts lines.length ∧
      ∀ k : ℕ, (k : ℤ) ∈ (handleSharedBatch env lines quorum internal).errors.map Prod.fst ↔
        k ∈ sharedFailures env quorum internal lines := by
  obtain ⟨hcheck, hperm⟩ := @checkShared_tally env quorum internal 0 lines {} [] [] Tally.empty
  rw [handleSharedBatch, sharedFailures]
  generalize checkShared env quorum internal 0 lines {} [] = checked at hcheck hperm ⊢
  obtain ⟨out, kept⟩ := checked
  have hall : (sharedRejected env quorum internal 0 lines ++ kept.map Prod.fst).Perm
      (List.range lines.length) := by
    simpa [← List.range_eq_range'] using hperm
  simp only [List.nil_append] at hcheck
  have hsorted : ∀ {r : BatchReply} {failed : List ℕ},
      Tally (sharedRejected env quorum internal 0 lines ++ kept.map Prod.fst) failed r →
      BatchReply.Accounts { r with
        errors := r.errors.insertionSort fun a b => a.1 ≤ b.1
        ok := decide (r.failed = 0) } lines.length ∧
      ∀ k : ℕ, (k : ℤ) ∈ (r.errors.insertionSort fun a b => a.1 ≤ b.1).map Prod.fst ↔
        k ∈ failed := by
    intro r failed hbooks
    obtain ⟨haccounts, hnames⟩ := hbooks.accounts hall (decide_eq_true_iff (p := r.failed = 0))
    have hsort := List.perm_insertionSort (fun a b : ℤ × Bytes => a.1 ≤ b.1) r.errors
    exact ⟨haccounts.perm hsort, fun k => (hsort.map Prod.fst).mem_iff.trans (hnames k)⟩
  by_cases hkept : kept = []
  · simp only [hkept, if_true, List.append_nil]
    refine hsorted ?_
    rw [hkept]
    simpa using hcheck
  simp only [hkept, if_false]
  cases env.refusal with
  | some msg => exact hsorted (hcheck.failAll Prod.fst kept msg)
  | none =>
    have hacc := Analytics.executeBatchContext_accounts env.settings env.transactions
      (kept.map fun iq => some iq.2)
    rw [List.length_map] at hacc
    have hknown : ∀ k ∈ (Analytics.executeBatchContext env.settings env.transactions
        (kept.map fun iq => some iq.2)).errors.map Prod.fst, k < kept.length := by
      intro k hk
      obtain ⟨e, he, rfl⟩ := List.mem_map.mp hk
      exact hacc.known e he
    have hfst := filterMap_positions kept Prod.fst (fun k => k) hknown
    refine hsorted (hcheck.group ?_ ?_ ?_
      (subperm_of_positions kept Prod.fst hacc.distinct hknown))
    · rw [List.length_map, ← hacc.total]
      push_cast
      rfl
    · rw [hfst, List.length_map, List.length_map, hacc.failed]
    · rw [hfst, List.map_map, List.map_map, List.map_map]
      rfl

end Shared

/-- The lines of a body as they are read: trimmed, without the empty ones. -/
def bodyLines (body : List Bytes) : List Bytes := (body.map trimSpace).filter fun line => line ≠ []

/-- **Both servers account for every line of a WRITE_BATCH.**  Accepted and failed lines add up to
the non-empty lines of the body, every failed line has one error under its own position, and `ok` is
set exactly when nothing failed. -/
theorem writeBatch_accounts (env : BatchEnv) (henv : UpstreamContract env) (shared : SharedEnv)
    (s : ServerState) (header : Bytes) (body : List Bytes) (internal : Bool) :
    let lines := bodyLines body
    let quorum := contains (toUpper header) (bs "QUORUM")
    ((handleWriteBatch env s header lines internal).2.Accounts lines.length ∧
      ∀ k : ℕ, (k : ℤ) ∈ (handleWriteBatch env s header lines internal).2.errors.map Prod.fst ↔
        k ∈ failedLines env internal s header lines) ∧
    (handleSharedBatch shared lines quorum internal).Accounts lines.length ∧
      ∀ k : ℕ, (k : ℤ) ∈ (handleSharedBatch shared lines quorum internal).errors.map Prod.fst ↔
        k ∈ sharedFailures shared quorum internal lines :=
  ⟨handleWriteBatch_accounts henv s header _ internal,
    handleSharedBatch_accounts shared _ internal _⟩

/-- A node `a` of two, primary for every metric but `far`; the other node accepts all it is sent. -/
def sampleCluster : Cluster where
  self := ⟨bs "a", []⟩
  replicationFactor := 2
  ring metric _ :=
    if metric = bs "far" then [⟨bs "b", []⟩, ⟨bs "a", []⟩] else [⟨bs "a", []⟩, ⟨bs "b", []⟩]

def sampleBatchEnv : BatchEnv where
  now _ := 0
  cluster _ := sampleCluster
  operationID _ := bs "op"
  send _ lines := .reply { accepted := ((lines.length - 2 : ℕ) : ℤ) }
  clock _ := 1
  commit := none
  later _ := sampleCluster
  replicating := sampleCluster
  weather := ⟨fun _ => none, fun _ => false, fun _ => .acknowledged⟩

def sampleSharedEnv : SharedEnv where
  now _ := 0
  refusal := none
  settings := ⟨1000, by decide, 0⟩
  transactions := ⟨fun _ => none, fun _ _ => (fun _ => none, none)⟩

/-- A batch with a blank line, a line that is no write and a line of another node. -/
def sampleBody : List Bytes := [bs "WRITE m 1", bs "  ", bs "GET m", bs "WRITE far 2 "]

/-- Both servers account for the three lines that are not blank. -/
theorem writeBatch_accounts_sample :
    (handleWriteBatch sampleBatchEnv ⟨⟨0, ∅⟩, {}⟩ (bs "WRITE_BATCH") (bodyLines sampleBody)
      false).2.Accounts 3 ∧
    (handleSharedBatch sampleSharedEnv (bodyLines sampleBody) false false).Accounts 3 := by
  have henv : UpstreamContract sampleBatchEnv := by
    rintro node lines r hr
    obtain rfl : _ = r := Upstream.reply.inj hr
    exact ⟨by simp, rfl, List.nodup_nil, by simp, by simp⟩
  have hlen : (bodyLines sampleBody).length = 3 := by decide +kernel
  have hquorum : contains (toUpper (bs "WRITE_BATCH")) (bs "QUORUM") = false := by decide +kernel
  have h := writeBatch_accounts sampleBatchEnv henv sampleSharedEnv ⟨⟨0, ∅⟩, {}⟩ (bs "WRITE_BATCH")
    sampleBody false
  simp only [hlen, hquorum] at h
  exact ⟨h.1.1, h.2.1⟩

end FlameDB
