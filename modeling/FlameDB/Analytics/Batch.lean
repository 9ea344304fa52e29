import FlameDB.Query.BatchAccounting

/-!
# Batches on the shared backend

`ExecuteBatchContext` walks through the items: one that cannot be a WRITE fails alone, a replica or
quorum WRITE runs alone, and ordinary WRITEs are copied in chunks of at most `batchSize`.  The
transactions themselves are given by their outcomes.

* **`executeBatchContext_accounts`** — the result accounts for every item.
-/

namespace FlameDB.Analytics

open Go KV

/-- The settings the batch loop reads; `Open` makes the batch size positive. -/
structure BatchSettings where
  batchSize : ℕ
  batchSize_pos : 0 < batchSize
  quorumReplicationFactor : ℕ

/-- Outcomes of the transactions: of an item on its own, and of a chunk given by its first position
and its length, with the items it rejects. -/
structure Transactions where
  mutate : ℕ → Option Bytes
  copyOrdinaryWrites : ℕ → ℕ → (ℕ → Option Bytes) × Option Bytes

/-- The checks of a write before its transaction begins. -/
def validateWrite (e : BatchSettings) (q : Query) : Option Bytes :=
  if q.quorum ∧ e.quorumReplicationFactor = 0 then
    some (bs ("QUORUM is unsupported by the PostgreSQL backend; " ++
      "configure synchronous PostgreSQL replication instead"))
  else if !q.value.isFinite ∨ q.timestamp < 0 then some (bs "invalid write value or timestamp")
  else if q.metric = [] then some (bs "metric is required")
  else none

/-- An item that can share a chunk. -/
def ordinary (e : BatchSettings) : Option Query → Bool
  | none => false
  | some q => q.type = .write ∧ !q.isReplica ∧ !q.quorum ∧ validateWrite e q = none

def rejectItem (r : BatchResult) (i : ℕ) (msg : Bytes) : BatchResult :=
  { r with failed := r.failed + 1, errors := r.errors ++ [(i, msg)] }

def acceptItem (r : BatchResult) : BatchResult := { r with accepted := r.accepted + 1 }

/-- The loop over a chunk: `j` items of it are settled, `n` are left. -/
def settleChunk (start : ℕ) (rejected : ℕ → Option Bytes) (err : Option Bytes) :
    ℕ → ℕ → BatchResult → BatchResult
  | _, 0, r => r
  | j, n + 1, r =>
      settleChunk start rejected err (j + 1) n <|
        match (rejected j).or err with
        | some msg => rejectItem r (start + j) msg
        | none => acceptItem r

/-- The loop of `ExecuteBatchContext` from position `i` on.  Every round settles an item, so the
number of items bounds the rounds. -/
def executeItems (e : BatchSettings) (t : Transactions) :
    ℕ → ℕ → List (Option Query) → BatchResult → BatchResult
  | 0, _, _, r => r
  | _ + 1, _, [], r => r
  | rounds + 1, i, none :: rest, r =>
      executeItems e t rounds (i + 1) rest (rejectItem r i (bs "batch only supports WRITE"))
  | rounds + 1, i, some q :: rest, r =>
      if q.type ≠ .write then
        executeItems e t rounds (i + 1) rest (rejectItem r i (bs "batch only supports WRITE"))
      else
        match validateWrite e q with
        | some msg => executeItems e t rounds (i + 1) rest (rejectItem r i msg)
        | none =>
            if q.isReplica ∨ q.quorum then
              executeItems e t rounds (i + 1) rest <|
                match t.mutate i with
                | some msg => rejectItem r i msg
                | none => acceptItem r
            else
              let n := (((some q :: rest).takeWhile (ordinary e)).take e.batchSize).length
              let (rejected, err) := t.copyOrdinaryWrites i n
              executeItems e t rounds (i + n) ((some q :: rest).drop n)
                (settleChunk i rejected err 0 n r)

/-- The whole batch; it is `ok` when no item failed. -/
def executeBatchContext (e : BatchSettings) (t : Transactions) (queries : List (Option Query)) :
    BatchResult :=
  let r := executeItems e t queries.length 0 queries ⟨true, 0, 0, []⟩
  { r with ok := r.failed = 0 }

/-! ## Accounts

Every item of a batch is accepted or has its error, and chunks keep the account balanced. -/

/-- A result that accounts for the first `i` items. -/
structure Progress (r : BatchResult) (i : ℕ) : Prop where
  total : r.accepted + r.failed = i
  failed : r.errors.length = r.failed
  distinct : (r.errors.map Prod.fst).Nodup
  known : ∀ e ∈ r.errors, e.1 < i

lemma Progress.accept {r : BatchResult} {i : ℕ} (h : Progress r i) :
    Progress (acceptItem r) (i + 1) where
  total := by
    have := h.total
    simp only [acceptItem]
    omega
  failed := h.failed
  distinct := h.distinct
  known e he := Nat.lt_succ_of_lt (h.known e he)

lemma Progress.reject {r : BatchResult} {i : ℕ} (h : Progress r i) (msg : Bytes) :
    Progress (rejectItem r i msg) (i + 1) where
  total := by
    have := h.total
    simp only [rejectItem]
    omega
  failed := by simp [rejectItem, h.failed]
  distinct := by
    simp only [rejectItem, List.map_append, List.map_cons, List.map_nil]
    refine List.Nodup.append h.distinct (List.nodup_singleton _) ?_
    intro x hx hxi
    obtain ⟨e, he, rfl⟩ := List.mem_map.mp hx
    exact absurd (List.mem_singleton.mp hxi) (h.known e he).ne
  known := by
    intro e he
    rcases List.mem_append.mp he with he | he
    · exact Nat.lt_succ_of_lt (h.known e he)
    · rw [List.mem_singleton.mp he]
      exact Nat.lt_succ_self i

lemma Progress.settleChunk (start : ℕ) (rejected : ℕ → Option Bytes) (err : Option Bytes) {j : ℕ}
    (n : ℕ) {r : BatchResult} (h : Progress r (start + j)) :
    Progress (Analytics.settleChunk start rejected err j n r) (start + (j + n)) := by
  induction n generalizing j r with
  | zero => exact h
  | succ n ih =>
    rw [Analytics.settleChunk, show j + (n + 1) = j + 1 + n by omega]
    refine ih ?_
    cases (rejected j).or err with
    | some msg => exact h.reject msg
    | none => exact h.accept

lemma chunk_le (e : BatchSettings) (queries : List (Option Query)) :
    ((queries.takeWhile (ordinary e)).take e.batchSize).length ≤ queries.length :=
  ((List.take_sublist _ _).trans (List.takeWhile_sublist _)).length_le

/-- A chunk holds at least the item it starts with. -/
lemma chunk_pos (e : BatchSettings) {q : Query} (rest : List (Option Query))
    (htype : q.type = .write)
    (halone : ¬ (q.isReplica = true ∨ q.quorum = true)) (hvalid : validateWrite e q = none) :
    0 < (((some q :: rest).takeWhile (ordinary e)).take e.batchSize).length := by
  have hord : ordinary e (some q) = true := by
    simp only [not_or, Bool.not_eq_true] at halone
    simp [ordinary, htype, halone, hvalid]
  rw [List.takeWhile_cons_of_pos hord, List.length_take, List.length_cons]
  exact lt_min e.batchSize_pos (Nat.succ_pos _)

/-- The loop over all chunks, whatever the transactions do. -/
lemma Progress.executeItems (e : BatchSettings) (t : Transactions) {rounds i : ℕ}
    {queries : List (Option Query)} (hrounds : queries.length ≤ rounds) {r : BatchResult}
    (h : Progress r i) :
    Progress (Analytics.executeItems e t rounds i queries r) (i + queries.length) := by
  induction rounds generalizing i queries r with
  | zero =>
    obtain rfl := List.length_eq_zero_iff.mp (Nat.le_zero.mp hrounds)
    exact h
  | succ rounds ih =>
    cases queries with
    | nil => exact h
    | cons item rest =>
      have hrest : rest.length ≤ rounds := Nat.le_of_succ_le_succ hrounds
      have hone : ∀ r', Progress r' (i + 1) →
          Progress (Analytics.executeItems e t rounds (i + 1) rest r') (i + (rest.length + 1)) := by
        intro r' hr'
        have := ih hrest hr'
        rwa [show i + 1 + rest.length = i + (rest.length + 1) by omega] at this
      cases item with
      | none => exact hone _ (h.reject _)
      | some q =>
        rw [Analytics.executeItems]
        by_cases htype : q.type ≠ .write
        · rw [if_pos htype]
          exact hone _ (h.reject _)
        rw [if_neg htype]
        cases hvalid : validateWrite e q with
        | some msg => exact hone _ (h.reject _)
        | none =>
          by_cases halone : q.isReplica = true ∨ q.quorum = true
          · simp only [halone, if_true]
            cases t.mutate i with
            | some msg => exact hone _ (h.reject msg)
            | none => exact hone _ h.accept
          · simp only [halone, if_false]
            have hn := chunk_pos e rest (not_not.mp htype) halone hvalid
            have hle := chunk_le e (some q :: rest)
            generalize (((some q :: rest).takeWhile (ordinary e)).take e.batchSize).length = n
              at hn hle ⊢
            have hchunk := Progress.settleChunk i (t.copyOrdinaryWrites i n).1
              (t.copyOrdinaryWrites i n).2 (j := 0) n h
            rw [Nat.zero_add] at hchunk
            have := @ih (i + n) ((some q :: rest).drop n)
              (by rw [List.length_drop, List.length_cons] at *; omega) _ hchunk
            rwa [List.length_drop, show i + n + ((some q :: rest).length - n) =
              i + (some q :: rest).length by omega] at this

/-- **The result accounts for every item.** -/
theorem executeBatchContext_accounts (e : BatchSettings) (t : Transactions)
    (queries : List (Option Query)) :
    (executeBatchContext e t queries).Accounts queries.length := by
  have hstart : Progress ⟨true, 0, 0, []⟩ 0 := ⟨rfl, rfl, List.nodup_nil, by simp⟩
  have h := hstart.executeItems e t (le_refl queries.length)
  rw [Nat.zero_add] at h
  exact ⟨h.total, h.failed, h.distinct, h.known, by simp [executeBatchContext]⟩

end FlameDB.Analytics
