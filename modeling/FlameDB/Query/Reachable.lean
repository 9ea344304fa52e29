import FlameDB.Query.BatchRefinement
import FlameDB.Query.Lines

/-!
# Stores reachable through the executor

A store starts empty and is changed by mutations, by batches of writes, and by the workers that keep
the cardinality counters and the replication outbox, whose keys no query result depends on.

`Reachable P` are the executors reached by runs in which every query has the property `P`.

* `Reachable.inv` — every reachable store is sound and its score keys are those of some map;
* `Reachable.index_matches_events` — the tag index holds exactly the tags of the stored events;
* `Reachable.executeWriteBatch_eq_sequence` — from a reachable store a batch of writes does what its
  writes do one after the other.
-/

namespace FlameDB

open Go KV

/-- Runs from the empty store.  The queries are admitted: parsed ones are, and stay so when the
server assigns an operation id. -/
inductive Reachable (P : Query → Prop) : Executor → Prop where
  | empty (clock : Int64) : Reachable P ⟨clock, ∅⟩
  | mutate {s : Executor} {q : Query} (h : Reachable P s) (hq : Admitted q) (hmut : q.IsMutation)
      (hP : P q) (now : Int64) : Reachable P (executeMutation now s q).1
  | batch {s : Executor} {items : List (Int64 × Option Query)} (h : Reachable P s)
      (hitems : ∀ x ∈ items, ∀ q, x.2 = some q → Admitted q ∧ P q) :
      Reachable P (executeWriteBatch s items).1
  | background {s : Executor} {db : Store} (h : Reachable P s)
      (hdb : ∀ k, ¬ IsBackground k → db.get? k = s.db.get? k) : Reachable P { s with db := db }

/-! ## Background workers

They write cardinalities and the outbox at any time. No key of theirs is an event, a reference or a
score. -/

/-- The items the workers keep. -/
def Key.Background : Key → Prop
  | .card .. => True
  | .cardCount .. => True
  | .outbox .. => True
  | _ => False

lemma not_isBackground_encode {K : Key} (hK : K.WF) (hbg : ¬ K.Background) :
    ¬ IsBackground K.encode := by
  rintro ⟨f, hf, body, hbody⟩
  have hcolon : ∀ g ∈ backgroundFamilies, colon ∉ g := by decide
  rw [Key.encode_eq] at hbody
  obtain ⟨rfl, -⟩ := append_cons_inj K.colon_notMem_family (hcolon f hf) hbody
  cases K with
  | event m t => exact Key.component_ne_reserved hK.2 (backgroundFamilies_subset hf) rfl
  | card m k v => exact hbg trivial
  | cardCount m k => exact hbg trivial
  | outbox b => exact hbg trivial
  | _ => exact absurd hf (by simp only [Key.family]; decide)

lemma ne_of_isBackground {k : Bytes} (hk : IsBackground k) {K : Key} (hK : K.WF)
    (hbg : ¬ K.Background) : k ≠ K.encode := by
  rintro rfl
  exact not_isBackground_encode hK hbg hk

lemma get?_eraseIndex_background (db : Store) (m : Bytes) (t : Int64) (tags : Tags) {k : Bytes}
    (hk : IsBackground k) : (eraseIndex db m t tags).get? k = db.get? k := by
  rw [eraseIndex, OrdMap.get?_foldl_erase (fun kv : Bytes × Bytes =>
    indexKey m kv.1 kv.2 t), if_neg]
  rintro ⟨kv, -, heq⟩
  exact ne_of_isBackground (K := .index m kv.1 kv.2 t) hk trivial id heq.symm

lemma get?_setIndex_background (db : Store) (m : Bytes) (t : Int64) (tags : Tags) {k : Bytes}
    (hk : IsBackground k) : (setIndex db m t tags).get? k = db.get? k := by
  rw [setIndex, OrdMap.get?_foldl_set (fun kv : Bytes × Bytes => indexKey m kv.1 kv.2 t), if_neg]
  rintro ⟨kv, -, heq⟩
  exact ne_of_isBackground (K := .index m kv.1 kv.2 t) hk trivial id heq.symm

lemma not_isScoreKey_of_isBackground {k : Bytes} (hk : IsBackground k) : ¬ IsScoreKey k := by
  obtain ⟨f, hf, body, rfl⟩ := hk
  have hcolon : ∀ g ∈ backgroundFamilies, colon ∉ g := by decide
  rintro ⟨body', heq | heq⟩
  · obtain ⟨rfl, -⟩ := append_cons_inj (hcolon f hf) (by decide) heq
    exact absurd hf (by decide)
  · obtain ⟨rfl, -⟩ := append_cons_inj (hcolon f hf) (by decide) heq
    exact absurd hf (by decide)

lemma get?_dropEvent_background {m : Bytes} (hw : m ≠ [] ∧ m ∉ Key.reserved)
    (db : Store) (e : Event)
    {k : Bytes} (hk : IsBackground k) : (dropEvent m db e).get? k = db.get? k := by
  have hne : k ≠ eventKey m e.timestamp := ne_of_isBackground (K := .event m e.timestamp) hk hw id
  rw [dropEvent, OrdMap.get?_erase_of_ne _ hne, get?_eraseIndex_background _ _ _ _ hk]

section Background

variable {db db' : Store} (hdb : ∀ k, ¬ IsBackground k → db'.get? k = db.get? k)

include hdb

lemma lookup_of_background {K : Key} (hK : K.WF) (hbg : ¬ K.Background) :
    lookup db' K = lookup db K :=
  hdb _ (not_isBackground_encode hK hbg)

lemma StoreInv.background (h : StoreInv db) : StoreInv db' where
  keyed := by
    intro k v hv
    by_cases hk : IsBackground k
    · exact Or.inl hk
    · rw [hdb k hk] at hv
      exact h.keyed k v hv
  events := by
    intro m t v hw hv
    rw [lookup_of_background hdb hw (by simp [Key.Background])] at hv
    exact h.events m t v hw hv
  refs := by
    intro m k v t val hval
    rw [lookup_of_background hdb (by trivial) (by simp [Key.Background])] at hval
    exact h.refs m k v t val hval

lemma LBInv.background {σ : Scores} (h : LBInv db σ) : LBInv db' σ := by
  refine h.congr fun K hK hs => lookup_of_background hdb hK ?_
  cases K <;> simp_all [Key.IsScore, Key.Background]

lemma IndexExact.background (h : IndexExact db) : IndexExact db' :=
  h.congr (fun _ _ _ _ => lookup_of_background hdb trivial (by simp [Key.Background]))
    fun _ _ hw => lookup_of_background hdb hw (by simp [Key.Background])

end Background

lemma Query.Stageable.assignTimestamp {q : Query} (h : q.Stageable) (now : Int64) (s : Executor) :
    (assignTimestamp now s q).2.Stageable := by
  unfold FlameDB.assignTimestamp
  split_ifs
  · exact ⟨h.metric_wf, h.metric_noSep, h.value_isFinite⟩
  · exact h

/-- **Every mutation keeps the invariants**, also one that fails. -/
lemma executeMutation_inv {s : Executor} (hs : StoreInv s.db) {σ : Scores} (hσ : LBInv s.db σ)
    {q : Query} (hq : q.Stageable) (now : Int64) :
    StoreInv (executeMutation now s q).1.db ∧ (∃ σ', LBInv (executeMutation now s q).1.db σ') ∧
      (IndexExact s.db → (q.type = .write → (eventOf q).Lossless) →
        IndexExact (executeMutation now s q).1.db) := by
  have hdb : (assignTimestamp now s q).1.db = s.db := by
    unfold assignTimestamp
    split_ifs <;> rfl
  have htype : (assignTimestamp now s q).2.type = q.type := by
    unfold assignTimestamp
    split_ifs <;> rfl
  have hlossless : (eventOf q).Lossless → (eventOf (assignTimestamp now s q).2).Lossless := by
    unfold assignTimestamp
    split_ifs <;> exact id
  have hstage := hq.assignTimestamp now s
  unfold executeMutation
  rw [← hdb] at hs hσ ⊢
  generalize assignTimestamp now s q = p at *
  simp only
  cases hm : mutationBatch p.1.db p.2 with
  | error msg => exact ⟨hs, ⟨σ, hσ⟩, fun hix _ => hix⟩
  | ok r =>
      obtain ⟨h1, h2, h3⟩ := mutationBatch_inv hs hσ hstage hm
      exact ⟨h1, ⟨_, h2⟩, fun hix hl => h3 hix fun hty => hlossless (hl (htype ▸ hty))⟩

/-! ## Every run -/

/-- **Every reachable store is sound**, and its score keys are those of some map. -/
theorem Reachable.inv {P : Query → Prop} {s : Executor} (h : Reachable P s) :
    StoreInv s.db ∧ ∃ σ, LBInv s.db σ := by
  induction h with
  | empty clock => exact ⟨storeInv_empty, _, lbInv_empty⟩
  | mutate _ hq hmut _ now ih =>
      obtain ⟨hs, σ, hσ⟩ := ih
      obtain ⟨h1, h2, -⟩ := executeMutation_inv hs hσ (hq.stageable hmut.ne_metrics) now
      exact ⟨h1, h2⟩
  | @batch s items _ hitems ih =>
      obtain ⟨hs, σ, hσ⟩ := ih
      obtain ⟨h1, h2, -⟩ := executeWriteBatch_inv hs hσ items fun x hx q hq hty =>
        (hitems x hx q hq).1.stageable (by simp [hty])
      exact ⟨h1, h2⟩
  | background _ hdb ih =>
      obtain ⟨hs, σ, hσ⟩ := ih
      exact ⟨hs.background hdb, σ, hσ.background hdb⟩

/-- The writes of the run are stored without loss. -/
def Query.StoresLossless (q : Query) : Prop := q.type = .write → (eventOf q).Lossless

instance (q : Query) : Decidable q.StoresLossless := inferInstanceAs (Decidable (_ → _))

lemma Reachable.indexExact {s : Executor} (h : Reachable Query.StoresLossless s) :
    IndexExact s.db := by
  induction h with
  | empty clock => exact indexExact_empty
  | mutate h hq hmut hP now ih =>
      obtain ⟨hs, σ, hσ⟩ := h.inv
      exact (executeMutation_inv hs hσ (hq.stageable hmut.ne_metrics) now).2.2 ih hP
  | @batch s items h hitems ih =>
      obtain ⟨hs, σ, hσ⟩ := h.inv
      refine (executeWriteBatch_inv hs hσ items fun x hx q hq hty =>
        ?_).2.2 ih fun x hx q hq hty => ?_
      · exact (hitems x hx q hq).1.stageable (by simp [hty])
      · exact (hitems x hx q hq).2 hty
  | background _ hdb ih => exact ih.background hdb

/-- The executor after some lines, each parsed and executed at time zero. -/
def runLines (lines : List Bytes) : Executor :=
  lines.foldl (fun s line =>
    match parse 0 line with
    | .ok q => if q.IsMutation then (executeMutation 0 s q).1 else s
    | .error _ => s) ⟨0, ∅⟩

/-- What the empty store has and every mutation among some lines keeps. -/
lemma runLines_induction {M : Executor → Prop} (h0 : M ⟨0, ∅⟩) (lines : List Bytes)
    (hstep : ∀ line ∈ lines, ∀ q, parse 0 line = .ok q → q.IsMutation → ∀ s, M s →
      M (executeMutation 0 s q).1) : M (runLines lines) := by
  induction lines using List.reverseRecOn with
  | nil => exact h0
  | append_singleton lines line ih =>
      have hlines := ih fun l hl => hstep l (List.mem_append_left _ hl)
      rw [runLines, List.foldl_append, List.foldl_cons, List.foldl_nil]
      change M (match parse 0 line with
        | .ok q => if q.IsMutation then (executeMutation 0 (runLines lines) q).1 else runLines lines
        | .error _ => runLines lines)
      cases hparse : parse 0 line with
      | error e => exact hlines
      | ok q =>
          simp only
          split_ifs with hmut
          · exact hstep line (by simp) q hparse hmut _ hlines
          · exact hlines

lemma reachable_runLines {P : Query → Prop} (lines : List Bytes)
    (hP : ∀ line ∈ lines, ∀ q, parse 0 line = .ok q → P q) : Reachable P (runLines lines) :=
  runLines_induction (.empty 0) lines fun line hl q hparse hmut _ hs =>
    .mutate hs (Parsed.admitted ⟨0, line, hparse⟩) hmut (hP line hl q hparse) 0

/-- Two players score in two metrics. -/
def arenaLines : List Bytes :=
  [bs "WRITE hits 1 lb=bob color=red ts=5", bs "WRITE hits 2 lb=amy color=blue ts=6",
    bs "WRITE hits 4 lb=bob color=red ts=7", bs "WRITE deaths 3 lb=amy color=red ts=6"]

/-- The store after these lines. -/
def arena : Executor := runLines arenaLines

lemma arena_lossless : Reachable Query.StoresLossless arena := by
  have hlines : ∀ line ∈ arenaLines, ∀ q ∈ (parse 0 line).toOption, q.StoresLossless := by
    decide +kernel
  exact reachable_runLines _ fun line hl q hq => hlines line hl q (by rw [hq]; rfl)

lemma arena_reachable : Reachable (fun _ => True) arena :=
  reachable_runLines _ fun _ _ _ _ => trivial

/-! ## The tag index

The index is what the scans trust: it has a reference for each tag of each event, and no other. -/

/-- The keys under a metric's part of the index are reference keys. -/
lemma Keyed.index_of_front {db : Store} (h : Keyed db) {m y : Bytes} {val : Value}
    (hval : db.get? (bs "idx" ++ colon :: (component m ++ colon :: y)) = some val) :
    ∃ k v t, bs "idx" ++ colon :: (component m ++ colon :: y) = indexKey m k v t := by
  rcases h.of_front (by decide) hval with hbg | ⟨K, hK, hfam, hbody⟩
  · exact absurd hbg (by decide)
  · cases K with
    | index m' k v t =>
        refine ⟨k, v, t, ?_⟩
        have hm : m' = m := by
          simp only [Key.body] at hbody
          exact component_injective
            (append_cons_inj (colon_notMem_component m') (colon_notMem_component m) hbody).1
        subst hm
        rw [← hbody]
        exact (Key.encode_eq (.index m' k v t)).symm
    | event m' t => exact absurd hfam (Key.component_ne_reserved hK.2 (by decide))
    | _ => exact absurd hfam (by simp only [Key.family]; decide)

/-- **The tag index matches the events**: in a store reached by lossless writes, batches and
deletes, the keys in a metric's part of the index are exactly one for each tag and time of its
stored events, and each holds the key of that event. -/
theorem Reachable.index_matches_events {s : Executor} (hs : Reachable Query.StoresLossless s)
    {m : Bytes} (hm : m ≠ [] ∧ m ∉ Key.reserved) :
    (∀ key val, (s.db.get? key = some val ∧ bs "idx" ++ colon :: (component m ++ [colon]) <+: key) ↔
      ∃ t e k v, eventAt s.db m t = some e ∧ e.timestamp = t ∧ e.tags.get? k = some v ∧
        key = indexKey m k v t ∧ val = .bytes (eventKey m t)) ∧
    ∀ k v t k' v' t', indexKey m k v t = indexKey m k' v' t' → k = k' ∧ v = v' ∧ t = t' := by
  obtain ⟨hstore, -⟩ := hs.inv
  have hexact := hs.indexExact
  have htag : ∀ {k v t}, tagAt s.db m t k = some v ↔
      ∃ e, eventAt s.db m t = some e ∧ e.tags.get? k = some v := by
    intro k v t
    rw [tagAt, Option.bind_eq_some_iff]
  constructor
  · intro key val
    constructor
    · rintro ⟨hget, y, rfl⟩
      simp only [List.append_assoc, List.cons_append, List.nil_append] at hget ⊢
      obtain ⟨k, v, t, hkey⟩ := hstore.keyed.index_of_front hget
      rw [hkey] at hget ⊢
      have hix : s.db.get? (indexKey m k v t) = _ := hexact m k v t hm
      rw [hget] at hix
      split_ifs at hix with hat
      obtain ⟨e, he, hv⟩ := htag.mp hat
      exact ⟨t, e, k, v, he, hstore.timestamp_eq hm he, hv, rfl, Option.some.inj hix⟩
    · rintro ⟨t, e, k, v, he, -, hv, rfl, rfl⟩
      have hix : s.db.get? (indexKey m k v t) = _ := hexact m k v t hm
      rw [if_pos (htag.mpr ⟨e, he, hv⟩)] at hix
      exact ⟨hix, component k ++ colon :: (v ++ colon :: timestampBytes t), by simp [indexKey]⟩
  · intro k v t k' v' t' h
    have hinj := (Key.encode_inj_iff (k := .index m k v t) (j := .index m k' v' t') trivial
      trivial).mp h
    simpa using hinj

/-- The query of `WRITE hits 1 lb=bob color=red ts=5`. -/
def sampleWrite : Query :=
  { type := .write, metric := bs "hits", value := Float64.ofBits 0x3FF0000000000000
    tags := OrdMap.set ∅ (bs "color") (bs "red"), updateLB := true, lbEntityID := bs "bob"
    timestamp := 5 }

lemma sampleWrite_parsed : Parsed sampleWrite :=
  ⟨0, bs "WRITE hits 1 lb=bob color=red ts=5", by decide +kernel⟩

/-- Three references of the metric, and none of an event with another tag value. -/
theorem index_matches_events_arena :
    arena.db.get? (indexKey (bs "hits") (bs "color") (bs "red") 5) =
        some (.bytes (eventKey (bs "hits") 5)) ∧
      arena.db.get? (indexKey (bs "hits") (bs "color") (bs "blue") 6) =
        some (.bytes (eventKey (bs "hits") 6)) ∧
      arena.db.get? (indexKey (bs "hits") (bs "color") (bs "red") 7) =
        some (.bytes (eventKey (bs "hits") 7)) ∧
      arena.db.get? (indexKey (bs "hits") (bs "color") (bs "red") 6) = none := by
  obtain ⟨hkeys, hinj⟩ := Reachable.index_matches_events arena_lossless (m := bs "hits") (by decide)
  have hrow : ∀ t v, (∃ e ∈ eventAt arena.db (bs "hits") t, e.timestamp = t ∧
      e.tags.get? (bs "color") = some v) →
      arena.db.get? (indexKey (bs "hits") (bs "color") v t) =
        some (.bytes (eventKey (bs "hits") t)) :=
    fun t v ⟨e, he, ht, hv⟩ => ((hkeys _ _).mpr ⟨t, e, _, v, he, ht, hv, rfl, rfl⟩).1
  refine ⟨hrow 5 _ (by decide +kernel), hrow 6 _ (by decide +kernel), hrow 7 _ (by decide +kernel),
    Option.eq_none_iff_forall_ne_some.mpr fun val hval => ?_⟩
  obtain ⟨t, e, k, v, he, -, hv, hkey, -⟩ := (hkeys _ _).mp ⟨hval, by decide +kernel⟩
  obtain ⟨rfl, rfl, rfl⟩ := hinj _ _ _ _ _ _ hkey
  have hblue : ∀ e ∈ eventAt arena.db (bs "hits") 6, e.tags.get? (bs "color") ≠
    some (bs "red") := by
    decide +kernel
  exact hblue e he hv

/-! ## Batches -/

/-- **A batch of writes equals its writes one by one**: from a reachable store, with the same clock
readings, it accepts and rejects the same positions and leaves the same executor. -/
theorem Reachable.executeWriteBatch_eq_sequence {s : Executor} (hs : Reachable (fun _ => True) s)
    (items : List (Int64 × Query)) (hitems : ∀ nq ∈ items, Admitted nq.2 ∧ nq.2.type = .write ∧
      ∀ kv ∈ (boardsOf nq.2).entries, ValidUtf8 kv.2) :
    executeWriteBatch s (items.map fun nq => (nq.1, some nq.2)) =
      ((executeAll s items).1, batchResultOf (executeAll s items).2) := by
  obtain ⟨hstore, σ, hσ⟩ := hs.inv
  refine executeWriteBatch_eq hstore hσ items fun nq hnq => ?_
  obtain ⟨hadm, hty, hutf⟩ := hitems nq hnq
  exact ⟨hadm.stageable (by simp [hty]), hty, hadm.timestamp_nonneg, hutf⟩

/-- The query of `WRITE hits 2 lb=bob __replica __op=…`. -/
def sampleReplica : Query :=
  { type := .write, metric := bs "hits", value := Float64.ofBits 0x4000000000000000
    updateLB := true, lbEntityID := bs "bob", isReplica := true
    operationID := bs "00112233445566778899aabbccddeeff" }

lemma sampleReplica_parsed : Parsed sampleReplica :=
  ⟨0, bs "WRITE hits 2 lb=bob __replica __op=00112233445566778899aabbccddeeff", by decide +kernel⟩

/-- A write, then an operation of a replica that arrives twice. -/
theorem executeWriteBatch_eq_sequence_sample :
    executeWriteBatch ⟨0, ∅⟩ [(1, some sampleWrite), (2, some sampleReplica),
      (3, some sampleReplica)] =
      ((executeAll ⟨0, ∅⟩ [(1, sampleWrite), (2, sampleReplica), (3, sampleReplica)]).1,
        batchResultOf
          (executeAll ⟨0, ∅⟩ [(1, sampleWrite), (2, sampleReplica), (3, sampleReplica)]).2) := by
  refine Reachable.executeWriteBatch_eq_sequence (.empty 0)
    [(1, sampleWrite), (2, sampleReplica), (3, sampleReplica)] ?_
  intro nq hnq
  have hwrite : Admitted sampleWrite ∧ sampleWrite.type = .write ∧
      ∀ kv ∈ (boardsOf sampleWrite).entries, ValidUtf8 kv.2 :=
    ⟨sampleWrite_parsed.admitted, rfl, by decide +kernel⟩
  have hreplica : Admitted sampleReplica ∧ sampleReplica.type = .write ∧
      ∀ kv ∈ (boardsOf sampleReplica).entries, ValidUtf8 kv.2 :=
    ⟨sampleReplica_parsed.admitted, rfl, by decide +kernel⟩
  simp only [List.mem_cons, List.not_mem_nil, or_false] at hnq
  rcases hnq with rfl | rfl | rfl
  · exact hwrite
  · exact hreplica
  · exact hreplica

end FlameDB
