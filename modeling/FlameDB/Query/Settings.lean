import FlameDB.KV.Table
import FlameDB.Query.Lines

/-!
# What a clause records

A clause of a command line leaves its mark in the query: a flag, a number, a filter under its key.
`Setting` lists these marks.  The mark of one clause is lost where a later clause writes another
value to the same place, which is what `Setting.Conflicts` says of two of them.

* `Setting.Holds.record` — a setting survives the settings it does not conflict with;
  `Setting.Holds.not_conflicts` — two settings that conflict never stand in one query.
* **`recordAll_holds_iff`** — of settings written one after the other all stand in the query exactly
  if no two of them conflict.
-/

namespace FlameDB.Grammar

open Go KV

/-- One mark of a clause, under the name of the field it is left in. -/
inductive Setting where
  | quorum | isReplica | forceLocal | dryRun
  | aggregate (a : AggType)
  | from_ (t : Int64)
  | to_ (t : Int64)
  | limit (n : ℤ)
  | offset (n : ℤ)
  | order (o : Bytes)
  | entityTag (e : Bytes)
  | board (b : Bytes)
  | groupBy (spec : Bytes) (d : Int64)
  | group (g : GroupDef)
  | where_ (k v : Bytes)
  | timestamp (t : Int64)
  | lb (entity : Bytes)
  | lbBoard (board entity : Bytes)
  | tag (k v : Bytes)

/-- What `lb = entity`, `lb.board = entity` and `tag = value` set. -/
def Setting.assign (key value : Bytes) : Setting :=
  if key = bs "lb" then .lb value
  else if (bs "lb.").isPrefixOf key then .lbBoard (key.drop 3) value
  else .tag key value

/-- The query with the setting in it. -/
def Setting.record (q : Query) : Setting → Query
  | quorum => { q with quorum := true }
  | isReplica => { q with isReplica := true }
  | forceLocal => { q with forceLocal := true }
  | dryRun => { q with dryRun := true }
  | aggregate a => { q with aggregate := some a }
  | from_ t => { q with from_ := t }
  | to_ t => { q with to_ := t }
  | limit n => { q with limit := n }
  | offset n => { q with offset := n }
  | order o => { q with order := o }
  | entityTag e => { q with entityTag := e }
  | board b => { q with board := b }
  | groupBy spec d => { q with groupBySpec := spec, groupBy := d }
  | group g => { q with groups := q.groups ++ [g] }
  | where_ k v => { q with where_ := q.where_.set k v }
  | timestamp t => { q with timestamp := t }
  | lb e => { q with updateLB := true, lbEntityID := e }
  | lbBoard b e => { q with lbEntities := q.lbEntities.set b e }
  | tag k v => { q with tags := q.tags.set k v }

/-- The setting can be read off the query. -/
def Setting.Holds (q : Query) : Setting → Prop
  | quorum => q.quorum = true
  | isReplica => q.isReplica = true
  | forceLocal => q.forceLocal = true
  | dryRun => q.dryRun = true
  | aggregate a => q.aggregate = some a
  | from_ t => q.from_ = t
  | to_ t => q.to_ = t
  | limit n => q.limit = n
  | offset n => q.offset = n
  | order o => q.order = o
  | entityTag e => q.entityTag = e
  | board b => q.board = b
  | groupBy spec d => q.groupBySpec = spec ∧ q.groupBy = d
  | group g => g ∈ q.groups
  | where_ k v => q.where_.get? k = some v
  | timestamp t => q.timestamp = t
  | lb e => q.updateLB = true ∧ q.lbEntityID = e
  | lbBoard b e => q.lbEntities.get? b = some e
  | tag k v => q.tags.get? k = some v

/-- Two settings that want different values in one place.  A flag has no other value, and groups are
collected. -/
def Setting.Conflicts : Setting → Setting → Prop
  | aggregate a, aggregate b => a ≠ b
  | from_ s, from_ t => s ≠ t
  | to_ s, to_ t => s ≠ t
  | limit m, limit n => m ≠ n
  | offset m, offset n => m ≠ n
  | order o, order p => o ≠ p
  | entityTag e, entityTag f => e ≠ f
  | board b, board c => b ≠ c
  | groupBy spec d, groupBy spec' d' => ¬ (spec = spec' ∧ d = d')
  | where_ k v, where_ l w => k = l ∧ v ≠ w
  | timestamp s, timestamp t => s ≠ t
  | lb e, lb f => e ≠ f
  | lbBoard b e, lbBoard c f => b = c ∧ e ≠ f
  | tag k v, tag l w => k = l ∧ v ≠ w
  | _, _ => False

namespace Setting

variable {q : Query} {s s' : Setting}

lemma record_assign (q : Query) (key value : Bytes) :
    (assign key value).record q = q.assign key value := by
  unfold assign Query.assign
  split_ifs <;> rfl

lemma holds_record (q : Query) (s : Setting) : s.Holds (s.record q) := by
  cases s <;> simp [Holds, record]

/-- Writing under one key of a table leaves a value under another one, and the same value, alone. -/
lemma get?_set_of_agree {m : OrdMap Bytes Bytes} {k v l w : Bytes} (h : m.get? k = some v)
    (hagree : ¬ (k = l ∧ v ≠ w)) : (m.set l w).get? k = some v := by
  rw [OrdMap.get?_set]
  split_ifs with hk
  · rw [not_not.mp fun hvw => hagree ⟨hk, hvw⟩]
  · exact h

/-- **A setting survives every setting it does not conflict with.** -/
lemma Holds.record (h : s.Holds q) (hc : ¬ s.Conflicts s') : s.Holds (s'.record q) := by
  -- the fields are different ones except where the two settings are of one kind
  cases s' <;> cases s <;> first
    | exact h
    | rfl
    | exact (not_not.mp hc).symm
    | exact get?_set_of_agree h hc
    | exact congrArg some (not_not.mp hc).symm
    | exact ⟨(not_not.mp hc).1.symm, (not_not.mp hc).2.symm⟩
    | exact ⟨rfl, (not_not.mp hc).symm⟩
    | exact List.mem_append_left _ h

/-- **Settings of one query do not conflict.** -/
lemma Holds.not_conflicts (h : s.Holds q) (h' : s'.Holds q) : ¬ s.Conflicts s' := by
  intro hc
  cases s <;> cases s' <;> first
    | exact hc
    | exact hc (h.symm.trans h')
    | exact hc.2 (Option.some.inj (h.symm.trans (hc.1 ▸ h')))
    | exact hc (Option.some.inj (h.symm.trans h'))
    | exact hc ⟨h.1.symm.trans h'.1, h.2.symm.trans h'.2⟩
    | exact hc (h.2.symm.trans h'.2)

/-- The settings leave the operation id alone. -/
lemma operationID_record (q : Query) (s : Setting) : (s.record q).operationID = q.operationID := by
  cases s <;> rfl

/-- And they do not look at what a ranking command adds. -/
lemma record_subject (q : Query) (s : Setting) (type : QueryType) (entity : Bytes) (radius : ℤ) :
    s.record { q with type := type, entityID := entity, radius := radius } =
      { s.record q with type := type, entityID := entity, radius := radius } := by
  cases s <;> rfl

end Setting

/-! ## Settings one after the other -/

/-- Settings recorded from left to right. -/
def recordAll (q : Query) (ss : List Setting) : Query := ss.foldl Setting.record q

lemma recordAll_append (q : Query) (ss ss' : List Setting) :
    recordAll q (ss ++ ss') = recordAll (recordAll q ss) ss' := List.foldl_append

/-- No two of the settings conflict. -/
def Agree (ss : List Setting) : Prop := ss.Pairwise fun s s' => ¬ s.Conflicts s'

lemma Setting.Holds.recordAll {q : Query} {s : Setting} {ss : List Setting} (h : s.Holds q)
    (hss : ∀ s' ∈ ss, ¬ s.Conflicts s') : s.Holds (recordAll q ss) := by
  induction ss generalizing q with
  | nil => exact h
  | cons s' ss ih =>
      rw [List.forall_mem_cons] at hss
      exact ih (h.record hss.1) hss.2

/-- **All settings of a list can be read off the query in the end** exactly if no two of them
conflict. -/
theorem recordAll_holds_iff (q : Query) (ss : List Setting) :
    (∀ s ∈ ss, s.Holds (recordAll q ss)) ↔ Agree ss := by
  constructor
  · intro h
    exact List.pairwise_of_forall_mem_list fun s hs s' hs' => (h s hs).not_conflicts (h s' hs')
  · intro hagree
    induction ss generalizing q with
    | nil => simp
    | cons s ss ih =>
        obtain ⟨hs, hss⟩ := List.pairwise_cons.mp hagree
        exact List.forall_mem_cons.mpr ⟨(s.holds_record q).recordAll hs, ih (s.record q) hss⟩

lemma operationID_recordAll (q : Query) (ss : List Setting) :
    (recordAll q ss).operationID = q.operationID := by
  induction ss generalizing q with
  | nil => rfl
  | cons s ss ih => exact (ih _).trans (s.operationID_record q)

lemma recordAll_subject (q : Query) (ss : List Setting) (type : QueryType) (entity : Bytes)
    (radius : ℤ) :
    recordAll { q with type := type, entityID := entity, radius := radius } ss =
      { recordAll q ss with type := type, entityID := entity, radius := radius } := by
  induction ss generalizing q with
  | nil => rfl
  | cons s ss ih =>
      refine (congrArg (recordAll · ss) (s.record_subject q type entity radius)).trans ?_
      exact ih (s.record q)

/-- The pairs of a filter are written one after the other. -/
lemma recordAll_where (q : Query) (ps : List (Bytes × Bytes)) :
    recordAll q (ps.map fun p => .where_ p.1 p.2) = { q with where_ := q.where_.setRows ps } := by
  induction ps generalizing q with
  | nil => rfl
  | cons p ps ih => exact ih _

end FlameDB.Grammar
