import FlameDB.Analytics.Boards

/-!
# Redis and PostgreSQL rank alike

Both ranking reads are compared with one list, the ranking of the score map.  The members of the
projection and the ordered rows of the table are that list, item by item, so a slice of one is the
slice of the other, and a position among the members is the number of rows before the entity.

* `InSync`, `Scores` — Redis, respectively the table, holds a given score map of a board.
* `InSync.members_eq`, `Scores.ordered_eq` — both hold it in ranking order.
* **`cachedBoard_agrees`** — within the configured limits both reads give the same answer.
-/

namespace FlameDB.Analytics

open Go KV

/-! ## The same scores on both sides

Redis is a projection of the table. The reads are compared for a projection that is up to date. -/

/-- The projection of a board holds the score map `board`, at the given epoch and version. -/
structure InSync (sha256 : Bytes → Bytes) (r : Redis) (metric name : Bytes)
    (board : OrdMap Bytes Float64) (epoch : Bytes) (version : Int64) : Prop where
  epoch : r.hget (metaKey sha256 metric) (bs "epoch") = some epoch
  version : r.hget (metaKey sha256 metric) (bs "version") = some (formatInt version)
  count : tonumber ((r.hget (metaKey sha256 metric) (boardKey sha256 metric name)).getD (bs "0")) =
    some (board.entries.length : ℤ)
  members : (r.members (zKey sha256 metric name)).Perm
    (board.entries.map fun es => encodeMember es.2 es.1)
  entities : (r.hash (hKey sha256 metric name)).entries =
    board.entries.map fun es => (es.1, encodeMember es.2 es.1)

/-- The table holds the score map `board`. -/
def Scores (scores : ScoreTable) (metric name : Bytes) (board : OrdMap Bytes Float64) : Prop :=
  (boardRows scores metric name).Perm (board.entries.map fun es => (encodeString es.1, es.2))

instance (scores : ScoreTable) (metric name : Bytes) (board : OrdMap Bytes Float64) :
    Decidable (Scores scores metric name board) := inferInstanceAs (Decidable (List.Perm _ _))

/-- An answer that reports an exceeded limit. -/
def LimitExceeded (answer : Except Bytes BoardResult) : Prop :=
  answer = .error rankingBytes ∨ answer = .error leaderboardBytes ∨ answer = .error leaderboardMax

instance (answer : Except Bytes BoardResult) : Decidable (LimitExceeded answer) :=
  inferInstanceAs (Decidable (_ ∨ _ ∨ _))

/-- The row and the member of an entry. -/
def rowOf (a : LeaderboardEntry) : Bytes × Float64 := (encodeString a.entityID, a.value)

/-- The rank member of an entry. -/
def memberOf (a : LeaderboardEntry) : Bytes := encodeMember a.value a.entityID

/-- A zero score is read back from Redis without its sign. -/
def canonicalEntry (a : LeaderboardEntry) : LeaderboardEntry := ⟨a.entityID, a.value.canonical⟩

/-- The answer with the sign of zero scores dropped; as numbers the scores are the same. -/
def canonicalResult : BoardResult → BoardResult
  | .leaderboard entries => .leaderboard (entries.map canonicalEntry)
  | .ranking result => .ranking { result with
      score := result.score.map Float64.canonical
      around := result.around.map fun entries =>
        entries.map fun a => ⟨a.entityID, a.value.canonical, a.rank⟩ }

/-! ## The answer in terms of the ranking

Both reads are shown to give this answer, which mentions neither of the two stores. -/

/-- A slice of the ranking. -/
def slice (board : OrdMap Bytes Float64) (offset limit : ℤ) : List LeaderboardEntry :=
  ((ranking board).drop offset.toNat).take limit.toNat

/-- How many entries are listed before an entry. -/
def position (board : OrdMap Bytes Float64) (a : LeaderboardEntry) : ℕ :=
  (ranking board).countP fun b => ¬ rankLe a b = true

/-- What a ranking read is to return for a score map. -/
def boardAnswer (e : Engine) (board : OrdMap Bytes Float64) (q : Query) : BoardResult :=
  if q.type = .leaderboard then .leaderboard (slice board q.offset (pageLimit e q))
  else
    let result : RankingResult :=
      { count := board.entries.length, around := if q.type = .around then some [] else none }
    if q.type = .leaderboardCount then .ranking result
    else
      match board.get? q.entityID with
      | none => .ranking result
      | some value =>
          let before : ℤ := position board ⟨q.entityID, value⟩
          let start := max 0 (before - q.radius)
          .ranking { result with
            rank := some (before + 1)
            score := some value
            around := if q.type = .around then
              some (rankedFrom start (slice board start (before + q.radius - start + 1))) else none
                }

lemma scoreOrder_rowOf (a b : LeaderboardEntry) : scoreOrder (rowOf a) (rowOf b) = rankLe a b := by
  simp only [scoreOrder, rowOf, rankLe, flameEntityBytes_encodeString]

lemma perm_ranking (board : OrdMap Bytes Float64) :
    (ranking board).Perm (board.entries.map fun es => ⟨es.1, es.2⟩) := List.mergeSort_perm _ _

/-- The ordered rows of the table are the ranking. -/
lemma Scores.ordered_eq {scores : ScoreTable} {metric name : Bytes} {board : OrdMap Bytes Float64}
    (h : Scores scores metric name board) :
    ordered (boardRows scores metric name) = (ranking board).map rowOf := by
  have hrows : (boardRows scores metric name).Perm ((ranking board).map rowOf) := by
    have := (perm_ranking board).map rowOf
    rw [List.map_map] at this
    exact h.trans this.symm
  have htrans : IsTrans (Bytes × Float64) fun a b => scoreOrder a b = true :=
    ⟨fun a b c => rankLe_trans ⟨flameEntityBytes a.1, a.2⟩ ⟨flameEntityBytes b.1, b.2⟩
      ⟨flameEntityBytes c.1, c.2⟩⟩
  have htotal : Std.Total fun a b : Bytes × Float64 => scoreOrder a b = true :=
    ⟨fun a b => Bool.or_eq_true _ _ ▸
      rankLe_total ⟨flameEntityBytes a.1, a.2⟩ ⟨flameEntityBytes b.1, b.2⟩⟩
  have hsorted : ((ranking board).map rowOf).Pairwise fun a b => scoreOrder a b = true := by
    rw [List.pairwise_map]
    exact (ranking_pairwise board).imp fun hab => by rw [scoreOrder_rowOf, hab]
  refine List.Perm.eq_of_pairwise ?_ (List.pairwise_insertionSort _ _) hsorted
    ((List.perm_insertionSort _ _).trans hrows)
  intro x y hx hy hxy hyx
  rw [ordered, List.mem_insertionSort] at hx
  obtain ⟨a, ha, rfl⟩ := List.mem_map.mp (hrows.mem_iff.mp hx)
  obtain ⟨b, hb, rfl⟩ := List.mem_map.mp hy
  rw [scoreOrder_rowOf] at hxy hyx
  rw [eq_of_rankLe ((mem_ranking_iff board a).mp ha) ((mem_ranking_iff board b).mp hb) hxy hyx]

/-- Member order is strict ranking order. -/
lemma memberOf_lt_iff {a b : LeaderboardEntry} (ha : a.value.isFinite = true)
    (hb : b.value.isFinite = true) : memberOf a < memberOf b ↔ ¬ rankLe b a = true := by
  rw [memberOf, memberOf, encodeMember_lt_iff ha hb, rankLe_iff, not_or, not_lt, not_and]
  rcases lt_trichotomy a.value.units b.value.units with h | h | h
  · exact iff_of_false (by omega) (by omega)
  · simp only [h, lt_irrefl, false_or, le_refl, true_and, forall_const]
    split_ifs <;> rw [not_le]
  · exact iff_of_true (Or.inl h) ⟨h.le, fun heq => absurd heq h.ne⟩

/-- The rank statement counts the rows listed before an entry. -/
lemma ranksBefore_rowOf (a b : LeaderboardEntry) :
    ranksBefore a.value a.entityID (rowOf b) = decide (¬ rankLe a b = true) := by
  rw [ranksBefore, decide_eq_decide, rankLe_iff, not_or, not_lt, not_and]
  simp only [rowOf, flameEntityBytes_encodeString]
  rcases lt_trichotomy a.value.units b.value.units with h | h | h
  · exact iff_of_true (Or.inl h) ⟨h.le, fun heq => absurd heq h.ne⟩
  · rcases lt_or_ge b.value.units 0 with hneg | hneg
    · simp [h, hneg, not_le.mpr hneg]
    · simp [h, hneg, not_lt.mpr hneg]
  · exact iff_of_false (by omega) (by omega)

/-- In a strictly ascending list, an item stands behind exactly the smaller ones. -/
lemma findIdx?_eq_countP {l : List Bytes} (h : l.Pairwise (· < ·)) {x : Bytes} (hx : x ∈ l) :
    (l.findIdx? fun y => y = x) = some (l.countP fun y => y < x) := by
  induction l with
  | nil => exact absurd hx List.not_mem_nil
  | cons y ys ih =>
    obtain ⟨hy, hys⟩ := List.pairwise_cons.mp h
    by_cases hyx : y = x
    · subst hyx
      have hnone : ys.countP (fun z => z < y) = 0 :=
        List.countP_eq_zero.mpr fun z hz => by simpa using (hy z hz).le
      simp [List.findIdx?_cons, hnone]
    · have hmem := (List.mem_cons.mp hx).resolve_left fun hxy => hyx hxy.symm
      simp [List.findIdx?_cons, hyx, ih hys hmem, hy x hmem]

lemma mapM_map_eq_ok {α β γ : Type} {f : β → Except Bytes γ} {g : α → β} {k : α → γ} {l : List α}
    (h : ∀ a ∈ l, f (g a) = .ok (k a)) : (l.map g).mapM f = .ok (l.map k) := by
  induction l with
  | nil => rfl
  | cons a l ih =>
    rw [List.map_cons, List.mapM_cons, h a List.mem_cons_self,
      ih fun x hx => h x (List.mem_cons_of_mem a hx)]
    rfl

/-- `collect` returns everything or reports the limit. -/
lemma collect_eq {α : Type} (limit : ℤ) (exceeded : Bytes) (size : α → ℕ) (bytes : ℤ)
    (xs : List α) : collect limit exceeded size bytes xs = .ok xs ∨
      collect limit exceeded size bytes xs = .error exceeded := by
  induction xs generalizing bytes with
  | nil => exact Or.inl rfl
  | cons x xs ih =>
    rw [collect]
    split_ifs
    · exact Or.inr rfl
    · rcases ih (bytes + size x + 64) with h | h <;> rw [h]
      · exact Or.inl rfl
      · exact Or.inr rfl

/-! ## The read from the table -/

section Table

variable {scores : ScoreTable} {metric name : Bytes} {board : OrdMap Bytes Float64}
  (h : Scores scores metric name board)

include h

lemma Scores.perm_rows : (boardRows scores metric name).Perm ((ranking board).map rowOf) := by
  rw [← h.ordered_eq]
  exact (List.perm_insertionSort _ _).symm

lemma Scores.length_rows : (boardRows scores metric name).length = board.entries.length := by
  rw [h.length_eq, List.length_map]

lemma Scores.countP_rows (a : LeaderboardEntry) :
    (boardRows scores metric name).countP (ranksBefore a.value a.entityID) = position board a := by
  rw [h.perm_rows.countP_eq, List.countP_map]
  refine List.countP_congr fun b _ => ?_
  rw [Function.comp_apply, ranksBefore_rowOf]

/-- The row of an entity holds its score. -/
lemma Scores.get?_eq (entity : Bytes) :
    scores.get? (scoreKey metric name entity) = board.get? entity := by
  refine Option.ext fun value => ?_
  have hrow : scores.get? (scoreKey metric name entity) = some value ↔
      (encodeString entity, value) ∈ boardRows scores metric name := by
    rw [← OrdMap.mem_entries_iff, boardRows, List.mem_map]
    constructor
    · intro hmem
      exact ⟨_, List.mem_filter.mpr ⟨hmem, by simp [scoreKey]⟩, rfl⟩
    · rintro ⟨⟨key, v⟩, hmem, heq⟩
      obtain ⟨hmem, hkey⟩ := List.mem_filter.mp hmem
      obtain ⟨hent, rfl⟩ := Prod.mk.inj heq
      obtain ⟨hm, hn⟩ := of_decide_eq_true hkey
      have : key = scoreKey metric name entity :=
        ofLex.injective (Prod.ext hm (ofLex.injective (Prod.ext hn hent)))
      rwa [this] at hmem
  rw [hrow, h.perm_rows.mem_iff, List.mem_map]
  constructor
  · rintro ⟨a, ha, heq⟩
    obtain ⟨hent, rfl⟩ := Prod.mk.inj heq
    rw [← encodeString_injective hent]
    exact (mem_ranking_iff board a).mp ha
  · intro hget
    exact ⟨⟨entity, value⟩, (mem_ranking_iff board _).mpr hget, rfl⟩

/-- A page of the rows is the slice of the ranking, if it is not too large. -/
lemma Scores.sqlEntries_eq (e : Engine) {q : Query} (hm : q.metric = metric) (hb : q.board = name)
    (offset limit : ℤ) : sqlEntries e scores q offset limit = .ok (slice board offset limit) ∨
      sqlEntries e scores q offset limit = .error leaderboardBytes := by
  have hrows : ((ordered (boardRows scores q.metric q.board)).drop offset.toNat).take
      limit.toNat = (slice board offset limit).map rowOf := by
    rw [hm, hb, h.ordered_eq, slice, List.map_take, List.map_drop]
  have hdecode : ((slice board offset limit).map rowOf).mapM (fun row : Bytes × Float64 =>
      (decodeString row.1).map fun entity => (⟨entity, row.2⟩ : LeaderboardEntry)) =
      .ok (slice board offset limit) := by
    rw [mapM_map_eq_ok (k := id) fun a _ => by simp [rowOf, Except.map], List.map_id]
  simp only [sqlEntries, hrows]
  rcases collect_eq e.maxBytes leaderboardBytes (fun row : Bytes × Float64 => row.1.length) 0
    ((slice board offset limit).map rowOf) with hc | hc
  · rw [hc]
    exact Or.inl hdecode
  · rw [hc]
    exact Or.inr rfl

/-- The table read returns the answer or reports a limit. -/
theorem Scores.sqlBoard_eq (e : Engine) {q : Query} (hm : q.metric = metric) (hb : q.board = name) :
    sqlBoard e scores q = .ok (boardAnswer e board q) ∨ LimitExceeded (sqlBoard e scores q) := by
  by_cases hlb : q.type = .leaderboard
  · simp only [sqlBoard, boardAnswer, hlb, if_true]
    rcases h.sqlEntries_eq e hm hb q.offset (pageLimit e q) with hpage | hpage <;> rw [hpage]
    · show (if _ then _ else _) = _ ∨ LimitExceeded (if _ then _ else _)
      split_ifs
      · exact Or.inr (Or.inr (Or.inr rfl))
      · exact Or.inl rfl
    · exact Or.inr (Or.inr (Or.inl rfl))
  by_cases hcount : q.type = .leaderboardCount
  · simp only [sqlBoard, boardAnswer, hcount, if_true, hm, hb, h.length_rows]
    exact Or.inl rfl
  simp only [sqlBoard, boardAnswer, hlb, hcount, if_false, hm, hb, h.get?_eq, h.length_rows]
  cases hget : board.get? q.entityID with
  | none => exact Or.inl rfl
  | some value =>
    simp only [h.countP_rows ⟨q.entityID, value⟩, add_sub_cancel_right]
    split_ifs with haround
    · rcases h.sqlEntries_eq e hm hb (max 0 ((position board ⟨q.entityID, value⟩ : ℤ) - q.radius))
        ((position board ⟨q.entityID, value⟩ : ℤ) + q.radius -
          max 0 ((position board ⟨q.entityID, value⟩ : ℤ) - q.radius) + 1) with hpage | hpage
      · rw [hpage]
        exact Or.inl rfl
      · rw [hpage]
        exact Or.inr (Or.inr (Or.inl rfl))
    · exact Or.inl rfl

end Table

/-! ## The read from Redis

Rank members sort as the entries do, so positions in the sorted set are positions in the ranking. -/

section Agreement

variable {sha256 : Bytes → Bytes} {r : Redis} {scores : ScoreTable} {metric name : Bytes}
  {board : OrdMap Bytes Float64} {epoch : Bytes} {version : Int64}
  (hfin : ∀ e s, board.get? e = some s → s.isFinite = true)

include hfin

lemma isFinite_of_mem_ranking {a : LeaderboardEntry} (ha : a ∈ ranking board) :
    a.value.isFinite = true := hfin _ _ ((mem_ranking_iff board a).mp ha)

lemma pairwise_memberOf : ((ranking board).map memberOf).Pairwise (· < ·) := by
  rw [List.pairwise_map]
  refine ((ranking_pairwise board).and (ranking_nodup board)).imp_of_mem ?_
  intro a b ha hb hab
  rw [memberOf_lt_iff (isFinite_of_mem_ranking hfin ha) (isFinite_of_mem_ranking hfin hb)]
  intro hba
  exact hab.2 (eq_of_rankLe ((mem_ranking_iff board a).mp ha) ((mem_ranking_iff board b).mp hb)
    hab.1 hba)

/-- The members of the projection are the ranking. -/
lemma InSync.members_eq (h : InSync sha256 r metric name board epoch version) :
    r.members (zKey sha256 metric name) = (ranking board).map memberOf := by
  have hperm : (r.members (zKey sha256 metric name)).Perm ((ranking board).map memberOf) := by
    have := (perm_ranking board).map memberOf
    rw [List.map_map] at this
    exact h.members.trans this.symm
  have hsorted : (r.members (zKey sha256 metric name)).Pairwise (· < ·) := by
    rw [Redis.members, List.pairwise_map]
    exact (r.zset _).sorted
  exact List.Perm.eq_of_pairwise (fun a b _ _ hab hba => absurd hba hab.asymm) hsorted
    (pairwise_memberOf hfin) hperm

/-- An entry stands among the members behind those listed before it. -/
lemma InSync.zrank_eq (h : InSync sha256 r metric name board epoch version) {a : LeaderboardEntry}
    (ha : a ∈ ranking board) :
    r.zrank (zKey sha256 metric name) (memberOf a) = some (position board a) := by
  rw [Redis.zrank, h.members_eq hfin,
    findIdx?_eq_countP (pairwise_memberOf hfin) (List.mem_map_of_mem ha), List.countP_map]
  refine congrArg some (List.countP_congr fun b hb => ?_)
  rw [Function.comp_apply, decide_eq_true_eq, decide_eq_true_eq,
    memberOf_lt_iff (isFinite_of_mem_ranking hfin hb) (isFinite_of_mem_ranking hfin ha)]

omit hfin in
lemma InSync.hget_entity (h : InSync sha256 r metric name board epoch version) (entity : Bytes) :
    r.hget (hKey sha256 metric name) entity =
      (board.get? entity).map fun s => encodeMember s entity := by
  refine Option.ext fun member => ?_
  rw [Redis.hget, ← OrdMap.mem_entries_iff, h.entities, List.mem_map, Option.map_eq_some_iff]
  constructor
  · rintro ⟨⟨e, s⟩, hmem, heq⟩
    obtain ⟨rfl, rfl⟩ := Prod.mk.inj heq
    exact ⟨s, (OrdMap.mem_entries_iff board _ s).mp hmem, rfl⟩
  · rintro ⟨s, hget, rfl⟩
    exact ⟨(entity, s), (OrdMap.mem_entries_iff board entity s).mpr hget, rfl⟩

omit hfin in
lemma InSync.zcard_eq (h : InSync sha256 r metric name board epoch version) :
    r.zcard (zKey sha256 metric name) = board.entries.length := by
  rw [Redis.zcard, h.members.length_eq, List.length_map]

omit hfin in
lemma InSync.hlen_eq (h : InSync sha256 r metric name board epoch version) :
    r.hlen (hKey sha256 metric name) = board.entries.length := by
  rw [Redis.hlen, h.entities, List.length_map]

omit hfin in
lemma memberOf_ne_nil (a : LeaderboardEntry) : memberOf a ≠ [] := by
  intro hnil
  have hlen := congrArg List.length hnil
  rw [memberOf, encodeMember, List.length_append, beBytes_length] at hlen
  simp at hlen

/-- The reply of the script on a projection in sync. -/
def syncedReply (board : OrdMap Bytes Float64) (type : QueryType) (offset limit : ℤ)
    (entity : Bytes) (radius : ℤ) : Projection :=
  if type = .leaderboard then
    ⟨board.entries.length, -1, [], offset, (slice board offset limit).map memberOf⟩
  else if type = .leaderboardCount then ⟨board.entries.length, -1, [], offset, []⟩
  else match board.get? entity with
    | none => ⟨board.entries.length, -1, [], max 0 (-1 - radius), []⟩
    | some s =>
        let before : ℤ := position board ⟨entity, s⟩
        let start := max 0 (before - radius)
        ⟨board.entries.length, before, memberOf ⟨entity, s⟩, start,
          if type = .around then
            (slice board start (before + radius - start + 1)).map memberOf else []⟩

/-- The script on a projection that is up to date, in terms of the ranking. -/
lemma InSync.readProjection_eq (h : InSync sha256 r metric name board epoch version)
    (type : QueryType) (offset limit : ℤ) (entity : Bytes) (radius maxBytes : ℤ) :
    let reply := readProjection r (metaKey sha256 metric) (zKey sha256 metric name)
      (hKey sha256 metric name) epoch (formatInt version) (boardKey sha256 metric name) type offset
      limit entity radius maxBytes
    reply = .ok (some (syncedReply board type offset limit entity radius)) ∨
      reply = .error rankingBytes := by
  have hslice : ∀ start n : ℤ, ((r.members (zKey sha256 metric name)).drop start.toNat).take
      n.toNat = (slice board start n).map memberOf := by
    intro start n
    rw [h.members_eq hfin, slice, List.map_take, List.map_drop]
  simp only [readProjection, h.epoch, h.version, h.zcard_eq, h.hlen_eq, h.count, h.hget_entity,
    hslice, ne_eq, not_true_eq_false, or_self, if_false]
  by_cases hlb : type = .leaderboard
  · subst hlb
    have hn : offset + limit - 1 + 1 - offset = limit := by omega
    simp only [not_true_eq_false, false_and, if_false, true_or, if_true, hn, syncedReply]
    split_ifs
    · exact Or.inr rfl
    · rcases collect_eq maxBytes rankingBytes List.length (([] : Bytes).length + 128 : ℤ)
        ((slice board offset limit).map memberOf) with hc | hc <;> rw [hc]
      · exact Or.inl rfl
      · exact Or.inr rfl
  by_cases hcount : type = .leaderboardCount
  · subst hcount
    simp only [not_true_eq_false, and_false, false_and, if_false, syncedReply, reduceCtorEq,
      or_self, if_true]
    split_ifs
    · exact Or.inr rfl
    · exact Or.inl rfl
  simp only [hlb, hcount, not_false_eq_true, and_self, if_true, if_false, false_or, syncedReply]
  cases hget : board.get? entity with
  | none =>
    have hrank : ¬ (type = .around ∧ (0 : ℤ) ≤ -1) := by omega
    simp only [Option.map_none, Option.getD_none, not_true_eq_false, false_and, if_false, hrank]
    split_ifs
    · exact Or.inr rfl
    · exact Or.inl rfl
  | some s =>
    have hmem : (⟨entity, s⟩ : LeaderboardEntry) ∈ ranking board :=
      (mem_ranking_iff board _).mpr hget
    have hzrank := h.zrank_eq hfin hmem
    have hnil := memberOf_ne_nil ⟨entity, s⟩
    have hmember : encodeMember s entity = memberOf ⟨entity, s⟩ := rfl
    simp only [Option.map_some, Option.getD_some, hmember, hnil, not_false_eq_true, if_true, hzrank,
      reduceCtorEq, and_false, if_false, Int.natCast_nonneg, and_true]
    split_ifs
    · exact Or.inr rfl
    · have hn : (position board ⟨entity, s⟩ : ℤ) + radius + 1 -
          max 0 ((position board ⟨entity, s⟩ : ℤ) - radius) =
          (position board ⟨entity, s⟩ : ℤ) + radius -
            max 0 ((position board ⟨entity, s⟩ : ℤ) - radius) + 1 := by omega
      rw [hn]
      rcases collect_eq maxBytes rankingBytes List.length
        ((memberOf ⟨entity, s⟩).length + 128 : ℤ) ((slice board _ _).map memberOf) with hc | hc
      · rw [hc]
        exact Or.inl rfl
      · rw [hc]
        exact Or.inr rfl
    · exact Or.inl rfl

omit hfin in
lemma rankedFrom_canonicalEntry (start : ℤ) (entries : List LeaderboardEntry) :
    rankedFrom start (entries.map canonicalEntry) =
      (rankedFrom start entries).map fun a => ⟨a.entityID, a.value.canonical, a.rank⟩ := by
  refine List.ext_getElem? fun i => ?_
  simp only [rankedFrom, List.getElem?_mapIdx, List.getElem?_map, Option.map_map]
  rfl

omit hfin in
lemma decodeMember_memberOf {a : LeaderboardEntry} (ha : a.value.isFinite = true) :
    decodeMember (memberOf a) = .ok (canonicalEntry a) := decodeMember_encodeMember ha a.entityID

lemma mapM_decodeMember {l : List LeaderboardEntry} (hl : ∀ a ∈ l, a ∈ ranking board) :
    (l.map memberOf).mapM decodeMember = .ok (l.map canonicalEntry) :=
  mapM_map_eq_ok fun a ha => decodeMember_memberOf (isFinite_of_mem_ranking hfin (hl a ha))

omit hfin in
lemma mem_ranking_of_mem_slice {offset limit : ℤ} {a : LeaderboardEntry}
    (h : a ∈ slice board offset limit) : a ∈ ranking board :=
  List.mem_of_mem_drop (List.mem_of_mem_take h)

omit hfin in
/-- The answer for an entity the script has found. -/
lemma cachedResult_found {e : Engine} {q : Query} {size rank start : ℤ} {member : Bytes}
    {members : List Bytes} {entry : LeaderboardEntry} {entries : List LeaderboardEntry}
    (hlb : q.type ≠ .leaderboard) (hcount : q.type ≠ .leaderboardCount) (hrank : ¬ rank < 0)
    (hentry : decodeMember member = .ok entry)
    (hentries : members.mapM decodeMember = .ok entries) :
    cachedResult e q ⟨size, rank, member, start, members⟩ = .ok (.ranking
      { count := size
        rank := some (rank + 1)
        score := some entry.value
        around := if q.type = .around then some (rankedFrom start entries) else none }) := by
  simp only [cachedResult, if_neg hlb, hcount, hrank, or_self, if_false, hentry, hentries]
  split_ifs <;> rfl

/-- The Redis read returns the answer, up to the sign of zero scores, or reports a limit. -/
theorem InSync.cachedBoard_eq {q : Query}
    (h : InSync sha256 r q.metric q.board board epoch version) (e : Engine) :
    cachedBoard sha256 e r q epoch version = .ok (canonicalResult (boardAnswer e board q)) ∨
      LimitExceeded (cachedBoard sha256 e r q epoch version) := by
  have hdecode : ∀ offset limit : ℤ, ((slice board offset limit).map memberOf).mapM decodeMember =
      .ok ((slice board offset limit).map canonicalEntry) :=
    fun offset limit => mapM_decodeMember hfin fun a => mem_ranking_of_mem_slice
  rw [cachedBoard]
  rcases h.readProjection_eq hfin q.type q.offset (pageLimit e q) q.entityID q.radius e.maxBytes
    with hreply | hreply <;> rw [hreply]
  · show cachedResult e q _ = _ ∨ LimitExceeded (cachedResult e q _)
    by_cases hlb : q.type = .leaderboard
    · simp only [cachedResult, syncedReply, boardAnswer, hlb, if_true, hdecode]
      split_ifs
      · exact Or.inr (Or.inr (Or.inr rfl))
      · exact Or.inl rfl
    by_cases hcount : q.type = .leaderboardCount
    · simp only [cachedResult, syncedReply, boardAnswer, hcount, if_true, true_or, reduceCtorEq,
        if_false]
      exact Or.inl rfl
    simp only [syncedReply, boardAnswer, hlb, hcount, if_false]
    cases hget : board.get? q.entityID with
    | none =>
      have hrank : (-1 : ℤ) < 0 := by omega
      simp only [cachedResult, hlb, hcount, hrank, if_true, if_false, false_or]
      split_ifs <;> exact Or.inl rfl
    | some s =>
      have hmember := decodeMember_memberOf (a := ⟨q.entityID, s⟩) (hfin _ _ hget)
      have hpos : ¬ (position board ⟨q.entityID, s⟩ : ℤ) < 0 := not_lt.mpr (Int.natCast_nonneg _)
      refine Or.inl ?_
      by_cases haround : q.type = .around
      · simp only [if_pos haround]
        rw [cachedResult_found hlb hcount hpos hmember (hdecode _ _)]
        simp only [if_pos haround, canonicalResult, Option.map_some, rankedFrom_canonicalEntry,
          canonicalEntry]
      · simp only [if_neg haround]
        rw [cachedResult_found hlb hcount hpos hmember rfl]
        simp only [if_neg haround, canonicalResult, Option.map_some, Option.map_none,
          canonicalEntry]
  · exact Or.inr (Or.inl rfl)

end Agreement

/-- On canonical scores the answer has no sign to drop. -/
lemma canonicalResult_boardAnswer {board : OrdMap Bytes Float64}
    (hcanon : ∀ entity s, board.get? entity = some s → s.Canonical) (e : Engine) (q : Query) :
    canonicalResult (boardAnswer e board q) = boardAnswer e board q := by
  have hslice : ∀ offset limit : ℤ,
      (slice board offset limit).map canonicalEntry = slice board offset limit := by
    intro offset limit
    conv_rhs => rw [← List.map_id (slice board offset limit)]
    refine List.map_congr_left fun a ha => ?_
    rw [canonicalEntry, (hcanon _ _ ((mem_ranking_iff board a).mp (mem_ranking_of_mem_slice ha))).2]
    rfl
  by_cases hlb : q.type = .leaderboard
  · simp only [boardAnswer, hlb, if_true, canonicalResult, hslice]
  by_cases hcount : q.type = .leaderboardCount
  · simp only [boardAnswer, hcount, if_true, canonicalResult, reduceCtorEq, if_false,
      Option.map_none]
  simp only [boardAnswer, hlb, hcount, if_false]
  cases hget : board.get? q.entityID with
  | none =>
    simp only [canonicalResult]
    split_ifs <;> rfl
  | some s =>
    simp only [canonicalResult, Option.map_some, (hcanon _ _ hget).2]
    split_ifs
    · rw [Option.map_some, ← rankedFrom_canonicalEntry, hslice]
    · rfl

/-- **Within the configured limits, Redis and PostgreSQL give the same answer.**  A zero score that
carries a sign loses it on the way through Redis; the engine stores none. -/
theorem cachedBoard_agrees (sha256 : Bytes → Bytes) (e : Engine) (r : Redis) (scores : ScoreTable)
    (q : Query) (board : OrdMap Bytes Float64) (epoch : Bytes) (version : Int64)
    (hfin : ∀ entity s, board.get? entity = some s → s.isFinite = true)
    (hsync : InSync sha256 r q.metric q.board board epoch version)
    (hscores : Scores scores q.metric q.board board)
    (hcached : ¬ LimitExceeded (cachedBoard sha256 e r q epoch version))
    (hsql : ¬ LimitExceeded (sqlBoard e scores q)) :
    ∃ answer, sqlBoard e scores q = .ok answer ∧
      cachedBoard sha256 e r q epoch version = .ok (canonicalResult answer) ∧
      ((∀ entity s, board.get? entity = some s → s.Canonical) → canonicalResult answer = answer) :=
  ⟨boardAnswer e board q, (hscores.sqlBoard_eq e rfl rfl).resolve_right hsql,
    (hsync.cachedBoard_eq hfin e).resolve_right hcached,
    fun hcanon => canonicalResult_boardAnswer hcanon e q⟩

def sampleScores : OrdMap Bytes Float64 :=
  OrdMap.ofList [(bs "ann", Float64.ofBits 0x4000000000000000),
    (bs "bob", Float64.ofBits 0xbff0000000000000), (bs "eve", Float64.ofBits 0xbff0000000000000)]

/-- SHA-256 of the name of a metric and of the unnamed board. -/
def nameDigest (name : Bytes) : Bytes :=
  beBytes 32 (([(bs "m", 0x62c66a7a5dd70c3146618063c344e531e6d4b59e379808443ce962b3abd63c5a),
    ([], 0xe3b0c44298fc1c149afbf4c8996fb92427ae41e4649b934ca495991b7852b855)].lookup name).getD 0)

/-- A projection and a table that hold the sample scores on the unnamed board of `m`. -/
def sampleRedis : Redis where
  hashes := OrdMap.ofList [(metaKey nameDigest (bs "m"), OrdMap.ofList [(bs "epoch", bs "e"),
      (bs "version", bs "7"), (boardKey nameDigest (bs "m") [], bs "3")]),
    (hKey nameDigest (bs "m") [], OrdMap.ofList (sampleScores.entries.map fun es =>
      (es.1, encodeMember es.2 es.1)))]
  zsets := OrdMap.ofList [(zKey nameDigest (bs "m") [],
    OrdMap.ofList (sampleScores.entries.map fun es => (encodeMember es.2 es.1, ())))]

def sampleTable : ScoreTable :=
  OrdMap.ofList (sampleScores.entries.map fun es => (scoreKey (bs "m") [] es.1, es.2))

/-- The window around `eve`, clipped at the end; `eve` is listed before `bob`. -/
def sampleAround : Query :=
  { type := .around, metric := bs "m", entityID := bs "eve", radius := 1 }

/-- Both reads around `eve`, on a board where two entities have the same negative score. -/
theorem cachedBoard_agrees_sample :
    ∃ answer, sqlBoard ⟨100, 1000⟩ sampleTable sampleAround = .ok answer ∧
      cachedBoard nameDigest ⟨100, 1000⟩ sampleRedis sampleAround (bs "e") 7 = .ok answer := by
  have hfin : ∀ entity s, sampleScores.get? entity = some s → s.Canonical := by
    intro entity s hget
    have hall : ∀ es ∈ sampleScores.entries, es.2.Canonical := by decide +kernel
    exact hall (entity, s) ((OrdMap.mem_entries_iff _ _ _).mpr hget)
  have hsync : InSync nameDigest sampleRedis (bs "m") [] sampleScores (bs "e") 7 :=
    ⟨by decide +kernel, by decide +kernel, by decide +kernel, by decide +kernel,
      by decide +kernel⟩
  obtain ⟨answer, hsql, hcached, hcanon⟩ := cachedBoard_agrees nameDigest ⟨100, 1000⟩
    sampleRedis sampleTable sampleAround sampleScores (bs "e") 7 (fun entity s h =>
      (hfin entity s h).1) hsync
    (by decide +kernel) (by decide +kernel) (by decide +kernel)
  exact ⟨answer, hsql, by rw [hcached, hcanon hfin]⟩

end FlameDB.Analytics
