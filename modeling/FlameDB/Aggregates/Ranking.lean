import FlameDB.Aggregates.Scores

/-!
# The order of a ranking

`TopN` scans the ranking keys of a board twice: forward over the non-negative scores, backward over
the negative ones.  Together the two scans list the entities by descending score; entities with one
score come in ascending id order if the score is not negative, and in descending order if it is.

* `ranking` — that list, computed from the abstract map.
* **`LBInv.topN_eq`** — `TopN` returns the requested page of it, for ids that survive JSON.
-/

namespace FlameDB

open Go KV

/-- The slice a limit and an offset select; limit 0 means no limit. -/
def page {α : Type*} (limit offset : ℕ) (l : List α) : List α :=
  if limit = 0 then l.drop offset else (l.drop offset).take limit

/-- At or before: a higher score, or the same score and the scan order of its ids. -/
def rankLe (a b : LeaderboardEntry) : Bool :=
  b.value.units < a.value.units ∨ (a.value.units = b.value.units ∧
    if a.value.units < 0 then b.entityID ≤ a.entityID else a.entityID ≤ b.entityID)

/-- The entries of a board in the order they are listed. -/
def ranking (board : OrdMap Bytes Float64) : List LeaderboardEntry :=
  (board.entries.map fun es => ⟨es.1, es.2⟩).mergeSort rankLe

lemma rankLe_iff (a b : LeaderboardEntry) : rankLe a b = true ↔
    b.value.units < a.value.units ∨ (a.value.units = b.value.units ∧
      if a.value.units < 0 then b.entityID ≤ a.entityID else a.entityID ≤ b.entityID) := by
  simp [rankLe]

lemma rankLe_trans (a b c : LeaderboardEntry) (hab : rankLe a b = true) (hbc : rankLe b c = true) :
    rankLe a c = true := by
  rw [rankLe_iff] at *
  rcases hab with hab | ⟨hab, hid⟩ <;> rcases hbc with hbc | ⟨hbc, hid'⟩
  · exact Or.inl (hbc.trans hab)
  · exact Or.inl (hbc ▸ hab)
  · exact Or.inl (hab ▸ hbc)
  · refine Or.inr ⟨hab.trans hbc, ?_⟩
    rw [← hab] at hid'
    split_ifs at * with hneg
    · exact hid'.trans hid
    · exact hid.trans hid'

lemma rankLe_total (a b : LeaderboardEntry) : (rankLe a b || rankLe b a) = true := by
  rw [Bool.or_eq_true, rankLe_iff, rankLe_iff]
  rcases lt_trichotomy a.value.units b.value.units with h | h | h
  · exact Or.inr (Or.inl h)
  · rw [h]
    by_cases hneg : b.value.units < 0
    · simp only [hneg, if_true, true_and]
      rcases le_total a.entityID b.entityID with hid | hid
      · exact Or.inr (Or.inr hid)
      · exact Or.inl (Or.inr hid)
    · simp only [hneg, if_false, true_and]
      rcases le_total a.entityID b.entityID with hid | hid
      · exact Or.inl (Or.inr hid)
      · exact Or.inr (Or.inr hid)
  · exact Or.inl (Or.inl h)

/-- Entries that stand on both sides of each other have one id. -/
lemma entityID_eq_of_rankLe {a b : LeaderboardEntry} (hab : rankLe a b = true)
    (hba : rankLe b a = true) : a.entityID = b.entityID := by
  rw [rankLe_iff] at hab hba
  have hunits : a.value.units = b.value.units := by
    rcases hab with h | h
    · rcases hba with h' | h'
      · exact absurd h' (not_lt.mpr h.le)
      · exact h'.1.symm
    · exact h.1
  have h1 := (hab.resolve_left (by omega)).2
  have h2 := (hba.resolve_left (by omega)).2
  rw [← hunits] at h2
  split_ifs at h1 h2
  · exact le_antisymm h2 h1
  · exact le_antisymm h1 h2

lemma mem_ranking_iff (board : OrdMap Bytes Float64) (a : LeaderboardEntry) :
    a ∈ ranking board ↔ board.get? a.entityID = some a.value := by
  rw [ranking, List.mem_mergeSort, List.mem_map]
  constructor
  · rintro ⟨⟨e, s⟩, hes, rfl⟩
    exact (OrdMap.mem_entries_iff board e s).mp hes
  · intro h
    exact ⟨(a.entityID, a.value), (OrdMap.mem_entries_iff board _ _).mpr h, rfl⟩

lemma ranking_nodup (board : OrdMap Bytes Float64) : (ranking board).Nodup := by
  refine (List.mergeSort_perm _ _).nodup_iff.mpr ?_
  refine List.Nodup.map ?_ (board.sorted.imp fun {a b} hab => by rintro rfl; exact lt_irrefl _ hab)
  rintro ⟨e, s⟩ ⟨e', s'⟩ h
  simpa using h

lemma ranking_pairwise (board : OrdMap Bytes Float64) :
    (ranking board).Pairwise fun a b => rankLe a b = true :=
  List.pairwise_mergeSort rankLe_trans rankLe_total _

/-- Two entries of one board that stand on both sides of each other are equal. -/
lemma eq_of_rankLe {board : OrdMap Bytes Float64} {a b : LeaderboardEntry}
    (ha : board.get? a.entityID = some a.value) (hb : board.get? b.entityID = some b.value)
    (hab : rankLe a b = true) (hba : rankLe b a = true) : a = b := by
  have hid := entityID_eq_of_rankLe hab hba
  have hval : a.value = b.value := by
    rw [hid, hb] at ha
    exact (Option.some.inj ha).symm
  cases a
  cases b
  simp_all

/-- A list in ranking order with the entries of a board is its ranking. -/
lemma eq_ranking {board : OrdMap Bytes Float64} {l : List LeaderboardEntry}
    (hsorted : l.Pairwise fun a b => rankLe a b = true) (hnodup : l.Nodup)
    (hmem : ∀ a, a ∈ l ↔ board.get? a.entityID = some a.value) : l = ranking board := by
  have hanti : ∀ a b, a ∈ l → b ∈ ranking board → rankLe a b = true → rankLe b a = true →
      a = b :=
    fun a b ha hb => eq_of_rankLe ((hmem a).mp ha) ((mem_ranking_iff board b).mp hb)
  exact List.Perm.eq_of_pairwise hanti hsorted (ranking_pairwise board)
    ((List.perm_ext_iff_of_nodup hnodup (ranking_nodup board)).mpr fun a => by
      rw [hmem, mem_ranking_iff])

/-! ## Key order and ranking order

Ascending keys list the negative scores first, from the lowest up, and then the others from the
highest down. -/

lemma invertedScore_lt_iff (s s' : Float64) :
    invertedScore s < invertedScore s' ↔ s'.bits.toNat < s.bits.toNat := by
  have hs := s.bits.isLt
  have hs' := s'.bits.isLt
  rw [invertedScore, invertedScore, beBytes_lt_iff (by omega) (by omega)]
  omega

/-- Order of two ranking keys of one board. -/
lemma lbKey_lt_iff (bm e e' : Bytes) (s s' : Float64) :
    lbKey bm e s < lbKey bm e' s' ↔
      s'.bits.toNat < s.bits.toNat ∨ (s = s' ∧ e < e') := by
  have hsplit : ∀ e s, lbKey bm e s =
      (bs "lb" ++ colon :: (component bm ++ [colon])) ++ (invertedScore s ++ colon :: e) := by
    intro e s
    simp [lbKey]
  rw [hsplit, hsplit, append_lt_append_iff, append_lt_append_iff_of_length (by simp),
    invertedScore_lt_iff]
  refine or_congr_right (and_congr ⟨invertedScore_inj, fun h => h ▸ rfl⟩ ?_)
  simp

/-- A ranking key lies in the first pass exactly when its score is not negative. -/
lemma split_le_invertedScore_iff (s : Float64) (y : Bytes) :
    [0x80] ≤ invertedScore s ++ y ↔ s.negative = false := by
  have hs := s.bits.isLt
  have hhead : invertedScore s ++ y = ((2 ^ 64 - 1 - s.bits.toNat) / 256 ^ 7 % 256).toUInt8 ::
      (beBytes 7 (2 ^ 64 - 1 - s.bits.toNat) ++ y) := rfl
  rw [hhead, singleton_le_iff]
  constructor
  · rintro ⟨b, u, hb, hle⟩
    obtain ⟨rfl, -⟩ := List.cons_eq_cons.mp hb
    rw [UInt8.le_iff_toNat_le] at hle
    simp only [Nat.toUInt8, UInt8.toNat_ofNat', UInt8.toNat_ofNat] at hle
    simp only [Float64.negative, decide_eq_false_iff_not]
    omega
  · intro hneg
    refine ⟨_, _, rfl, ?_⟩
    rw [UInt8.le_iff_toNat_le]
    simp only [Nat.toUInt8, UInt8.toNat_ofNat', UInt8.toNat_ofNat]
    simp only [Float64.negative, decide_eq_false_iff_not] at hneg
    omega

/-! ## The two passes

One pass is forward, one backward, and the offset and the limit run through both. -/

/-- The readable entries of a list of rows. -/
def entriesOf (rows : List (Bytes × Value)) : List LeaderboardEntry :=
  rows.filterMap fun row => (unmarshalEntry row.2).toOption

/-- Every row holds an entry. -/
def Readable (rows : List (Bytes × Value)) : Prop :=
  ∀ row ∈ rows, ∃ e, unmarshalEntry row.2 = .ok e

/-- One pass adds the next entries up to the limit and uses up the offset. -/
lemma topLoop_eq (limit : ℕ) (rows : List (Bytes × Value)) (h : Readable rows) (offset : ℕ)
    (results : List LeaderboardEntry) (hlim : limit = 0 ∨ results.length < limit)
    (hoff : 0 < offset → results = []) :
    Leaderboard.topLoop limit rows offset results = .ok (offset - (entriesOf rows).length,
      page limit 0 (results ++ (entriesOf rows).drop offset)) := by
  induction rows generalizing offset results with
  | nil =>
      have hpage : page limit 0 results = results := by
        unfold page
        split_ifs with h0
        · rfl
        · exact List.take_of_length_le (hlim.resolve_left h0).le
      simp [Leaderboard.topLoop, entriesOf, hpage]
  | cons row rows ih =>
      obtain ⟨e, he⟩ := h row List.mem_cons_self
      have hrest : Readable rows := fun r hr => h r (List.mem_cons_of_mem _ hr)
      have hents : entriesOf (row :: rows) = e :: entriesOf rows := by
        simp [entriesOf, he, Except.toOption]
      rw [Leaderboard.topLoop, he, hents]
      simp only [bind, Except.bind]
      by_cases hpos : 0 < offset
      · obtain rfl := hoff hpos
        obtain ⟨n, rfl⟩ := Nat.exists_eq_succ_of_ne_zero hpos.ne'
        have hgo : ¬ (0 < limit ∧ limit ≤ ([] : List LeaderboardEntry).length) := by
          simp only [List.length_nil, not_and, not_le]
          exact fun h => h
        simp only [hpos, if_true, hgo, if_false, Nat.succ_sub_one]
        rw [ih hrest n [] hlim (fun _ => rfl)]
        simp
      · obtain rfl : offset = 0 := by omega
        simp only [lt_irrefl, if_false, List.length_append, List.length_singleton, List.drop_zero,
          Nat.zero_sub]
        by_cases hstop : 0 < limit ∧ limit ≤ results.length + 1
        · have hlen : limit = results.length + 1 := by omega
          rw [if_pos hstop, page, if_neg (by omega), List.drop_zero, hlen,
            List.take_append, List.take_of_length_le (by omega)]
          simp [pure, Except.pure]
        · rw [if_neg hstop, ih hrest 0 (results ++ [e]) ?_ (by simp)]
          · simp
          · simp only [List.length_append, List.length_singleton]
            omega

/-- The rows of the first pass. -/
def forwardRows (db : Store) (bm : Bytes) : List (Bytes × Value) :=
  db.range (bs "lb" ++ colon :: (component bm ++ [colon]) ++ [0x80])
    (bs "lb" ++ colon :: (component bm ++ [0x3b]))

/-- The rows of the second pass, before they are reversed. -/
def backwardRows (db : Store) (bm : Bytes) : List (Bytes × Value) :=
  db.range (bs "lb" ++ colon :: (component bm ++ [colon]))
    (bs "lb" ++ colon :: (component bm ++ [colon]) ++ [0x80])

/-- `TopN` is a page of the two scans. -/
lemma topN_eq_page {db : Store} {bm : Bytes} (hf : Readable (forwardRows db bm))
    (hb : Readable (backwardRows db bm)) {limit offset : ℤ} (hl : 0 ≤ limit) (ho : 0 ≤ offset) :
    Leaderboard.topN db bm limit offset = .ok (page limit.toNat offset.toNat
      (entriesOf (forwardRows db bm) ++ entriesOf (backwardRows db bm).reverse)) := by
  have hb' : Readable (backwardRows db bm).reverse :=
    fun row hrow => hb row (List.mem_reverse.mp hrow)
  rw [Leaderboard.topN, if_neg (by omega)]
  change (Leaderboard.topLoop limit.toNat (forwardRows db bm) offset.toNat [] >>= _) = _
  generalize limit.toNat = n
  generalize offset.toNat = o
  rw [topLoop_eq n _ hf o [] (by simp; omega) (fun _ => rfl)]
  generalize entriesOf (forwardRows db bm) = es
  simp only [bind, Except.bind, List.nil_append]
  by_cases hstop : 0 < n ∧ n ≤ (page n 0 (es.drop o)).length
  · -- the limit was reached in the first pass
    rw [if_pos hstop]
    have hn : n ≠ 0 := by omega
    have hlen : n ≤ (es.drop o).length := by
      have := hstop.2
      simp only [page, hn, if_false, List.drop_zero, List.length_take] at this
      omega
    have ho' : o ≤ es.length := by
      rw [List.length_drop] at hlen
      omega
    simp only [page, hn, if_false, List.drop_zero, pure, Except.pure]
    rw [List.drop_append_of_le_length ho', List.take_append_of_le_length hlen]
  · rw [if_neg hstop]
    have hall : page n 0 (es.drop o) = es.drop o := by
      unfold page at hstop ⊢
      split_ifs at hstop ⊢ with h0
      · rfl
      · simp only [List.drop_zero, List.length_take] at hstop ⊢
        exact List.take_of_length_le (by omega)
    rw [hall] at hstop ⊢
    change (Leaderboard.topLoop n (backwardRows db bm).reverse (o - es.length)
      (es.drop o) >>= _) = _
    rw [topLoop_eq n _ hb' _ _ (by omega) (fun h => List.drop_of_length_le (by omega))]
    simp only [bind, Except.bind, pure, Except.pure, page, List.drop_append, Nat.zero_sub,
      List.drop_zero]

/-! ## The scans list the ranking

The rows of the forward and the backward pass together are the entries of the board in ranking
order. -/

/-- The boundary between the passes, seen from a ranking key of the board. -/
lemma split_le_lbKey_iff (bm e : Bytes) (s : Float64) :
    bs "lb" ++ colon :: (component bm ++ [colon]) ++ [0x80] ≤ lbKey bm e s ↔
      s.negative = false := by
  have hsplit : lbKey bm e s =
      (bs "lb" ++ colon :: (component bm ++ [colon])) ++ (invertedScore s ++ colon :: e) := by
    simp [lbKey]
  rw [hsplit, append_le_append_iff, split_le_invertedScore_iff]

/-- The boundary lies inside the board. -/
lemma split_mem_board (bm : Bytes) :
    bs "lb" ++ colon :: (component bm ++ [colon]) ≤
        bs "lb" ++ colon :: (component bm ++ [colon]) ++ [0x80] ∧
      bs "lb" ++ colon :: (component bm ++ [colon]) ++ [0x80] <
        bs "lb" ++ colon :: (component bm ++ [0x3b]) := by
  constructor
  · conv_lhs => rw [← List.append_nil (bs "lb" ++ _)]
    exact (append_le_append_iff _ _ _).mpr (by decide)
  · have hassoc : ∀ x : Bytes, bs "lb" ++ colon :: (component bm ++ x) =
        (bs "lb" ++ colon :: component bm) ++ x := by simp
    rw [hassoc, hassoc, List.append_assoc]
    exact (append_lt_append_iff _ _ _).mpr (by decide)

section Scans

variable {db : Store} {σ : Scores} (h : LBInv db σ) (hkeyed : Keyed db) {m : Bytes}
  (hm : unitSep ∉ m) (b : Bytes)

include h hkeyed hm

lemma LBInv.mem_forwardRows (row : Bytes × Value) :
    row ∈ forwardRows db (boardMetric m b) ↔ ∃ e s, (σ m b).get? e = some s ∧ s.negative = false ∧
      row = (lbKey (boardMetric m b) e s, .entryDoc ⟨toValidUtf8 e, s⟩) := by
  have hrank := h.mem_rankRows hkeyed hm b
  obtain ⟨key, v⟩ := row
  rw [forwardRows, OrdMap.mem_range_iff]
  constructor
  · rintro ⟨hget, hlo, hhi⟩
    obtain ⟨e, s, hs, hrow⟩ := (hrank (key, v)).mp ((OrdMap.mem_range_iff _ _ _ _ _).mpr
      ⟨hget, (split_mem_board _).1.trans hlo, hhi⟩)
    obtain ⟨rfl, rfl⟩ := Prod.mk.inj hrow
    exact ⟨e, s, hs, (split_le_lbKey_iff _ e s).mp hlo, rfl⟩
  · rintro ⟨e, s, hs, hneg, hrow⟩
    have hmem := (OrdMap.mem_range_iff _ _ _ _ _).mp ((hrank (key, v)).mpr ⟨e, s, hs, hrow⟩)
    obtain ⟨rfl, rfl⟩ := Prod.mk.inj hrow
    exact ⟨hmem.1, (split_le_lbKey_iff _ e s).mpr hneg, hmem.2.2⟩

lemma LBInv.mem_backwardRows (row : Bytes × Value) :
    row ∈ backwardRows db (boardMetric m b) ↔ ∃ e s, (σ m b).get? e = some s ∧ s.negative = true ∧
      row = (lbKey (boardMetric m b) e s, .entryDoc ⟨toValidUtf8 e, s⟩) := by
  have hrank := h.mem_rankRows hkeyed hm b
  obtain ⟨key, v⟩ := row
  rw [backwardRows, OrdMap.mem_range_iff]
  constructor
  · rintro ⟨hget, hlo, hhi⟩
    obtain ⟨e, s, hs, hrow⟩ := (hrank (key, v)).mp ((OrdMap.mem_range_iff _ _ _ _ _).mpr
      ⟨hget, hlo, hhi.trans (split_mem_board _).2⟩)
    obtain ⟨rfl, rfl⟩ := Prod.mk.inj hrow
    rw [← not_le, split_le_lbKey_iff, Bool.not_eq_false] at hhi
    exact ⟨e, s, hs, hhi, rfl⟩
  · rintro ⟨e, s, hs, hneg, hrow⟩
    have hmem := (OrdMap.mem_range_iff _ _ _ _ _).mp ((hrank (key, v)).mpr ⟨e, s, hs, hrow⟩)
    obtain ⟨rfl, rfl⟩ := Prod.mk.inj hrow
    refine ⟨hmem.1, hmem.2.1, ?_⟩
    rw [← not_le, split_le_lbKey_iff, hneg]
    decide

lemma LBInv.readable_forwardRows : Readable (forwardRows db (boardMetric m b)) := by
  intro row hrow
  obtain ⟨e, s, -, -, rfl⟩ := (h.mem_forwardRows hkeyed hm b row).mp hrow
  exact ⟨_, rfl⟩

lemma LBInv.readable_backwardRows : Readable (backwardRows db (boardMetric m b)) := by
  intro row hrow
  obtain ⟨e, s, -, -, rfl⟩ := (h.mem_backwardRows hkeyed hm b row).mp hrow
  exact ⟨_, rfl⟩

variable (hvalid : ∀ e s, (σ m b).get? e = some s → ValidUtf8 e)

include hvalid

/-- The first pass lists the non-negative scores from the highest, ids ascending. -/
lemma LBInv.pairwise_forward : (entriesOf (forwardRows db (boardMetric m b))).Pairwise
    fun x y => rankLe x y = true ∧ x ≠ y := by
  refine List.pairwise_filterMap.mpr ((OrdMap.range_sorted db _ _).imp_of_mem ?_)
  rintro _ _ hx hy hlt x hx' y hy'
  obtain ⟨e, s, hs, hneg, rfl⟩ := (h.mem_forwardRows hkeyed hm b _).mp hx
  obtain ⟨e', s', hs', hneg', rfl⟩ := (h.mem_forwardRows hkeyed hm b _).mp hy
  cases hx'
  cases hy'
  rw [(hvalid e s hs).toValid, (hvalid e' s' hs').toValid]
  rcases (lbKey_lt_iff _ e e' s s').mp hlt with hbits | ⟨rfl, hid⟩
  · have hunits := (Float64.units_lt_iff_of_nonneg hneg' hneg).mpr hbits
    refine ⟨(rankLe_iff _ _).mpr (Or.inl hunits), ?_⟩
    rintro ⟨⟩
    exact lt_irrefl _ hunits
  · refine ⟨(rankLe_iff _ _).mpr (Or.inr ⟨rfl, ?_⟩), ?_⟩
    · rw [if_neg (not_lt.mpr (Float64.units_nonneg hneg))]
      exact hid.le
    · rintro ⟨⟩
      exact lt_irrefl _ hid

/-- The second pass lists the negative scores from the highest, ids descending. -/
lemma LBInv.pairwise_backward : (entriesOf (backwardRows db (boardMetric m b)).reverse).Pairwise
    fun x y => rankLe x y = true ∧ x ≠ y := by
  refine List.pairwise_filterMap.mpr (List.pairwise_reverse.mpr
    ((OrdMap.range_sorted db _ _).imp_of_mem ?_))
  rintro _ _ hx hy hlt y hy' x hx'
  obtain ⟨e, s, hs, hneg, rfl⟩ := (h.mem_backwardRows hkeyed hm b _).mp hx
  obtain ⟨e', s', hs', hneg', rfl⟩ := (h.mem_backwardRows hkeyed hm b _).mp hy
  cases hx'
  cases hy'
  rw [(hvalid e s hs).toValid, (hvalid e' s' hs').toValid]
  rcases (lbKey_lt_iff _ e e' s s').mp hlt with hbits | ⟨rfl, hid⟩
  · have hunits := (Float64.units_lt_iff_of_negative hneg hneg').mpr hbits
    refine ⟨(rankLe_iff _ _).mpr (Or.inl hunits), ?_⟩
    rintro ⟨⟩
    exact lt_irrefl _ hunits
  · refine ⟨(rankLe_iff _ _).mpr (Or.inr ⟨rfl, ?_⟩), ?_⟩
    · rw [if_pos ((h.canonical m b e s hs).units_neg hneg)]
      exact hid.le
    · rintro ⟨⟩
      exact lt_irrefl _ hid

/-- **`TopN` returns a page of the ranking**, when the ids of the board are valid UTF-8. -/
theorem LBInv.topN_eq {limit offset : ℤ} (hl : 0 ≤ limit) (ho : 0 ≤ offset) :
    Leaderboard.topN db (boardMetric m b) limit offset =
      .ok (page limit.toNat offset.toNat (ranking (σ m b))) := by
  rw [topN_eq_page (h.readable_forwardRows hkeyed hm b) (h.readable_backwardRows hkeyed hm b) hl ho]
  have hfwd : ∀ x, x ∈ entriesOf (forwardRows db (boardMetric m b)) ↔
      (σ m b).get? x.entityID = some x.value ∧ x.value.negative = false := by
    intro x
    rw [entriesOf, List.mem_filterMap]
    constructor
    · rintro ⟨row, hrow, hx⟩
      obtain ⟨e, s, hs, hneg, rfl⟩ := (h.mem_forwardRows hkeyed hm b _).mp hrow
      cases hx
      rw [(hvalid e s hs).toValid]
      exact ⟨hs, hneg⟩
    · rintro ⟨hs, hneg⟩
      refine ⟨_, (h.mem_forwardRows hkeyed hm b _).mpr ⟨_, _, hs, hneg, rfl⟩, ?_⟩
      rw [(hvalid _ _ hs).toValid]
      rfl
  have hbwd : ∀ x, x ∈ entriesOf (backwardRows db (boardMetric m b)).reverse ↔
      (σ m b).get? x.entityID = some x.value ∧ x.value.negative = true := by
    intro x
    rw [entriesOf, List.mem_filterMap]
    simp only [List.mem_reverse]
    constructor
    · rintro ⟨row, hrow, hx⟩
      obtain ⟨e, s, hs, hneg, rfl⟩ := (h.mem_backwardRows hkeyed hm b _).mp hrow
      cases hx
      rw [(hvalid e s hs).toValid]
      exact ⟨hs, hneg⟩
    · rintro ⟨hs, hneg⟩
      refine ⟨_, (h.mem_backwardRows hkeyed hm b _).mpr ⟨_, _, hs, hneg, rfl⟩, ?_⟩
      rw [(hvalid _ _ hs).toValid]
      rfl
  have hpair : (entriesOf (forwardRows db (boardMetric m b)) ++
      entriesOf (backwardRows db (boardMetric m b)).reverse).Pairwise
      fun x y => rankLe x y = true ∧ x ≠ y := by
    refine List.pairwise_append.mpr ⟨h.pairwise_forward hkeyed hm b hvalid,
      h.pairwise_backward hkeyed hm b hvalid, fun x hx y hy => ?_⟩
    obtain ⟨-, hnx⟩ := (hfwd x).mp hx
    obtain ⟨hy', hny⟩ := (hbwd y).mp hy
    have hlt := ((h.canonical m b _ _ hy').units_neg hny).trans_le (Float64.units_nonneg hnx)
    refine ⟨(rankLe_iff _ _).mpr (Or.inl hlt), ?_⟩
    rintro rfl
    exact lt_irrefl _ hlt
  rw [← eq_ranking (hpair.imp fun hxy => hxy.1) (hpair.imp fun hxy => hxy.2)]
  intro x
  rw [List.mem_append, hfwd, hbwd]
  cases x.value.negative <;> simp

end Scans

end FlameDB
