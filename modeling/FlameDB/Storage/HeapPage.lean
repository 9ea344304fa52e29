import Mathlib.Data.List.Sort
import Mathlib.Data.Prod.Lex
import FlameDB.Aggregates.Ranking
import FlameDB.Storage.Windowed

/-!
# Heap selection and sorting

`leaderboardPage` sorts all sums, or, for a page near the top, only the best of them, which a heap
of bounded size picks out.  Both give the same page.

* `Best` — a heap of the best entries seen so far, the invariant of the selection.
* `leaderboardPage_eq` — the page of the fully sorted list, for sums that are not NaN.
* `leaderboardPage_is_sorted_slice` — the same for finite values, with the order spelled out.
-/

namespace FlameDB

open Go KV

/-- The place of an entry: higher values first, ids in ascending order among equal values. -/
def rankKey (e : LeaderboardEntry) : ℤ ×ₗ Bytes := toLex (-e.value.units, e.entityID)

/-- The value is a number, perhaps infinite. -/
def LeaderboardEntry.Comparable (e : LeaderboardEntry) : Prop := e.value.isNaN = false

lemma leaderboardBefore_iff {a b : LeaderboardEntry} (ha : a.Comparable) (hb : b.Comparable) :
    leaderboardBefore a b = true ↔ rankKey a < rankKey b := by
  have ha' : a.value.isNaN = false := ha
  have hb' : b.value.isNaN = false := hb
  rw [rankKey, rankKey, Prod.Lex.toLex_lt_toLex, leaderboardBefore, Float64.same,
    Float64.above, ha',
    hb']
  by_cases heq : a.value.units = b.value.units
  · simp [heq]
  · simp [heq]

lemma leaderboardBefore_eq_false_iff {a b : LeaderboardEntry} (ha : a.Comparable)
    (hb : b.Comparable) : leaderboardBefore a b = false ↔ rankKey b ≤ rankKey a := by
  rw [← Bool.not_eq_true, leaderboardBefore_iff ha hb, not_lt]

lemma heapLess_orders : Heap.Orders heapLess LeaderboardEntry.Comparable where
  asymm := by
    intro a b ha hb h
    rw [heapLess, leaderboardBefore_iff hb ha] at h
    rw [heapLess, leaderboardBefore_eq_false_iff ha hb]
    exact h.le
  ntrans := by
    intro a b c ha hb hc hab hbc
    rw [heapLess, leaderboardBefore_eq_false_iff hb ha] at hab
    rw [heapLess, leaderboardBefore_eq_false_iff hc hb] at hbc
    rw [heapLess, leaderboardBefore_eq_false_iff hc ha]
    exact hab.trans hbc

/-- The fully sorted list. -/
def sortedSums (sums : List LeaderboardEntry) : List LeaderboardEntry :=
  sums.insertionSort fun a b => rankKey a ≤ rankKey b

lemma sortedSums_perm (sums : List LeaderboardEntry) : (sortedSums sums).Perm sums :=
  List.perm_insertionSort _ sums

lemma sortedSums_sorted (sums : List LeaderboardEntry) :
    (sortedSums sums).Pairwise fun a b => rankKey a ≤ rankKey b := by
  have : Std.Total (fun a b : LeaderboardEntry => rankKey a ≤ rankKey b) :=
    ⟨fun a b => le_total (rankKey a) (rankKey b)⟩
  have : IsTrans LeaderboardEntry (fun a b => rankKey a ≤ rankKey b) :=
    ⟨fun a b c hab hbc => le_trans hab hbc⟩
  exact List.pairwise_insertionSort _ sums

/-- The sort of the source, whose order only comparable entries have. -/
lemma sort_eq_sortedSums {sums : List LeaderboardEntry} (h : ∀ e ∈ sums, e.Comparable) :
    (sums.insertionSort fun a b => !leaderboardBefore b a) = sortedSums sums := by
  have hcongr := List.map_insertionSort (fun a b => (!leaderboardBefore b a) = true)
    (fun a b => rankKey a ≤ rankKey b) id sums fun a ha b hb => by
      rw [Bool.not_eq_true', leaderboardBefore_eq_false_iff (h b hb) (h a ha)]
      rfl
  rwa [List.map_id, List.map_id] at hcongr

/-- No two entries of one place. -/
lemma eq_of_rankKey {sums : List LeaderboardEntry} (hids : (sums.map (·.entityID)).Nodup)
    {a b : LeaderboardEntry} (ha : a ∈ sums) (hb : b ∈ sums) (hkey : rankKey a = rankKey b) :
    a = b := by
  have hid : a.entityID = b.entityID := congrArg (fun k => (ofLex k).2) hkey
  exact List.inj_on_of_nodup_map hids ha hb hid

/-- With distinct ids the order is strict. -/
lemma sortedSums_strict {sums : List LeaderboardEntry} (hids : (sums.map (·.entityID)).Nodup) :
    (sortedSums sums).Pairwise fun a b => b.value.units < a.value.units ∨
      (a.value.units = b.value.units ∧ a.entityID < b.entityID) := by
  have hmem : ∀ {e}, e ∈ sortedSums sums → e ∈ sums :=
    fun he => (sortedSums_perm sums).mem_iff.mp he
  have hnodup : (sortedSums sums).Nodup :=
    (sortedSums_perm sums).nodup_iff.mpr (List.Nodup.of_map _ hids)
  refine ((sortedSums_sorted sums).and hnodup).imp_of_mem fun {a b} ha hb hab => ?_
  have hlt : rankKey a < rankKey b :=
    lt_of_le_of_ne hab.1 fun hkey => hab.2 (eq_of_rankKey hids (hmem ha) (hmem hb) hkey)
  rw [rankKey, rankKey, Prod.Lex.toLex_lt_toLex] at hlt
  simpa using hlt

/-! ## Selection

The heap holds the best entries seen so far, the worst of them on top. -/

/-- The heap holds the best of the entries seen. -/
structure Best (seen h : List LeaderboardEntry) : Prop where
  ordered : Heap.OrderedFrom heapLess 0 h
  split : ∃ rest, (h ++ rest).Perm seen ∧ ∀ x ∈ h, ∀ y ∈ rest, rankKey x ≤ rankKey y

/-- One round of the selection. -/
def offer (h : List LeaderboardEntry) (entry : LeaderboardEntry) : List LeaderboardEntry :=
  match h.head? with
  | some worst => if leaderboardBefore entry worst then Heap.replaceRoot heapLess h entry else h
  | none => h

lemma best_init {l : List LeaderboardEntry} (h : ∀ e ∈ l, e.Comparable) :
    Best l (Heap.init heapLess l) := by
  refine ⟨Heap.init_ordered heapLess_orders h, [], ?_, fun x _ y hy => absurd hy (by simp)⟩
  rw [List.append_nil]
  exact Heap.init_perm heapLess l

/-- **The heap stays the best of what was seen.** -/
lemma Best.offer {seen h : List LeaderboardEntry} (hb : Best seen h) {entry : LeaderboardEntry}
    (hseen : ∀ e ∈ seen, e.Comparable) (he : entry.Comparable) :
    Best (entry :: seen) (offer h entry) ∧ (FlameDB.offer h entry).length = h.length := by
  obtain ⟨hord, rest, hperm, hsplit⟩ := hb
  have hcomp : ∀ e ∈ h ++ rest, e.Comparable := fun e he => hseen e (hperm.mem_iff.mp he)
  cases h with
  | nil =>
    refine ⟨⟨hord, entry :: rest, ?_, fun x hx => absurd hx (by simp [FlameDB.offer])⟩, rfl⟩
    exact hperm.cons entry
  | cons worst tail =>
    have hh : ∀ e ∈ worst :: tail, e.Comparable := fun e he =>
      hcomp e (List.mem_append_left _ he)
    have hworst : ∀ x ∈ worst :: tail, rankKey x ≤ rankKey worst := by
      intro x hx
      have hleast := Heap.root_least heapLess_orders hh hord hx
      rwa [heapLess, leaderboardBefore_eq_false_iff (hh worst List.mem_cons_self)
        (hh x hx)] at hleast
    simp only [FlameDB.offer, List.head?_cons]
    by_cases hbefore : leaderboardBefore entry worst = true
    · -- the worst candidate leaves the heap
      rw [if_pos hbefore]
      have hlt := (leaderboardBefore_iff he (hh worst List.mem_cons_self)).mp hbefore
      have hmoved : (Heap.replaceRoot heapLess (worst :: tail) entry).Perm (entry :: tail) :=
        Heap.down_perm heapLess _ _ 0
      refine ⟨⟨Heap.replaceRoot_ordered heapLess_orders hh hord he, worst :: rest, ?_, ?_⟩, ?_⟩
      · calc (Heap.replaceRoot heapLess (worst :: tail) entry ++ worst :: rest).Perm
              (entry :: tail ++ worst :: rest) := hmoved.append_right _
          _ |>.Perm (entry :: (worst :: tail ++ rest)) := by
              rw [List.cons_append]
              exact List.perm_middle.cons entry
          _ |>.Perm (entry :: seen) := hperm.cons entry
      · intro x hx y hy
        rcases List.mem_cons.mp (hmoved.mem_iff.mp hx) with rfl | htail
        · rcases List.mem_cons.mp hy with rfl | hy
          · exact hlt.le
          · exact hlt.le.trans (hsplit worst List.mem_cons_self y hy)
        · rcases List.mem_cons.mp hy with rfl | hy
          · exact hworst x (List.mem_cons_of_mem _ htail)
          · exact hsplit x (List.mem_cons_of_mem _ htail) y hy
      · rw [hmoved.length_eq, List.length_cons, List.length_cons]
    · rw [if_neg hbefore]
      refine ⟨⟨hord, entry :: rest, ?_, ?_⟩, rfl⟩
      · exact List.perm_middle.trans (hperm.cons entry)
      · intro x hx y hy
        rcases List.mem_cons.mp hy with rfl | hy
        · refine (hworst x hx).trans ?_
          rwa [← leaderboardBefore_eq_false_iff he (hh worst List.mem_cons_self),
            ← Bool.not_eq_true]
        · exact hsplit x hx y hy

lemma Best.of_perm {seen seen' h : List LeaderboardEntry} (hb : Best seen h)
    (hperm : seen.Perm seen') : Best seen' h := by
  obtain ⟨hord, rest, hrest, hsplit⟩ := hb
  exact ⟨hord, rest, hrest.trans hperm, hsplit⟩

/-- The whole selection. -/
lemma Best.selectBest {seen h entries : List LeaderboardEntry} (hb : Best seen h)
    (hcomp : ∀ e ∈ seen ++ entries, e.Comparable) :
    Best (seen ++ entries) (selectBest h entries) ∧ (FlameDB.selectBest h entries).length =
      h.length := by
  induction entries generalizing seen h with
  | nil => exact ⟨by rwa [List.append_nil], rfl⟩
  | cons entry entries ih =>
    have hseen : ∀ e ∈ seen, e.Comparable := fun e he => hcomp e (List.mem_append_left _ he)
    obtain ⟨hnext, hlen⟩ := hb.offer hseen (hcomp entry (by simp))
    have hcomp' : ∀ e ∈ entry :: seen ++ entries, e.Comparable := by
      intro e he
      exact hcomp e (List.perm_middle.mem_iff.mpr he)
    obtain ⟨hbest, hlen'⟩ := ih hnext hcomp'
    exact ⟨hbest.of_perm List.perm_middle.symm, hlen'.trans hlen⟩

/-- **The best entries, sorted, are the front of the sorted list.** -/
lemma Best.sortedSums_eq {seen h : List LeaderboardEntry} (hb : Best seen h)
    (hids : (seen.map (·.entityID)).Nodup) : sortedSums h = (sortedSums seen).take h.length := by
  obtain ⟨-, rest, hperm, hsplit⟩ := hb
  have hsorted : (sortedSums h ++ sortedSums rest).Pairwise fun a b => rankKey a ≤ rankKey b := by
    refine List.pairwise_append.mpr ⟨sortedSums_sorted h, sortedSums_sorted rest,
      fun x hx y hy => ?_⟩
    exact hsplit x ((sortedSums_perm h).mem_iff.mp hx) y ((sortedSums_perm rest).mem_iff.mp hy)
  have hall : (sortedSums h ++ sortedSums rest).Perm (sortedSums seen) :=
    ((sortedSums_perm h).append (sortedSums_perm rest)).trans
      (hperm.trans (sortedSums_perm seen).symm)
  have heq : sortedSums h ++ sortedSums rest = sortedSums seen := by
    refine List.Perm.eq_of_pairwise (fun a b ha hb hab hba => ?_) hsorted
      (sortedSums_sorted seen) hall
    have ha' : a ∈ seen := (sortedSums_perm seen).mem_iff.mp (hall.mem_iff.mp ha)
    have hb' : b ∈ seen := (sortedSums_perm seen).mem_iff.mp hb
    exact eq_of_rankKey hids ha' hb' (le_antisymm hab hba)
  rw [← heq, ← (sortedSums_perm h).length_eq, List.take_left]

/-! ## The page -/

/-- **The page of the fully sorted list.** -/
theorem leaderboardPage_eq {sums : List LeaderboardEntry} (hids : (sums.map (·.entityID)).Nodup)
    (hcomp : ∀ e ∈ sums, e.Comparable) (limit offset : ℕ) :
    leaderboardPage sums limit offset = page limit offset (sortedSums sums) := by
  have hlen : (sortedSums sums).length = sums.length := (sortedSums_perm sums).length_eq
  rw [leaderboardPage]
  by_cases hoff : sums.length ≤ offset
  · rw [if_pos hoff, page, List.drop_eq_nil_of_le (by omega)]
    simp
  · rw [if_neg hoff]
    dsimp only
    -- whichever list is sorted, its first `k` entries are those of the full ranking
    have hfront : ∀ k, k ≤ sums.length →
        (((if k < sums.length / 2 then selectBest (Heap.init heapLess (sums.take k)) (sums.drop k)
          else sums).insertionSort fun a b => !leaderboardBefore b a).take k) =
            (sortedSums sums).take k := by
      intro k hk
      split_ifs with hheap
      · have htake : ∀ e ∈ sums.take k, e.Comparable :=
          fun e he => hcomp e (List.mem_of_mem_take he)
        have happend : sums.take k ++ sums.drop k = sums := List.take_append_drop k sums
        obtain ⟨hbest, hbl⟩ := (best_init htake).selectBest
          (show ∀ e ∈ sums.take k ++ sums.drop k, e.Comparable by rwa [happend])
        rw [happend] at hbest
        have hk' : (selectBest (Heap.init heapLess (sums.take k)) (sums.drop k)).length = k := by
          rw [hbl, (Heap.init_perm heapLess _).length_eq, List.length_take, min_eq_left hk]
        have hsel : ∀ e ∈ selectBest (Heap.init heapLess (sums.take k)) (sums.drop k),
            e.Comparable := by
          obtain ⟨-, rest, hperm, -⟩ := hbest
          exact fun e he => hcomp e (hperm.mem_iff.mp (List.mem_append_left _ he))
        rw [sort_eq_sortedSums hsel, hbest.sortedSums_eq hids, hk', List.take_take, min_self]
      · rw [sort_eq_sortedSums hcomp]
    rw [hfront _ (by split_ifs <;> omega), page]
    split_ifs with hk hzero hzero
    · omega
    · rw [List.drop_take, Nat.add_sub_cancel_left]
    · rw [← hlen, List.take_length]
    · rw [← hlen, List.take_length, List.take_of_length_le]
      rw [List.length_drop]
      omega

/-- **Heap page selection equals full sorting.** -/
theorem leaderboardPage_is_sorted_slice {sums : List LeaderboardEntry}
    (hids : (sums.map (·.entityID)).Nodup) (hfin : ∀ e ∈ sums, e.value.isFinite = true)
    (limit offset : ℕ) :
    ∃ sorted : List LeaderboardEntry, sorted.Perm sums ∧
      sorted.Pairwise (fun a b => b.value.units < a.value.units ∨
        (a.value.units = b.value.units ∧ a.entityID < b.entityID)) ∧
      leaderboardPage sums limit offset =
        if limit = 0 then sorted.drop offset else (sorted.drop offset).take limit := by
  have hcomp : ∀ e ∈ sums, e.Comparable := by
    intro e he
    have := hfin e he
    simp only [Float64.isFinite, decide_eq_true_eq] at this
    simp only [LeaderboardEntry.Comparable, Float64.isNaN, decide_eq_false_iff_not]
    omega
  exact ⟨sortedSums sums, sortedSums_perm sums, sortedSums_strict hids,
    leaderboardPage_eq hids hcomp limit offset⟩

/-- Five entities, two of them with the same sum. -/
def fiveSums : List LeaderboardEntry :=
  [⟨bs "a", Float64.ofBits 0x3FF0000000000000⟩, ⟨bs "b", Float64.ofBits 0x4000000000000000⟩,
    ⟨bs "e", Float64.ofBits 0x4008000000000000⟩, ⟨bs "d", Float64.ofBits 0x4008000000000000⟩,
    ⟨bs "c", Float64.ofBits 0xBFF0000000000000⟩]

/-- The first page of one entry goes through the heap. -/
theorem leaderboardPage_fiveSums :
    leaderboardPage fiveSums 1 0 = [⟨bs "d", Float64.ofBits 0x4008000000000000⟩] ∧
      ∃ sorted : List LeaderboardEntry, sorted.Perm fiveSums ∧
        leaderboardPage fiveSums 1 0 = (sorted.drop 0).take 1 := by
  obtain ⟨sorted, hperm, -, hpage⟩ :=
    @leaderboardPage_is_sorted_slice fiveSums (by decide) (by decide) 1 0
  exact ⟨by decide +kernel, sorted, hperm, hpage⟩

end FlameDB
