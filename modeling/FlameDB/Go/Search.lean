import Mathlib

/-!
# Binary search and walks around a sorted circle

`search` is the loop of `sort.Search`: the first index from which a monotone test holds.  On a
strictly sorted list it splits the list at a bound, so the walk that starts at the index found and
wraps around visits the members from the bound on and then the ones below it (`circle`).  A walk
around fewer members is the same walk with the missing ones skipped (`circle_filter`).
-/

namespace Go

/-- The loop of `sort.Search`.  Every round shrinks `j - i`, which the first argument bounds. -/
def searchLoop (f : ℕ → Bool) : ℕ → ℕ → ℕ → ℕ
  | 0, i, _ => i
  | fuel + 1, i, j =>
      if i < j then
        if f ((i + j) / 2) then searchLoop f fuel i ((i + j) / 2)
        else searchLoop f fuel ((i + j) / 2 + 1) j
      else i

/-- `sort.Search`. -/
def search (n : ℕ) (f : ℕ → Bool) : ℕ := searchLoop f n 0 n

/-- The test fails below `i` and holds from `j` on. -/
structure Brackets (f : ℕ → Bool) (n i j : ℕ) : Prop where
  le : i ≤ j
  bound : j ≤ n
  below : ∀ k < i, f k = false
  above : ∀ k, j ≤ k → k < n → f k = true

/-- `r` is the first index at which the test holds. -/
def FirstTrue (f : ℕ → Bool) (n r : ℕ) : Prop := r ≤ n ∧ ∀ k < n, f k = true ↔ r ≤ k

lemma Brackets.firstTrue {f : ℕ → Bool} {n i : ℕ} (h : Brackets f n i i) : FirstTrue f n i := by
  refine ⟨h.bound, fun k hk => ⟨fun hfk => ?_, fun hik => h.above k hik hk⟩⟩
  by_contra hlt
  rw [h.below k (by omega)] at hfk
  exact Bool.false_ne_true hfk

/-- The loop narrows the bracket to the first index at which the test holds. -/
lemma searchLoop_spec {f : ℕ → Bool} {n : ℕ}
    (hf : ∀ k l, k ≤ l → l < n → f k = true → f l = true) (fuel i j : ℕ) (hfuel : j - i ≤ fuel)
    (h : Brackets f n i j) : FirstTrue f n (searchLoop f fuel i j) := by
  induction fuel generalizing i j with
  | zero =>
      obtain rfl : i = j := le_antisymm h.le (by omega)
      exact h.firstTrue
  | succ fuel ih =>
      have hle := h.le
      have hbound := h.bound
      rw [searchLoop]
      split_ifs with hlt hmid
      · refine ih i ((i + j) / 2) (by omega) ⟨by omega, by omega, h.below, ?_⟩
        intro k hk hkn
        exact hf _ k hk hkn hmid
      · refine ih ((i + j) / 2 + 1) j (by omega) ⟨by omega, hbound, ?_, h.above⟩
        intro k hk
        by_contra hfk
        exact hmid (hf k _ (by omega) (by omega) (by simpa using hfk))
      · obtain rfl : i = j := by omega
        exact h.firstTrue

/-- The binary search finds the first index that satisfies a monotone predicate. -/
theorem search_spec {f : ℕ → Bool} {n : ℕ}
    (hf : ∀ k l, k ≤ l → l < n → f k = true → f l = true) : FirstTrue f n (search n f) :=
  searchLoop_spec hf n 0 n le_rfl ⟨Nat.zero_le n, le_rfl, fun _ hk => absurd hk (Nat.not_lt_zero _),
    fun _ hk hkn => absurd hkn (not_lt.mpr hk)⟩

/-! ## The circle -/

section Circle

variable {α : Type*} [LinearOrder α]

/-- The members of a list in the order of a walk upwards from `a` that wraps around. -/
def circle (l : List α) (a : α) : List α :=
  (l.filter fun k => a ≤ k) ++ l.filter fun k => k < a

lemma mem_circle_iff {l : List α} {a k : α} : k ∈ circle l a ↔ k ∈ l := by
  simp only [circle, List.mem_append, List.mem_filter, decide_eq_true_eq]
  rcases le_or_gt a k with h | h
  · simp [h]
  · simp [h]

/-- A walk around fewer members skips the missing ones. -/
lemma circle_filter (l : List α) (a : α) (p : α → Bool) :
    circle (l.filter p) a = (circle l a).filter p := by
  simp only [circle, List.filter_append, List.filter_filter, Bool.and_comm]

/-- Splitting a sorted list at the first member from `a` on. -/
lemma drop_take_of_firstTrue {l : List α} {a : α} {r : ℕ} {f : ℕ → Bool}
    (hf : ∀ k (hk : k < l.length), f k = true ↔ a ≤ l[k]) (hr : FirstTrue f l.length r) :
    l.drop r = (l.filter fun k => a ≤ k) ∧ l.take r = l.filter fun k => k < a := by
  have hhigh : ∀ x ∈ l.drop r, a ≤ x := by
    intro x hx
    obtain ⟨k, hk, rfl⟩ := List.mem_iff_getElem.mp hx
    rw [List.length_drop] at hk
    rw [List.getElem_drop]
    exact (hf _ (by omega)).mp ((hr.2 _ (by omega)).mpr (by omega))
  have hlow : ∀ x ∈ l.take r, x < a := by
    intro x hx
    obtain ⟨k, hk, rfl⟩ := List.mem_iff_getElem.mp hx
    rw [List.length_take] at hk
    rw [List.getElem_take, ← not_le, ← hf _ (by omega), hr.2 _ (by omega)]
    omega
  have hsplit : ∀ p : α → Bool, l.filter p = (l.take r).filter p ++ (l.drop r).filter p := by
    intro p
    rw [← List.filter_append, List.take_append_drop]
  constructor
  · rw [hsplit, List.filter_eq_nil_iff.mpr, List.filter_eq_self.mpr, List.nil_append]
    · exact fun x hx => decide_eq_true (hhigh x hx)
    · exact fun x hx => by simpa using hlow x hx
  · rw [hsplit, List.filter_eq_self.mpr, List.filter_eq_nil_iff.mpr, List.append_nil]
    · exact fun x hx => by simpa using hhigh x hx
    · exact fun x hx => decide_eq_true (hlow x hx)

/-- **The walk from the index found**, which starts over at the end of the list, goes around the
circle. -/
theorem rotate_search_eq_circle {l : List α} (hl : l.Pairwise (· < ·)) (a : α) {f : ℕ → Bool}
    (hf : ∀ k (hk : k < l.length), f k = true ↔ a ≤ l[k]) :
    l.rotate (if l.length ≤ search l.length f then 0 else search l.length f) = circle l a := by
  have hmono : ∀ k j, k ≤ j → j < l.length → f k = true → f j = true := by
    intro k j hkj hj hk
    rw [hf k (hkj.trans_lt hj)] at hk
    refine (hf j hj).mpr (hk.trans ?_)
    rcases hkj.eq_or_lt with rfl | hlt
    · exact le_rfl
    · exact (List.pairwise_iff_getElem.mp hl k j _ hj hlt).le
  have hspec := search_spec hmono
  obtain ⟨hdrop, htake⟩ := drop_take_of_firstTrue hf hspec
  rw [circle, ← hdrop, ← htake]
  split_ifs with hend
  · rw [List.rotate_zero, List.drop_of_length_le hend, List.take_of_length_le hend, List.nil_append]
  · rw [List.rotate_eq_drop_append_take hspec.1]

end Circle

end Go
