import Mathlib.Order.Monotone.Basic
import Mathlib.Data.List.Basic
import Mathlib.Data.List.Pairwise
import Mathlib.Tactic

/-!
# Buckets of an ordered list

A strictly increasing sequence of bounds cuts the integers above its first one into intervals.  A
list that is ordered by a key falls into consecutive runs, one for each interval that is not empty.

* `Buckets.unique` — the runs are determined by the list.
* `Buckets.join` — the runs of two lists, one behind the other: at the seam two runs of the same
  interval become one.
-/

namespace KV

/-- A run of items and the number of its interval. -/
structure Bucket (α : Type*) where
  index : ℕ
  items : List α

section Buckets

variable {α : Type*} (bound : ℕ → ℤ) (key : α → ℤ)

/-- The key lies in the interval with this number. -/
def InInterval (n : ℕ) (x : α) : Prop := bound n ≤ key x ∧ key x < bound (n + 1)

instance (n : ℕ) (x : α) : Decidable (InInterval bound key n x) :=
  inferInstanceAs (Decidable (_ ∧ _))

/-- The runs of a list, with numbers from `m` on. -/
inductive Buckets : ℕ → List α → List (Bucket α) → Prop where
  | nil (m : ℕ) : Buckets m [] []
  | cons {m n : ℕ} {items rest : List α} {bs : List (Bucket α)} (hmn : m ≤ n) (hne : items ≠ [])
      (hin : ∀ x ∈ items, InInterval bound key n x) (hrest : Buckets (n + 1) rest bs) :
      Buckets m (items ++ rest) (⟨n, items⟩ :: bs)

variable {bound key}

lemma InInterval.unique (hmono : StrictMono bound) {n m : ℕ} {x : α} (hn : InInterval bound key n x)
    (hm : InInterval bound key m x) : n = m := by
  have hnm : n < m + 1 := hmono.lt_iff_lt.mp (lt_of_le_of_lt hn.1 hm.2)
  have hmn : m < n + 1 := hmono.lt_iff_lt.mp (lt_of_le_of_lt hm.1 hn.2)
  omega

/-- In an ordered list, what is left behind the run of the first item lies in later intervals. -/
lemma bound_le_of_mem_dropWhile {n : ℕ} {x : α} {xs : List α}
    (hsorted : (x :: xs).Pairwise fun a b => key a ≤ key b) (hx : InInterval bound key n x) :
    ∀ y ∈ xs.dropWhile (fun y => InInterval bound key n y), bound (n + 1) ≤ key y := by
  have hsuffix : xs.dropWhile (fun y => InInterval bound key n y) <:+ xs := List.dropWhile_suffix _
  have hhead := List.head?_dropWhile_not (fun y => decide (InInterval bound key n y)) xs
  revert hsuffix hhead
  generalize xs.dropWhile (fun y => decide (InInterval bound key n y)) = ys
  intro hsuffix hhead
  cases ys with
  | nil => simp
  | cons y ys =>
      obtain ⟨hle, hxs⟩ := List.pairwise_cons.mp hsorted
      have hy : ¬ InInterval bound key n y := by simpa using hhead
      have hfirst : bound (n + 1) ≤ key y := by
        by_contra hlt
        exact hy ⟨hx.1.trans (hle y (hsuffix.mem List.mem_cons_self)), not_le.mp hlt⟩
      obtain ⟨hyle, -⟩ := List.pairwise_cons.mp (hxs.sublist hsuffix.sublist)
      intro z hz
      rcases List.mem_cons.mp hz with rfl | hz
      · exact hfirst
      · exact hfirst.trans (hyle z hz)

namespace Buckets

variable {m : ℕ} {xs ys : List α} {bs cs : List (Bucket α)}

lemma le_index (h : Buckets bound key m xs bs) : ∀ b ∈ bs, m ≤ b.index := by
  induction h with
  | nil => simp
  | cons hmn hne hin hrest ih =>
      intro b hb
      rcases List.mem_cons.mp hb with rfl | hb
      · exact hmn
      · exact hmn.trans (Nat.le_of_succ_le (ih b hb))

lemma items_eq (h : Buckets bound key m xs bs) : bs.flatMap (·.items) = xs := by
  induction h with
  | nil => rfl
  | cons hmn hne hin hrest ih => rw [List.flatMap_cons, ih]

lemma items_ne_nil (h : Buckets bound key m xs bs) : ∀ b ∈ bs, b.items ≠ [] := by
  induction h with
  | nil => simp
  | cons hmn hne hin hrest ih => simpa using ⟨hne, ih⟩

lemma inInterval (h : Buckets bound key m xs bs) :
    ∀ b ∈ bs, ∀ x ∈ b.items, InInterval bound key b.index x := by
  induction h with
  | nil => simp
  | cons hmn hne hin hrest ih =>
      intro b hb
      rcases List.mem_cons.mp hb with rfl | hb
      · exact hin
      · exact ih b hb

lemma pairwise_index (h : Buckets bound key m xs bs) : bs.Pairwise (·.index < ·.index) := by
  induction h with
  | nil => exact .nil
  | cons hmn hne hin hrest ih => exact .cons (fun b hb => hrest.le_index b hb) ih

lemma bound_le (hmono : StrictMono bound) (h : Buckets bound key m xs bs) :
    ∀ x ∈ xs, bound m ≤ key x := by
  intro x hx
  rw [← h.items_eq] at hx
  obtain ⟨b, hb, hxb⟩ := List.mem_flatMap.mp hx
  exact (hmono.monotone (h.le_index b hb)).trans (h.inInterval b hb x hxb).1

/-- The first run is what lies in its interval. -/
lemma takeWhile_eq (hmono : StrictMono bound) {n : ℕ} {items rest : List α}
    (hin : ∀ x ∈ items, InInterval bound key n x) (h : Buckets bound key (n + 1) rest bs) :
    (items ++ rest).takeWhile (fun x => InInterval bound key n x) = items ∧
      (items ++ rest).dropWhile (fun x => InInterval bound key n x) = rest := by
  have hrest : ∀ x ∈ rest, ¬ InInterval bound key n x := fun x hx hn =>
    absurd hn.2 (not_lt.mpr (h.bound_le hmono x hx))
  rw [List.takeWhile_append_of_pos (by simpa using hin), List.dropWhile_append_of_pos
    (by simpa using hin)]
  cases rest with
  | nil => simp
  | cons x rest =>
      have hx := hrest x List.mem_cons_self
      simp [hx]

/-- **The runs are determined by the list.** -/
theorem unique (hmono : StrictMono bound) {k : ℕ} (h : Buckets bound key m xs bs)
    (h' : Buckets bound key k xs cs) : bs = cs := by
  induction h generalizing k cs with
  | nil =>
      generalize hxs : ([] : List α) = xs at h'
      cases h' with
      | nil => rfl
      | cons hmn hne => simp [hne] at hxs
  | @cons m n items rest bs hmn hne hin hrest ih =>
      generalize hxs : items ++ rest = xs at h'
      cases h' with
      | nil => simp [hne] at hxs
      | @cons _ n' items' rest' cs hmn' hne' hin' hrest' =>
          obtain ⟨x, items₀, rfl⟩ := List.exists_cons_of_ne_nil hne
          obtain ⟨x', items₀', rfl⟩ := List.exists_cons_of_ne_nil hne'
          obtain ⟨rfl, -⟩ : x = x' ∧ _ := List.cons.inj hxs
          obtain rfl := (hin x List.mem_cons_self).unique hmono (hin' x List.mem_cons_self)
          have hfirst := takeWhile_eq hmono hin hrest
          rw [hxs] at hfirst
          have hfirst' := takeWhile_eq hmono hin' hrest'
          have hitems := hfirst.1.symm.trans hfirst'.1
          obtain rfl := hfirst.2.symm.trans hfirst'.2
          rw [hitems, ih hrest']

/-! ## Runs behind runs

Bucketing a concatenation is bucketing its parts, with the run at the seam joined. -/

lemma index_le_of_key_le (hmono : StrictMono bound) {n k : ℕ} {x y : α}
    (hn : InInterval bound key n x)
    (hk : InInterval bound key k y) (hle : key x ≤ key y) : n ≤ k :=
  Nat.lt_succ_iff.mp (hmono.lt_iff_lt.mp (lt_of_le_of_lt (hn.1.trans hle) hk.2))

end Buckets

/-- Put a run behind the others; a run of the last interval becomes part of the last run. -/
def pushBucket : List (Bucket α) → Bucket α → List (Bucket α)
  | [], b => [b]
  | [l], b => if l.index = b.index then [⟨l.index, l.items ++ b.items⟩] else [l, b]
  | l :: l' :: bs, b => l :: pushBucket (l' :: bs) b

/-- The last bucket takes the run if it is of the same interval. -/
lemma pushBucket_concat (bs : List (Bucket α)) (l b : Bucket α) :
    pushBucket (bs ++ [l]) b =
      bs ++ if l.index = b.index then [⟨l.index, l.items ++ b.items⟩] else [l, b] := by
  induction bs with
  | nil => rfl
  | cons c bs ih =>
      cases bs with
      | nil => rfl
      | cons d bs =>
          simp only [List.cons_append] at ih ⊢
          rw [pushBucket, ih]

lemma length_le_pushBucket (bs : List (Bucket α)) (b : Bucket α) :
    bs.length ≤ (pushBucket bs b).length := by
  fun_induction pushBucket bs b with
  | case1 => simp
  | case2 => simp
  | case3 => simp
  | case4 l l' bs b ih => simpa using ih

lemma length_le_foldl_pushBucket (cs bs : List (Bucket α)) :
    bs.length ≤ (cs.foldl pushBucket bs).length := by
  induction cs generalizing bs with
  | nil => exact le_rfl
  | cons c cs ih => exact (length_le_pushBucket bs c).trans (ih _)

namespace Buckets

variable {m : ℕ} {xs ys : List α} {bs cs : List (Bucket α)}

/-- More items of the last interval or of a later one. -/
lemma push (h : Buckets bound key m xs bs) {n : ℕ} {items : List α} (hne : items ≠ [])
    (hin : ∀ x ∈ items, InInterval bound key n x) (hm : m ≤ n) (hle : ∀ l ∈ bs, l.index ≤ n) :
    Buckets bound key m (xs ++ items) (pushBucket bs ⟨n, items⟩) := by
  induction h with
  | nil m =>
      have hone := Buckets.cons hm hne hin (.nil _)
      simpa [pushBucket] using hone
  | @cons m k first rest bs hmk hne' hin' hrest ih =>
      cases hrest with
      | nil =>
          rw [pushBucket, List.append_nil]
          split_ifs with hindex
          · obtain rfl : k = n := hindex
            have hone : Buckets bound key m ((first ++ items) ++ []) [⟨k, first ++ items⟩] := by
              refine .cons hmk (by simp [hne']) ?_ (.nil _)
              intro x hx
              rcases List.mem_append.mp hx with hx | hx
              · exact hin' x hx
              · exact hin x hx
            simpa using hone
          · have hlt : k + 1 ≤ n := Nat.lt_of_le_of_ne (hle _ List.mem_cons_self) hindex
            have hlast := Buckets.cons hlt hne hin (.nil _)
            rw [List.append_nil] at hlast
            exact .cons hmk hne' hin' hlast
      | @cons _ k' second rest' bs' hmk' hne'' hin'' hrest' =>
          rw [pushBucket, List.append_assoc]
          refine .cons hmk hne' hin' (ih ?_ fun l hl => hle l (List.mem_cons_of_mem _ hl))
          exact hmk'.trans (hle ⟨k', second⟩ (by simp))

lemma mem_pushBucket {b l : Bucket α} (h : l ∈ pushBucket bs b) :
    l ∈ bs ∨ l.index = b.index := by
  fun_induction pushBucket bs b with
  | case1 b => exact .inr (by rw [List.mem_singleton.mp h])
  | case2 l' b hindex =>
      rw [List.mem_singleton.mp h]
      exact .inr hindex
  | case3 l' b hindex =>
      rcases List.mem_cons.mp h with rfl | h
      · exact .inl List.mem_cons_self
      · exact .inr (by rw [List.mem_singleton.mp h])
  | case4 l₁ l₂ bs b ih =>
      rcases List.mem_cons.mp h with rfl | h
      · exact .inl List.mem_cons_self
      · exact (ih h).imp_left (List.mem_cons_of_mem _)

/-- **The runs of two lists, one behind the other.** -/
theorem join {k : ℕ} (h : Buckets bound key m xs bs) (h' : Buckets bound key k ys cs) (hmk : m ≤ k)
    (hle : ∀ l ∈ bs, ∀ c ∈ cs, l.index ≤ c.index) :
    Buckets bound key m (xs ++ ys) (cs.foldl pushBucket bs) := by
  induction h' generalizing xs bs with
  | nil => simpa using h
  | @cons k n items rest cs hkn hne hin hrest ih =>
      rw [← List.append_assoc, List.foldl_cons]
      have hpush := h.push hne hin (hmk.trans hkn)
        fun l hl => hle l hl _ List.mem_cons_self
      refine ih hpush (by omega) ?_
      intro l hl c hc
      have hlater := hrest.le_index c hc
      rcases mem_pushBucket hl with hl | hl
      · exact hle l hl c (List.mem_cons_of_mem _ hc)
      · have hl' : l.index = n := hl
        omega

/-- The runs of an ordered list that is cut in two. -/
lemma join_of_le (hmono : StrictMono bound) (h : Buckets bound key m xs bs)
    (h' : Buckets bound key m ys cs) (hle : ∀ x ∈ xs, ∀ y ∈ ys, key x ≤ key y) :
    Buckets bound key m (xs ++ ys) (cs.foldl pushBucket bs) := by
  refine h.join h' le_rfl fun l hl c hc => ?_
  obtain ⟨x, items, hx⟩ := List.exists_cons_of_ne_nil (h.items_ne_nil l hl)
  obtain ⟨y, items', hy⟩ := List.exists_cons_of_ne_nil (h'.items_ne_nil c hc)
  have hxl : x ∈ l.items := by simp [hx]
  have hyc : y ∈ c.items := by simp [hy]
  refine index_le_of_key_le hmono (h.inInterval l hl x hxl) (h'.inInterval c hc y hyc)
    (hle x ?_ y ?_)
  · exact h.items_eq ▸ List.mem_flatMap.mpr ⟨l, hl, hxl⟩
  · exact h'.items_eq ▸ List.mem_flatMap.mpr ⟨c, hc, hyc⟩

end Buckets

end Buckets

end KV
