import Mathlib.Data.List.Basic
import Mathlib.Data.List.Perm.Basic
import Mathlib.Tactic.Common

/-!
# The `container/heap` package

A heap is a list in level order: the children of position `i` are `2 * i + 1` and `2 * i + 2`, and
no child is less than its parent.  `less` need only order the elements at hand, those of `S`.

* `init_ordered` — `heap.Init` orders any list.
* `replaceRoot_ordered` — writing to the root and `heap.Fix` keep a heap ordered.
* `root_least` — nothing is less than the root of an ordered heap.
-/

namespace Go.Heap

variable {α : Type}

/-- `h.Less(i, j)`. -/
def lessAt (less : α → α → Bool) (h : List α) (i j : ℕ) : Bool :=
  match h[i]?, h[j]? with
  | some a, some b => less a b
  | _, _ => false

/-- `h.Swap(i, j)`. -/
def swap (h : List α) (i j : ℕ) : List α :=
  match h[i]?, h[j]? with
  | some a, some b => (h.set i b).set j a
  | _, _ => h

/-- `down`; each round goes one level down. -/
def down (less : α → α → Bool) : (fuel : ℕ) → List α → ℕ → List α
  | 0, h, _ => h
  | fuel + 1, h, i =>
      let left := 2 * i + 1
      if h.length ≤ left then h
      else
        let child := if left + 1 < h.length ∧ lessAt less h (left + 1) left then left + 1 else left
        if !lessAt less h child i then h else down less fuel (swap h i child) child

/-- `heap.Init`. -/
def init (less : α → α → Bool) (h : List α) : List α :=
  (List.range (h.length / 2)).reverse.foldl (fun h i => down less h.length h i) h

/-- `h[0] = a` and `heap.Fix(h, 0)`; from the root nothing can move up. -/
def replaceRoot (less : α → α → Bool) (h : List α) (a : α) : List α :=
  down less h.length (h.set 0 a) 0

/-! ## Swapping -/

section Swap

variable {h : List α} {i j : ℕ} (hi : i < h.length) (hj : j < h.length)

include hi hj

lemma swap_eq : swap h i j = (h.set i h[j]).set j h[i] := by
  rw [swap, List.getElem?_eq_getElem hi, List.getElem?_eq_getElem hj]

lemma getElem?_swap (k : ℕ) :
    (swap h i j)[k]? = if k = j then h[i]? else if k = i then h[j]? else h[k]? := by
  rw [swap_eq hi hj, List.getElem?_set, List.getElem?_set, List.length_set]
  by_cases hkj : k = j
  · subst hkj
    rw [if_pos rfl, if_pos hj, if_pos rfl, List.getElem?_eq_getElem hi]
  · rw [if_neg (Ne.symm hkj), if_neg hkj]
    by_cases hki : k = i
    · subst hki
      rw [if_pos rfl, if_pos hi, if_pos rfl, List.getElem?_eq_getElem hj]
    · rw [if_neg (Ne.symm hki), if_neg hki]

lemma swap_perm : (swap h i j).Perm h := by
  rw [swap_eq hi hj]
  exact List.set_set_perm hi hj

end Swap

/-- Nothing is lost or duplicated. -/
lemma down_perm (less : α → α → Bool) (fuel : ℕ) (h : List α) (i : ℕ) :
    (down less fuel h i).Perm h := by
  induction fuel generalizing h i with
  | zero => exact List.Perm.refl h
  | succ fuel ih =>
    rw [down]
    dsimp only
    split_ifs with hleft hchild hstop hstop
    · exact List.Perm.refl h
    · exact List.Perm.refl h
    · exact (ih _ _).trans (swap_perm (by omega) (by omega))
    · exact List.Perm.refl h
    · exact (ih _ _).trans (swap_perm (by omega) (by omega))

lemma init_perm (less : α → α → Bool) (h : List α) : (init less h).Perm h := by
  rw [init]
  generalize (List.range (h.length / 2)).reverse = l
  suffices hgen : ∀ (l : List ℕ) (b : List α), b.Perm h →
      (l.foldl (fun h i => down less h.length h i) b).Perm h from hgen l h (List.Perm.refl h)
  intro l
  induction l with
  | nil => exact fun b hb => hb
  | cons i l ih => exact fun b hb => ih _ ((down_perm less _ b i).trans hb)

/-! ## Order

`down` repairs the order below one position. `init` calls it from the last parent to the root. -/

/-- `less` orders the elements of `S`: a strict weak order. -/
structure Orders (less : α → α → Bool) (S : α → Prop) : Prop where
  asymm : ∀ {a b}, S a → S b → less a b = true → less b a = false
  ntrans : ∀ {a b c}, S a → S b → S c → less a b = false → less b c = false → less a c = false

/-- The parent and child positions of a heap in an array. -/
def IsChild (c p : ℕ) : Prop := c = 2 * p + 1 ∨ c = 2 * p + 2

/-- What stands at `c` is not less than what stands at `p`. -/
def Over (less : α → α → Bool) (h : List α) (p c : ℕ) : Prop :=
  ∀ a b, h[p]? = some a → h[c]? = some b → less b a = false

/-- Every parent from `lo` on is over its children. -/
def OrderedFrom (less : α → α → Bool) (lo : ℕ) (h : List α) : Prop :=
  ∀ p c, lo ≤ p → IsChild c p → Over less h p c

/-- Only the pairs below `i` may be out of order, and what is below `i` belongs below its parent. -/
structure DownReady (less : α → α → Bool) (lo : ℕ) (h : List α) (i : ℕ) : Prop where
  except : ∀ p c, lo ≤ p → p ≠ i → IsChild c p → Over less h p c
  grand : ∀ p c, lo ≤ p → IsChild i p → IsChild c i → Over less h p c

section Down

variable {less : α → α → Bool} {S : α → Prop} (ho : Orders less S) {h : List α}
  (hS : ∀ a ∈ h, S a) {i : ℕ}

include ho hS

/-- The chosen child is over its sibling. -/
lemma over_child {child : ℕ} (hleft : 2 * i + 1 < h.length)
    (hchild : child = if 2 * i + 1 + 1 < h.length ∧ lessAt less h (2 * i + 1 + 1) (2 * i + 1)
      then 2 * i + 1 + 1 else 2 * i + 1) :
    IsChild child i ∧ child < h.length ∧ ∀ c, IsChild c i → c ≠ child → Over less h child c := by
  split_ifs at hchild with hright
  · subst hchild
    refine ⟨Or.inr rfl, hright.1, ?_⟩
    intro c hc hne a b ha hb
    obtain rfl : c = 2 * i + 1 := by
      rcases hc with hc | hc <;> omega
    have hless := hright.2
    rw [lessAt, ha, hb] at hless
    exact ho.asymm (hS a (List.mem_of_getElem? ha)) (hS b (List.mem_of_getElem? hb)) hless
  · subst hchild
    refine ⟨Or.inl rfl, hleft, ?_⟩
    intro c hc hne a b ha hb
    obtain rfl : c = 2 * i + 1 + 1 := by
      rcases hc with hc | hc <;> omega
    have hlt : 2 * i + 1 + 1 < h.length := (List.getElem?_eq_some_iff.mp hb).1
    have hless : ¬ lessAt less h (2 * i + 1 + 1) (2 * i + 1) = true := fun hc => hright ⟨hlt, hc⟩
    rw [lessAt, ha, hb] at hless
    simpa using hless

/-- One round hands the disorder on to the child. -/
lemma DownReady.swap {lo child : ℕ} (hr : DownReady less lo h i) (hi : i < h.length)
    (hc : IsChild child i) (hlt : child < h.length)
    (hmin : ∀ c, IsChild c i → c ≠ child → Over less h child c)
    (hless : lessAt less h child i = true) : DownReady less lo (swap h i child) child := by
  have hne : child ≠ i := by rcases hc with hc | hc <;> omega
  have hget := getElem?_swap hi hlt
  constructor
  · intro p c hlo hp hpc a b ha hb
    rw [hget, if_neg hp] at ha
    rw [hget] at hb
    by_cases hpi : p = i
    · rw [if_pos hpi] at ha
      by_cases hcc : c = child
      · -- the old parent is now the child
        rw [if_pos hcc] at hb
        rw [lessAt, ha, hb] at hless
        exact ho.asymm (hS a (List.mem_of_getElem? ha)) (hS b (List.mem_of_getElem? hb)) hless
      · have hci : c ≠ i := by rcases hpc with hpc | hpc <;> omega
        rw [if_neg hcc, if_neg hci] at hb
        exact hmin c (hpi ▸ hpc) hcc a b ha hb
    · rw [if_neg hpi] at ha
      have hcc : c ≠ child := by
        rintro rfl
        rcases hc with hc | hc <;> rcases hpc with hpc | hpc <;> omega
      rw [if_neg hcc] at hb
      by_cases hci : c = i
      · rw [if_pos hci] at hb
        exact hr.grand p child hlo (hci ▸ hpc) hc a b ha hb
      · rw [if_neg hci] at hb
        exact hr.except p c hlo hpi hpc a b ha hb
  · intro p c hlo hcp hcc a b ha hb
    obtain rfl : p = i := by rcases hc with hc | hc <;> rcases hcp with hcp | hcp <;> omega
    have hc1 : c ≠ child := by rcases hcc with hcc | hcc <;> omega
    have hc2 : c ≠ p := by
      rcases hcc with hcc | hcc <;> rcases hc with hc | hc <;> omega
    rw [hget, if_neg (Ne.symm hne), if_pos rfl] at ha
    rw [hget, if_neg hc1, if_neg hc2] at hb
    exact hr.except child c (by rcases hc with hc | hc <;> omega) hne hcc a b ha hb

/-- Where the walk stops, the heap is in order. -/
lemma DownReady.stop {lo child : ℕ} (hr : DownReady less lo h i)
    (hlt : child < h.length) (hmin : ∀ c, IsChild c i → c ≠ child → Over less h child c)
    (hless : lessAt less h child i = false) : OrderedFrom less lo h := by
  intro p c hlo hpc a b ha hb
  by_cases hpi : p = i
  · subst hpi
    obtain ⟨x, hx⟩ : ∃ x, h[child]? = some x := ⟨_, List.getElem?_eq_getElem hlt⟩
    rw [lessAt, hx, ha] at hless
    by_cases hcc : c = child
    · rw [hcc, hx] at hb
      rwa [← Option.some.inj hb]
    · exact ho.ntrans (hS b (List.mem_of_getElem? hb)) (hS x (List.mem_of_getElem? hx))
        (hS a (List.mem_of_getElem? ha)) (hmin c hpc hcc x b hx hb) hless
  · exact hr.except p c hlo hpi hpc a b ha hb

end Down

/-- **`down` restores the order.** -/
theorem down_ordered {less : α → α → Bool} {S : α → Prop} (ho : Orders less S) {lo fuel : ℕ}
    {h : List α} {i : ℕ} (hS : ∀ a ∈ h, S a) (hr : DownReady less lo h i)
    (hfuel : h.length ≤ i + fuel) : OrderedFrom less lo (down less fuel h i) := by
  induction fuel generalizing h i with
  | zero =>
    intro p c hlo hpc a b ha hb
    have hp := (List.getElem?_eq_some_iff.mp ha).1
    exact hr.except p c hlo (by rw [down] at hp; omega) hpc a b ha hb
  | succ fuel ih =>
    rw [down]
    dsimp only
    by_cases hleaf : h.length ≤ 2 * i + 1
    · rw [if_pos hleaf]
      intro p c hlo hpc a b ha hb
      have hc := (List.getElem?_eq_some_iff.mp hb).1
      exact hr.except p c hlo (by rintro rfl; rcases hpc with hpc | hpc <;> omega) hpc a b ha hb
    · rw [if_neg hleaf]
      have hleft : 2 * i + 1 < h.length := by omega
      obtain ⟨hc, hlt, hmin⟩ := over_child ho hS hleft rfl
      generalize (if 2 * i + 1 + 1 < h.length ∧ lessAt less h (2 * i + 1 + 1) (2 * i + 1) = true
        then 2 * i + 1 + 1 else 2 * i + 1) = child at hc hlt hmin ⊢
      cases hless : lessAt less h child i with
      | false => exact hr.stop ho hS hlt hmin hless
      | true =>
        have hperm := swap_perm (h := h) (i := i) (j := child) (by omega) hlt
        refine ih (fun a ha => hS a (hperm.mem_iff.mp ha))
          (hr.swap ho hS (by omega) hc hlt hmin hless) ?_
        rw [hperm.length_eq]
        rcases hc with hc | hc <;> omega

/-- **`heap.Init` orders the list.** -/
theorem init_ordered {less : α → α → Bool} {S : α → Prop} (ho : Orders less S) {h : List α}
    (hS : ∀ a ∈ h, S a) : OrderedFrom less 0 (init less h) := by
  -- from the middle on there are no children; each round brings one more parent in order
  suffices hgen : ∀ (n : ℕ) (b : List α), b.Perm h → OrderedFrom less n b →
      OrderedFrom less 0 ((List.range n).reverse.foldl (fun h i => down less h.length h i) b) by
    refine hgen (h.length / 2) h (List.Perm.refl h) ?_
    intro p c hlo hpc a b ha hb
    have hc := (List.getElem?_eq_some_iff.mp hb).1
    rcases hpc with hpc | hpc <;> omega
  intro n
  induction n with
  | zero => exact fun b _ hb => hb
  | succ n ih =>
    intro b hperm hb
    rw [List.range_succ, List.reverse_append, List.reverse_singleton, List.singleton_append,
      List.foldl_cons]
    refine ih _ ((down_perm less _ b n).trans hperm) ?_
    refine down_ordered ho (fun a ha => hS a (hperm.mem_iff.mp ha)) ⟨?_, ?_⟩ (by omega)
    · intro p c hlo hp hpc
      exact hb p c (by omega) hpc
    · intro p c hlo hnp
      rcases hnp with hnp | hnp <;> omega

/-- **Replacing the root keeps the order.** -/
theorem replaceRoot_ordered {less : α → α → Bool} {S : α → Prop} (ho : Orders less S) {h : List α}
    (hS : ∀ a ∈ h, S a) (hord : OrderedFrom less 0 h) {a : α} (ha : S a) :
    OrderedFrom less 0 (replaceRoot less h a) := by
  refine down_ordered ho ?_ ⟨?_, ?_⟩ (by simp)
  · intro b hb
    rcases List.mem_or_eq_of_mem_set hb with hb | rfl
    · exact hS b hb
    · exact ha
  · intro p c hlo hp hpc x y hx hy
    rw [List.getElem?_set_ne (Ne.symm hp)] at hx
    rw [List.getElem?_set_ne (by rcases hpc with hpc | hpc <;> omega)] at hy
    exact hord p c hlo hpc x y hx hy
  · intro p c hlo hp
    rcases hp with hp | hp <;> omega

/-- **Nothing is less than the root.** -/
theorem root_least {less : α → α → Bool} {S : α → Prop} (ho : Orders less S) {root : α}
    {rest : List α} (hS : ∀ a ∈ root :: rest, S a) (hord : OrderedFrom less 0
      (root :: rest)) {a : α}
    (ha : a ∈ root :: rest) : less a root = false := by
  obtain ⟨i, hi⟩ := List.mem_iff_getElem?.mp ha
  induction i using Nat.strongRecOn generalizing a with
  | ind i ih =>
    have hrefl : less root root = false := by
      cases hrr : less root root with
      | false => rfl
      | true =>
          exact ho.asymm (hS root List.mem_cons_self) (hS root List.mem_cons_self) hrr ▸ hrr.symm
    rcases Nat.eq_zero_or_pos i with rfl | hpos
    · obtain rfl : root = a := by simpa using hi
      exact hrefl
    · have hlt := (List.getElem?_eq_some_iff.mp hi).1
      have hparent : (i - 1) / 2 < (root :: rest).length := by omega
      have hp := List.getElem?_eq_getElem hparent
      have hpmem := List.getElem_mem hparent
      refine ho.ntrans (hS a ha) (hS _ hpmem) (hS root List.mem_cons_self) ?_
        (ih ((i - 1) / 2) (by omega) hpmem hp)
      exact hord ((i - 1) / 2) i (Nat.zero_le _)
        (by rcases Nat.mod_two_eq_zero_or_one i with h | h
            · right; omega
            · left; omega) _ a hp hi

end Go.Heap
