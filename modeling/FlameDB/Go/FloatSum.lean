import FlameDB.Go.Float64

/-!
# Sums of `float64` values

Two ways to add up a list, from zero or from its first value, give the same number: they can differ
in the sign of a zero only.

* `roundUnits_lowUnits` — a value of the format is not rounded.
* `Alike` — equal, or both a zero; kept by adding the same value to both.
* `sum_alike` — the two sums.
-/

namespace Go.Float64

lemma log2_mul_two_pow {m k : ℕ} (hlo : 2 ^ 52 ≤ m) (hhi : m < 2 ^ 53) :
    Nat.log2 (m * 2 ^ k) = k + 52 := by
  have hpos : 0 < 2 ^ k := pow_pos (by norm_num) k
  rw [Nat.log2_eq_iff (by positivity)]
  constructor
  · rw [pow_add, mul_comm]
    exact Nat.mul_le_mul_right _ hlo
  · rw [show k + 52 + 1 = k + 53 by omega, pow_add, mul_comm (2 ^ k)]
    exact Nat.mul_lt_mul_of_pos_right hhi hpos

/-- **A value of the format is not rounded.** -/
lemma roundUnits_lowUnits {n : ℕ} (h : n < infLow) : roundUnits (lowUnits n) 1 = n := by
  have h52 : (2 : ℕ) ^ 52 = 4503599627370496 := by norm_num
  have h53 : (2 : ℕ) ^ 53 = 9007199254740992 := by norm_num
  have hsplit := Nat.div_add_mod n (2 ^ 52)
  have hmod := Nat.mod_lt n (show 0 < 2 ^ 52 by norm_num)
  simp only [roundUnits, lowUnits, one_mul, Nat.div_one]
  by_cases h0 : n / 2 ^ 52 = 0
  · have hn : n < 2 ^ 52 := by omega
    have hlog : Nat.log2 n - 52 = 0 := by
      rcases Nat.eq_zero_or_pos n with rfl | hpos
      · rfl
      · have : Nat.log2 n < 52 := (Nat.log2_lt hpos.ne').mpr hn
        omega
    rw [if_pos h0, Nat.mod_eq_of_lt hn, hlog]
    simp only [pow_zero, Nat.div_one, Nat.mod_one, mul_zero, zero_mul, zero_add]
    rw [if_neg (by omega), min_eq_left h.le]
  · obtain ⟨e, he⟩ := Nat.exists_eq_succ_of_ne_zero h0
    have hpos : 0 < 2 ^ e := pow_pos (by norm_num) e
    have hlog := log2_mul_two_pow (m := 2 ^ 52 + n % 2 ^ 52) (k := e) (by omega) (by omega)
    rw [if_neg h0, he, Nat.succ_eq_add_one, Nat.add_sub_cancel, hlog, Nat.add_sub_cancel,
      Nat.mul_div_cancel _ hpos, Nat.mul_mod_left, if_neg (by omega)]
    have hback : e * 2 ^ 52 + (2 ^ 52 + n % 2 ^ 52) = n := by
      rw [he, Nat.succ_eq_add_one] at hsplit
      omega
    rw [hback, min_eq_left h.le]

lemma infLow_lt : infLow < 2 ^ 63 := by decide

lemma ofLow_low (x : Float64) : ofLow x.negative x.low = x := by
  have hlt := x.bits.isLt
  obtain ⟨b⟩ := x
  simp only [ofLow, ofBits, negative, low, mk.injEq]
  apply BitVec.eq_of_toNat_eq
  rw [BitVec.toNat_ofNat]
  simp only [decide_eq_true_eq] at *
  split_ifs <;> omega

lemma low_ofLow (neg : Bool) {n : ℕ} (h : n < 2 ^ 63) : (ofLow neg n).low = n := by
  simp only [ofLow, ofBits, low, BitVec.toNat_ofNat]
  cases neg <;> simp <;> omega

/-- **A number and a finite value add up to a number.** -/
lemma add_isNaN {x y : Float64} (hx : x.isNaN = false) (hy : y.isFinite = true) :
    (x + y).isNaN = false := by
  have hyn : y.isNaN = false := by
    simp only [isFinite, isNaN, decide_eq_true_eq, decide_eq_false_iff_not] at *
    omega
  have hyi : y.isInf = false := by
    simp only [isFinite, isInf, decide_eq_true_eq, decide_eq_false_iff_not] at *
    omega
  have hlow : ∀ neg {n : ℕ}, n ≤ infLow → (ofLow neg n).isNaN = false := by
    intro neg n hn
    have := infLow_lt
    rw [isNaN, low_ofLow neg (by omega), decide_eq_false_iff_not]
    omega
  show (add x y).isNaN = false
  rw [add, hx, hyn, hyi]
  simp only [Bool.or_self, Bool.false_eq_true, if_false, Bool.false_and]
  split_ifs
  · exact hx
  · exact hlow _ (Nat.zero_le _)
  · exact hlow _ (min_le_right _ _)

/-! ## Sums that are alike

Adding to a zero keeps a value, except that the sign of a zero can change. -/

/-- Equal, or both a zero. -/
def Alike (x y : Float64) : Prop := x = y ∨ (x.isZero = true ∧ y.isZero = true)

lemma isFinite_of_isZero {x : Float64} (h : x.isZero = true) : x.isFinite = true := by
  rw [isFinite, isZero_iff_low.mp h]
  decide

/-- Adding to a zero gives the value itself, or a zero for a zero. -/
lemma zero_add_alike {x v : Float64} (hx : x.isZero = true) (hv : v.isFinite = true) :
    Alike (x + v) v := by
  have hfin : ∀ {y : Float64}, y.isFinite = true → y.isNaN = false ∧ y.isInf = false := by
    intro y hy
    simp only [isFinite, isNaN, isInf, decide_eq_true_eq, decide_eq_false_iff_not] at *
    omega
  obtain ⟨hxn, hxi⟩ := hfin (isFinite_of_isZero hx)
  obtain ⟨hvn, hvi⟩ := hfin hv
  have hxu : x.units = 0 := by simpa [isZero] using hx
  have hsum : x + v = if v.units = 0 then ofLow (x.negative && v.negative) 0
      else ofLow (v.units < 0) (roundUnits v.units.natAbs 1) := by
    show add x v = _
    rw [add, hxn, hxi, hvn, hvi, hxu]
    simp
  by_cases hv0 : v.units = 0
  · right
    rw [hsum, if_pos hv0]
    refine ⟨isZero_iff_low.mpr (low_ofLow _ (by norm_num)), by simp [isZero, hv0]⟩
  · left
    have hlow : v.low < infLow := by simpa [isFinite] using hv
    have habs : v.units.natAbs = lowUnits v.low := by
      rw [units]
      split_ifs <;> simp
    have hneg : decide (v.units < 0) = v.negative := by
      have hpos : lowUnits v.low ≠ 0 := by rw [← habs]; omega
      rw [units]
      cases v.negative with
      | false => simp
      | true => simp; omega
    rw [hsum, if_neg hv0, habs, hneg, roundUnits_lowUnits hlow, ofLow_low]

lemma Alike.symm {x y : Float64} (h : Alike x y) : Alike y x :=
  h.imp Eq.symm And.symm

lemma Alike.trans {x y z : Float64} (h : Alike x y) (h' : Alike y z) : Alike x z := by
  rcases h with rfl | ⟨hx, hy⟩
  · exact h'
  · rcases h' with rfl | ⟨-, hz⟩
    · exact Or.inr ⟨hx, hy⟩
    · exact Or.inr ⟨hx, hz⟩

/-- Adding the same value keeps sums alike. -/
lemma Alike.add {x y v : Float64} (h : Alike x y) (hv : v.isFinite = true) :
    Alike (x + v) (y + v) := by
  rcases h with rfl | ⟨hx, hy⟩
  · exact Or.inl rfl
  · exact (zero_add_alike hx hv).trans (zero_add_alike hy hv).symm

lemma Alike.foldl {x y : Float64} (h : Alike x y) {l : List Float64}
    (hl : ∀ v ∈ l, v.isFinite = true) : Alike (l.foldl (· + ·) x) (l.foldl (· + ·) y) := by
  induction l generalizing x y with
  | nil => exact h
  | cons v l ih =>
    exact ih (h.add (hl v List.mem_cons_self)) fun u hu => hl u (List.mem_cons_of_mem _ hu)

/-- The values added up one after the other; nothing is zero. -/
def total : List Float64 → Float64
  | [] => zero
  | v :: l => l.foldl (· + ·) v

/-- **Adding up from zero gives the same number.** -/
lemma sum_alike {l : List Float64} (hl : ∀ v ∈ l, v.isFinite = true) :
    Alike (l.foldl (· + ·) zero) (total l) := by
  cases l with
  | nil => exact Or.inl rfl
  | cons v l =>
    have hz : zero.isZero = true := by decide
    exact (zero_add_alike hz (hl v List.mem_cons_self)).foldl
      fun u hu => hl u (List.mem_cons_of_mem _ hu)

/-- The sum of finite values is a number, perhaps infinite. -/
lemma total_isNaN {l : List Float64} (hl : ∀ v ∈ l, v.isFinite = true) :
    (total l).isNaN = false := by
  have hgen : ∀ (l : List Float64) (x : Float64), x.isNaN = false → (∀ v ∈ l, v.isFinite = true) →
      (l.foldl (· + ·) x).isNaN = false := by
    intro l
    induction l with
    | nil => exact fun x hx _ => hx
    | cons v l ih =>
      intro x hx hl
      exact ih (x + v) (add_isNaN hx (hl v List.mem_cons_self))
        fun u hu => hl u (List.mem_cons_of_mem _ hu)
  cases l with
  | nil => decide
  | cons v l =>
    refine hgen l v ?_ fun u hu => hl u (List.mem_cons_of_mem _ hu)
    have := hl v List.mem_cons_self
    simp only [isFinite, isNaN, decide_eq_true_eq, decide_eq_false_iff_not] at *
    omega

end Go.Float64
