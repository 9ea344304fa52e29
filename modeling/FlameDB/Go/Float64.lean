import FlameDB.Go.Bytes

/-!
# IEEE 754 binary64 values

A `float64` is its bit pattern.  Every finite value is an integer multiple of `2 ^ (-1074)`, the
smallest subnormal, so the exact value is an integer (`units`), comparison is comparison of
integers, and addition is: add the integers, round once to nearest even (`roundUnits`).

The scan order of encoded scores rests on one fact, `magnitude_lt_iff`: the magnitude of a value
is strictly increasing in the low 63 bits of its pattern.
-/

namespace Go

/-- A Go `float64`, by `math.Float64bits`. -/
structure Float64 where
  bits : BitVec 64
  deriving DecidableEq

namespace Float64

def ofBits (n : ℕ) : Float64 := ⟨BitVec.ofNat 64 n⟩

/-- Positive zero. -/
def zero : Float64 := ofBits 0

instance : Inhabited Float64 := ⟨zero⟩

/-- The sign bit. -/
def negative (x : Float64) : Bool := 2 ^ 63 ≤ x.bits.toNat

/-- The pattern without its sign bit. -/
def low (x : Float64) : ℕ := x.bits.toNat % 2 ^ 63

/-- The exponent field with all bits set marks infinities and NaNs. -/
def infLow : ℕ := 0x7FF * 2 ^ 52

def isNaN (x : Float64) : Bool := infLow < x.low

def isInf (x : Float64) : Bool := x.low = infLow

/-- Neither infinite nor NaN. -/
def isFinite (x : Float64) : Bool := x.low < infLow

/-- The value of the low 63 bits as a multiple of `2 ^ (-1074)`. -/
def lowUnits (n : ℕ) : ℕ :=
  if n / 2 ^ 52 = 0 then n % 2 ^ 52 else (2 ^ 52 + n % 2 ^ 52) * 2 ^ (n / 2 ^ 52 - 1)

/-- The exact value as a multiple of `2 ^ (-1074)`. -/
def units (x : Float64) : ℤ := if x.negative then -(lowUnits x.low : ℤ) else lowUnits x.low

/-- Go's `x == 0`, true of both zeros. -/
def isZero (x : Float64) : Bool := x.units = 0

/-- Go's `x < y` on values that are not NaN. -/
def lt (x y : Float64) : Bool := x.units < y.units

/-- The idiom `if value == 0 { value = 0 }`: negative zero becomes positive zero. -/
def canonical (x : Float64) : Float64 := if x.isZero then zero else x

/-- Round the non-negative rational `n / d`, in units of `2 ^ (-1074)`, to nearest even.  The
shift `s` leaves 53 significant bits; the carry of a round-up runs into the exponent field. -/
def roundUnits (n d : ℕ) : ℕ :=
  let s := Nat.log2 (n / d) - 52
  let q := n / (d * 2 ^ s)
  let r := n % (d * 2 ^ s)
  let q' := if d * 2 ^ s < 2 * r ∨ (2 * r = d * 2 ^ s ∧ q % 2 = 1) then q + 1 else q
  min (s * 2 ^ 52 + q') infLow

/-- A sign and 63 low bits. -/
def ofLow (neg : Bool) (n : ℕ) : Float64 := ofBits (if neg then 2 ^ 63 + n else n)

/-- The NaN that arithmetic returns. -/
def nan : Float64 := ofBits 0x7FF8000000000001

/-- Addition, rounding to nearest even.  An exact zero sum is `+0` unless both operands are
negative zeros. -/
def add (x y : Float64) : Float64 :=
  if x.isNaN || y.isNaN then nan
  else if x.isInf then (if y.isInf && x.negative != y.negative then nan else x)
  else if y.isInf then y
  else
    let u := x.units + y.units
    if u = 0 then ofLow (x.negative && y.negative) 0
    else ofLow (u < 0) (roundUnits u.natAbs 1)

instance : Add Float64 := ⟨add⟩

example : ofBits 0x3FB999999999999A + ofBits 0x3FC999999999999A = ofBits 0x3FD3333333333334 := by
  decide +kernel

/-! ## Order of patterns and order of values

Among non-negative numbers the order of the bit patterns is the order of the values. -/

lemma lowUnits_lt_succ (n : ℕ) : lowUnits n < lowUnits (n + 1) := by
  unfold lowUnits
  have h52 : (2 : ℕ) ^ 52 = 4503599627370496 := by norm_num
  rw [h52]
  by_cases hcarry : n % 4503599627370496 + 1 = 4503599627370496
  · -- the mantissa is full: the successor has the next exponent and an empty mantissa
    have hd : (n + 1) / 4503599627370496 = n / 4503599627370496 + 1 := by omega
    have hm : (n + 1) % 4503599627370496 = 0 := by omega
    have hm' : n % 4503599627370496 = 4503599627370495 := by omega
    rw [hd, hm, hm', if_neg (Nat.succ_ne_zero _)]
    split_ifs with h0
    · simp [h0]
    · obtain ⟨e, he⟩ := Nat.exists_eq_succ_of_ne_zero h0
      rw [he]
      simp only [Nat.succ_eq_add_one, Nat.add_sub_cancel, pow_succ]
      have := pow_pos (show 0 < 2 by norm_num) e
      omega
  · have hd : (n + 1) / 4503599627370496 = n / 4503599627370496 := by omega
    have hm : (n + 1) % 4503599627370496 = n % 4503599627370496 + 1 := by omega
    rw [hd, hm]
    split_ifs with h0
    · omega
    · have := pow_pos (show 0 < 2 by norm_num) (n / 4503599627370496 - 1)
      nlinarith

lemma lowUnits_strictMono : StrictMono lowUnits := strictMono_nat_of_lt_succ lowUnits_lt_succ

lemma magnitude_lt_iff (n m : ℕ) : lowUnits n < lowUnits m ↔ n < m := lowUnits_strictMono.lt_iff_lt

lemma lowUnits_eq_zero {n : ℕ} : lowUnits n = 0 ↔ n = 0 := by
  constructor
  · intro h
    by_contra hn
    have := lowUnits_strictMono (Nat.pos_of_ne_zero hn)
    omega
  · rintro rfl
    rfl

lemma bits_eq_of_low {x y : Float64} (hn : x.negative = y.negative) (hl : x.low = y.low) :
    x = y := by
  have hx := x.bits.isLt
  have hy := y.bits.isLt
  have hbits : x.bits = y.bits := by
    apply BitVec.eq_of_toNat_eq
    simp only [negative, decide_eq_decide] at hn
    simp only [low] at hl
    omega
  cases x
  cases y
  simp_all

lemma low_eq_zero_of_isZero {x : Float64} (h : x.isZero = true) : x.low = 0 := by
  have hu : x.units = 0 := by simpa [isZero] using h
  unfold units at hu
  split_ifs at hu
  · exact lowUnits_eq_zero.mp (by omega)
  · exact lowUnits_eq_zero.mp (by omega)

lemma isZero_iff_low {x : Float64} : x.isZero = true ↔ x.low = 0 := by
  refine ⟨low_eq_zero_of_isZero, fun h => ?_⟩
  simp [isZero, units, h, lowUnits]

@[simp] lemma canonical_canonical (x : Float64) : x.canonical.canonical = x.canonical := by
  unfold canonical
  split_ifs with h1 h2
  · rfl
  · rfl
  · rfl

/-- A canonical score: finite, and not negative zero. -/
def Canonical (x : Float64) : Prop := x.isFinite = true ∧ x.canonical = x

instance (x : Float64) : Decidable (Canonical x) := inferInstanceAs (Decidable (_ ∧ _))

lemma canonical_of_isFinite {x : Float64} (h : x.isFinite = true) : Canonical x.canonical := by
  refine ⟨?_, canonical_canonical x⟩
  unfold canonical
  split_ifs
  · decide
  · exact h

lemma Canonical.low_pos {x : Float64} (h : Canonical x) (hneg : x.negative = true) :
    0 < x.low := by
  rcases Nat.eq_zero_or_pos x.low with h0 | h0
  · have hz := h.2
    rw [canonical, if_pos (isZero_iff_low.mpr h0)] at hz
    rw [← hz] at hneg
    exact absurd hneg (by decide)
  · exact h0

lemma units_nonneg {x : Float64} (h : x.negative = false) : 0 ≤ x.units := by
  simp [units, h]

lemma Canonical.units_neg {x : Float64} (h : Canonical x) (hneg : x.negative = true) :
    x.units < 0 := by
  have hp : 0 < lowUnits x.low := (magnitude_lt_iff 0 _).mpr (h.low_pos hneg)
  simp only [units, hneg, if_true]
  omega

/-- Larger patterns are larger non-negative values. -/
lemma units_lt_iff_of_nonneg {x y : Float64} (hx : x.negative = false) (hy : y.negative = false) :
    x.units < y.units ↔ x.bits.toNat < y.bits.toNat := by
  have hlow : ∀ {z : Float64}, z.negative = false → z.low = z.bits.toNat := by
    intro z hz
    simp only [negative, decide_eq_false_iff_not] at hz
    exact Nat.mod_eq_of_lt (by omega)
  simp only [units, hx, hy, Bool.false_eq_true, if_false, Nat.cast_lt, magnitude_lt_iff, hlow hx,
    hlow hy]

/-- Larger patterns are smaller negative values. -/
lemma units_lt_iff_of_negative {x y : Float64} (hx : x.negative = true) (hy : y.negative = true) :
    x.units < y.units ↔ y.bits.toNat < x.bits.toNat := by
  have hlow : ∀ {z : Float64}, z.negative = true → z.low + 2 ^ 63 = z.bits.toNat := by
    intro z hz
    have := z.bits.isLt
    simp only [negative, decide_eq_true_eq] at hz
    simp only [low]
    omega
  have hx' := hlow hx
  have hy' := hlow hy
  simp only [units, hx, hy, if_true, neg_lt_neg_iff, Nat.cast_lt, magnitude_lt_iff]
  omega

/-- Canonical values are equal when they compare equal. -/
lemma Canonical.eq_of_units {x y : Float64} (hx : Canonical x) (hy : Canonical y)
    (h : x.units = y.units) : x = y := by
  unfold units at h
  cases hxn : x.negative <;> cases hyn : y.negative <;> simp only [hxn, hyn, if_true, if_false,
    Bool.false_eq_true] at h
  · exact bits_eq_of_low (by rw [hxn, hyn]) (lowUnits_strictMono.injective (by omega))
  · have := hy.low_pos hyn
    have hp : 0 < lowUnits y.low := (magnitude_lt_iff 0 _).mpr this
    omega
  · have := hx.low_pos hxn
    have hp : 0 < lowUnits x.low := (magnitude_lt_iff 0 _).mpr this
    omega
  · exact bits_eq_of_low (by rw [hxn, hyn]) (lowUnits_strictMono.injective (by omega))

end Float64

end Go
