import Mathlib

/-!
# Byte strings

Go strings and byte slices are sequences of bytes, and the key-value engine underneath orders
its keys bytewise.  This file fixes that representation.

* `Bytes` — a list of `UInt8`, ordered lexicographically.
* `bs` — the bytes of an ASCII literal.
* `between_iff` — the half-open range from `p ++ a` to `p ++ b` holds exactly the strings that
  continue `p` with something in `[a, b)`.  Every bounded scan in the development is read
  through it.
* `beBytes` — the big-endian encoding, with its length, injectivity and order.
* `hexEncode`, `hexDecode` — `encoding/hex`, with the round trip.
-/

namespace Go

/-- A Go `string` or `[]byte`. -/
abbrev Bytes := List UInt8

instance linearOrderUInt8 : LinearOrder UInt8 where
  le_refl := UInt8.le_refl
  le_trans := fun _ _ _ => UInt8.le_trans
  lt_iff_le_not_ge := fun a b => by
    simp only [UInt8.lt_iff_toNat_lt, UInt8.le_iff_toNat_le]
    omega
  le_antisymm := fun _ _ => UInt8.le_antisymm
  le_total := UInt8.le_total
  toDecidableLE := inferInstance
  toDecidableEq := inferInstance
  toDecidableLT := inferInstance

instance lawfulBEqUInt8 : LawfulBEq UInt8 := inferInstance

instance lawfulBEqBytes : LawfulBEq (List UInt8) := inferInstance

/-- The bytes of an ASCII literal. -/
def bs (s : String) : Bytes := s.toList.map fun c => c.toNat.toUInt8

/-! ## Lexicographic order and prefixes

Range scans are over byte order. These lemmas say what a common front and a separator do to it. -/

lemma append_lt_append_iff (p a b : Bytes) : p ++ a < p ++ b ↔ a < b := by
  induction p with
  | nil => exact Iff.rfl
  | cons c p ih => simp [ih]

lemma append_le_append_iff (p a b : Bytes) : p ++ a ≤ p ++ b ↔ a ≤ b := by
  rw [← not_lt, ← not_lt, append_lt_append_iff]

/-- Behind parts of one length the order is decided by the first difference. -/
lemma append_lt_append_iff_of_length {a b : Bytes} (h : a.length = b.length) (x y : Bytes) :
    a ++ x < b ++ y ↔ a < b ∨ (a = b ∧ x < y) := by
  induction a generalizing b with
  | nil =>
      obtain rfl : b = [] := List.length_eq_zero_iff.mp h.symm
      simp
  | cons c a ih =>
      cases b with
      | nil => simp at h
      | cons d b =>
          simp only [List.length_cons, add_left_inj] at h
          simp only [List.cons_append, List.cons_lt_cons_iff, ih h, List.cons.injEq]
          tauto

/-- Two bounds that share a prefix only admit keys with that prefix. -/
theorem between_iff (p a b s : Bytes) :
    (p ++ a ≤ s ∧ s < p ++ b) ↔ ∃ t, s = p ++ t ∧ a ≤ t ∧ t < b := by
  constructor
  · induction p generalizing s with
    | nil => exact fun h => ⟨s, rfl, h⟩
    | cons c p ih =>
        rintro ⟨hlo, hhi⟩
        cases s with
        | nil => exact absurd (List.nil_lt_cons c (p ++ a)) (not_lt.mpr hlo)
        | cons x s =>
            rw [← not_lt] at hlo
            simp only [List.cons_append, List.cons_lt_cons_iff, not_or, not_and] at hlo hhi
            have hxc : x = c := by
              rcases hhi with h | h
              · exact absurd h hlo.1
              · exact h.1
            subst hxc
            have hlt : s < p ++ b := hhi.resolve_left (lt_irrefl x) |>.2
            obtain ⟨t, rfl, ht⟩ := ih s ⟨not_lt.mp (hlo.2 rfl), hlt⟩
            exact ⟨t, rfl, ht⟩
  · rintro ⟨t, rfl, ha, hb⟩
    exact ⟨(append_le_append_iff p a t).mpr ha, (append_lt_append_iff p t b).mpr hb⟩

lemma singleton_le_iff (c : UInt8) (t : Bytes) : [c] ≤ t ↔ ∃ b u, t = b :: u ∧ c ≤ b := by
  cases t with
  | nil =>
      refine ⟨fun h => absurd (List.nil_lt_cons c []) (not_lt.mpr h), ?_⟩
      rintro ⟨b, u, hbu, _⟩
      exact absurd hbu (by simp)
  | cons b u =>
      rw [← not_lt, List.cons_lt_cons_iff]
      simp [List.not_lt_nil]

lemma lt_singleton_iff (d : UInt8) (t : Bytes) : t < [d] ↔ ∀ b u, t = b :: u → b < d := by
  cases t with
  | nil => simp
  | cons b u => simp [List.cons_lt_cons_iff, List.not_lt_nil]

/-- The range from `p ++ [c]` to `p ++ [c + 1]` is exactly "starts with `p ++ [c]`".  The storage
layer writes such bounds as `p + ":"` and `p + ";"`. -/
theorem between_succ_iff (p : Bytes) (c d : UInt8) (hcd : d.toNat = c.toNat + 1) (s : Bytes) :
    (p ++ [c] ≤ s ∧ s < p ++ [d]) ↔ ∃ t, s = p ++ [c] ++ t := by
  rw [between_iff]
  constructor
  · rintro ⟨t, rfl, hlo, hhi⟩
    obtain ⟨b, u, rfl, hb⟩ := (singleton_le_iff c t).mp hlo
    have hd := (lt_singleton_iff d (b :: u)).mp hhi b u rfl
    have hbc : b = c := by
      rw [UInt8.le_iff_toNat_le] at hb
      rw [UInt8.lt_iff_toNat_lt] at hd
      exact UInt8.toNat_inj.mp (by omega)
    exact ⟨u, by simp [hbc]⟩
  · rintro ⟨t, rfl⟩
    refine ⟨c :: t, by simp, (singleton_le_iff c _).mpr ⟨c, t, rfl, le_refl c⟩, ?_⟩
    refine (lt_singleton_iff d _).mpr ?_
    rintro b u ⟨rfl, rfl⟩
    rw [UInt8.lt_iff_toNat_lt]
    omega

/-- A string splits at most one way around a separator that does not occur in the first part. -/
lemma append_cons_inj {c : UInt8} {a b s t : Bytes} (ha : c ∉ a) (hb : c ∉ b)
    (h : a ++ c :: s = b ++ c :: t) : a = b ∧ s = t := by
  induction a generalizing b with
  | nil =>
      cases b with
      | nil => exact ⟨rfl, by simpa using h⟩
      | cons y b => exact absurd (by simp_all : c = y) (by simp_all)
  | cons x a ih =>
      cases b with
      | nil => exact absurd (by simp_all : x = c) (by simp_all [eq_comm])
      | cons y b =>
          simp only [List.cons_append, List.cons.injEq] at h
          simp only [List.mem_cons, not_or] at ha hb
          obtain ⟨rfl, rfl⟩ := ih ha.2 hb.2 h.2
          exact ⟨by rw [h.1], rfl⟩

/-! ## Big-endian integers -/

/-- `binary.BigEndian`: the low `k` bytes of `n`, most significant first. -/
def beBytes : (k : ℕ) → ℕ → Bytes
  | 0, _ => []
  | k + 1, n => (n / 256 ^ k % 256).toUInt8 :: beBytes k n

/-- The number a big-endian byte string denotes. -/
def beNat : Bytes → ℕ
  | [] => 0
  | b :: rest => b.toNat * 256 ^ rest.length + beNat rest

@[simp] lemma beBytes_length (k n : ℕ) : (beBytes k n).length = k := by
  induction k with
  | zero => rfl
  | succ k ih => simp [beBytes, ih]

lemma beNat_beBytes (k n : ℕ) : beNat (beBytes k n) = n % 256 ^ k := by
  induction k with
  | zero => simp [beBytes, beNat, Nat.mod_one]
  | succ k ih =>
      have hb : (n / 256 ^ k % 256).toUInt8.toNat = n / 256 ^ k % 256 := by
        simp [Nat.toUInt8, UInt8.toNat_ofNat']
      rw [beBytes, beNat, beBytes_length, ih, hb, pow_succ, Nat.mod_mul, mul_comm, add_comm]

/-- Encoding loses nothing below `256 ^ k`. -/
lemma beBytes_inj {k n m : ℕ} (hn : n < 256 ^ k) (hm : m < 256 ^ k)
    (h : beBytes k n = beBytes k m) : n = m := by
  have := congrArg beNat h
  rwa [beNat_beBytes, beNat_beBytes, Nat.mod_eq_of_lt hn, Nat.mod_eq_of_lt hm] at this

/-- Among strings of one length the byte order is the order of the numbers they denote. -/
lemma lt_iff_beNat_lt {a b : Bytes} (h : a.length = b.length) : a < b ↔ beNat a < beNat b := by
  induction a generalizing b with
  | nil => cases b <;> simp_all [beNat]
  | cons x a ih =>
      cases b with
      | nil => simp at h
      | cons y b =>
          simp only [List.length_cons, add_left_inj] at h
          have hlt : ∀ c : Bytes, beNat c < 256 ^ c.length := by
            intro c
            induction c with
            | nil => simp [beNat]
            | cons z c ihc =>
                have hz : z.toNat < 256 := z.toNat_lt
                rw [beNat, List.length_cons, pow_succ]
                nlinarith [pow_pos (show 0 < 256 by norm_num) c.length]
          have ha := hlt a
          have hb := hlt b
          rw [List.cons_lt_cons_iff, ih h, beNat, beNat, h, UInt8.lt_iff_toNat_lt,
            ← UInt8.toNat_inj]
          rw [h] at ha
          constructor
          · rintro (hxy | ⟨hxy, hab⟩)
            · nlinarith
            · rw [hxy]; omega
          · intro hlt'
            rcases lt_trichotomy x.toNat y.toNat with hxy | hxy | hxy
            · exact Or.inl hxy
            · rw [hxy] at hlt'; exact Or.inr ⟨hxy, by omega⟩
            · nlinarith

/-- Big-endian encoding preserves the order. -/
theorem beBytes_lt_iff {k n m : ℕ} (hn : n < 256 ^ k) (hm : m < 256 ^ k) :
    beBytes k n < beBytes k m ↔ n < m := by
  rw [lt_iff_beNat_lt (by simp), beNat_beBytes, beNat_beBytes, Nat.mod_eq_of_lt hn,
    Nat.mod_eq_of_lt hm]

/-! ## Hexadecimal -/

/-- One lowercase hexadecimal digit, for a value below 16. -/
def hexDigit (n : UInt8) : UInt8 := if n < 10 then 0x30 + n else 0x57 + n

/-- `hex.EncodeToString`. -/
def hexEncode (b : Bytes) : Bytes :=
  b.flatMap fun (c : UInt8) => [hexDigit (c >>> 4), hexDigit (c &&& 15)]

/-- The value of a hexadecimal digit of either case. -/
def fromHexChar (c : UInt8) : Option UInt8 :=
  if 0x30 ≤ c ∧ c ≤ 0x39 then some (c - 0x30)
  else if 0x61 ≤ c ∧ c ≤ 0x66 then some (c - 0x57)
  else if 0x41 ≤ c ∧ c ≤ 0x46 then some (c - 0x37)
  else none

/-- `hex.DecodeString`, `none` where it reports an error. -/
def hexDecode : Bytes → Option Bytes
  | [] => some []
  | [_] => none
  | x :: y :: rest => do
      let hi ← fromHexChar x
      let lo ← fromHexChar y
      let tail ← hexDecode rest
      return (hi <<< 4 ||| lo) :: tail

/-- The characters `hexEncode` writes. -/
def IsHexDigit (c : UInt8) : Prop := 0x30 ≤ c ∧ c ≤ 0x39 ∨ 0x61 ≤ c ∧ c ≤ 0x66

instance (c : UInt8) : Decidable (IsHexDigit c) := inferInstanceAs (Decidable (_ ∨ _))

lemma forall_uint8 {p : UInt8 → Prop} (h : ∀ n : Fin 256, p (UInt8.ofNat n)) (c : UInt8) : p c := by
  have := h ⟨c.toNat, c.toNat_lt⟩
  simpa using this

lemma isHexDigit_hexDigit (c : UInt8) :
    IsHexDigit (hexDigit (c >>> 4)) ∧ IsHexDigit (hexDigit (c &&& 15)) :=
  forall_uint8 (p := fun c => IsHexDigit (hexDigit (c >>> 4)) ∧ IsHexDigit (hexDigit (c &&& 15)))
    (by decide +kernel) c

lemma fromHexChar_hexDigit (c : UInt8) :
    ∃ hi lo, fromHexChar (hexDigit (c >>> 4)) = some hi ∧
      fromHexChar (hexDigit (c &&& 15)) = some lo ∧ hi <<< 4 ||| lo = c := by
  have h := forall_uint8 (p := fun c =>
    (do let hi ← fromHexChar (hexDigit (c >>> 4))
        let lo ← fromHexChar (hexDigit (c &&& 15))
        return hi <<< 4 ||| lo) = some c) (by decide +kernel) c
  simpa [Option.bind_eq_some_iff] using h

/-- Every byte string survives hexadecimal. -/
@[simp] theorem hexDecode_hexEncode (b : Bytes) : hexDecode (hexEncode b) = some b := by
  induction b with
  | nil => rfl
  | cons c b ih =>
      obtain ⟨hi, lo, hhi, hlo, hc⟩ := fromHexChar_hexDigit c
      change hexDecode (_ :: _ :: hexEncode b) = _
      simp [hexDecode, hhi, hlo, ih, hc]

lemma isHexDigit_of_mem_hexEncode {b : Bytes} {c : UInt8} (h : c ∈ hexEncode b) : IsHexDigit c := by
  obtain ⟨x, -, hx⟩ := List.mem_flatMap.mp h
  rcases List.mem_pair.mp hx with rfl | rfl
  · exact (isHexDigit_hexDigit x).1
  · exact (isHexDigit_hexDigit x).2

end Go
