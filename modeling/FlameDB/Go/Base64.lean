import FlameDB.Go.Strings

/-!
# Base64

`base64.StdEncoding`: three bytes become four characters, a rest of one or two bytes is padded with
`=`.  Decoding skips line breaks and does not look at the unused bits before a padding.

* **`base64Decode_base64Encode`** — an encoded text decodes to the bytes it was made from.
-/

namespace Go

/-- The standard alphabet. -/
def base64Char (n : ℕ) : UInt8 :=
  if n < 26 then UInt8.ofNat (65 + n)
  else if n < 52 then UInt8.ofNat (71 + n)
  else if n < 62 then UInt8.ofNat (n - 4)
  else if n = 62 then byte '+' else byte '/'

/-- The value of a digit. -/
def base64Value (c : UInt8) : Option ℕ :=
  if byte 'A' ≤ c ∧ c ≤ byte 'Z' then some (c.toNat - 65)
  else if byte 'a' ≤ c ∧ c ≤ byte 'z' then some (c.toNat - 71)
  else if byte '0' ≤ c ∧ c ≤ byte '9' then some (c.toNat + 4)
  else if c = byte '+' then some 62
  else if c = byte '/' then some 63
  else none

def base64Pad : UInt8 := byte '='

/-- The encoding with padding. -/
def base64Encode : Bytes → Bytes
  | [] => []
  | [a] => [base64Char (a.toNat / 4), base64Char (a.toNat % 4 * 16), base64Pad, base64Pad]
  | [a, b] => [base64Char (a.toNat / 4), base64Char (a.toNat % 4 * 16 + b.toNat / 16),
      base64Char (b.toNat % 16 * 4), base64Pad]
  | a :: b :: c :: rest =>
      base64Char (a.toNat / 4) :: base64Char (a.toNat % 4 * 16 + b.toNat / 16) ::
      base64Char (b.toNat % 16 * 4 + c.toNat / 64) :: base64Char (c.toNat % 64) :: base64Encode rest

/-- The groups of four characters of a text without line breaks. -/
def base64Groups : Bytes → Option Bytes
  | [] => some []
  | a :: b :: c :: d :: rest => do
      let x ← base64Value a
      let y ← base64Value b
      let first := UInt8.ofNat (x * 4 + y / 16)
      if c = base64Pad then
        if d = base64Pad ∧ rest = [] then some [first] else none
      else
        let z ← base64Value c
        let second := UInt8.ofNat (y % 16 * 16 + z / 4)
        if d = base64Pad then
          if rest = [] then some [first, second] else none
        else
          let w ← base64Value d
          let tail ← base64Groups rest
          some (first :: second :: UInt8.ofNat (z % 4 * 64 + w) :: tail)
  | _ => none

def isLineBreak (c : UInt8) : Bool := c = 0x0a || c = 0x0d

/-- The decoder; it skips line breaks. -/
def base64Decode (s : Bytes) : Option Bytes := base64Groups (s.filter fun c => !isLineBreak c)

lemma base64Char_spec {n : ℕ} (h : n < 64) : base64Value (base64Char n) = some n ∧
    base64Char n ≠ base64Pad ∧ isLineBreak (base64Char n) = false := by
  have hall : ∀ i : Fin 64, base64Value (base64Char i) = some i.val ∧
      base64Char i ≠ base64Pad ∧ isLineBreak (base64Char i) = false := by decide +kernel
  exact hall ⟨n, h⟩

lemma base64Value_base64Char {n : ℕ} (h : n < 64) : base64Value (base64Char n) = some n :=
  (base64Char_spec h).1

lemma base64Char_ne_pad {n : ℕ} (h : n < 64) : base64Char n ≠ base64Pad := (base64Char_spec h).2.1

/-- An encoded text is made of the alphabet and the padding. -/
lemma forall_mem_base64Encode {P : UInt8 → Prop} (hpad : P base64Pad)
    (hchar : ∀ n < 64, P (base64Char n)) (s : Bytes) : ∀ c ∈ base64Encode s, P c := by
  induction s using base64Encode.induct with
  | case1 => simp [base64Encode]
  | case2 a =>
    have ha := a.toNat_lt
    simp only [base64Encode, List.forall_mem_cons]
    exact ⟨hchar _ (by omega), hchar _ (by omega), hpad, hpad, by simp⟩
  | case3 a b =>
    have ha := a.toNat_lt
    have hb := b.toNat_lt
    simp only [base64Encode, List.forall_mem_cons]
    exact ⟨hchar _ (by omega), hchar _ (by omega), hchar _ (by omega), hpad, by simp⟩
  | case4 a b c rest ih =>
    have ha := a.toNat_lt
    have hb := b.toNat_lt
    have hc := c.toNat_lt
    simp only [base64Encode, List.forall_mem_cons]
    exact ⟨hchar _ (by omega), hchar _ (by omega), hchar _ (by omega), hchar _ (by omega), ih⟩

/-- An encoded text is ASCII without a NUL. -/
lemma ascii_of_mem_base64Encode (s : Bytes) : ∀ c ∈ base64Encode s, c < 0x80 ∧ c ≠ 0 := by
  refine forall_mem_base64Encode (by decide) (fun n hn => ?_) s
  have hall : ∀ i : Fin 64, base64Char i < 0x80 ∧ base64Char i ≠ 0 := by decide +kernel
  exact hall ⟨n, hn⟩

lemma uint8_ofNat_eq {a : UInt8} {n : ℕ} (h : n = a.toNat) : UInt8.ofNat n = a := by
  rw [h, UInt8.ofNat_toNat]

/-- Groups of three bytes, with the two shapes of the last group. -/
lemma base64Groups_base64Encode (s : Bytes) : base64Groups (base64Encode s) = some s := by
  induction s using base64Encode.induct with
  | case1 => rfl
  | case2 a =>
    have ha := a.toNat_lt
    rw [base64Encode, base64Groups, base64Value_base64Char (by omega),
      base64Value_base64Char (by omega)]
    simp only [Option.bind_eq_bind, Option.bind_some, if_true, and_self]
    rw [uint8_ofNat_eq (a := a) (by omega)]
  | case3 a b =>
    have ha := a.toNat_lt
    have hb := b.toNat_lt
    rw [base64Encode, base64Groups, base64Value_base64Char (by omega),
      base64Value_base64Char (by omega)]
    simp only [Option.bind_eq_bind, Option.bind_some, if_true]
    rw [if_neg (base64Char_ne_pad (by omega)), base64Value_base64Char (by omega)]
    simp only [Option.bind_some]
    rw [uint8_ofNat_eq (a := a) (by omega), uint8_ofNat_eq (a := b) (by omega)]
  | case4 a b c rest ih =>
    have ha := a.toNat_lt
    have hb := b.toNat_lt
    have hc := c.toNat_lt
    rw [base64Encode, base64Groups, base64Value_base64Char (by omega),
      base64Value_base64Char (by omega)]
    simp only [Option.bind_eq_bind, Option.bind_some]
    rw [if_neg (base64Char_ne_pad (by omega)), base64Value_base64Char (by omega)]
    simp only [Option.bind_some]
    rw [if_neg (base64Char_ne_pad (by omega)), base64Value_base64Char (by omega), ih]
    simp only [Option.bind_some]
    rw [uint8_ofNat_eq (a := a) (by omega), uint8_ofNat_eq (a := b) (by omega),
      uint8_ofNat_eq (a := c) (by omega)]

/-- **An encoded text decodes to the bytes it was made from.** -/
theorem base64Decode_base64Encode (s : Bytes) : base64Decode (base64Encode s) = some s := by
  rw [base64Decode, List.filter_eq_self.mpr, base64Groups_base64Encode]
  intro c hc
  rw [forall_mem_base64Encode (P := fun c => isLineBreak c = false) (by decide)
    (fun n hn => (base64Char_spec hn).2.2) s c hc]
  rfl

example : base64Encode (bs "Flame") = bs "RmxhbWU=" := by decide +kernel

end Go
