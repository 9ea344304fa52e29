import FlameDB.Go.Strings
import FlameDB.Go.Float64

/-!
# The `strconv` package

Decimal integers, floating-point literals and quoted strings.

* `parseInt_formatInt` — `%d` of an `int64` reads back.
* `unquote_ends` — a quoted string ends with the quote it starts with, so no text that ends
  otherwise passes `strconv.Unquote`.
-/

namespace Go

def digitByte (d : ℕ) : UInt8 := byte '0' + UInt8.ofNat d

def digitValue (b : UInt8) : ℕ := (b - byte '0').toNat

/-- The value of a text of decimal digits. -/
def decimalValue (s : Bytes) : ℕ := s.foldl (fun n b => n * 10 + digitValue b) 0

/-- The last `w` decimal digits of `n`. -/
def fixedDecimal : (w : ℕ) → ℕ → Bytes
  | 0, _ => []
  | w + 1, n => fixedDecimal w (n / 10) ++ [digitByte (n % 10)]

/-- `%d` of a natural number. -/
def formatNat (n : ℕ) : Bytes := fixedDecimal (Nat.log 10 n + 1) n

/-- `%d` of an `int64`. -/
def formatInt (n : Int64) : Bytes :=
  if n < 0 then byte '-' :: formatNat n.toInt.natAbs else formatNat n.toInt.natAbs

/-- The sign and the rest of a number. -/
def cutSign : Bytes → Bool × Bytes
  | [] => (false, [])
  | b :: rest =>
      if b = byte '-' then (true, rest) else if b = byte '+' then (false, rest)
      else (false, b :: rest)

/-- `strconv.ParseInt(s, 10, 64)`; `strconv.Atoi` accepts the same texts. -/
def parseInt (s : Bytes) : Option Int64 :=
  let (neg, digits) := cutSign s
  if digits = [] ∨ ¬ digits.all isDigit then none
  else
    let n := decimalValue digits
    if neg then (if 2 ^ 63 < n then none else some (Int64.ofInt (-n)))
    else (if 2 ^ 63 ≤ n then none else some (Int64.ofInt n))

lemma digitValue_digitByte {d : ℕ} (h : d < 10) : digitValue (digitByte d) = d := by
  interval_cases d <;> rfl

lemma isDigit_digitByte {d : ℕ} (h : d < 10) : isDigit (digitByte d) = true := by
  interval_cases d <;> rfl

@[simp] lemma length_fixedDecimal (w n : ℕ) : (fixedDecimal w n).length = w := by
  induction w generalizing n with
  | zero => rfl
  | succ w ih => simp [fixedDecimal, ih]

lemma isDigit_of_mem_fixedDecimal {w n : ℕ} {b : UInt8} (h : b ∈ fixedDecimal w n) :
    isDigit b = true := by
  induction w generalizing n with
  | zero => simp [fixedDecimal] at h
  | succ w ih =>
      rcases List.mem_append.mp h with h | h
      · exact ih h
      · rw [List.mem_singleton.mp h]
        exact isDigit_digitByte (Nat.mod_lt _ (by norm_num))

@[simp] lemma all_isDigit_fixedDecimal (w n : ℕ) : (fixedDecimal w n).all isDigit = true :=
  List.all_eq_true.mpr fun _ h => isDigit_of_mem_fixedDecimal h

lemma decimalValue_append_singleton (s : Bytes) (b : UInt8) :
    decimalValue (s ++ [b]) = decimalValue s * 10 + digitValue b := by
  simp [decimalValue]

/-- Fixed-width digits read back modulo the width. -/
lemma decimalValue_fixedDecimal (w n : ℕ) : decimalValue (fixedDecimal w n) = n % 10 ^ w := by
  induction w generalizing n with
  | zero => simp [fixedDecimal, decimalValue, Nat.mod_one]
  | succ w ih =>
      rw [fixedDecimal, decimalValue_append_singleton, ih,
        digitValue_digitByte (Nat.mod_lt _ (by norm_num)), pow_succ, mul_comm (10 ^ w),
        Nat.mod_mul]
      ring

lemma digitByte_lt_iff {d e : ℕ} (hd : d < 10) (he : e < 10) :
    digitByte d < digitByte e ↔ d < e := by
  have htoNat : ∀ k < 10, (digitByte k).toNat = 48 + k := by decide
  rw [UInt8.lt_iff_toNat_lt, htoNat d hd, htoNat e he]
  omega

/-- Numbers of one width are ordered as their texts. -/
lemma fixedDecimal_lt_iff {w n m : ℕ} (hn : n < 10 ^ w) (hm : m < 10 ^ w) :
    fixedDecimal w n < fixedDecimal w m ↔ n < m := by
  induction w generalizing n m with
  | zero =>
      simp only [pow_zero, Nat.lt_one_iff] at hn hm
      simp [hn, hm]
  | succ w ih =>
      rw [pow_succ] at hn hm
      have hn' : n / 10 < 10 ^ w := by omega
      have hm' : m / 10 < 10 ^ w := by omega
      have heq : fixedDecimal w (n / 10) = fixedDecimal w (m / 10) ↔ n / 10 = m / 10 := by
        refine ⟨fun h => ?_, fun h => by rw [h]⟩
        have hvalue := congrArg decimalValue h
        rwa [decimalValue_fixedDecimal, decimalValue_fixedDecimal, Nat.mod_eq_of_lt hn',
          Nat.mod_eq_of_lt hm'] at hvalue
      have hlast : [digitByte (n % 10)] < [digitByte (m % 10)] ↔ n % 10 < m % 10 := by
        rw [List.cons_lt_cons_iff, digitByte_lt_iff (by omega) (by omega)]
        simp
      rw [fixedDecimal, fixedDecimal, append_lt_append_iff_of_length (by simp),
        ih hn' hm', heq, hlast]
      omega

lemma decimalValue_formatNat (n : ℕ) : decimalValue (formatNat n) = n := by
  rw [formatNat, decimalValue_fixedDecimal]
  exact Nat.mod_eq_of_lt (Nat.lt_pow_succ_log_self (by norm_num) n)

lemma isDigit_of_mem_formatNat {n : ℕ} {b : UInt8} (h : b ∈ formatNat n) : isDigit b = true :=
  isDigit_of_mem_fixedDecimal h

lemma formatNat_ne_nil (n : ℕ) : formatNat n ≠ [] :=
  List.ne_nil_of_length_pos (by simp [formatNat])

lemma cutSign_of_digits {s : Bytes} (h : s.all isDigit = true) : cutSign s = (false, s) := by
  cases s with
  | nil => rfl
  | cons b rest =>
      have hb : isDigit b = true := List.all_eq_true.mp h b List.mem_cons_self
      have hminus : b ≠ byte '-' := by rintro rfl; exact absurd hb (by decide)
      have hplus : b ≠ byte '+' := by rintro rfl; exact absurd hb (by decide)
      simp [cutSign, hminus, hplus]

/-- **`%d` reads back.** -/
theorem parseInt_formatInt {n : Int64} (h : ¬ n < 0) : parseInt (formatInt n) = some n := by
  have hn : 0 ≤ n.toInt := by
    rw [Int64.lt_iff_toInt_lt, Int64.toInt_zero] at h
    omega
  have hlt : n.toInt < 2 ^ 63 := Int64.toInt_lt n
  have hall : (formatNat n.toInt.natAbs).all isDigit = true := all_isDigit_fixedDecimal _ _
  rw [formatInt, if_neg h, parseInt, cutSign_of_digits hall]
  simp only [formatNat_ne_nil, hall, not_true_eq_false, or_self, if_false, decimalValue_formatNat,
    Bool.false_eq_true]
  rw [if_neg (by omega), Int.natAbs_of_nonneg hn, Int64.ofInt_toInt]

/-- **`%d` of a negative integer reads back.** -/
theorem parseInt_formatInt_of_neg {n : Int64} (h : n < 0) : parseInt (formatInt n) = some n := by
  have hn : n.toInt < 0 := by
    rw [Int64.lt_iff_toInt_lt, Int64.toInt_zero] at h
    exact h
  have hge : -2 ^ 63 ≤ n.toInt := Int64.le_toInt n
  have hall : (formatNat n.toInt.natAbs).all isDigit = true := all_isDigit_fixedDecimal _ _
  have hcut : cutSign (byte '-' :: formatNat n.toInt.natAbs) =
    (true, formatNat n.toInt.natAbs) := by
    simp [cutSign]
  have hvalue : -((n.toInt.natAbs : ℕ) : ℤ) = n.toInt := by omega
  rw [formatInt, if_pos h, parseInt, hcut]
  simp only [formatNat_ne_nil, hall, not_true_eq_false, or_self, if_false, decimalValue_formatNat,
    if_true]
  rw [if_neg (by omega), hvalue, Int64.ofInt_toInt]

lemma parseInt_formatInt_eq (n : Int64) : parseInt (formatInt n) = some n := by
  by_cases h : n < 0
  · exact parseInt_formatInt_of_neg h
  · exact parseInt_formatInt h

example : formatInt 1700000000 = bs "1700000000" := by decide +kernel

/-! ## Floating-point literals -/

/-- `underscoreOK` past its optional sign and base prefix: an underscore stands between digits.
`digit` and `under` tell what the last character was. -/
def underscoresSeparate (hex : Bool) (digit under : Bool) : Bytes → Bool
  | [] => !under
  | b :: rest =>
      if isDigit b || (hex && (fromHexChar b).isSome) then underscoresSeparate hex true false rest
      else if b = byte '_' then digit && underscoresSeparate hex false true rest
      else !under && underscoresSeparate hex false false rest

/-- The characters of a mantissa. -/
def isMantissa (hex : Bool) (b : UInt8) : Bool :=
  b = byte '_' || b = byte '.' || isDigit b || (hex && (fromHexChar b).isSome)

/-- The exponent part that ends a literal; a hexadecimal literal must have one. -/
def readExponent (hex : Bool) : Bytes → Option ℤ
  | [] => if hex then none else some 0
  | c :: rest =>
      let (neg, digits) := cutSign rest
      if lowerByte c = byte (if hex then 'p' else 'e') ∧ digits.head?.any isDigit ∧
          digits.all (fun b => isDigit b || b = byte '_') then
        -- beyond four digits the source stops counting: the value is out of range anyway
        let e : ℕ := digits.foldl (fun e b =>
          if b = byte '_' ∨ 10000 ≤ e then e else e * 10 + digitValue b) 0
        some (if neg then -e else e)
      else none

/-- `m * base ^ e` rounded to a `float64`, `none` if it is out of range. -/
def roundScaled (neg : Bool) (m base : ℕ) (e : ℤ) : Option Float64 :=
  let low := Float64.roundUnits (m * base ^ e.toNat * 2 ^ 1074) (base ^ (-e).toNat)
  if low = Float64.infLow then none else some (Float64.ofLow neg low)

/-- `strconv.ParseFloat(s, 64)`, `none` where it reports an error. -/
def parseFloat (s : Bytes) : Option Float64 :=
  let (neg, body) := cutSign s
  let hex := (bs "0x").isPrefixOf (body.map lowerByte) && 2 < body.length
  let digits := if hex then body.drop 2 else body
  let mantissa := digits.takeWhile (isMantissa hex)
  let figures := mantissa.filter fun b => b ≠ byte '.' && b ≠ byte '_'
  let fraction := ((mantissa.dropWhile (· ≠ byte '.')).filter fun b =>
    b ≠ byte '.' && b ≠ byte '_').length
  let base := if hex then 16 else 10
  let m := figures.foldl (fun n b => n * base + ((fromHexChar b).getD 0).toNat) 0
  if body.map lowerByte ∈ [bs "inf", bs "infinity"] then some (Float64.ofLow neg Float64.infLow)
  else if s.map lowerByte = bs "nan" then some Float64.nan
  else if figures = [] ∨ 1 < mantissa.count (byte '.') then none
  else if byte '_' ∈ s ∧ ¬ underscoresSeparate hex hex false digits then none
  else
    match readExponent hex (digits.dropWhile (isMantissa hex)) with
    | none => none
    | some e =>
        if hex then roundScaled neg m 2 (e - 4 * fraction) else roundScaled neg m 10 (e - fraction)

example : parseFloat (bs "0.1") = some (Float64.ofBits 0x3FB999999999999A) := by decide +kernel
example : parseFloat (bs "-1_0.5e-1") = some (Float64.ofBits 0xBFF0CCCCCCCCCCCD) := by
  decide +kernel
example : parseFloat (bs "1e309") = none := by decide +kernel

/-! ## Quoted strings

Go's interpreted string literals, with all their escapes. -/

/-- The value of `n` hexadecimal digits at the front, and what follows them. -/
def hexRunes : (n : ℕ) → ℕ → Bytes → Option (ℕ × Bytes)
  | 0, v, s => some (v, s)
  | _ + 1, _, [] => none
  | n + 1, v, b :: rest => do
      let x ← fromHexChar b
      hexRunes n (v * 16 + x.toNat) rest

/-- The one-letter escapes. -/
def simpleEscape (c : UInt8) : Option UInt8 :=
  [(byte 'a', 7), (byte 'b', 8), (byte 'f', 12), (byte 'n', 10), (byte 'r', 13), (byte 't', 9),
    (byte 'v', 11), (byte '\\', byte '\\')].lookup c

/-- A rune written by `\u` or `\U`. -/
def escapedRune (n : ℕ) (s : Bytes) : Option (Bytes × Bytes) := do
  let (v, rest) ← hexRunes n 0 s
  if v.isValidChar then return (encodeRune (Char.ofNat v), rest) else none

/-- The bytes an escape sequence stands for, after its backslash. -/
def unquoteEscape (quote : UInt8) : Bytes → Option (Bytes × Bytes)
  | [] => none
  | c :: s =>
      match simpleEscape c with
      | some b => some ([b], s)
      | none =>
          if c = byte 'x' then (hexRunes 2 0 s).map fun p => ([UInt8.ofNat p.1], p.2)
          else if c = byte 'u' then escapedRune 4 s
          else if c = byte 'U' then escapedRune 8 s
          else if byte '0' ≤ c ∧ c ≤ byte '7' then
            match s with
            | x :: y :: rest =>
                let v := (digitValue c * 8 + digitValue x) * 8 + digitValue y
                if digitValue x ≤ 7 ∧ digitValue y ≤ 7 ∧ v ≤ 255 then some ([UInt8.ofNat v], rest)
                else none
            | _ => none
          else if (c = byte '\'' ∨ c = byte '"') ∧ c = quote then some ([c], s)
          else none

/-- `strconv.UnquoteChar`: the bytes of the next character and the rest. -/
def unquoteChar (quote : UInt8) : Bytes → Option (Bytes × Bytes)
  | [] => none
  | c :: s =>
      if c = quote then none
      else if 0x80 ≤ c then
        match decodeRune (c :: s) with
        | some r => some (encodeRune r, (c :: s).drop r.utf8Size)
        | none => some (encodeRune runeError, s)
      else if c = byte '\\' then unquoteEscape quote s
      else some ([c], s)

/-- The loop of `strconv.Unquote` over an interpreted string, up to the closing quote; `limit`
bounds the number of characters. -/
def unquoteLoop (quote : UInt8) : (limit : ℕ) → Bytes → Option (Bytes × Bytes)
  | 0, s => some ([], s)
  | _ + 1, [] => some ([], [])
  | limit + 1, c :: s =>
      if c = quote then some ([], c :: s)
      else if c = byte '\n' then none
      else do
        let (b, rest) ← unquoteChar quote (c :: s)
        let (out, rest) ← unquoteLoop quote limit rest
        return (b ++ out, rest)

/-- A single-quoted text holds one character. -/
def charLimit (quote : UInt8) (s : Bytes) : ℕ := if quote = byte '"' then s.length else 1

/-- `strconv.Unquote`, `none` where it reports an error. -/
def unquote : Bytes → Option Bytes
  | [] => none
  | quote :: s =>
      if quote = byte '\x60' then
        let body := s.takeWhile (· ≠ quote)
        if s = body ++ [quote] then some (body.filter (· ≠ byte '\r')) else none
      else if quote = byte '"' ∨ quote = byte '\'' then
        match unquoteLoop quote (charLimit quote s) s with
        | some (out, rest) => if rest = [quote] then some out else none
        | none => none
      else none

example : unquote (bs "\"a\\\"\\x41\\u00e9\"") = some [0x61, 0x22, 0x41, 0xC3, 0xA9] := by
  decide +kernel

lemma hexRunes_suffix {n v : ℕ} {s : Bytes} {p : ℕ × Bytes} (h : hexRunes n v s = some p) :
    p.2 <:+ s := by
  induction n generalizing v s with
  | zero =>
      obtain rfl : (v, s) = p := by simpa [hexRunes] using h
      exact List.suffix_refl _
  | succ n ih =>
      cases s with
      | nil => simp [hexRunes] at h
      | cons b rest =>
          obtain ⟨x, -, hx⟩ := Option.bind_eq_some_iff.mp h
          exact (ih hx).trans (List.suffix_cons _ _)

lemma escapedRune_suffix {n : ℕ} {s : Bytes} {p : Bytes × Bytes} (h : escapedRune n s = some p) :
    p.2 <:+ s := by
  obtain ⟨⟨v, rest⟩, hhex, hp⟩ := Option.bind_eq_some_iff.mp h
  simp only at hp
  split_ifs at hp
  obtain rfl : (_, rest) = p := by simpa using hp
  exact hexRunes_suffix hhex

lemma unquoteEscape_suffix {quote : UInt8} {s : Bytes} {p : Bytes × Bytes}
    (h : unquoteEscape quote s = some p) : p.2 <:+ s := by
  cases s with
  | nil => simp [unquoteEscape] at h
  | cons c s =>
      refine List.IsSuffix.trans ?_ (List.suffix_cons c s)
      unfold unquoteEscape at h
      cases hc : simpleEscape c with
      | some b =>
          obtain rfl : ([b], s) = p := by simpa [hc] using h
          exact List.suffix_refl _
      | none =>
          simp only [hc] at h
          split_ifs at h
          · obtain ⟨r, hr, rfl⟩ := Option.map_eq_some_iff.mp h
            exact hexRunes_suffix hr
          · exact escapedRune_suffix h
          · exact escapedRune_suffix h
          · split at h
            · rename_i x y rest
              split_ifs at h
              obtain rfl : (_, rest) = p := by simpa using h
              exact (List.suffix_cons _ _).trans (List.suffix_cons _ _)
            · simp at h
          · obtain rfl : ([c], s) = p := by simpa using h
            exact List.suffix_refl _

lemma unquoteChar_suffix {quote : UInt8} {s : Bytes} {p : Bytes × Bytes}
    (h : unquoteChar quote s = some p) : p.2 <:+ s := by
  cases s with
  | nil => simp [unquoteChar] at h
  | cons c s =>
      simp only [unquoteChar] at h
      split_ifs at h
      · split at h
        · obtain rfl : (_, _) = p := by simpa using h
          exact List.drop_suffix _ _
        · obtain rfl : (_, s) = p := by simpa using h
          exact List.suffix_cons _ _
      · exact (unquoteEscape_suffix h).trans (List.suffix_cons _ _)
      · obtain rfl : ([c], s) = p := by simpa using h
        exact List.suffix_cons _ _

lemma unquoteLoop_suffix {quote : UInt8} {limit : ℕ} {s : Bytes} {p : Bytes × Bytes}
    (h : unquoteLoop quote limit s = some p) : p.2 <:+ s := by
  induction limit generalizing s p with
  | zero =>
      obtain rfl : ([], s) = p := by simpa [unquoteLoop] using h
      exact List.suffix_refl _
  | succ limit ih =>
      cases s with
      | nil =>
          obtain rfl : ([], []) = p := by simpa [unquoteLoop] using h
          exact List.suffix_refl _
      | cons c s =>
          unfold unquoteLoop at h
          split_ifs at h
          · obtain rfl : ([], c :: s) = p := by simpa using h
            exact List.suffix_refl _
          · obtain ⟨⟨b, rest⟩, hchar, h⟩ := Option.bind_eq_some_iff.mp h
            obtain ⟨⟨out, rest'⟩, hloop, h⟩ := Option.bind_eq_some_iff.mp h
            obtain rfl : (b ++ out, rest') = p := by simpa using h
            exact (ih hloop).trans (unquoteChar_suffix hchar)

/-- **A quoted string ends with its quote.** -/
theorem unquote_ends {s : Bytes} {v : Bytes} (h : unquote s = some v) :
    ∃ quote body, s = quote :: (body ++ [quote]) ∧
      quote ∈ [byte '\x60', byte '"', byte '\''] := by
  cases s with
  | nil => simp [unquote] at h
  | cons quote s =>
      simp only [unquote] at h
      split_ifs at h with hraw hbody hq
      · exact ⟨quote, _, congrArg _ hbody, by simp [hraw]⟩
      · cases hloop : unquoteLoop quote (charLimit quote s) s with
        | none => simp [hloop] at h
        | some p =>
            simp only [hloop] at h
            split_ifs at h with hrest
            obtain ⟨body, hbody⟩ := unquoteLoop_suffix hloop
            rw [hrest] at hbody
            exact ⟨quote, body, by rw [hbody], by simp [hq]⟩

end Go
