import FlameDB.Go.Strconv

/-!
# The `time` package

An instant in UTC is its distance from the Unix epoch in nanoseconds, an integer.  Dates are in
the proleptic Gregorian calendar.

* `dateDays_civil` — the date of a day leads back to the day.
* `le_addDate` — `AddDate` of years and months goes forward.
* `parseRFC3339Nano_format` — the RFC 3339 text of an `int64` instant reads back.
-/

namespace Go

/-! ## Dates -/

/-- The Gregorian rule. -/
def isLeap (y : ℤ) : Bool := y % 4 = 0 && (y % 100 ≠ 0 || y % 400 = 0)

/-- The days of the months of a year. -/
def monthLengths (y : ℤ) : List ℕ :=
  [31, if isLeap y then 29 else 28, 31, 30, 31, 30, 31, 31, 30, 31, 30, 31]

/-- Days from the epoch to the first of January. -/
def daysBeforeYear (y : ℤ) : ℤ :=
  365 * (y - 1) + (y - 1) / 4 - (y - 1) / 100 + (y - 1) / 400 - 719162

/-- Days from the epoch to a date.  As `time.Date` does, months outside `1..12` carry into the
year and days run on. -/
def dateDays (year month day : ℤ) : ℤ :=
  let y := year + (month - 1) / 12
  daysBeforeYear y + ((monthLengths y).take ((month - 1) % 12).toNat).sum + (day - 1)

/-- The year a day falls in: the mean year gives an estimate that is off by at most one. -/
def yearOf (days : ℤ) : ℤ :=
  let y := (days + 719162) * 400 / 146097 + 1
  if days < daysBeforeYear y then y - 1 else if days < daysBeforeYear (y + 1) then y else y + 1

/-- The month, counted from zero, and the day in it, for a day of the year. -/
def splitDays : List ℕ → ℕ → ℕ × ℕ
  | [], d => (0, d)
  | l :: ls, d => if d < l then (0, d) else ((splitDays ls (d - l)).1 + 1, (splitDays ls (d - l)).2)

/-- A day of the proleptic Gregorian calendar. -/
structure Date where
  year : ℤ
  month : ℕ
  day : ℕ
  deriving DecidableEq

/-- The date of a day number. -/
def civil (days : ℤ) : Date :=
  let y := yearOf days
  let p := splitDays (monthLengths y) (days - daysBeforeYear y).toNat
  ⟨y, p.1 + 1, p.2 + 1⟩

def daysIn (month : ℕ) (year : ℤ) : ℕ := (monthLengths year).getD (month - 1) 0

def nanosPerDay : ℤ := 86400 * 1000000000

/-- `t.AddDate(years, months, 0)`. -/
def addDate (t years months : ℤ) : ℤ :=
  let date := civil (t / nanosPerDay)
  dateDays (date.year + years) (date.month + months) date.day * nanosPerDay + t % nanosPerDay

lemma isLeap_iff (y : ℤ) : isLeap y = true ↔ y % 4 = 0 ∧ (y % 100 ≠ 0 ∨ y % 400 = 0) := by
  simp [isLeap]

lemma daysBeforeYear_succ (y : ℤ) :
    daysBeforeYear (y + 1) = daysBeforeYear y + (monthLengths y).sum := by
  by_cases h : isLeap y = true
  · have := (isLeap_iff y).mp h
    simp only [daysBeforeYear, monthLengths, h, if_true, List.sum_cons, List.sum_nil]
    omega
  · have := mt (isLeap_iff y).mpr h
    simp only [daysBeforeYear, monthLengths, h, List.sum_cons, List.sum_nil]
    simp only [Bool.false_eq_true, if_false]
    omega

lemma yearOf_spec (days : ℤ) :
    daysBeforeYear (yearOf days) ≤ days ∧ days < daysBeforeYear (yearOf days + 1) := by
  unfold yearOf daysBeforeYear
  simp only
  split_ifs <;> omega

/-- The month and the day in it. -/
lemma splitDays_spec {ls : List ℕ} {d : ℕ} (h : d < ls.sum) :
    (ls.take (splitDays ls d).1).sum + (splitDays ls d).2 = d ∧
      (splitDays ls d).1 < ls.length ∧ (splitDays ls d).2 < ls.getD (splitDays ls d).1 0 := by
  induction ls generalizing d with
  | nil => simp at h
  | cons l ls ih =>
      unfold splitDays
      split_ifs with hd
      · simpa using hd
      · obtain ⟨h1, h2, h3⟩ := ih (d := d - l) (by simp at h; omega)
        refine ⟨?_, by simpa using h2, by simpa using h3⟩
        simp only [List.take_succ_cons, List.sum_cons]
        omega

lemma splitDays_monthLengths (days : ℤ) :
    (days - daysBeforeYear (yearOf days)).toNat < (monthLengths (yearOf days)).sum := by
  have h := yearOf_spec days
  have hsucc := daysBeforeYear_succ (yearOf days)
  omega

/-- **The date of a day leads back to it.** -/
theorem dateDays_civil (days : ℤ) :
    dateDays (civil days).year (civil days).month (civil days).day = days := by
  obtain ⟨hsum, hlen, -⟩ := splitDays_spec (splitDays_monthLengths days)
  have hlow := (yearOf_spec days).1
  have hmonth : (splitDays (monthLengths (yearOf days))
      (days - daysBeforeYear (yearOf days)).toNat).1 < 12 := by simpa [monthLengths] using hlen
  revert hsum hmonth
  simp only [civil, dateDays]
  generalize splitDays (monthLengths (yearOf days)) (days - daysBeforeYear (yearOf days)).toNat = p
  intro hsum hmonth
  have hdiv : ((p.1 + 1 : ℕ) - 1 : ℤ) / 12 = 0 := by omega
  have hmod : (((p.1 + 1 : ℕ) - 1 : ℤ) % 12).toNat = p.1 := by omega
  rw [hdiv, hmod, add_zero]
  omega

lemma civil_valid (days : ℤ) :
    1 ≤ (civil days).month ∧ (civil days).month ≤ 12 ∧ 1 ≤ (civil days).day ∧
      (civil days).day ≤ daysIn (civil days).month (civil days).year := by
  obtain ⟨-, hlen, hday⟩ := splitDays_spec (splitDays_monthLengths days)
  have hmonth : (splitDays (monthLengths (yearOf days))
      (days - daysBeforeYear (yearOf days)).toNat).1 < 12 := by simpa [monthLengths] using hlen
  simp only [civil, daysIn, Nat.add_sub_cancel]
  omega

example : civil 19675 = ⟨2023, 11, 14⟩ := by decide +kernel

/-! ## Months go forward -/

/-- Days from the epoch to the first of a month, the months counted from the year zero. -/
def monthDays (m : ℤ) : ℤ :=
  daysBeforeYear (m / 12) + ((monthLengths (m / 12)).take (m % 12).toNat).sum

lemma dateDays_eq (year month day : ℤ) :
    dateDays year month day = monthDays (12 * year + (month - 1)) + (day - 1) := by
  have hdiv : (12 * year + (month - 1)) / 12 = year + (month - 1) / 12 := by omega
  have hmod : (12 * year + (month - 1)) % 12 = (month - 1) % 12 := by omega
  rw [dateDays, monthDays, hdiv, hmod]

lemma le_monthLengths {y : ℤ} {l : ℕ} (h : l ∈ monthLengths y) : 28 ≤ l := by
  simp only [monthLengths, List.mem_cons, List.not_mem_nil, or_false] at h
  split_ifs at h <;> omega

/-- The days of a month, the months counted from the year zero. -/
def monthLength (m : ℤ) : ℕ := daysIn ((m % 12).toNat + 1) (m / 12)

lemma le_monthLength (m : ℤ) : 28 ≤ monthLength m := by
  have hlt : (m % 12).toNat < (monthLengths (m / 12)).length := by
    show (m % 12).toNat < 12
    omega
  rw [monthLength, daysIn, Nat.add_sub_cancel, List.getD_eq_getElem _ _ hlt]
  exact le_monthLengths (List.getElem_mem hlt)

/-- A month begins when the one before it ends. -/
lemma monthDays_succ (m : ℤ) : monthDays (m + 1) = monthDays m + monthLength m := by
  by_cases hlast : m % 12 = 11
  · have hdiv : (m + 1) / 12 = m / 12 + 1 := by omega
    have hmod : (m + 1) % 12 = 0 := by omega
    have hsum : (monthLengths (m / 12)).sum = ((monthLengths (m / 12)).take 11).sum + 31 := by
      simp only [monthLengths, List.take_succ_cons, List.take_zero, List.sum_cons, List.sum_nil]
      omega
    have hlength : monthLength m = 31 := by
      rw [monthLength, hlast]
      rfl
    rw [monthDays, monthDays, hdiv, hmod, hlast, daysBeforeYear_succ, hsum, hlength]
    simp only [Int.toNat_zero, List.take_zero, List.sum_nil, Nat.cast_add, Nat.cast_ofNat,
      show (11 : ℤ).toNat = 11 from rfl]
    omega
  · have hdiv : (m + 1) / 12 = m / 12 := by omega
    have hmod : ((m + 1) % 12).toNat = (m % 12).toNat + 1 := by omega
    have hlt : (m % 12).toNat < (monthLengths (m / 12)).length := by
      show (m % 12).toNat < 12
      omega
    rw [monthDays, monthDays, hdiv, hmod, List.sum_take_succ _ _ hlt, monthLength, daysIn,
      Nat.add_sub_cancel, List.getD_eq_getElem _ _ hlt]
    omega

lemma monthDays_add (m : ℤ) (k : ℕ) : monthDays m + 28 * k ≤ monthDays (m + k) := by
  induction k with
  | zero => simp
  | succ k ih =>
      have hstep := monthDays_succ (m + k)
      have hlong := le_monthLength (m + k)
      push_cast
      rw [← add_assoc]
      omega

/-- **`AddDate` goes forward**, by at least four weeks. -/
theorem le_addDate {years months : ℤ} (hy : 0 ≤ years) (hm : 0 ≤ months)
    (hne : years ≠ 0 ∨ months ≠ 0) (t : ℤ) : t + 28 * nanosPerDay ≤ addDate t years months := by
  have hdays := dateDays_civil (t / nanosPerDay)
  have hdiv := Int.mul_ediv_add_emod t nanosPerDay
  unfold addDate
  simp only
  generalize civil (t / nanosPerDay) = date at hdays
  rw [dateDays_eq] at hdays ⊢
  have hmonths : 12 * (date.year + years) + ((date.month : ℤ) + months - 1) =
      12 * date.year + (date.month - 1) + ((12 * years + months).toNat : ℕ) := by omega
  have hk : 1 ≤ (12 * years + months).toNat := by omega
  have hforward := monthDays_add (12 * date.year + (date.month - 1)) (12 * years + months).toNat
  rw [hmonths]
  generalize monthDays (12 * date.year + (date.month - 1) + ((12 * years + months).toNat : ℕ)) =
    b at *
  have hlong : t / nanosPerDay + 28 ≤ b + (date.day - 1) := by omega
  have hmul : (t / nanosPerDay + 28) * nanosPerDay ≤ (b + (date.day - 1)) * nanosPerDay :=
    mul_le_mul_of_nonneg_right hlong (by decide)
  linarith

/-! ## RFC 3339 -/

/-- The instants of one day: the day, the clock and the nanosecond. -/
def instant (days hour min sec nsec : ℤ) : ℤ :=
  (((days * 24 + hour) * 60 + min) * 60 + sec) * 1000000000 + nsec

/-- The fraction of a second as `RFC3339Nano` prints it: nine digits without the zeros at the end,
or nothing. -/
def formatFraction (nsec : ℕ) : Bytes :=
  if nsec = 0 then []
  else byte '.' :: (fixedDecimal 9 nsec).rdropWhile (· = byte '0')

/-- `time.Unix(0, t).UTC().Format(time.RFC3339Nano)`.  An `int64` instant has a four-digit year. -/
def formatRFC3339Nano (t : Int64) : Bytes :=
  let seconds := t.toInt / 1000000000
  let clock := (seconds % 86400).toNat
  let date := civil (seconds / 86400)
  fixedDecimal 4 date.year.toNat ++ byte '-' :: (fixedDecimal 2 date.month ++
    byte '-' :: (fixedDecimal 2 date.day ++ byte 'T' :: (fixedDecimal 2 (clock / 3600) ++
      byte ':' :: (fixedDecimal 2 (clock / 60 % 60) ++ byte ':' :: (fixedDecimal 2 (clock % 60) ++
        (formatFraction (t.toInt % 1000000000).toNat ++ [byte 'Z']))))))

/-- A literal character of a layout. -/
def expect (b : UInt8) : Bytes → Option Bytes
  | [] => none
  | c :: rest => if c = b then some rest else none

/-- A number of exactly `n` digits. -/
def takeDigits (n : ℕ) (s : Bytes) : Option (ℕ × Bytes) :=
  if (s.take n).length = n ∧ (s.take n).all isDigit then some (decimalValue (s.take n), s.drop n)
  else none

/-- The hour: the layout `15` also accepts a single digit. -/
def takeHour (s : Bytes) : Option (ℕ × Bytes) :=
  if (takeDigits 2 s).isSome then takeDigits 2 s else takeDigits 1 s

/-- `2006-01-02`, with the checks of the month and of the day. -/
def takeDate (s : Bytes) : Option (ℤ × Bytes) := do
  let (year, s) ← takeDigits 4 s
  let s ← expect (byte '-') s
  let (month, s) ← takeDigits 2 s
  let s ← expect (byte '-') s
  let (day, s) ← takeDigits 2 s
  if 1 ≤ month ∧ month ≤ 12 ∧ 1 ≤ day ∧ day ≤ daysIn month year then
    return (dateDays year month day, s)
  else none

/-- An optional fraction of a second; digits beyond the ninth are dropped. -/
def takeFraction : Bytes → ℕ × Bytes
  | c :: d :: rest =>
      if (c = byte '.' ∨ c = byte ',') ∧ isDigit d then
        let digits := ((d :: rest).takeWhile isDigit).take 9
        (decimalValue digits * 10 ^ (9 - digits.length), (d :: rest).dropWhile isDigit)
      else (0, c :: d :: rest)
  | s => (0, s)

/-- The zone `Z07:00`, as an offset in seconds. -/
def takeZone : Bytes → Option (ℤ × Bytes)
  | [] => none
  | c :: s =>
      if c = byte 'Z' then some (0, s)
      else do
        let (hour, s) ← takeDigits 2 s
        let s ← expect (byte ':') s
        let (min, s) ← takeDigits 2 s
        if hour ≤ 24 ∧ min ≤ 60 then
          if c = byte '+' then return ((hour * 60 + min) * 60, s)
          else if c = byte '-' then return (-((hour * 60 + min) * 60), s)
          else none
        else none

/-- `time.Parse(time.RFC3339Nano, s)`, `none` where it reports an error.  The strict parser that
Go tries first accepts a part of these texts, with the same results. -/
def parseRFC3339Nano (s : Bytes) : Option ℤ := do
  let (days, s) ← takeDate s
  let s ← expect (byte 'T') s
  let (hour, s) ← takeHour s
  let s ← expect (byte ':') s
  let (min, s) ← takeDigits 2 s
  let s ← expect (byte ':') s
  let (sec, s) ← takeDigits 2 s
  let (nsec, s) := takeFraction s
  let (offset, s) ← takeZone s
  if hour < 24 ∧ min < 60 ∧ sec < 60 ∧ s = [] then
    return instant days hour min (sec - offset) nsec
  else none

/-- `time.Parse("2006-01-02", s)`. -/
def parseDateOnly (s : Bytes) : Option ℤ := do
  let (days, s) ← takeDate s
  if s = [] then return instant days 0 0 0 0 else none

/-- `t.UnixNano()`, which wraps outside the years 1678 to 2262. -/
def unixNano (t : ℤ) : Int64 := Int64.ofInt t

example : formatRFC3339Nano 1700000000120000000 = bs "2023-11-14T22:13:20.12Z" := by decide +kernel
example : parseRFC3339Nano (bs "2023-11-14T22:13:20.12Z") = some 1700000000120000000 := by
  decide +kernel
example : parseRFC3339Nano (bs "2023-11-14T3:13:20,5+01:00") = some 1699928000500000000 := by
  decide +kernel

/-! ## The text of an instant reads back

Each field is printed with its full width, so the reader takes it off the front again. -/

@[simp] lemma expect_cons (b : UInt8) (s : Bytes) : expect b (b :: s) = some s := by
  simp [expect]

lemma takeDigits_fixedDecimal {w n : ℕ} (h : n < 10 ^ w) (s : Bytes) :
    takeDigits w (fixedDecimal w n ++ s) = some (n, s) := by
  have htake : (fixedDecimal w n ++ s).take w = fixedDecimal w n := List.take_left' (by simp)
  have hdrop : (fixedDecimal w n ++ s).drop w = s := List.drop_left' (by simp)
  rw [takeDigits, htake, hdrop, if_pos (by simp), decimalValue_fixedDecimal, Nat.mod_eq_of_lt h]

lemma takeHour_fixedDecimal {n : ℕ} (h : n < 100) (s : Bytes) :
    takeHour (fixedDecimal 2 n ++ s) = some (n, s) := by
  have htake := takeDigits_fixedDecimal (w := 2) h s
  rw [takeHour, if_pos (by rw [htake]; rfl), htake]

lemma decimalValue_append_zeros (s : Bytes) (k : ℕ) :
    decimalValue (s ++ List.replicate k (byte '0')) = decimalValue s * 10 ^ k := by
  induction k with
  | zero => simp
  | succ k ih =>
      rw [List.replicate_succ', ← List.append_assoc, decimalValue_append_singleton, ih, pow_succ,
        show digitValue (byte '0') = 0 from rfl]
      ring

/-- Zeros dropped at the end are zeros. -/
lemma rdropWhile_append_zeros (s : Bytes) :
    s.rdropWhile (· = byte '0') ++
      List.replicate (s.length - (s.rdropWhile (· = byte '0')).length) (byte '0') = s := by
  induction s using List.reverseRecOn with
  | nil => rfl
  | append_singleton s b ih =>
      by_cases hb : b = byte '0'
      · subst hb
        have hlen := (List.rdropWhile_prefix (· = byte '0') s).length_le
        rw [List.rdropWhile_concat_pos _ _ _ (by simp), List.length_append, List.length_singleton,
          Nat.sub_add_comm hlen, List.replicate_succ', ← List.append_assoc, ih]
      · rw [List.rdropWhile_concat_neg _ _ _ (by simpa using hb)]
        simp

/-- A fraction as it is written, before something that is no digit. -/
lemma takeFraction_digits {digits rest : Bytes} (hne : digits ≠ [])
    (hall : ∀ b ∈ digits, isDigit b = true) (hrest : ∀ b ∈ rest.head?, isDigit b = false) :
    takeFraction (byte '.' :: (digits ++ rest)) =
      (decimalValue (digits.take 9) * 10 ^ (9 - (digits.take 9).length), rest) := by
  have hstop : rest.takeWhile isDigit = [] ∧ rest.dropWhile isDigit = rest := by
    cases rest with
    | nil => exact ⟨rfl, rfl⟩
    | cons b rest => simp [hrest b rfl]
  cases digits with
  | nil => exact absurd rfl hne
  | cons d ds =>
      have htake : (d :: (ds ++ rest)).takeWhile isDigit = d :: ds := by
        rw [← List.cons_append, List.takeWhile_append_of_pos hall, hstop.1, List.append_nil]
      have hdrop : (d :: (ds ++ rest)).dropWhile isDigit = rest := by
        rw [← List.cons_append, List.dropWhile_append_of_pos hall, hstop.2]
      have hd : isDigit d = true := hall d List.mem_cons_self
      simp only [List.cons_append, takeFraction, hd, true_or, and_self, if_true]
      rw [htake, hdrop]

lemma takeFraction_format {n : ℕ} (h : n < 10 ^ 9) :
    takeFraction (formatFraction n ++ [byte 'Z']) = (n, [byte 'Z']) := by
  unfold formatFraction
  split_ifs with h0
  · subst h0
    rfl
  · have hzeros := rdropWhile_append_zeros (fixedDecimal 9 n)
    have hpre := List.rdropWhile_prefix (· = byte '0') (fixedDecimal 9 n)
    revert hzeros hpre
    generalize (fixedDecimal 9 n).rdropWhile (· = byte '0') = digits
    intro hzeros hpre
    rw [length_fixedDecimal] at hzeros
    have hlen : digits.length ≤ 9 := by simpa using hpre.length_le
    have hvalue : decimalValue digits * 10 ^ (9 - digits.length) = n := by
      rw [← decimalValue_append_zeros, hzeros, decimalValue_fixedDecimal, Nat.mod_eq_of_lt h]
    have hne : digits ≠ [] := by
      rintro rfl
      exact h0 (by rw [← hvalue]; rfl)
    rw [List.cons_append, takeFraction_digits hne
      (fun b hb => isDigit_of_mem_fixedDecimal (hpre.mem hb)) (by rintro b ⟨⟩; decide),
      List.take_of_length_le hlen, hvalue]

lemma daysIn_le (month : ℕ) (year : ℤ) : daysIn month year ≤ 31 := by
  unfold daysIn
  by_cases h : month - 1 < (monthLengths year).length
  · rw [List.getD_eq_getElem _ _ h]
    have hmem := List.getElem_mem h
    revert hmem
    generalize (monthLengths year)[month - 1] = l
    simp only [monthLengths, List.mem_cons, List.not_mem_nil, or_false]
    intro hmem
    split_ifs at hmem <;> omega
  · rw [List.getD_eq_default _ _ (Nat.le_of_not_lt h)]
    omega

/-- A date as it is written reads as its day. -/
lemma takeDate_fixedDecimal {year month day : ℕ} (hyear : year < 10000) (hm1 : 1 ≤ month)
    (hm12 : month ≤ 12) (hd1 : 1 ≤ day) (hd : day ≤ daysIn month year) (s : Bytes) :
    takeDate (fixedDecimal 4 year ++ byte '-' :: (fixedDecimal 2 month ++
        byte '-' :: (fixedDecimal 2 day ++ s))) = some (dateDays year month day, s) := by
  have hd31 := daysIn_le month year
  unfold takeDate
  rw [takeDigits_fixedDecimal (by omega)]
  simp only [bind, Option.bind, expect_cons]
  rw [takeDigits_fixedDecimal (by omega)]
  simp only [expect_cons]
  rw [takeDigits_fixedDecimal (by omega)]
  simp only
  rw [if_pos ⟨hm1, hm12, hd1, hd⟩]
  rfl

lemma takeDate_format {days : ℤ} (hlow : 0 ≤ (civil days).year) (hhigh : (civil days).year < 10000)
    (s : Bytes) :
    takeDate (fixedDecimal 4 (civil days).year.toNat ++ byte '-' ::
        (fixedDecimal 2 (civil days).month ++ byte '-' :: (fixedDecimal 2 (civil days).day ++ s))) =
      some (days, s) := by
  obtain ⟨hm1, hm12, hd1, hd⟩ := civil_valid days
  have hyear : ((civil days).year.toNat : ℤ) = (civil days).year := Int.toNat_of_nonneg hlow
  rw [takeDate_fixedDecimal (by omega) hm1 hm12 hd1 (by rwa [hyear]), hyear, dateDays_civil]

/-- Every `int64` instant has a four-digit year. -/
lemma year_bounds (t : Int64) :
    0 ≤ (civil (t.toInt / 1000000000 / 86400)).year ∧
      (civil (t.toInt / 1000000000 / 86400)).year < 10000 := by
  have hlo := Int64.le_toInt t
  have hhi := Int64.toInt_lt t
  have hspec := yearOf_spec (t.toInt / 1000000000 / 86400)
  unfold daysBeforeYear at hspec
  simp only [civil]
  omega

/-- **The RFC 3339 text of an instant reads back.** -/
theorem parseRFC3339Nano_format (t : Int64) :
    parseRFC3339Nano (formatRFC3339Nano t) = some t.toInt := by
  obtain ⟨hlow, hhigh⟩ := year_bounds t
  unfold formatRFC3339Nano parseRFC3339Nano
  simp only [takeDate_format hlow hhigh, bind, Option.bind, expect_cons]
  generalize hclock : (t.toInt / 1000000000 % 86400).toNat = clock
  have hc : clock < 86400 := by omega
  rw [takeHour_fixedDecimal (by omega)]
  simp only [expect_cons]
  rw [takeDigits_fixedDecimal (by omega)]
  simp only [expect_cons]
  rw [takeDigits_fixedDecimal (by omega)]
  simp only
  rw [takeFraction_format (by omega)]
  simp only [takeZone, if_true]
  rw [if_pos ⟨by omega, by omega, by omega, trivial⟩]
  simp only [pure, Option.some.injEq, instant]
  omega

/-- The text contains no character a tokenizer reacts to. -/
lemma mem_formatRFC3339Nano {t : Int64} {b : UInt8} (h : b ∈ formatRFC3339Nano t) :
    isDigit b = true ∨ b ∈ bs "-:.TZ" := by
  have hfix : ∀ {w n : ℕ}, b ∈ fixedDecimal w n → isDigit b = true := isDigit_of_mem_fixedDecimal
  have hfrac : ∀ {n : ℕ}, b ∈ formatFraction n → isDigit b = true ∨ b = byte '.' := by
    intro n hb
    unfold formatFraction at hb
    split_ifs at hb
    · simp at hb
    · rcases List.mem_cons.mp hb with rfl | hb
      · exact Or.inr rfl
      · exact Or.inl (hfix ((List.rdropWhile_prefix _ _).mem hb))
  have hsigns : byte '-' ∈ bs "-:.TZ" ∧ byte ':' ∈ bs "-:.TZ" ∧ byte '.' ∈ bs "-:.TZ" ∧
      byte 'T' ∈ bs "-:.TZ" ∧ byte 'Z' ∈ bs "-:.TZ" := by decide
  simp only [formatRFC3339Nano, List.mem_append, List.mem_cons, List.not_mem_nil, or_false] at h
  rcases h with h | rfl | h | rfl | h | rfl | h | rfl | h | rfl | h | h | rfl
  all_goals first
    | exact Or.inl (hfix h)
    | exact Or.inr hsigns.1
    | exact Or.inr hsigns.2.1
    | exact Or.inr hsigns.2.2.2.1
    | exact Or.inr hsigns.2.2.2.2
    | exact (hfrac h).imp_right fun hb => by rw [hb]; exact hsigns.2.2.1

end Go
