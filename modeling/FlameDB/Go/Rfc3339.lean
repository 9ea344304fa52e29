import FlameDB.Go.Time

/-!
# The calendar and RFC 3339 timestamps

What dates and timestamps mean, apart from how the `time` package computes it.  The calendar counts
the days of the months from the epoch on; a timestamp is a date of it, a time of the day with an
exact fraction of a second, and the offset of a zone.

* `monthStart` — the day on which a month begins.  `monthDays_eq`, `Moment.addDate_eq` say that the
  package agrees with the calendar.
* `Timestamp` — the grammar of RFC 3339, with the text and the instant of each timestamp.
* `parseRFC3339Nano_text` — **`time.Parse` reads a timestamp as the nanosecond in which its instant
  lies**, unless it has a leap second or is written in lower case.
-/

namespace Go

/-! ## The calendar -/

/-- January of 1970. -/
def epochMonth : ℤ := 12 * 1970

/-- Days from the epoch to the first of a month: the lengths of the months between. -/
noncomputable def monthStart (m : ℤ) : ℤ :=
  ∑ k ∈ Finset.Ico epochMonth m, (monthLength k : ℤ) -
    ∑ k ∈ Finset.Ico m epochMonth, (monthLength k : ℤ)

lemma monthStart_succ (m : ℤ) : monthStart (m + 1) = monthStart m + monthLength m := by
  unfold monthStart
  by_cases h : epochMonth ≤ m
  · have hinsert : Finset.Ico epochMonth (m + 1) = insert m (Finset.Ico epochMonth m) := by
      ext k
      simp only [Finset.mem_Ico, Finset.mem_insert]
      omega
    have hempty : Finset.Ico (m + 1) epochMonth = ∅ := Finset.Ico_eq_empty (by omega)
    have hempty' : Finset.Ico m epochMonth = ∅ := Finset.Ico_eq_empty (by omega)
    rw [hinsert, Finset.sum_insert (by simp), hempty, hempty']
    ring
  · have hinsert : Finset.Ico m epochMonth = insert m (Finset.Ico (m + 1) epochMonth) := by
      ext k
      simp only [Finset.mem_Ico, Finset.mem_insert]
      omega
    have hempty : Finset.Ico epochMonth (m + 1) = ∅ := Finset.Ico_eq_empty (by omega)
    have hempty' : Finset.Ico epochMonth m = ∅ := Finset.Ico_eq_empty (by omega)
    rw [hinsert, Finset.sum_insert (by simp), hempty, hempty']
    ring

/-- **The package's days are those of the calendar.** -/
theorem monthDays_eq (m : ℤ) : monthDays m = monthStart m := by
  refine Int.inductionOn' m epochMonth ?_ ?_ ?_
  · rw [monthStart, Finset.Ico_self, Finset.sum_empty]
    decide
  · intro k _ ih
    rw [monthDays_succ, monthStart_succ, ih]
  · intro k _ ih
    have hdays := monthDays_succ (k - 1)
    have hstart := monthStart_succ (k - 1)
    rw [sub_add_cancel] at hdays hstart
    omega

lemma monthStart_lt {a b : ℤ} (h : a < b) : monthStart a + monthLength a ≤ monthStart b := by
  have hadd := monthDays_add (a + 1) (b - (a + 1)).toNat
  have hb : a + 1 + ((b - (a + 1)).toNat : ℕ) = b := by omega
  rw [hb, monthDays_eq, monthDays_eq, monthStart_succ] at hadd
  omega

/-- A moment of the calendar: a day of a month, and the nanosecond of that day. -/
structure Moment where
  month : ℤ
  day : ℤ
  clock : ℤ
  day_pos : 1 ≤ day
  day_le : day ≤ monthLength month
  clock_nonneg : 0 ≤ clock
  clock_lt : clock < nanosPerDay

namespace Moment

/-- The same day and time some months later; a day the month does not have runs on into the next. -/
noncomputable def later (x : Moment) (months : ℤ) : ℤ :=
  (monthStart (x.month + months) + (x.day - 1)) * nanosPerDay + x.clock

/-- The instant of a moment in nanoseconds. -/
noncomputable def instant (x : Moment) : ℤ := x.later 0

lemma later_eq (x : Moment) (months : ℤ) :
    x.later months = (monthDays (x.month + months) + (x.day - 1)) * nanosPerDay + x.clock := by
  rw [later, monthDays_eq]

lemma month_eq {x y : Moment} (h : x.instant = y.instant) :
    x.month = y.month ∧ x.day = y.day ∧ x.clock = y.clock := by
  obtain ⟨a, d, c, hd1, hd2, hc1, hc2⟩ := x
  obtain ⟨a', d', c', hd1', hd2', hc1', hc2'⟩ := y
  simp only [instant, later, add_zero] at h ⊢
  simp only [nanosPerDay] at h hc2 hc2'
  have hclock : c = c' := by omega
  have hdays : monthStart a + (d - 1) = monthStart a' + (d' - 1) := by omega
  rcases lt_trichotomy a a' with hlt | rfl | hlt
  · have := monthStart_lt hlt
    omega
  · exact ⟨rfl, by omega, hclock⟩
  · have := monthStart_lt hlt
    omega

/-- **`AddDate` goes by the calendar.** -/
theorem addDate_eq (x : Moment) (years months : ℤ) :
    addDate x.instant years months = x.later (12 * years + months) := by
  have hdays := dateDays_civil (x.instant / nanosPerDay)
  obtain ⟨hm1, hm12, hd1, hd⟩ := civil_valid (x.instant / nanosPerDay)
  unfold addDate
  simp only
  generalize civil (x.instant / nanosPerDay) = date at *
  rw [dateDays_eq, monthDays_eq] at hdays
  have hmonth : (12 * date.year + ((date.month : ℤ) - 1)) / 12 = date.year ∧
      ((12 * date.year + ((date.month : ℤ) - 1)) % 12).toNat + 1 = date.month := by omega
  have hlength : (date.day : ℤ) ≤ monthLength (12 * date.year + ((date.month : ℤ) - 1)) := by
    rw [monthLength, hmonth.1, hmonth.2]
    exact_mod_cast hd
  -- the package's date is the moment's own
  let y : Moment := ⟨12 * date.year + ((date.month : ℤ) - 1), date.day, x.instant % nanosPerDay,
    by exact_mod_cast hd1, hlength, Int.emod_nonneg _ (by decide), Int.emod_lt_of_pos _ (by decide)⟩
  have hy : y.instant = x.instant := by
    show (monthStart (12 * date.year + ((date.month : ℤ) - 1) + 0) + (date.day - 1)) * nanosPerDay +
      x.instant % nanosPerDay = x.instant
    rw [add_zero, hdays, mul_comm]
    exact Int.mul_ediv_add_emod _ _
  obtain ⟨hmon, hday, hclock⟩ := month_eq hy
  have hsum : 12 * (date.year + years) + ((date.month : ℤ) + months - 1) =
      x.month + (12 * years + months) := by
    rw [← hmon]
    show _ = 12 * date.year + ((date.month : ℤ) - 1) + (12 * years + months)
    ring
  rw [later, ← hday, ← hclock, dateDays_eq, monthDays_eq, hsum]

end Moment

/-! ## Timestamps -/

/-- A date as RFC 3339 writes it. -/
structure FullDate where
  year : ℕ
  month : ℕ
  day : ℕ
  year_lt : year < 10000
  month_pos : 1 ≤ month
  month_le : month ≤ 12
  day_pos : 1 ≤ day
  day_le : day ≤ daysIn month year

namespace FullDate

def text (d : FullDate) : Bytes :=
  fixedDecimal 4 d.year ++ byte '-' :: (fixedDecimal 2 d.month ++ byte '-' :: fixedDecimal 2 d.day)

/-- Days from the epoch. -/
noncomputable def days (d : FullDate) : ℤ := monthStart (12 * d.year + (d.month - 1)) + (d.day - 1)

lemma days_eq (d : FullDate) : d.days = monthDays (12 * d.year + (d.month - 1)) + (d.day - 1) := by
  rw [days, monthDays_eq]

lemma takeDate_text (d : FullDate) (s : Bytes) : takeDate (d.text ++ s) = some (d.days, s) := by
  have htext : d.text ++ s = fixedDecimal 4 d.year ++ byte '-' :: (fixedDecimal 2 d.month ++
      byte '-' :: (fixedDecimal 2 d.day ++ s)) := by
    simp only [text, List.append_assoc, List.cons_append]
  rw [htext, takeDate_fixedDecimal d.year_lt d.month_pos d.month_le d.day_pos d.day_le, dateDays_eq,
    days_eq]

end FullDate

/-- The zone of a timestamp; the letter may be a small one. -/
inductive Zone where
  | utc (lower : Bool)
  | offset (minus : Bool) (hour min : ℕ)

namespace Zone

def text : Zone → Bytes
  | utc lower => [byte (if lower then 'z' else 'Z')]
  | offset minus hour min =>
      byte (if minus then '-' else '+') :: (fixedDecimal 2 hour ++ byte ':' :: fixedDecimal 2 min)

/-- The hour and the minute are in range. -/
def Valid : Zone → Prop
  | utc _ => True
  | offset _ hour min => hour < 24 ∧ min < 60

/-- The offset in seconds. -/
def seconds : Zone → ℤ
  | utc _ => 0
  | offset minus hour min => (if minus then -1 else 1) * ((hour * 60 + min) * 60)

end Zone

/-- An RFC 3339 timestamp as it is written. -/
structure Timestamp where
  date : FullDate
  /-- `t` in place of `T`. -/
  lower : Bool
  hour : ℕ
  min : ℕ
  /-- 60 in a leap second. -/
  sec : ℕ
  /-- The digits of the fraction, none if there is no point. -/
  fraction : Bytes
  zone : Zone
  hour_lt : hour < 24
  min_lt : min < 60
  sec_le : sec ≤ 60
  isDigit : ∀ b ∈ fraction, isDigit b = true
  zone_valid : zone.Valid

namespace Timestamp

def text (t : Timestamp) : Bytes :=
  t.date.text ++ byte (if t.lower then 't' else 'T') :: (fixedDecimal 2 t.hour ++
    byte ':' :: (fixedDecimal 2 t.min ++ byte ':' :: (fixedDecimal 2 t.sec ++
      ((if t.fraction = [] then [] else byte '.' :: t.fraction) ++ t.zone.text))))

/-- The nanoseconds of the fraction. -/
def fractionNanos (digits : Bytes) : ℚ := decimalValue digits * 10 ^ 9 / 10 ^ digits.length

/-- Nanoseconds from the epoch, which need not be a whole number. -/
noncomputable def instant (t : Timestamp) : ℚ :=
  Go.instant t.date.days t.hour t.min (t.sec - t.zone.seconds) 0 + fractionNanos t.fraction

/-- What `time.Parse` does not read: leap seconds and small letters. -/
def Readable (t : Timestamp) : Prop :=
  t.lower = false ∧ (∀ lower, t.zone = .utc lower → lower = false) ∧ t.sec < 60

/-! ### Reading a timestamp -/

lemma decimalValue_append (s u : Bytes) :
    decimalValue (s ++ u) = decimalValue s * 10 ^ u.length + decimalValue u := by
  induction u using List.reverseRecOn with
  | nil => simp [decimalValue]
  | append_singleton u b ih =>
      rw [← List.append_assoc, decimalValue_append_singleton, ih, decimalValue_append_singleton,
        List.length_append, List.length_singleton, pow_succ]
      ring

lemma digitValue_lt {b : UInt8} (h : Go.isDigit b = true) : digitValue b < 10 := by
  revert b
  decide +kernel

lemma decimalValue_lt {s : Bytes} (h : ∀ b ∈ s, Go.isDigit b = true) :
    decimalValue s < 10 ^ s.length := by
  induction s using List.reverseRecOn with
  | nil => simp [decimalValue]
  | append_singleton s b ih =>
      have hb : digitValue b < 10 := digitValue_lt (h b (by simp))
      have hs := ih fun c hc => h c (by simp [hc])
      rw [decimalValue_append_singleton, List.length_append, List.length_singleton, pow_succ]
      omega

/-- The first nine digits are the nanosecond in which the fraction lies. -/
lemma fractionNanos_bounds {digits : Bytes} (h : ∀ b ∈ digits, Go.isDigit b = true) :
    ((decimalValue (digits.take 9) * 10 ^ (9 - (digits.take 9).length) : ℕ) : ℚ) ≤
        fractionNanos digits ∧
      fractionNanos digits <
        (decimalValue (digits.take 9) * 10 ^ (9 - (digits.take 9).length) : ℕ) + 1 := by
  rcases Nat.lt_or_ge 9 digits.length with hlong | hshort
  · have hsplit := decimalValue_append (digits.take 9) (digits.drop 9)
    have hrest : decimalValue (digits.drop 9) < 10 ^ (digits.drop 9).length :=
      decimalValue_lt fun b hb => h b (List.mem_of_mem_drop hb)
    have hlen : (digits.take 9).length = 9 := by simp; omega
    rw [List.take_append_drop] at hsplit
    have hpow : (10 : ℚ) ^ digits.length = 10 ^ 9 * 10 ^ (digits.drop 9).length := by
      rw [← pow_add, List.length_drop]
      congr 1
      omega
    rw [fractionNanos, hsplit, hlen, hpow]
    generalize decimalValue (digits.take 9) = a
    revert hrest
    generalize decimalValue (digits.drop 9) = b
    generalize (digits.drop 9).length = k
    intro hrest
    have hb : (b : ℚ) < 10 ^ k := by exact_mod_cast hrest
    have hk : (0 : ℚ) < 10 ^ k := by positivity
    have heq : ((a * 10 ^ k + b : ℕ) : ℚ) * 10 ^ 9 / (10 ^ 9 * 10 ^ k) = a + b / 10 ^ k := by
      push_cast
      field_simp
    rw [heq]
    have hpos : (0 : ℚ) ≤ b / 10 ^ k := by positivity
    have hlt : (b : ℚ) / 10 ^ k < 1 := (div_lt_one hk).mpr hb
    push_cast
    constructor <;> linarith
  · have hpow : (10 : ℚ) ^ 9 = 10 ^ digits.length * 10 ^ (9 - digits.length) := by
      rw [← pow_add]
      congr 1
      omega
    have heq : fractionNanos digits = (decimalValue digits * 10 ^ (9 - digits.length) : ℕ) := by
      rw [fractionNanos, hpow]
      push_cast
      field_simp
    rw [List.take_of_length_le hshort, heq]
    constructor <;> linarith

lemma head?_zone_text (z : Zone) : ∀ b ∈ z.text.head?, Go.isDigit b = false ∧ b ≠ byte '.' ∧ b ≠
    byte ',' := by
  cases z with
  | utc lower => cases lower <;> · rintro b ⟨⟩; decide
  | offset minus hour min => cases minus <;> · rintro b ⟨⟩; decide

/-- The fraction reads as the nanosecond in which it lies. -/
lemma takeFraction_text (t : Timestamp) :
    ∃ n : ℕ, takeFraction ((if t.fraction = [] then [] else byte '.' :: t.fraction) ++
      t.zone.text) =
        (n, t.zone.text) ∧
      (n : ℚ) ≤ fractionNanos t.fraction ∧ fractionNanos t.fraction < n + 1 := by
  have hhead := head?_zone_text t.zone
  by_cases hnil : t.fraction = []
  · refine ⟨0, ?_, ?_⟩
    · rw [if_pos hnil, List.nil_append]
      revert hhead
      generalize t.zone.text = s
      intro hhead
      match s with
      | [] => rfl
      | [c] => rfl
      | c :: d :: rest =>
          obtain ⟨-, hdot, hcomma⟩ := hhead c rfl
          simp [takeFraction, hdot, hcomma]
    · rw [hnil]
      norm_num [fractionNanos, decimalValue]
  · refine ⟨_, ?_, fractionNanos_bounds t.isDigit⟩
    rw [if_neg hnil, List.cons_append,
      takeFraction_digits hnil t.isDigit fun b hb => (hhead b hb).1]

/-- A zone as the source writes and reads it. -/
lemma takeZone_text {z : Zone} (hvalid : z.Valid) (h : ∀ lower, z = .utc lower → lower = false) :
    takeZone z.text = some (z.seconds, []) := by
  cases z with
  | utc lower =>
      obtain rfl := h lower rfl
      rfl
  | offset minus hour min =>
      obtain ⟨hhour, hmin⟩ := hvalid
      have hdigits : ∀ (n : ℕ) (s : Bytes), n < 100 → takeDigits 2 (fixedDecimal 2 n ++ s) =
        some (n, s) :=
        fun n s hn => takeDigits_fixedDecimal hn s
      have hmin' := hdigits min [] (by omega)
      rw [List.append_nil] at hmin'
      cases minus
      all_goals
        simp only [Zone.text, takeZone, Bool.false_eq_true, if_true, if_false]
        rw [if_neg (by decide), hdigits hour _ (by omega)]
        simp only [bind, Option.bind, expect_cons, hmin']
        rw [if_pos ⟨by omega, by omega⟩]
        simp [Zone.seconds, pure]
      exact fun h => absurd h (by decide)

/-- **What `time.Parse` makes of a timestamp.** -/
theorem parseRFC3339Nano_text (t : Timestamp) :
    (t.Readable → parseRFC3339Nano t.text = some ⌊t.instant⌋) ∧
      (¬ t.Readable → parseRFC3339Nano t.text = none) := by
  have hhour := t.hour_lt
  have hmin := t.min_lt
  have hsec := t.sec_le
  obtain ⟨n, hfraction, hlow, hhigh⟩ := t.takeFraction_text
  cases hlower : t.lower with
  | true =>
      refine ⟨fun h => absurd (h.1.symm.trans hlower) (by decide), fun _ => ?_⟩
      unfold parseRFC3339Nano text
      rw [FullDate.takeDate_text, hlower]
      rfl
  | false =>
      -- up to the zone every timestamp is read
      have hread : parseRFC3339Nano t.text = (takeZone t.zone.text).bind fun r =>
          if t.sec < 60 ∧ r.2 = [] then
            some (Go.instant t.date.days t.hour t.min (t.sec - r.1) n)
          else none := by
        unfold parseRFC3339Nano text
        rw [FullDate.takeDate_text, hlower]
        simp only [bind, Option.bind, Bool.false_eq_true, if_false, expect_cons]
        rw [takeHour_fixedDecimal (by omega)]
        simp only [expect_cons]
        rw [takeDigits_fixedDecimal (by omega)]
        simp only [expect_cons]
        rw [takeDigits_fixedDecimal (by omega)]
        simp only [hfraction]
        cases takeZone t.zone.text with
        | none => rfl
        | some r =>
            simp only [hhour, hmin, true_and]
            rfl
      rw [hread]
      constructor
      · rintro ⟨-, hzone, hlt⟩
        rw [takeZone_text t.zone_valid hzone, Option.bind_some, if_pos ⟨hlt, rfl⟩,
          Option.some.injEq]
        symm
        rw [Int.floor_eq_iff, instant]
        have hsum : ((Go.instant t.date.days t.hour t.min (t.sec - t.zone.seconds) n : ℤ) : ℚ) =
            Go.instant t.date.days t.hour t.min (t.sec - t.zone.seconds) 0 + n := by
          simp only [Go.instant]
          push_cast
          ring
        rw [hsum]
        constructor <;> linarith
      · intro hnot
        by_cases hzone : ∀ lower, t.zone = .utc lower → lower = false
        · have hlt : ¬ t.sec < 60 := fun hlt => hnot ⟨hlower, hzone, hlt⟩
          rw [takeZone_text t.zone_valid hzone, Option.bind_some, if_neg fun h => hlt h.1]
        · simp only [not_forall] at hzone
          obtain ⟨lower, heq, hlow⟩ := hzone
          obtain rfl : lower = true := by simpa using hlow
          rw [heq]
          rfl

end Timestamp

end Go
