import FlameDB.Go.Rfc3339
import FlameDB.Query.Duration

/-!
# Time literals

A time argument is `now`, a duration before or after now, an RFC 3339 timestamp or a date.  Each
denotes an instant: a number of nanoseconds since the epoch, which is not a whole one for a
timestamp with a finer fraction.  `parseTimeValue` puts what it computes into 64 bits, and does not
notice if it has no room there or drops a part of it.

* `TimeLiteral` — the arguments and their texts.  `TimeLiteral.Denotes` is their meaning: it speaks
  of the calendar and of RFC 3339, not of the parser.
* `timeInstant_literal` — what the parser computes for a literal.
* `literal_exact_iff` — **an argument is read as its instant, or rejected because that does not
  fit**, exactly if the literals the parser accepts are those whose instant is a 64-bit number.
-/

namespace FlameDB

open Go KV

/-- The forms of a time argument. -/
inductive TimeLiteral where
  | now
  | relative (minus : Bool) (ts : List DurTerm)
  | timestamp (t : Timestamp)
  | date (d : FullDate)

namespace TimeLiteral

/-- The text of a literal. -/
def text : TimeLiteral → Bytes
  | now => bs "now"
  | relative minus ts => bs "now" ++ byte (if minus then '-' else '+') :: durText ts
  | timestamp t => t.text
  | date d => d.text

/-- The instant a literal denotes, `base` being the current one.  A relative literal goes from the
moment of the calendar by its months, the day of the month and the time of the day kept, and then by
its nanoseconds. -/
def Denotes (base : ℤ) : TimeLiteral → ℚ → Prop
  | now, z => z = base
  | relative minus ts, z =>
      let sign : ℤ := if minus then -1 else 1
      ∃ x : Moment, x.instant = base ∧
        z = (x.later (sign * (12 * (total ts).years + (total ts).months)) + sign *
          (total ts).dur : ℤ)
  | timestamp t, z => z = t.instant
  | date d, z => z = (d.days * nanosPerDay : ℤ)

/-- An offset has terms, each with digits. -/
def WF : TimeLiteral → Prop
  | relative _ ts => ts ≠ [] ∧ ∀ t ∈ ts, t.WF
  | _ => True

/-- The literals the parser accepts: a duration has limits, and `time.Parse` reads neither leap
seconds nor small letters. -/
def Accepted : TimeLiteral → Prop
  | relative _ ts => Within ts
  | timestamp t => t.Readable
  | _ => True

end TimeLiteral

/-! ## What the parser computes

It works with whole instants and cuts them to 64 bits at the very end. -/

/-- **The offset of a duration goes by the calendar.** -/
lemma applyCalendarOffset_eq (x : Moment) (d : DurSpec) (sign : ℤ) :
    applyCalendarOffset x.instant d sign =
      x.later (sign * (12 * d.years + d.months)) + sign * d.dur := by
  have hmonths : (if d.years ≠ 0 ∨ d.months ≠ 0 then
      addDate x.instant (sign * d.years) (sign * d.months) else x.instant) =
        x.later (sign * (12 * d.years + d.months)) := by
    split_ifs with h
    · rw [x.addDate_eq]
      congr 1
      ring
    · obtain ⟨hy, hm⟩ : d.years = 0 ∧ d.months = 0 := by simpa using h
      rw [hy, hm, Moment.instant]
      norm_num
  unfold applyCalendarOffset
  simp only [hmonths]
  split_ifs with h
  · rfl
  · rw [not_not.mp h, mul_zero, add_zero]

/-- A written instant starts with a digit, so it is not taken for `now`. -/
lemma not_now_of_date (d : FullDate) (s : Bytes) :
    ¬ (bs "now").isPrefixOf (d.text ++ s) = true := by
  intro h
  obtain ⟨rest, hrest⟩ := List.isPrefixOf_iff_prefix.mp h
  have hhead : (d.text ++ s).head? = some (byte 'n') := by rw [← hrest]; rfl
  have hmem : byte 'n' ∈ fixedDecimal 4 d.year := by
    cases hf : fixedDecimal 4 d.year with
    | nil => exact absurd (congrArg List.length hf) (by simp)
    | cons b bs =>
        rw [FullDate.text, hf] at hhead
        rw [Option.some.inj hhead]
        exact List.mem_cons_self
  exact absurd (isDigit_of_mem_fixedDecimal hmem) (by decide)

/-- A relative argument, with its sign taken off. -/
lemma timeInstant_relative {base : ℤ} {token : Bytes} (minus : Bool) {spec : Bytes}
    (hne : spec ≠ [])
    (htoken : tokenValue token = bs "now" ++ byte (if minus then '-' else '+') :: spec) :
    timeInstant base token = do
      let d ← parseCalendarSpec spec
      return applyCalendarOffset base d (if minus then -1 else 1) := by
  have hnow : (bs "now").isPrefixOf (bs "now" ++ byte (if minus then
    '-' else '+') :: spec) = true :=
    List.isPrefixOf_iff_prefix.mpr (List.prefix_append _ _)
  have hlen : ¬ (bs "now" ++ byte (if minus then '-' else '+') :: spec).length < 5 := by
    have := List.length_pos_of_ne_nil hne
    simp [show (bs "now").length = 3 from rfl]
    omega
  have hself : bs "now" ++ byte (if minus then '-' else '+') :: spec ≠ bs "now" := by
    simp
  have hop : (bs "now" ++ byte (if minus then '-' else '+') :: spec).getD 3 0 =
      byte (if minus then '-' else '+') := rfl
  have hdrop : (bs "now" ++ byte (if minus then '-' else '+') :: spec).drop 4 = spec := rfl
  simp only [timeInstant, htoken, hnow, if_true, hself, if_false, hlen, hop, hdrop]
  cases minus with
  | true => rfl
  | false => rfl

/-- A written instant is a timestamp or a date. -/
lemma timeInstant_written {base : ℤ} {token : Bytes}
    (hnow : ¬ (bs "now").isPrefixOf (tokenValue token) = true) :
    timeInstant base token =
      ((parseRFC3339Nano (tokenValue token)).or (parseDateOnly (tokenValue token))).elim
        (.error (bs "invalid date: " ++ tokenValue token)) .ok := by
  simp only [timeInstant, hnow, Bool.false_eq_true, if_false]
  cases parseRFC3339Nano (tokenValue token) with
  | some t => rfl
  | none => cases parseDateOnly (tokenValue token) <;> rfl

/-- An accepted literal is read as the nanosecond in which its instant lies, any other is
rejected. -/
structure Understood (base : ℤ) (token : Bytes) (l : TimeLiteral) (z : ℚ) : Prop where
  read : l.Accepted → timeInstant base token = .ok ⌊z⌋
  rejected : ¬ l.Accepted → ∃ msg, timeInstant base token = .error msg

lemma understood_relative {token : Bytes} {minus : Bool} {ts : List DurTerm} {base : ℤ} {z : ℚ}
    (hne : ts ≠ []) (hts : ∀ t ∈ ts, t.WF)
    (htoken : tokenValue token = (TimeLiteral.relative minus ts).text)
    (hz : (TimeLiteral.relative minus ts).Denotes base z) :
    Understood base token (.relative minus ts) z := by
  obtain ⟨x, rfl, rfl⟩ := hz
  have hspec : durText ts ≠ [] := by
    cases ts with
    | nil => exact absurd rfl hne
    | cons t ts =>
        intro h
        have h := (List.append_eq_nil_iff.mp (List.append_eq_nil_iff.mp h).1).1
        exact (hts t List.mem_cons_self).ne_nil h
  have hread := @timeInstant_relative x.instant token minus _ hspec htoken
  refine ⟨fun hw => ?_, fun hw => ?_⟩
  · rw [hread, (parseCalendarSpec_durText hts).mpr ⟨hw, rfl⟩, Int.floor_intCast,
      ← applyCalendarOffset_eq]
    rfl
  · rw [hread]
    cases hparse : parseCalendarSpec (durText ts) with
    | error msg => exact ⟨msg, rfl⟩
    | ok d => exact absurd ((parseCalendarSpec_durText hts).mp hparse).1 hw

lemma understood_timestamp (base : ℤ) {token : Bytes} {t : Timestamp}
    (htoken : tokenValue token = t.text) : Understood base token (.timestamp t) t.instant := by
  obtain ⟨hread, hnone⟩ := Timestamp.parseRFC3339Nano_text t
  have hdate : parseDateOnly t.text = none := by
    rw [parseDateOnly, Timestamp.text, FullDate.takeDate_text]
    rfl
  have hwritten := @timeInstant_written base token (by
    rw [htoken]
    exact not_now_of_date t.date _)
  rw [htoken] at hwritten
  refine ⟨fun h => ?_, fun h => ⟨bs "invalid date: " ++ t.text, ?_⟩⟩
  · rw [hwritten, hread h]
    rfl
  · rw [hwritten, hnone h, hdate]
    rfl

lemma understood_date (base : ℤ) {token : Bytes} {d : FullDate}
    (htoken : tokenValue token = d.text) :
    Understood base token (.date d) (d.days * nanosPerDay : ℤ) := by
  refine ⟨fun _ => ?_, fun h => absurd trivial h⟩
  have htake := d.takeDate_text []
  have hwritten := @timeInstant_written base token (by
    rw [htoken, ← List.append_nil d.text]
    exact not_now_of_date d [])
  rw [List.append_nil] at htake
  have hrfc : parseRFC3339Nano d.text = none := by
    rw [parseRFC3339Nano, htake]
    rfl
  have hdate : parseDateOnly d.text = some (d.days * nanosPerDay) := by
    rw [parseDateOnly, htake]
    show some (Go.instant d.days 0 0 0 0) = _
    rw [Go.instant, nanosPerDay]
    congr 1
    ring
  rw [hwritten, htoken, hrfc, hdate, Int.floor_intCast]
  rfl

/-- Every literal, form by form. -/
lemma timeInstant_literal {base : ℤ} {z : ℚ} {token : Bytes} {l : TimeLiteral} (hl : l.WF)
    (htoken : tokenValue token = l.text) (hz : l.Denotes base z) : Understood base token l z := by
  cases l with
  | now =>
      obtain rfl : z = base := hz
      refine ⟨fun _ => ?_, fun h => absurd trivial h⟩
      rw [Int.floor_intCast]
      simp only [timeInstant, htoken, TimeLiteral.text]
      rfl
  | relative minus ts => exact understood_relative hl.1 hl.2 htoken hz
  | timestamp t =>
      obtain rfl : z = t.instant := hz
      exact understood_timestamp base htoken
  | date d =>
      obtain rfl : z = (d.days * nanosPerDay : ℤ) := hz
      exact understood_date base htoken

/-! ## Exactness -/

/-- A whole number of 64 bits. -/
def FitsInt64 (z : ℚ) : Prop := ∃ n : ℤ, z = n ∧ -2 ^ 63 ≤ n ∧ n < 2 ^ 63

/-- The exact number, or an error because it does not fit. -/
def ExactOrRejected (z : ℚ) : Except Bytes Int64 → Prop
  | .ok t => (t.toInt : ℚ) = z
  | .error _ => ¬ FitsInt64 z

/-- The nanosecond of an instant is exact if the instant is one that fits. -/
lemma toInt_unixNano_floor_iff (z : ℚ) : ((unixNano ⌊z⌋).toInt : ℚ) = z ↔ FitsInt64 z := by
  constructor
  · intro h
    exact ⟨_, h.symm, Int64.le_toInt _, Int64.toInt_lt _⟩
  · rintro ⟨n, rfl, hlow, hhigh⟩
    rw [Int.floor_intCast, unixNano, Int64.toInt_ofInt_of_le hlow hhigh]

/-- **A time literal is exact**, for every instant it is read at, exactly if it is accepted and
fits, or neither.  Later literals that fit do not yield smaller bounds. -/
theorem literal_exact_iff {base : ℤ} {z : ℚ} {token : Bytes} {l : TimeLiteral} (hl : l.WF)
    (htoken : tokenValue token = l.text) (hz : l.Denotes base z) :
    (ExactOrRejected z (parseTimeAt base token) ↔ (FitsInt64 z ↔ l.Accepted)) ∧
      ∀ {base' : ℤ} {z' : ℚ} {token' : Bytes} {l' : TimeLiteral} {t t' : Int64}, l'.WF →
        tokenValue token' = l'.text → l'.Denotes base' z' → FitsInt64 z → FitsInt64 z' →
        z ≤ z' → parseTimeAt base token = .ok t → parseTimeAt base' token' = .ok t' → t ≤ t' := by
  have hread : ∀ {base : ℤ} {z : ℚ} {token : Bytes} {l : TimeLiteral} {t : Int64}, l.WF →
      tokenValue token = l.text → l.Denotes base z → FitsInt64 z → parseTimeAt base token = .ok t →
      (t.toInt : ℚ) = z := by
    intro base z token l t hl htoken hz hfit ht
    obtain ⟨hok, herror⟩ := timeInstant_literal hl htoken hz
    by_cases hw : l.Accepted
    · rw [parseTimeAt, hok hw] at ht
      rw [← Except.ok.inj ht]
      exact (toInt_unixNano_floor_iff z).mpr hfit
    · obtain ⟨msg, hmsg⟩ := herror hw
      rw [parseTimeAt, hmsg] at ht
      cases ht
  constructor
  · obtain ⟨hok, herror⟩ := timeInstant_literal hl htoken hz
    by_cases hw : l.Accepted
    · rw [parseTimeAt, hok hw]
      simp only [Except.map, ExactOrRejected, toInt_unixNano_floor_iff, hw, iff_true]
    · obtain ⟨msg, hmsg⟩ := herror hw
      rw [parseTimeAt, hmsg]
      simp only [Except.map, ExactOrRejected, hw, iff_false]
  · intro base' z' token' l' t t' hl' htoken' hz' hfit hfit' hle ht ht'
    have h := hread hl htoken hz hfit ht
    have h' := hread hl' htoken' hz' hfit' ht'
    rw [← h, ← h'] at hle
    rw [Int64.le_iff_toInt_le]
    exact_mod_cast hle

/-- The last second of March 2024. -/
def endOfMarch : Moment where
  month := 12 * 2024 + 2
  day := 31
  clock := 86399 * 1000000000
  day_pos := by decide
  day_le := by decide
  clock_nonneg := by decide
  clock_lt := by decide

/-- `1y6mo`. -/
def yearAndHalf : List DurTerm := [⟨bs "1", .y⟩, ⟨bs "6", .mo⟩]

/-- A year and a half before the thirty-first of March is the thirty-first of September, which is
the first of October. -/
theorem relative_literal_exact :
    endOfMarch.instant = 1711929599000000000 ∧
      ExactOrRejected 1664668799000000000 (parseTimeAt 1711929599000000000 (bs "now-1y6mo")) := by
  have hbase : endOfMarch.instant = 1711929599000000000 := by
    rw [Moment.instant, Moment.later_eq]
    decide
  have hl : (TimeLiteral.relative true yearAndHalf).WF := by
    refine ⟨by simp [yearAndHalf], fun t ht => ?_⟩
    rcases List.mem_pair.mp ht with rfl | rfl
    · exact ⟨by decide, by decide +kernel⟩
    · exact ⟨by decide, by decide +kernel⟩
  have hz : (TimeLiteral.relative true yearAndHalf).Denotes 1711929599000000000
      1664668799000000000 := by
    refine ⟨endOfMarch, hbase, ?_⟩
    rw [Moment.later_eq]
    norm_cast
  have hwithin : (TimeLiteral.relative true yearAndHalf).Accepted := by
    refine ⟨fun t ht => ?_, by decide +kernel, by decide +kernel⟩
    rcases List.mem_pair.mp ht with rfl | rfl
    · exact ⟨by decide, fun _ => by decide⟩
    · exact ⟨by decide, fun _ => by decide⟩
  refine ⟨hbase, (literal_exact_iff hl (by decide +kernel) hz).1.mpr (iff_of_true ?_ hwithin)⟩
  exact ⟨1664668799000000000, by norm_num, by norm_num, by norm_num⟩

/-- The first of January 2600. -/
def lateDate : FullDate where
  year := 2600
  month := 1
  day := 1
  year_lt := by decide
  month_pos := by decide
  month_le := by decide
  day_pos := by decide
  day_le := by decide

/-- **A date of the year 2600 is read as one of 2015**, and so as an earlier bound than a date of
2024. -/
theorem late_date_wraps :
    (TimeLiteral.date lateDate).text = bs "2600-01-01" ∧
      (TimeLiteral.date lateDate).Denotes 0 19880899200000000000 ∧
      parseTimeAt 0 (bs "2600-01-01") = .ok 1434155126290448384 ∧
      ¬ ExactOrRejected 19880899200000000000 (parseTimeAt 0 (bs "2600-01-01")) ∧
      parseTimeAt 0 (bs "2024-01-01") = .ok 1704067200000000000 := by
  have hlate : parseTimeAt 0 (bs "2600-01-01") = .ok 1434155126290448384 := by decide +kernel
  refine ⟨by decide +kernel, ?_, hlate, ?_, by decide +kernel⟩
  · show (19880899200000000000 : ℚ) = (lateDate.days * nanosPerDay : ℤ)
    rw [FullDate.days_eq]
    norm_cast
  · rw [hlate]
    show ¬ ((1434155126290448384 : Int64).toInt : ℚ) = 19880899200000000000
    have hint : (1434155126290448384 : Int64).toInt = 1434155126290448384 := by decide
    rw [hint]
    norm_num

end FlameDB
