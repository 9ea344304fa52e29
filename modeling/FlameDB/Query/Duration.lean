import FlameDB.Query.Parser

/-!
# Durations as they are written

A duration is a sequence of numbers and units, such as `1y6mo` or `90min`, and stands for the sum of
its terms: years and months of the calendar, and nanoseconds for everything else.  `m` is a month if
the duration also mentions years or months, and a minute otherwise.

* `DurTerm`, `durText`, `total` — durations, their texts and what they stand for.
* `Within` — the limits the parser sets.
* `parseCalendarSpec_durText` — **a duration is read as its total** exactly if it keeps the limits.
* `exists_durText` — nothing else is read as a duration.
-/

namespace FlameDB

open Go KV

/-- The units of a duration. -/
inductive DurUnit where
  | y | mo | m | min | w | d | h | s
  deriving DecidableEq

def DurUnit.text : DurUnit → Bytes
  | .y => bs "y"
  | .mo => bs "mo"
  | .m => bs "m"
  | .min => bs "min"
  | .w => bs "w"
  | .d => bs "d"
  | .h => bs "h"
  | .s => bs "s"

/-- A number as it is written, and its unit. -/
structure DurTerm where
  digits : Bytes
  unit : DurUnit

namespace DurTerm

/-- A term has digits and nothing else in front of its unit. -/
structure WF (t : DurTerm) : Prop where
  ne_nil : t.digits ≠ []
  isDigit : ∀ b ∈ t.digits, isDigit b = true

def num (t : DurTerm) : ℕ := decimalValue t.digits

def text (t : DurTerm) : Bytes := t.digits ++ t.unit.text

end DurTerm

/-- The text of a duration. -/
def durText (ts : List DurTerm) : Bytes := ts.flatMap DurTerm.text

/-- Whether `m` is a month. -/
def mentionsCalendar (ts : List DurTerm) : Bool := ts.any fun t => t.unit = .y || t.unit = .mo

/-- The nanoseconds of a unit that is not one of the calendar. -/
def DurUnit.nanos (calendar : Bool) : DurUnit → Option ℤ
  | .y => none
  | .mo => none
  | .m => if calendar then none else some 60000000000
  | .min => some 60000000000
  | .w => some 604800000000000
  | .d => some 86400000000000
  | .h => some 3600000000000
  | .s => some 1000000000

/-- A term added to a duration. -/
def DurSpec.add (calendar : Bool) (out : DurSpec) (t : DurTerm) : DurSpec :=
  match t.unit.nanos calendar with
  | some scale => { out with dur := out.dur + t.num * scale }
  | none =>
      if t.unit = .y then { out with years := out.years + t.num }
      else { out with months := out.months + t.num }

/-- The sum of terms; `calendar` says what `m` means. -/
def totalFrom (calendar : Bool) (out : DurSpec) (ts : List DurTerm) : DurSpec :=
  ts.foldl (DurSpec.add calendar) out

/-- What a duration stands for. -/
def total (ts : List DurTerm) : DurSpec := totalFrom (mentionsCalendar ts) {} ts

/-- The limit of a single term: at most 290 years or 3480 months, and a number of 63 bits. -/
def DurTerm.Within (calendar : Bool) (t : DurTerm) : Prop :=
  t.num < 2 ^ 63 ∧ (t.unit.nanos calendar = none → t.num ≤ if t.unit = .y then 290 else 3480)

/-- The limits of a duration: those of its terms, 63 bits of nanoseconds, and more than nothing. -/
structure Within (ts : List DurTerm) : Prop where
  terms : ∀ t ∈ ts, t.Within (mentionsCalendar ts)
  dur_lt : (total ts).dur < 2 ^ 63
  ne_zero : total ts ≠ {}

/-! ## Texts -/

lemma DurUnit.text_head (u : DurUnit) : ∃ b rest, u.text = b :: rest ∧ isDigit b = false := by
  cases u <;> exact ⟨_, _, rfl, by decide⟩

/-- Behind a duration nothing can be mistaken for the rest of a unit. -/
def Delimited (rest : Bytes) : Prop := ∀ b ∈ rest.head?, isDigit b = true

/-- A duration cannot prolong the unit in front of it. -/
lemma delimited_durText {ts : List DurTerm} (h : ∀ t ∈ ts, t.WF) : Delimited (durText ts) := by
  cases ts with
  | nil => simp [Delimited, durText]
  | cons t ts =>
      intro b hb
      obtain ⟨hne, hdigit⟩ := h t List.mem_cons_self
      cases hd : t.digits with
      | nil => exact absurd hd hne
      | cons c cs =>
          have hc : b = c := by simpa [durText, DurTerm.text, hd, eq_comm] using hb
          exact hdigit b (by rw [hd, hc]; exact List.mem_cons_self)

/-- A unit is recognised if what follows does not prolong it. -/
lemma durationUnit_text (u : DurUnit) {rest : Bytes} (h : Delimited rest) :
    durationUnit (u.text ++ rest) = u.text := by
  have hm : ∀ c cs, isDigit c = false → (byte 'm' :: c :: cs).isPrefixOf
    (bs "m" ++ rest) = false := by
    intro c cs hc
    cases rest with
    | nil => rfl
    | cons b rest =>
        have hb : isDigit b = true := h b rfl
        have hne : (c == b) = false := by
          rw [beq_eq_false_iff_ne]
          rintro rfl
          rw [hc] at hb
          cases hb
        show (byte 'm' == byte 'm' && ((c == b) && _)) = false
        rw [hne]
        rfl
  cases u with
  | m =>
      rw [durationUnit, show DurUnit.m.text = bs "m" from rfl,
        show (bs "min").isPrefixOf (bs "m" ++ rest) = false from hm _ _ (by decide),
        show (bs "mo").isPrefixOf (bs "m" ++ rest) = false from hm _ _ (by decide)]
      rfl
  | y => rfl
  | mo => rfl
  | min => rfl
  | w => rfl
  | d => rfl
  | h => rfl
  | s => rfl

lemma takeWhile_text {t : DurTerm} (h : t.WF) (rest : Bytes) :
    (t.text ++ rest).takeWhile isDigit = t.digits ∧
      (t.text ++ rest).dropWhile isDigit = t.unit.text ++ rest := by
  obtain ⟨b, bs, htext, hb⟩ := t.unit.text_head
  have hstop : ¬ isDigit b = true := by simp [hb]
  rw [DurTerm.text, htext, List.append_assoc, List.cons_append,
    List.takeWhile_append_of_pos h.isDigit, List.dropWhile_append_of_pos h.isDigit,
    List.takeWhile_cons_of_neg hstop, List.dropWhile_cons_of_neg hstop, List.append_nil]
  exact ⟨rfl, rfl⟩

lemma parseInt_digits {t : DurTerm} (h : t.WF) :
    parseInt t.digits = if t.num < 2 ^ 63 then some (Int64.ofInt t.num) else none := by
  have hall : t.digits.all isDigit = true := List.all_eq_true.mpr h.isDigit
  have hnum : decimalValue t.digits = t.num := rfl
  simp only [parseInt, cutSign_of_digits hall, h.ne_nil, hall, hnum, not_true_eq_false,
    or_self, if_false, Bool.false_eq_true]
  by_cases hlt : t.num < 2 ^ 63
  · rw [if_neg (by omega), if_pos hlt]
  · rw [if_pos (by omega), if_neg hlt]

/-! ## The reader -/

lemma unitScale_text (calendar : Bool) (u : DurUnit) :
    unitScale calendar u.text = u.nanos calendar := by
  cases u <;> cases calendar <;> rfl

/-- One term is added exactly if it keeps its limit and the sum its 63 bits. -/
lemma addUnit_eq_ok_iff {calendar : Bool} {out d : DurSpec} {t : DurTerm} (hdur : out.dur < 2 ^ 63)
    (hnum : t.num < 2 ^ 63) :
    addUnit calendar out t.num t.unit.text = .ok d ↔
      t.Within calendar ∧ (out.add calendar t).dur < 2 ^ 63 ∧ d = out.add calendar t := by
  simp only [addUnit, unitScale_text, DurTerm.Within, DurSpec.add, hnum, true_and]
  cases hscale : t.unit.nanos calendar with
  | some scale =>
      have hpos : 0 < scale := by
        revert hscale
        cases t.unit <;> cases calendar <;> simp [DurUnit.nanos] <;> omega
      have hiff : ((2 : ℤ) ^ 63 - 1 - out.dur) / scale < t.num ↔ 2 ^ 63 ≤
        out.dur + t.num * scale := by
        rw [Int.ediv_lt_iff_lt_mul hpos]
        omega
      simp only [hiff, reduceCtorEq, false_implies, true_and]
      by_cases hlt : (2 : ℤ) ^ 63 ≤ out.dur + t.num * scale
      · rw [if_pos hlt]
        constructor
        · intro h
          cases h
        · rintro ⟨h, -⟩
          omega
      · rw [if_neg hlt, Except.ok.injEq, eq_comm]
        exact ⟨fun h => ⟨by omega, h⟩, fun h => h.2⟩
  | none =>
      by_cases hy : t.unit = .y
      · have htext : t.unit.text = bs "y" := by rw [hy]; rfl
        rw [if_pos htext, if_pos hy, if_pos hy]
        by_cases hlt : (290 : ℤ) < t.num
        · rw [if_pos hlt]
          simp only [reduceCtorEq, true_implies, false_iff, not_and]
          omega
        · rw [if_neg hlt, Except.ok.injEq, eq_comm]
          exact ⟨fun h => ⟨fun _ => by omega, hdur, h⟩, fun h => h.2.2⟩
      · have htext : t.unit.text ≠ bs "y" ∧ (t.unit.text = bs "mo" ∨ t.unit.text = bs "m") := by
          revert hscale hy
          cases t.unit <;> cases calendar <;> simp [DurUnit.nanos] <;> decide
        rw [if_neg htext.1, if_pos htext.2, if_neg hy, if_neg hy]
        by_cases hlt : (3480 : ℤ) < t.num
        · rw [if_pos hlt]
          simp only [reduceCtorEq, true_implies, false_iff, not_and]
          omega
        · rw [if_neg hlt, Except.ok.injEq, eq_comm]
          exact ⟨fun h => ⟨fun _ => by omega, hdur, h⟩, fun h => h.2.2⟩

lemma DurSpec.dur_le_add (calendar : Bool) (out : DurSpec) (t : DurTerm) :
    out.dur ≤ (out.add calendar t).dur := by
  unfold DurSpec.add
  cases hscale : t.unit.nanos calendar with
  | some scale =>
      have hpos : 0 ≤ scale := by
        revert hscale
        cases t.unit <;> cases calendar <;> simp [DurUnit.nanos] <;> omega
      have := mul_nonneg (Int.natCast_nonneg t.num) hpos
      simp only
      omega
  | none =>
      simp only
      split_ifs <;> exact le_refl _

lemma dur_le_totalFrom (calendar : Bool) (out : DurSpec) (ts : List DurTerm) :
    out.dur ≤ (totalFrom calendar out ts).dur := by
  induction ts generalizing out with
  | nil => exact le_refl _
  | cons t ts ih => exact (out.dur_le_add calendar t).trans (ih _)

/-- **The loop** reads the terms one by one. -/
lemma calendarLoop_durText (spec : Bytes) (calendar : Bool) {ts : List DurTerm}
    (hts : ∀ t ∈ ts, t.WF) {fuel : ℕ} (hfuel : (durText ts).length ≤ fuel) {out d : DurSpec}
    (hdur : out.dur < 2 ^ 63) :
    calendarLoop spec calendar fuel out (durText ts) = .ok d ↔
      (∀ t ∈ ts, t.Within calendar) ∧ (totalFrom calendar out ts).dur < 2 ^ 63 ∧
        d = totalFrom calendar out ts := by
  induction ts generalizing fuel out with
  | nil =>
      have hloop : calendarLoop spec calendar fuel out (durText []) = .ok out := by
        cases fuel <;> rfl
      rw [hloop, Except.ok.injEq, eq_comm]
      exact ⟨fun h => ⟨by simp, hdur, h⟩, fun h => h.2.2⟩
  | cons t ts ih =>
      have ht := hts t List.mem_cons_self
      have hrest : ∀ u ∈ ts, u.WF := fun u hu => hts u (List.mem_cons_of_mem _ hu)
      obtain ⟨htake, hdrop⟩ := takeWhile_text ht (durText ts)
      obtain ⟨b, rest, hunit, -⟩ := t.unit.text_head
      have htext : durText (t :: ts) = t.text ++ durText ts := rfl
      have hne : ¬ (t.digits = [] ∨ t.unit.text ++ durText ts = []) := by
        rintro (h | h)
        · exact ht.ne_nil h
        · rw [hunit] at h
          cases h
      have hlen : (durText ts).length < (durText (t :: ts)).length := by
        rw [htext, DurTerm.text, hunit]
        simp
        omega
      obtain ⟨fuel, rfl⟩ : ∃ n, fuel = n + 1 := ⟨fuel - 1, by omega⟩
      rw [htext, calendarLoop.eq_3 _ _ _ _ _ (by rw [DurTerm.text, hunit]; simp)]
      simp only [htake, hdrop, if_neg hne, parseInt_digits ht]
      by_cases hnum : t.num < 2 ^ 63
      · have hint : (Int64.ofInt (t.num : ℤ)).toInt = t.num :=
          Int64.toInt_ofInt_of_le (by omega) (by omega)
        rw [if_pos hnum]
        simp only [hint, durationUnit_text t.unit (delimited_durText hrest), List.drop_left,
          bind_eq_ok_iff, addUnit_eq_ok_iff hdur hnum]
        constructor
        · rintro ⟨out', ⟨hw, hlt, rfl⟩, hloop⟩
          obtain ⟨hws, hsum, rfl⟩ := (ih hrest (by omega) hlt).mp hloop
          exact ⟨List.forall_mem_cons.mpr ⟨hw, hws⟩, hsum, rfl⟩
        · rintro ⟨hws, hsum, rfl⟩
          obtain ⟨hw, hws⟩ := List.forall_mem_cons.mp hws
          have hlt : (out.add calendar t).dur < 2 ^ 63 := (dur_le_totalFrom _ _ ts).trans_lt hsum
          exact ⟨_, ⟨hw, hlt, rfl⟩, (ih hrest (by omega) hlt).mpr ⟨hws, hsum, rfl⟩⟩
      · rw [if_neg hnum]
        constructor
        · intro h
          cases h
        · rintro ⟨hws, -⟩
          exact absurd (hws t List.mem_cons_self).1 hnum

/-- A letter that is no digit is in a duration if it is in one of its units. -/
lemma mem_durText_iff {ts : List DurTerm} (hts : ∀ t ∈ ts, t.WF) {b : UInt8}
    (hb : isDigit b = false) :
    b ∈ durText ts ↔ ∃ t ∈ ts, b ∈ t.unit.text := by
  simp only [durText, List.mem_flatMap, DurTerm.text, List.mem_append]
  refine exists_congr fun t => and_congr_right fun ht => or_iff_right ?_
  intro hmem
  rw [(hts t ht).isDigit b hmem] at hb
  cases hb

lemma contains_eq_true_iff {s sub : Bytes} : contains s sub = true ↔ sub <:+: s := by
  simp only [contains, List.any_eq_true, List.mem_tails, List.isPrefixOf_iff_prefix,
    List.infix_iff_prefix_suffix, and_comm]

/-- Looking for the letters finds calendar units and nothing else. -/
lemma contains_calendar {ts : List DurTerm} (hts : ∀ t ∈ ts, t.WF) :
    (contains (durText ts) (bs "y") || contains (durText ts) (bs "mo")) = mentionsCalendar ts := by
  have hpart : ∀ t ∈ ts, ∀ sub, t.unit.text = sub → sub <:+: durText ts := by
    rintro t ht sub rfl
    obtain ⟨l, r, rfl⟩ := List.append_of_mem ht
    refine ⟨durText l ++ t.digits, durText r, ?_⟩
    simp [durText, DurTerm.text]
  have hunit : ∀ (b : UInt8) (sub : Bytes) (u : DurUnit), isDigit b = false → b ∈ sub →
    u.text = sub →
      (∀ v : DurUnit, b ∈ v.text → v = u) →
      (contains (durText ts) sub = true ↔ ∃ t ∈ ts, t.unit = u) := by
    rintro b sub u hdigit hmem rfl huniq
    rw [contains_eq_true_iff]
    constructor
    · intro hin
      obtain ⟨t, ht, hb⟩ := (mem_durText_iff hts hdigit).mp (hin.subset hmem)
      exact ⟨t, ht, huniq _ hb⟩
    · rintro ⟨t, ht, rfl⟩
      exact hpart t ht _ rfl
  have hy := hunit (byte 'y') (bs "y") .y (by decide) (by decide) rfl
    (by intro v; cases v <;> decide)
  have hmo := hunit (byte 'o') (bs "mo") .mo (by decide) (by decide) rfl
    (by intro v; cases v <;> decide)
  rw [Bool.eq_iff_iff, Bool.or_eq_true, hy, hmo, mentionsCalendar, List.any_eq_true]
  simp only [Bool.or_eq_true, decide_eq_true_eq, and_or_left, exists_or]

/-- **A duration is read as what it stands for**, if it keeps the limits; otherwise it is
rejected. -/
theorem parseCalendarSpec_durText {ts : List DurTerm} (hts : ∀ t ∈ ts, t.WF) {d : DurSpec} :
    parseCalendarSpec (durText ts) = .ok d ↔ Within ts ∧ d = total ts := by
  have hloop : ∀ {out : DurSpec}, calendarLoop (durText ts) (mentionsCalendar ts)
      (durText ts).length {} (durText ts) = .ok out ↔ _ :=
    calendarLoop_durText (durText ts) (mentionsCalendar ts) hts (le_refl _) (by decide)
  simp only [parseCalendarSpec, contains_calendar hts, bind_eq_ok_iff]
  constructor
  · rintro ⟨out, hout, hret⟩
    obtain ⟨hw, hlt, rfl⟩ := hloop.mp hout
    by_cases hzero : totalFrom (mentionsCalendar ts) {} ts = {}
    · rw [if_pos hzero] at hret
      cases hret
    · rw [if_neg hzero] at hret
      exact ⟨⟨hw, hlt, hzero⟩, (Except.ok.inj hret).symm⟩
  · rintro ⟨⟨hw, hlt, hzero⟩, rfl⟩
    exact ⟨total ts, hloop.mpr ⟨hw, hlt, rfl⟩, if_neg hzero⟩

/-! ## Nothing else is a duration

What the reader accepts is the text of some terms. -/

/-- What is known of a unit that was added. -/
lemma exists_unit_of_addUnit {calendar : Bool} {out d : DurSpec} {num : ℤ} {unit : Bytes}
    (h : addUnit calendar out num unit = .ok d) : ∃ u : DurUnit, u.text = unit := by
  simp only [addUnit, unitScale] at h
  by_cases hy : unit = bs "y"
  · exact ⟨.y, hy.symm⟩
  by_cases hmo : unit = bs "mo"
  · exact ⟨.mo, hmo.symm⟩
  by_cases hm : unit = bs "m"
  · exact ⟨.m, hm.symm⟩
  by_cases hmin : unit = bs "min"
  · exact ⟨.min, hmin.symm⟩
  by_cases hw : unit = bs "w"
  · exact ⟨.w, hw.symm⟩
  by_cases hd : unit = bs "d"
  · exact ⟨.d, hd.symm⟩
  by_cases hh : unit = bs "h"
  · exact ⟨.h, hh.symm⟩
  by_cases hs : unit = bs "s"
  · exact ⟨.s, hs.symm⟩
  simp only [hy, hmo, hm, hmin, hw, hd, hh, hs, false_and, or_self, if_false, reduceCtorEq] at h

lemma durationUnit_append_drop (rest : Bytes) :
    durationUnit rest ++ rest.drop (durationUnit rest).length = rest := by
  have hpre : durationUnit rest <+: rest := by
    unfold durationUnit
    split_ifs with hmin hmo
    · exact List.isPrefixOf_iff_prefix.mp hmin
    · exact List.isPrefixOf_iff_prefix.mp hmo
    · exact List.take_prefix 1 rest
  exact List.prefix_iff_eq_append.mp hpre

/-- Each round has read a number and a unit. -/
lemma exists_durText_of_loop {spec : Bytes} {calendar : Bool} {fuel : ℕ}
    {out d : DurSpec} {s : Bytes}
    (hfuel : s.length ≤ fuel) (h : calendarLoop spec calendar fuel out s = .ok d) :
    ∃ ts : List DurTerm, (∀ t ∈ ts, t.WF) ∧ s = durText ts := by
  induction fuel generalizing out s with
  | zero =>
      obtain rfl := List.eq_nil_of_length_eq_zero (Nat.le_zero.mp hfuel)
      exact ⟨[], by simp, rfl⟩
  | succ fuel ih =>
      by_cases hs : s = []
      · exact ⟨[], by simp, hs⟩
      rw [calendarLoop.eq_3 _ _ _ _ _ (fun h => hs h)] at h
      split_ifs at h with hempty
      obtain ⟨hdigits, hrest⟩ := not_or.mp hempty
      split at h
      · cases h
      · obtain ⟨out', hadd, hloop⟩ := bind_eq_ok_iff.mp h
        obtain ⟨u, hu⟩ := exists_unit_of_addUnit hadd
        have hsplit := durationUnit_append_drop (s.dropWhile isDigit)
        have hpos : 0 < (durationUnit (s.dropWhile isDigit)).length := by
          rw [← hu]
          cases u <;> decide
        have hlen := congrArg List.length (@List.takeWhile_append_dropWhile _ isDigit s)
        have hlen' := congrArg List.length hsplit
        rw [List.length_append] at hlen hlen'
        obtain ⟨ts, hts, htext⟩ := ih (by omega) hloop
        refine ⟨⟨s.takeWhile isDigit, u⟩ :: ts, List.forall_mem_cons.mpr
          ⟨⟨hdigits, fun b hb => List.mem_takeWhile_imp hb⟩, hts⟩, ?_⟩
        show s = s.takeWhile isDigit ++ u.text ++ durText ts
        rw [hu, ← htext, List.append_assoc, hsplit, List.takeWhile_append_dropWhile]

/-- **Nothing else is read as a duration.** -/
theorem exists_durText {spec : Bytes} {d : DurSpec} (h : parseCalendarSpec spec = .ok d) :
    ∃ ts : List DurTerm, (∀ t ∈ ts, t.WF) ∧ spec = durText ts ∧ Within ts ∧ d = total ts := by
  obtain ⟨out, hloop, -⟩ := bind_eq_ok_iff.mp h
  obtain ⟨ts, hts, rfl⟩ := exists_durText_of_loop (le_refl _) hloop
  exact ⟨ts, hts, rfl, (parseCalendarSpec_durText hts).mp h⟩

/-! ## Steps of time -/

/-- What a step of time is: no part of it is negative, the nanoseconds fit into 63 bits, and it is
not nothing. -/
structure DurSpec.Positive (d : DurSpec) : Prop where
  years_nonneg : 0 ≤ d.years
  months_nonneg : 0 ≤ d.months
  dur_nonneg : 0 ≤ d.dur
  dur_lt : d.dur < 2 ^ 63
  ne_zero : d ≠ {}

lemma DurSpec.add_nonneg {out : DurSpec} (calendar : Bool) (t : DurTerm)
    (h : 0 ≤ out.years ∧ 0 ≤ out.months) :
    0 ≤ (out.add calendar t).years ∧ 0 ≤ (out.add calendar t).months := by
  unfold DurSpec.add
  cases t.unit.nanos calendar with
  | some scale => exact h
  | none =>
      simp only
      split_ifs
      · exact ⟨by simp only; omega, h.2⟩
      · exact ⟨h.1, by simp only; omega⟩

lemma totalFrom_nonneg (calendar : Bool) (ts : List DurTerm) {out : DurSpec}
    (h : 0 ≤ out.years ∧ 0 ≤ out.months) :
    0 ≤ (totalFrom calendar out ts).years ∧ 0 ≤ (totalFrom calendar out ts).months := by
  induction ts generalizing out with
  | nil => exact h
  | cons t ts ih => exact ih (DurSpec.add_nonneg calendar t h)

/-- Every accepted duration is a step of time. -/
theorem parseCalendarSpec_positive {spec : Bytes} {d : DurSpec}
    (h : parseCalendarSpec spec = .ok d) :
    d.Positive := by
  obtain ⟨ts, -, -, hw, rfl⟩ := exists_durText h
  obtain ⟨hyears, hmonths⟩ := @totalFrom_nonneg (mentionsCalendar ts) ts {} (by decide)
  exact ⟨hyears, hmonths, dur_le_totalFrom _ {} ts, hw.dur_lt, hw.ne_zero⟩

end FlameDB
