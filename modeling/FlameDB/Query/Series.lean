import FlameDB.KV.Buckets
import FlameDB.Query.Duration
import FlameDB.Query.Reading

/-!
# Series of buckets

`aggregateSeriesUTC` moves over the events and over the boundaries of a duration together.  Here its
loops are compared with what they are for: the boundaries cut time into intervals, and the events of
a series fall into runs, one for each interval that holds any.

* `SeriesRun` — the loops as the code has them, with no bound on their rounds.
* `seriesLoop_buckets` — **the rounds of the loop are the runs of the events**, and the loops end.
* `series_partition` — the points of a series, for every accepted duration.
-/

namespace FlameDB

open Go KV

/-- The boundaries of a duration: its multiples, or the repeated calendar steps from the epoch. -/
def boundary (spec : DurSpec) (n : ℕ) : ℤ :=
  if spec.years = 0 ∧ spec.months = 0 then n * spec.dur else (fun t => addCalendar t spec)^[n] 0

/-- The `n`-th bucket. -/
def interval (spec : DurSpec) (n : ℕ) : ℤ × ℤ := (boundary spec n, boundary spec (n + 1))

lemma boundary_zero (spec : DurSpec) : boundary spec 0 = 0 := by
  simp [boundary]

section Boundaries

variable {spec : DurSpec} (h : spec.Positive)

lemma boundary_succ (hcal : ¬ (spec.years = 0 ∧ spec.months = 0)) (n : ℕ) :
    boundary spec (n + 1) = addCalendar (boundary spec n) spec := by
  simp only [boundary, if_neg hcal, Function.iterate_succ_apply']

include h

lemma dur_pos (hfix : spec.years = 0 ∧ spec.months = 0) : 0 < spec.dur := by
  have hne : spec.dur ≠ 0 := by
    intro hdur
    refine h.ne_zero ?_
    cases spec
    simp only at hfix hdur
    rw [hfix.1, hfix.2, hdur]
  exact lt_of_le_of_ne h.dur_nonneg (Ne.symm hne)

/-- A calendar step is at least a day. -/
lemma le_addCalendar (hcal : ¬ (spec.years = 0 ∧ spec.months = 0)) (t : ℤ) :
    t + nanosPerDay ≤ addCalendar t spec := by
  have hne : spec.years ≠ 0 ∨ spec.months ≠ 0 := by tauto
  have hdate := le_addDate h.years_nonneg h.months_nonneg hne t
  have hday : (0 : ℤ) < nanosPerDay := by decide
  have hdur := h.dur_nonneg
  simp only [addCalendar, applyCalendarOffset, one_mul, if_pos hne]
  split_ifs <;> linarith

lemma boundary_lt_succ (n : ℕ) : boundary spec n < boundary spec (n + 1) := by
  by_cases hfix : spec.years = 0 ∧ spec.months = 0
  · have hdur := dur_pos h hfix
    simp only [boundary, if_pos hfix, Nat.cast_add, Nat.cast_one, add_mul, one_mul]
    omega
  · have hstep := le_addCalendar h hfix (boundary spec n)
    have hday : (0 : ℤ) < nanosPerDay := by decide
    rw [boundary_succ hfix]
    omega

/-- **Boundaries go forward.** -/
lemma boundary_strictMono : StrictMono (boundary spec) :=
  strictMono_nat_of_lt_succ (boundary_lt_succ h)

end Boundaries

/-! ## The loops without a bound

The source looks for buckets in loops that need not end. Here they are relations: a derivation is a
run that ends. -/

/-- Moving a bucket forward until it ends after `ts`. -/
inductive Advances (spec : DurSpec) (ts : ℤ) : ℤ × ℤ → ℤ × ℤ → Prop where
  | done {bucket : ℤ × ℤ} (h : ts < bucket.2) : Advances spec ts bucket bucket
  | next {start stop : ℤ} {bucket : ℤ × ℤ} (h : stop ≤ ts)
      (hb : Advances spec ts (stop, addCalendar stop spec) bucket) :
      Advances spec ts (start, stop) bucket

/-- Where a round starts to look for its bucket. -/
def firstBucket (spec : DurSpec) (ts : ℤ) (last : ℤ × ℤ) : ℤ × ℤ :=
  if spec.years = 0 ∧ spec.months = 0 then (ts - ts.tmod spec.dur, ts - ts.tmod spec.dur + spec.dur)
  else last

/-- The point of a bucket. -/
def pointOf (agg : Option AggType) (start : ℤ) (events : List Event) : SeriesPoint :=
  ⟨unixNano start, aggregateValue agg events, events.length⟩

/-- `aggregateSeriesUTC` behind its checks: a derivation is a run that ends. -/
inductive SeriesRun (spec : DurSpec) (agg : Option AggType) :
    List Event → ℤ × ℤ → List SeriesPoint → Prop where
  | done (last : ℤ × ℤ) : SeriesRun spec agg [] last []
  | round {e : Event} {rest : List Event} {last bucket : ℤ × ℤ} {points : List SeriesPoint}
      (hb : Advances spec e.timestamp.toInt (firstBucket spec e.timestamp.toInt last) bucket)
      (hne : bucket.1 ≠ bucket.2)
      (h : SeriesRun spec agg ((e :: rest).dropWhile (inBucket bucket)) bucket points) :
      SeriesRun spec agg (e :: rest) last
        (pointOf agg bucket.1 ((e :: rest).takeWhile (inBucket bucket)) :: points)
  | guard {e : Event} {rest : List Event} {last bucket : ℤ × ℤ}
      (hb : Advances spec e.timestamp.toInt (firstBucket spec e.timestamp.toInt last) bucket)
      (heq : bucket.1 = bucket.2) :
      SeriesRun spec agg (e :: rest) last
        [pointOf agg bucket.1 ((e :: rest).takeWhile (inBucket bucket))]

/-! ## One bucket -/

section Rounds

variable {spec : DurSpec} (h : spec.Positive)

include h

/-- The rounds given to `advanceBucket` are enough: each moves the bucket by a day or more. -/
lemma advanceBucket_spec (hcal : ¬ (spec.years = 0 ∧ spec.months = 0)) {ts start : ℤ} {m fuel : ℕ}
    (hm : boundary spec m ≤ ts) (hfuel : ts < boundary spec m + fuel * nanosPerDay) :
    ∃ n, m ≤ n ∧ boundary spec n ≤ ts ∧ ts < boundary spec (n + 1) ∧
      advanceBucket spec ts (fuel + 1) (start, boundary spec m) =
        interval spec n ∧
      Advances spec ts (start, boundary spec m) (interval spec n) := by
  induction fuel generalizing m start with
  | zero =>
      simp only [Nat.cast_zero, zero_mul, add_zero] at hfuel
      omega
  | succ fuel ih =>
      have hday := le_addCalendar h hcal (boundary spec m)
      rw [← boundary_succ hcal] at hday
      rw [advanceBucket, if_pos hm, ← boundary_succ hcal]
      by_cases hnext : boundary spec (m + 1) ≤ ts
      · have hfuel' : ts < boundary spec (m + 1) + fuel * nanosPerDay := by
          push_cast at hfuel
          linarith
        obtain ⟨n, hmn, hlow, hhigh, heq, hadv⟩ := @ih (boundary spec m) (m + 1) hnext hfuel'
        refine ⟨n, by omega, hlow, hhigh, heq, .next hm ?_⟩
        rwa [← boundary_succ hcal]
      · refine ⟨m, le_rfl, hm, not_le.mp hnext, ?_, .next hm ?_⟩
        · rw [advanceBucket, if_neg hnext]
          rfl
        · rw [← boundary_succ hcal]
          exact .done (not_le.mp hnext)

/-- **The bucket of an event is its interval.** -/
lemma bucketOf_spec {ts : ℤ} {last : ℤ × ℤ} {m : ℕ} (hpos : 0 ≤ ts)
    (hlast : last.2 = boundary spec m)
    (hm : boundary spec m ≤ ts) :
    ∃ n, m ≤ n ∧ boundary spec n ≤ ts ∧ ts < boundary spec (n + 1) ∧
      bucketOf spec ts last = interval spec n ∧
      Advances spec ts (firstBucket spec ts last) (interval spec n) := by
  by_cases hfix : spec.years = 0 ∧ spec.months = 0
  · have hdur := dur_pos h hfix
    have hbound : ∀ n : ℕ, boundary spec n = n * spec.dur := fun n => by rw [boundary, if_pos hfix]
    have hindex : ((ts / spec.dur).toNat : ℤ) = ts / spec.dur :=
      Int.toNat_of_nonneg (Int.ediv_nonneg hpos hdur.le)
    have hstart : ts - ts.tmod spec.dur = boundary spec (ts / spec.dur).toNat := by
      rw [hbound, hindex, Int.tmod_eq_emod_of_nonneg hpos]
      have hdiv := Int.mul_ediv_add_emod ts spec.dur
      linarith
    have hstop : boundary spec (ts / spec.dur).toNat + spec.dur =
        boundary spec ((ts / spec.dur).toNat + 1) := by
      rw [hbound, hbound]
      push_cast
      ring
    have hmod := Int.emod_lt_of_pos ts hdur
    have hmod0 := Int.emod_nonneg ts hdur.ne'
    rw [Int.tmod_eq_emod_of_nonneg hpos] at hstart
    have hlt : ts < boundary spec ((ts / spec.dur).toNat + 1) := by omega
    refine ⟨(ts / spec.dur).toNat, ?_, by omega, hlt, ?_, ?_⟩
    · exact Nat.lt_succ_iff.mp ((boundary_strictMono h).lt_iff_lt.mp (lt_of_le_of_lt hm hlt))
    · simp only [bucketOf, if_pos hfix, Int.tmod_eq_emod_of_nonneg hpos, hstart, hstop]
      rfl
    · simp only [firstBucket, if_pos hfix, Int.tmod_eq_emod_of_nonneg hpos, hstart, hstop]
      exact .done hlt
  · have hbase : 0 ≤ boundary spec m := by
      rw [← boundary_zero spec]
      exact (boundary_strictMono h).monotone (Nat.zero_le m)
    have hday : (0 : ℤ) < nanosPerDay := by decide
    have hfuel : (ts / nanosPerDay + 2).toNat = (ts / nanosPerDay + 1).toNat + 1 := by
      have := Int.ediv_nonneg hpos hday.le
      omega
    have hrounds : ts < boundary spec m + ((ts / nanosPerDay + 1).toNat : ℕ) * nanosPerDay := by
      rw [Int.toNat_of_nonneg (by have := Int.ediv_nonneg hpos hday.le; omega)]
      have hdiv := Int.lt_ediv_add_one_mul_self ts hday
      linarith
    obtain ⟨start, stop⟩ := last
    obtain rfl : stop = boundary spec m := hlast
    obtain ⟨n, hmn, hlow, hhigh, heq, hadv⟩ :=
      @advanceBucket_spec spec h hfix ts start m _ hm hrounds
    refine ⟨n, hmn, hlow, hhigh, ?_, ?_⟩
    · rw [bucketOf, if_neg hfix, hfuel, heq]
    · rwa [firstBucket, if_neg hfix]

/-! ## All buckets -/

/-- **The rounds of the loop are the runs of the events.** -/
theorem seriesLoop_buckets (agg : Option AggType) {fuel m : ℕ} {events : List Event} {last : ℤ × ℤ}
    (hfuel : events.length ≤ fuel) (hpos : ∀ e ∈ events, 0 ≤ e.timestamp.toInt)
    (hsorted : events.Pairwise fun a b => a.timestamp.toInt ≤ b.timestamp.toInt)
    (hlast : last.2 = boundary spec m) (hm : ∀ e ∈ events, boundary spec m ≤ e.timestamp.toInt) :
    ∃ buckets, Buckets (boundary spec) (fun e : Event => e.timestamp.toInt) m events buckets ∧
      seriesLoop spec agg fuel events last =
        buckets.map (fun b => pointOf agg (boundary spec b.index) b.items) ∧
      SeriesRun spec agg events last (seriesLoop spec agg fuel events last) := by
  induction fuel generalizing m events last with
  | zero =>
      obtain rfl : events = [] := by simpa using hfuel
      exact ⟨[], .nil m, rfl, .done last⟩
  | succ fuel ih =>
      cases events with
      | nil => exact ⟨[], .nil m, rfl, .done last⟩
      | cons e rest =>
          obtain ⟨n, hmn, hlow, hhigh, hbucket, hadv⟩ := bucketOf_spec h
            (hpos e List.mem_cons_self) hlast (hm e List.mem_cons_self)
          have hpred : inBucket (interval spec n) = fun x =>
              InInterval (boundary spec) (fun e : Event => e.timestamp.toInt) n x := rfl
          have hin : InInterval (boundary spec) (fun e : Event => e.timestamp.toInt) n e :=
            ⟨hlow, hhigh⟩
          have hsuffix : rest.dropWhile (inBucket (interval spec n)) <:+ rest :=
            List.dropWhile_suffix _
          have hrest := bound_le_of_mem_dropWhile hsorted hin
          rw [← hpred] at hrest
          obtain ⟨buckets, hb, heq, hrun⟩ := @ih (n + 1) _ (interval spec n)
            (hsuffix.length_le.trans (by simpa using hfuel))
            (fun x hx => hpos x (List.mem_cons_of_mem _ (hsuffix.mem hx)))
            ((List.pairwise_cons.mp hsorted).2.sublist hsuffix.sublist) rfl hrest
          have hdrop : (e :: rest).dropWhile (inBucket (interval spec n)) =
              rest.dropWhile (inBucket (interval spec n)) := by
            rw [List.dropWhile_cons_of_pos]
            simpa [hpred] using hin
          have hne : (interval spec n).1 ≠ (interval spec n).2 := (boundary_lt_succ h n).ne
          have hloop : seriesLoop spec agg (fuel + 1) (e :: rest) last =
              pointOf agg (boundary spec n) ((e :: rest).takeWhile
                (inBucket (interval spec n))) ::
              seriesLoop spec agg fuel (rest.dropWhile
                (inBucket (interval spec n)))
                (interval spec n) := by
            simp only [seriesLoop, hbucket, if_neg hne, hdrop]
            rfl
          rw [hloop]
          refine ⟨⟨n, (e :: rest).takeWhile (inBucket (interval spec n))⟩ ::
            buckets, ?_, by rw [heq]; rfl, .round hadv hne (by rwa [hdrop])⟩
          have hcons := @Buckets.cons Event (boundary spec) (fun e => e.timestamp.toInt) m n
            ((e :: rest).takeWhile (inBucket (interval spec n))) _ _ hmn ?_ ?_ hb
          · rwa [← hdrop, List.takeWhile_append_dropWhile] at hcons
          · rw [List.takeWhile_cons_of_pos (by simpa [hpred] using hin)]
            simp
          · intro x hx
            simpa [hpred] using List.mem_takeWhile_imp hx

end Rounds

/-- A start of a bucket that holds an event is an `int64`. -/
lemma toInt_unixNano_boundary {spec : DurSpec} (h : spec.Positive) {n : ℕ} {ts : Int64}
    (hn : boundary spec n ≤ ts.toInt) : (unixNano (boundary spec n)).toInt = boundary spec n := by
  have hbase : 0 ≤ boundary spec n := by
    rw [← boundary_zero spec]
    exact (boundary_strictMono h).monotone (Nat.zero_le n)
  have hts := Int64.toInt_lt ts
  exact Int64.toInt_ofInt_of_le (by omega) (by omega)

/-- Events in the order of their times, which are not negative. -/
structure InOrder (events : List Event) : Prop where
  nonneg : ∀ e ∈ events, 0 ≤ e.timestamp.toInt
  sorted : events.Pairwise fun a b => a.timestamp.toInt ≤ b.timestamp.toInt

instance (events : List Event) : Decidable (InOrder events) :=
  decidable_of_iff (_ ∧ _) ⟨fun h => ⟨h.1, h.2⟩, fun h => ⟨h.1, h.2⟩⟩

lemma InOrder.left {xs ys : List Event} (h : InOrder (xs ++ ys)) : InOrder xs :=
  ⟨fun e he => h.nonneg e (List.mem_append_left _ he), (List.pairwise_append.mp h.sorted).1⟩

lemma InOrder.right {xs ys : List Event} (h : InOrder (xs ++ ys)) : InOrder ys :=
  ⟨fun e he => h.nonneg e (List.mem_append_right _ he), (List.pairwise_append.mp h.sorted).2.1⟩

/-- The runs of events between the boundaries of a duration. -/
def Runs (spec : DurSpec) (events : List Event) (buckets : List (Bucket Event)) : Prop :=
  Buckets (boundary spec) (fun e => e.timestamp.toInt) 0 events buckets

lemma Runs.toInt_start {spec : DurSpec} (h : spec.Positive) {events : List Event}
    {buckets : List (Bucket Event)} (hb : Runs spec events buckets) :
    ∀ b ∈ buckets, (unixNano (boundary spec b.index)).toInt = boundary spec b.index := by
  intro b hbm
  obtain ⟨e, items, hitems⟩ := List.exists_cons_of_ne_nil (hb.items_ne_nil b hbm)
  exact toInt_unixNano_boundary h (hb.inInterval b hbm e (by simp [hitems])).1

/-- **The loops of `aggregateSeriesUTC` end**, with the runs of the events. -/
theorem aggregateSeriesUTC_runs {text : Bytes} {spec : DurSpec}
    (hspec : parseCalendarSpec text = .ok spec) {events : List Event} (ho : InOrder events)
    (agg : Option AggType) :
    ∃ buckets, Runs spec events buckets ∧ aggregateSeriesUTC events text agg =
        buckets.map (fun b => pointOf agg (boundary spec b.index) b.items) ∧
      SeriesRun spec agg events (0, 0) (aggregateSeriesUTC events text agg) := by
  have hzero := boundary_zero spec
  simp only [aggregateSeriesUTC, hspec]
  exact @seriesLoop_buckets spec (parseCalendarSpec_positive hspec) agg events.length
    0 events (0, 0)
    le_rfl ho.nonneg ho.sorted hzero.symm (by rw [hzero]; exact ho.nonneg)

/-- The series of events and the intervals of their duration: what each point says of the events it
stands for, and that the events are told apart by their intervals. -/
structure SeriesPartition (spec : DurSpec) (agg : Option AggType) (events : List Event)
    (points : List SeriesPoint) : Prop where
  increasing : points.Pairwise fun p q => p.ts < q.ts
  positive : ∀ p ∈ points, 0 < p.count
  total : (points.map (·.count)).sum = events.length
  interval : ∀ e ∈ events,
    ∃! n, boundary spec n ≤ e.timestamp.toInt ∧ e.timestamp.toInt < boundary spec (n + 1)
  runs : ∃ buckets, Runs spec events buckets ∧
    List.Forall₂ (fun p b => p.ts.toInt = boundary spec b.index ∧ p.count = b.items.length ∧
      p.value = aggregateValue agg b.items) points buckets

/-- Runs of events are a partition by buckets. -/
lemma seriesPartition_of_buckets {spec : DurSpec} (h : spec.Positive) (agg : Option AggType)
    {events : List Event} {buckets : List (Bucket Event)} (hb : Runs spec events buckets) :
    SeriesPartition spec agg events
      (buckets.map fun b => pointOf agg (boundary spec b.index) b.items) := by
  have hmono := boundary_strictMono h
  have hexact := hb.toInt_start h
  constructor
  case increasing =>
    rw [List.pairwise_map]
    refine hb.pairwise_index.imp_of_mem ?_
    intro a b ha hbm hlt
    show unixNano (boundary spec a.index) < unixNano (boundary spec b.index)
    rw [Int64.lt_iff_toInt_lt, hexact a ha, hexact b hbm]
    exact hmono hlt
  case positive =>
    intro p hp
    obtain ⟨b, hbm, rfl⟩ := List.mem_map.mp hp
    exact List.length_pos_iff.mpr (hb.items_ne_nil b hbm)
  case total =>
    rw [← hb.items_eq, List.length_flatMap, List.map_map]
    rfl
  case interval =>
    intro e he
    rw [← hb.items_eq] at he
    obtain ⟨b, hbm, heb⟩ := List.mem_flatMap.mp he
    have hin := hb.inInterval b hbm e heb
    exact ⟨b.index, hin, fun n hn => InInterval.unique hmono hn hin⟩
  case runs =>
    refine ⟨buckets, hb, ?_⟩
    rw [List.forall₂_map_left_iff, List.forall₂_same]
    exact fun b hbm => ⟨hexact b hbm, rfl, rfl⟩

/-- **Series buckets partition the events.**  The loops end, and the points are the runs of the
events between consecutive boundaries of the duration. -/
theorem series_partition {text : Bytes} {spec : DurSpec} (hspec : parseCalendarSpec text = .ok spec)
    {events : List Event} (ho : InOrder events) (agg : Option AggType) :
    SeriesRun spec agg events (0, 0) (aggregateSeriesUTC events text agg) ∧
      SeriesPartition spec agg events (aggregateSeriesUTC events text agg) := by
  obtain ⟨buckets, hb, heq, hrun⟩ := aggregateSeriesUTC_runs hspec ho agg
  refine ⟨hrun, ?_⟩
  rw [heq]
  exact seriesPartition_of_buckets (parseCalendarSpec_positive hspec) agg hb

/-- Two days of February 1970 and one of March, by months and seconds. -/
def monthEvents : List Event :=
  [⟨2700000000000000, bs "m", Float64.zero, ∅⟩, ⟨2800000000000000, bs "m", Float64.zero, ∅⟩,
    ⟨5200000000000000, bs "m", Float64.zero, ∅⟩]

/-- They fall into the buckets of a month and a second each. -/
theorem monthEvents_partition :
    SeriesPartition ⟨0, 1, 1000000000⟩ (some .count) monthEvents
      (aggregateSeriesUTC monthEvents (bs "1mo1s") (some .count)) :=
  (series_partition (by decide +kernel) (by decide) (some .count)).2

end FlameDB
