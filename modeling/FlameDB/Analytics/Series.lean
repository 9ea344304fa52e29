import FlameDB.Query.Series

/-!
# Series of the shared backend

The rows of a series are not kept: they are read in chunks of 512, each chunk is cut into buckets by
`aggregateSeriesUTC`, and a bucket that began in the chunk before is continued.  A point is open
while its values are added up; what it shows is computed at the end.

* `openRun` — the open points are the runs of the rows read so far.
* `flush_runs` — **a chunk continues the runs**, wherever it was cut.
* `series_streamed` — the points are those of `aggregateSeriesUTC` over all rows.
-/

namespace FlameDB.Analytics

open Go KV

/-- The limits of an engine on the size of its answers. -/
structure Limits where
  max : Int64
  maxBytes : Int64

/-- An entry of `points` together with its entry of `sums`. -/
structure OpenPoint where
  ts : Int64
  count : ℕ
  sum : Float64
  deriving DecidableEq

/-- Counts one more event. -/
def OpenPoint.add (p : OpenPoint) (e : Event) : OpenPoint :=
  { p with count := p.count + 1, sum := p.sum + e.value }

/-- Add events to the last point. -/
def addLast : List OpenPoint → List Event → List OpenPoint
  | [], _ => []
  | [p], events => [events.foldl OpenPoint.add p]
  | p :: q :: points, events => p :: addLast (q :: points) events

/-- The last point is the one of the bucket, or a new one is opened. -/
def openPoint (limits : Limits) (points : List OpenPoint) (ts : Int64) :
    Except Bytes (List OpenPoint) :=
  if points.getLast?.map (·.ts) = some ts then .ok points
  else
    let points := points ++ [⟨ts, 0, Float64.zero⟩]
    if limits.max.toInt < points.length then
      .error (bs "series points exceed configured limit " ++ formatInt limits.max)
    else if limits.maxBytes.toInt.tdiv 128 < points.length then
      .error (bs "series exceeds configured byte limit")
    else .ok points

/-- The loop of `flush` over the buckets; `chunk` is what their events are taken from. -/
def flushLoop (limits : Limits) :
    List SeriesPoint → List Event → List OpenPoint → Except Bytes (List OpenPoint)
  | [], _, points => .ok points
  | bucket :: buckets, chunk, points => do
      let points ← openPoint limits points bucket.ts
      flushLoop limits buckets (chunk.drop bucket.count) (addLast points (chunk.take bucket.count))

/-- Files the rows read so far under their buckets. -/
def flush (limits : Limits) (spec : Bytes) (chunk : List Event) (points : List OpenPoint) :
    Except Bytes (List OpenPoint) :=
  flushLoop limits (aggregateSeriesUTC chunk spec (some .count)) chunk points

/-- `cap(chunk)`. -/
def chunkSize : ℕ := 512

/-- The loop over the rows. -/
def readRows (limits : Limits) (spec : Bytes) :
    List Event → List Event → List OpenPoint → Except Bytes (List OpenPoint)
  | [], chunk, points => if chunk = [] then .ok points else flush limits spec chunk points
  | row :: rows, chunk, points =>
      if (chunk ++ [row]).length = chunkSize then do
        let points ← flush limits spec (chunk ++ [row]) points
        readRows limits spec rows [] points
      else readRows limits spec rows (chunk ++ [row]) points

/-- What a point shows. -/
def OpenPoint.close (agg : Option AggType) (p : OpenPoint) : SeriesPoint :=
  let value :=
    match agg with
    | some .count => Float64.ofNat p.count
    | some .avg => if 0 < p.count then p.sum.divNat p.count else p.sum
    | _ => p.sum
  ⟨p.ts, value, p.count⟩

/-- The points of the reply; a value that JSON has no text for fails the whole reply. -/
def closePoints (agg : Option AggType) (points : List OpenPoint) :
    Except Bytes (List SeriesPoint) :=
  if ∃ p ∈ points, (p.close agg).value.isFinite = false then
    .error (bs "response serialization failed")
  else .ok (points.map (OpenPoint.close agg))

/-- `series`, over the rows its query selects. -/
def series (limits : Limits) (q : Query) (rows : List Event) : Except Bytes (List SeriesPoint) := do
  let points ← readRows limits q.groupBySpec rows [] []
  closePoints q.aggregate points

/-! ## Open points and runs

An open point is a run of rows of one bucket. Chunks cut such runs in two, and adding puts them
together again. -/

/-- The open point of a run. -/
def openRun (spec : DurSpec) (b : Bucket Event) : OpenPoint :=
  ⟨unixNano (boundary spec b.index), b.items.length, sumValues b.items⟩

lemma close_openRun (spec : DurSpec) (agg : Option AggType) {b : Bucket Event}
    (hne : b.items ≠ []) :
    (openRun spec b).close agg = pointOf agg (boundary spec b.index) b.items := by
  have hpos : 0 < b.items.length := List.length_pos_iff.mpr hne
  rcases agg with _ | _ | _ | _
  · rfl
  · rfl
  · rfl
  · simp only [OpenPoint.close, pointOf, openRun, aggregateValue, hpos, if_true, if_neg hne]

lemma foldl_add (events : List Event) (p : OpenPoint) :
    events.foldl OpenPoint.add p =
      ⟨p.ts, p.count + events.length, events.foldl (fun sum e => sum + e.value) p.sum⟩ := by
  induction events generalizing p with
  | nil => rfl
  | cons e events ih =>
      rw [List.foldl_cons, ih]
      simp only [OpenPoint.add, List.length_cons, List.foldl_cons, OpenPoint.mk.injEq, and_true,
        true_and]
      omega

/-- Events added to the point of a run. -/
lemma foldl_add_openRun (spec : DurSpec) (n : ℕ) (items events : List Event) :
    events.foldl OpenPoint.add (openRun spec ⟨n, items⟩) = openRun spec ⟨n, items ++ events⟩ := by
  rw [foldl_add]
  simp [openRun, sumValues, List.foldl_append]

/-- What the limits allow. -/
def Limits.Allow (limits : Limits) (n : ℕ) : Prop :=
  (n : ℤ) ≤ limits.max.toInt ∧ (n : ℤ) ≤ limits.maxBytes.toInt.tdiv 128

instance (limits : Limits) (n : ℕ) : Decidable (limits.Allow n) :=
  inferInstanceAs (Decidable (_ ∧ _))

lemma Limits.Allow.mono {limits : Limits} {n k : ℕ} (h : limits.Allow n) (hk : k ≤ n) :
    limits.Allow k := by
  obtain ⟨hmax, hbytes⟩ := h
  exact ⟨by omega, by omega⟩

lemma addLast_append (points : List OpenPoint) (p : OpenPoint) (events : List Event) :
    addLast (points ++ [p]) events = points ++ [events.foldl OpenPoint.add p] := by
  induction points with
  | nil => rfl
  | cons q points ih =>
      cases points with
      | nil => rfl
      | cons r points =>
          simp only [List.cons_append] at ih ⊢
          rw [addLast, ih]

lemma openPoint_new {limits : Limits} {points : List OpenPoint} {ts : Int64}
    (hlast : points.getLast?.map (·.ts) ≠ some ts) (hlimit : limits.Allow (points.length + 1)) :
    openPoint limits points ts = .ok (points ++ [⟨ts, 0, Float64.zero⟩]) := by
  obtain ⟨hmax, hbytes⟩ := hlimit
  simp only [openPoint, if_neg hlast, List.length_append, List.length_singleton]
  rw [if_neg (not_lt.mpr hmax), if_neg (not_lt.mpr hbytes)]

section Runs

variable {spec : DurSpec} (h : spec.Positive) {limits : Limits}

include h

/-- **A bucket is put behind the runs.** -/
lemma openPoint_push {bs : List (Bucket Event)} {b : Bucket Event}
    (hexact : ∀ l ∈ b :: bs, (unixNano (boundary spec l.index)).toInt = boundary spec l.index)
    (hlimit : limits.Allow (pushBucket bs b).length) :
    ∃ points, openPoint limits (bs.map (openRun spec))
      (unixNano (boundary spec b.index)) = .ok points ∧
      addLast points b.items = (pushBucket bs b).map (openRun spec) := by
  -- a point that has just been opened is the point of an empty run
  have hnew : ∀ events : List Event, events.foldl OpenPoint.add
      ⟨unixNano (boundary spec b.index), 0, Float64.zero⟩ = openRun spec ⟨b.index, events⟩ :=
    fun events => foldl_add_openRun spec b.index [] events
  rcases List.eq_nil_or_concat bs with rfl | ⟨front, l, rfl⟩
  · refine ⟨_, openPoint_new (by simp) hlimit, ?_⟩
    rw [List.map_nil, addLast_append, hnew]
    rfl
  rw [List.concat_eq_append] at *
  rw [pushBucket_concat] at hlimit ⊢
  have hts : unixNano (boundary spec l.index) = unixNano (boundary spec b.index) ↔
      l.index = b.index := by
    rw [← Int64.toInt_inj, hexact l (by simp), hexact b (by simp)]
    exact (boundary_strictMono h).injective.eq_iff
  have hlast : ((front ++ [l]).map (openRun spec)).getLast?.map (·.ts) =
      some (unixNano (boundary spec l.index)) := by
    simp [openRun]
  by_cases hindex : l.index = b.index
  · refine ⟨(front ++ [l]).map (openRun spec), ?_, ?_⟩
    · rw [openPoint, if_pos (by rw [hlast, hts.mpr hindex])]
    · rw [if_pos hindex, List.map_append, List.map_append, List.map_singleton, addLast_append,
        List.map_singleton]
      exact congrArg (fun p => front.map (openRun spec) ++ [p])
        (foldl_add_openRun spec l.index l.items b.items)
  · rw [if_neg hindex] at hlimit ⊢
    refine ⟨_, openPoint_new ?_ ?_, ?_⟩
    · rw [hlast]
      simpa [hts] using hindex
    · simpa using hlimit
    · rw [addLast_append, hnew]
      simp

/-- **A chunk continues the runs**: its buckets are put behind them one by one. -/
lemma flushLoop_runs {cs bs : List (Bucket Event)}
    (hexact : ∀ l ∈ cs ++ bs, (unixNano (boundary spec l.index)).toInt = boundary spec l.index)
    (hlimit : limits.Allow (cs.foldl pushBucket bs).length) (agg : Option AggType) :
    flushLoop limits (cs.map fun c => pointOf agg (boundary spec c.index) c.items)
        (cs.flatMap (·.items)) (bs.map (openRun spec)) =
      .ok ((cs.foldl pushBucket bs).map (openRun spec)) := by
  induction cs generalizing bs with
  | nil => rfl
  | cons c cs ih =>
      rw [List.foldl_cons] at hlimit ⊢
      have hfirst := hlimit.mono (length_le_foldl_pushBucket cs (pushBucket bs c))
      obtain ⟨points, hopen, hadd⟩ := @openPoint_push spec h limits bs c
        (fun l hl => hexact l (by
          simp only [List.mem_cons, List.cons_append, List.mem_append] at hl ⊢
          tauto))
        hfirst
      have hcount : (pointOf agg (boundary spec c.index) c.items).count = c.items.length := rfl
      simp only [List.map_cons, List.flatMap_cons, flushLoop, hcount, List.drop_left,
        List.take_left]
      rw [show (pointOf agg (boundary spec c.index) c.items).ts = unixNano
        (boundary spec c.index) from rfl,
        hopen]
      show flushLoop limits _ _ (addLast points c.items) = _
      rw [hadd]
      refine ih ?_ hlimit
      intro l hl
      rcases List.mem_append.mp hl with hl | hl
      · exact hexact l (by simp [hl])
      · rcases Buckets.mem_pushBucket hl with hl | hl
        · exact hexact l (by simp [hl])
        · rw [hl]
          exact hexact c (by simp)

end Runs

/-! ## The rows -/

section Rows

variable {text : Bytes} {spec : DurSpec} (hspec : parseCalendarSpec text = .ok spec)
    {limits : Limits}

include hspec

lemma Runs.join {xs ys : List Event} (ho : InOrder (xs ++ ys)) {bs cs : List (Bucket Event)}
    (hb : Runs spec xs bs) (hc : Runs spec ys cs) : Runs spec (xs ++ ys) (cs.foldl pushBucket bs) :=
  Buckets.join_of_le (boundary_strictMono (parseCalendarSpec_positive hspec)) hb hc
    (List.pairwise_append.mp ho.sorted).2.2

/-- The limits allow the runs of all rows, so they allow those of the first rows. -/
lemma allow_left {xs ys : List Event} (ho : InOrder (xs ++ ys))
    (hlimit : ∀ bs, Runs spec (xs ++ ys) bs → limits.Allow bs.length) :
    ∀ bs, Runs spec xs bs → limits.Allow bs.length := by
  intro bs hb
  obtain ⟨cs, hc, -, -⟩ := aggregateSeriesUTC_runs hspec ho.right none
  exact (hlimit _ (Runs.join hspec ho hb hc)).mono (length_le_foldl_pushBucket cs bs)

/-- **A chunk continues the runs**, wherever it was cut. -/
lemma flush_runs {xs chunk : List Event} (ho : InOrder (xs ++ chunk)) {bs : List (Bucket Event)}
    (hb : Runs spec xs bs) (hlimit : ∀ bs, Runs spec (xs ++ chunk) bs → limits.Allow bs.length) :
    ∃ bs', Runs spec (xs ++ chunk) bs' ∧
      flush limits text chunk (bs.map (openRun spec)) = .ok (bs'.map (openRun spec)) := by
  have h := parseCalendarSpec_positive hspec
  obtain ⟨cs, hc, hseries, -⟩ := aggregateSeriesUTC_runs hspec ho.right (some .count)
  have hjoin := Runs.join hspec ho hb hc
  refine ⟨_, hjoin, ?_⟩
  have hloop := @flushLoop_runs spec h limits cs bs (fun l hl => by
    rcases List.mem_append.mp hl with hl | hl
    · exact hc.toInt_start h l hl
    · exact hb.toInt_start h l hl) (hlimit _ hjoin) (some .count)
  rwa [hc.items_eq, ← hseries] at hloop

/-- **The points of all rows**, wherever the chunks are cut. -/
lemma readRows_runs {rows xs chunk : List Event} (ho : InOrder (xs ++ chunk ++ rows))
    {bs : List (Bucket Event)} (hb : Runs spec xs bs)
    (hlimit : ∀ bs, Runs spec (xs ++ chunk ++ rows) bs → limits.Allow bs.length) :
    ∃ bs', Runs spec (xs ++ chunk ++ rows) bs' ∧
      readRows limits text rows chunk (bs.map (openRun spec)) = .ok (bs'.map (openRun spec)) := by
  induction rows generalizing xs chunk bs with
  | nil =>
      rw [List.append_nil] at ho hlimit ⊢
      rw [readRows]
      split_ifs with hnil
      · subst hnil
        rw [List.append_nil]
        exact ⟨bs, hb, rfl⟩
      · exact flush_runs hspec ho hb hlimit
  | cons row rows ih =>
      have hrows : xs ++ chunk ++ row :: rows = xs ++ (chunk ++ [row]) ++ rows := by simp
      rw [hrows] at ho hlimit ⊢
      rw [readRows]
      split_ifs
      · obtain ⟨bs', hb', hflush⟩ := flush_runs hspec ho.left hb (allow_left hspec ho hlimit)
        rw [hflush]
        rw [← List.append_nil (xs ++ (chunk ++ [row]))] at ho hlimit ⊢
        exact ih ho hb' hlimit
      · exact ih ho hb hlimit

end Rows

lemma from_nonneg {q : Query} (hq : validateQuery q = .ok ()) : 0 ≤ q.from_.toInt := by
  simp only [validateQuery, failIf_bind_eq_ok_iff, not_or] at hq
  have hnot := hq.2.2.2.2.1.2.1
  exact Int64.le_iff_toInt_le.mp (Int64.not_lt.mp hnot)

/-- **Streaming gives the series of all rows.**  The rows are those a valid query selects, in order
of their times, and the series has no more points than the engine allows.  Nothing but a value that
is not finite, which no answer can show, keeps the points from being returned. -/
theorem series_streamed {limits : Limits} {q : Query} (hq : validateQuery q = .ok ())
    {spec : DurSpec}
    (hspec : parseCalendarSpec q.groupBySpec = .ok spec) {rows : List Event}
    (hfrom : ∀ e ∈ rows, q.from_ ≤ e.timestamp)
    (hsorted : rows.Pairwise fun a b => a.timestamp ≤ b.timestamp)
    (hlimit : limits.Allow (aggregateSeriesUTC rows q.groupBySpec q.aggregate).length) :
    (∃ points, readRows limits q.groupBySpec rows [] [] = .ok points ∧
      ∀ agg, points.map (OpenPoint.close agg) = aggregateSeriesUTC rows q.groupBySpec agg) ∧
    series limits q rows =
      if ∃ p ∈ aggregateSeriesUTC rows q.groupBySpec q.aggregate, p.value.isFinite = false then
        .error (bs "response serialization failed")
      else .ok (aggregateSeriesUTC rows q.groupBySpec q.aggregate) := by
  have hmono := boundary_strictMono (parseCalendarSpec_positive hspec)
  have ho : InOrder rows := by
    have hnonneg := from_nonneg hq
    refine ⟨fun e he => ?_, hsorted.imp fun hle => Int64.le_iff_toInt_le.mp hle⟩
    have hle := Int64.le_iff_toInt_le.mp (hfrom e he)
    omega
  -- the runs of the rows, whatever the points show of them
  have hseries : ∀ {bs : List (Bucket Event)}, Runs spec rows bs → ∀ agg,
      aggregateSeriesUTC rows q.groupBySpec agg =
        bs.map fun b => pointOf agg (boundary spec b.index) b.items := by
    intro bs hb agg
    obtain ⟨cs, hc, heq, -⟩ := aggregateSeriesUTC_runs hspec ho agg
    rw [heq, Buckets.unique hmono hb hc]
  have hallow : ∀ bs, Runs spec ([] ++ [] ++ rows) bs → limits.Allow bs.length := by
    intro bs hb
    rw [hseries hb, List.length_map] at hlimit
    exact hlimit
  obtain ⟨bs, hb, hread⟩ := @readRows_runs q.groupBySpec spec hspec limits rows [] [] ho []
    (.nil 0) hallow
  have hclose : ∀ agg, (bs.map (openRun spec)).map (OpenPoint.close agg) =
      aggregateSeriesUTC rows q.groupBySpec agg := by
    intro agg
    rw [hseries hb, List.map_map]
    exact List.map_congr_left fun b hbm => close_openRun spec agg (hb.items_ne_nil b hbm)
  refine ⟨⟨_, hread, hclose⟩, ?_⟩
  have hfinite : (∃ p ∈ bs.map (openRun spec), (p.close q.aggregate).value.isFinite = false) ↔
      ∃ p ∈ aggregateSeriesUTC rows q.groupBySpec q.aggregate, p.value.isFinite = false := by
    rw [← hclose]
    simp
  have hrun : readRows limits q.groupBySpec rows [] [] = .ok (bs.map (openRun spec)) := hread
  simp only [series, hrun, bind, Except.bind, closePoints, hfinite, hclose]

/-- A series of counts by months and seconds. -/
def monthQuery : Query :=
  { type := .get, metric := bs "m", metrics := [bs "m"], groupBySpec := bs "1mo1s"
    aggregate := some .count }

/-- A row every two hours, fifty days long: more than one chunk, and the second month begins in the
first one. -/
def monthRows : List Event :=
  (List.range 600).map fun i => ⟨Int64.ofNat (i * 7200000000000), bs "m",
    Float64.ofBits (if i % 2 = 0 then 0x3FF0000000000000 else 0x4000000000000000), ∅⟩

lemma monthRows_sorted : monthRows.Pairwise fun a b => a.timestamp ≤ b.timestamp := by
  refine List.pairwise_map.mpr (List.pairwise_lt_range.imp_of_mem fun {i j} hi hj hij => ?_)
  have hi := List.mem_range.mp hi
  have hj := List.mem_range.mp hj
  rw [Int64.le_iff_toInt_le, Int64.toInt_ofNat_of_lt (by omega), Int64.toInt_ofNat_of_lt (by omega)]
  omega

/-- More rows than one chunk, in two buckets. -/
theorem monthQuery_streamed :
    chunkSize < monthRows.length ∧
      (∃ points, readRows ⟨10, 12800⟩ (bs "1mo1s") monthRows [] [] = .ok points ∧
        ∀ agg, points.map (OpenPoint.close agg) = aggregateSeriesUTC monthRows (bs "1mo1s") agg) ∧
      series ⟨10, 12800⟩ monthQuery monthRows =
        .ok [⟨0, Float64.ofNat 373, 373⟩, ⟨2678401000000000, Float64.ofNat 227, 227⟩] := by
  obtain ⟨hpoints, hseries⟩ := @series_streamed ⟨10, 12800⟩ monthQuery (by decide +kernel)
    ⟨0, 1, 1000000000⟩ (by decide +kernel) monthRows (by decide +kernel) monthRows_sorted
    (by decide +kernel)
  have hcounts : aggregateSeriesUTC monthRows (bs "1mo1s") (some .count) =
      [⟨0, Float64.ofNat 373, 373⟩, ⟨2678401000000000, Float64.ofNat 227, 227⟩] := by
    decide +kernel
  refine ⟨by decide +kernel, hpoints, hseries.trans ((if_neg ?_).trans (congrArg _ hcounts))⟩
  rw [show aggregateSeriesUTC monthRows monthQuery.groupBySpec
    monthQuery.aggregate = _ from hcounts]
  decide +kernel

end FlameDB.Analytics
