import FlameDB.Analytics.Tables

/-!
# Automatic timestamps

A batch asks for a number of timestamps of each metric.  Starting behind the durable clock, the
allocator walks over the positions of all metrics together: a page tells which positions are taken,
but it is cut off after a number of rows, and a cut page says nothing about what lies behind its
last row.  The clocks are written when every metric has what it asked for.

* `head?_dropWhile_page` — what a page says about a position.
* `scanLoop_sound`, `scanLoop_progress` — **a page gives away free positions only, and moves on.**
* `allocate_fresh` — every metric gets its timestamps, or no clock is written.
-/

namespace FlameDB.Analytics

open Go KV

/-- `math.MaxInt64`. -/
def maxInt64 : ℤ := 2 ^ 63 - 1

/-- The timestamps a batch still needs for one metric, and those found so far. -/
structure Allocation where
  metric : Bytes
  count : ℕ
  candidate : ℤ
  allocated : List ℤ
  /-- the explicit timestamps of the batch -/
  reserved : Finset ℤ
  deriving DecidableEq

/-- More timestamps are needed. -/
def Allocation.Pending (s : Allocation) : Prop := s.allocated.length < s.count

instance (s : Allocation) : Decidable s.Pending := inferInstanceAs (Decidable (_ < _))

/-- The durable clock of a metric, zero if it has none. -/
def metricClock (db : Tables) (metric : Bytes) : ℤ :=
  (db.metricClock.get? (encodeString metric)).getD 0

/-- Where the search for a metric starts; `next` is the value of `nextTimestamp`. -/
def startAllocation (db : Tables) (next : Bytes → Int64) (reserved : Bytes → Finset ℤ)
    (metric : Bytes)
    (count : ℕ) : Except Bytes Allocation :=
  let last := metricClock db metric
  if maxInt64 - 1 ≤ last then .error (bs "automatic timestamp space exhausted")
  else
    let candidate := if (next metric).toInt ≤ last then last + 1 else (next metric).toInt
    if candidate ≤ 0 then .error (bs "invalid automatic timestamp clock")
    else .ok ⟨metric, count, candidate, [], reserved metric⟩

/-- The end of the window a page looks at. -/
def Allocation.bound (s : Allocation) : ℤ :=
  let span := max 1000 ((s.count : ℤ) - s.allocated.length + s.reserved.card)
  if span < maxInt64 - s.candidate then s.candidate + span else maxInt64

/-- The rows of a page when `n` metrics share it. -/
def sharedLimit (n : ℕ) : ℕ := min 1000 (max 32 (1024 / n))

/-- The stored times of a metric in a window, in order. -/
def storedTimes (db : Tables) (metric : Bytes) (start stop : ℤ) : List ℤ :=
  (db.events.range (toLex (encodeString metric, start)) (toLex (encodeString metric, stop))).map
    fun row => (ofLex row.1).2

/-- A position is looked at: it is given away if it is free. -/
def Allocation.visit (s : Allocation) (free : Bool) : Allocation :=
  { s with
    allocated := if free then s.allocated ++ [s.candidate] else s.allocated
    candidate := s.candidate + 1 }

/-- The walk over one page.  `positions` are the rows of the page from `position` on, `full` says
that the page may have been cut, and `distance` is what lies between the candidate and the end. -/
def scanLoop (full : Bool) : (distance : ℕ) → (positions : List ℤ) → Allocation → Allocation
  | 0, _, s => s
  | distance + 1, positions, s =>
      if s.Pending then
        let positions := positions.dropWhile (· < s.candidate)
        if positions = [] ∧ full then s
        else
          scanLoop full distance positions
            (s.visit (s.candidate ∉ s.reserved ∧ positions.head? ≠ some s.candidate))
      else s

/-- A round of the loop for one metric. -/
def takePage (db : Tables) (limit : ℕ) (s : Allocation) : Except Bytes Allocation :=
  if s.Pending then
    let positions := (storedTimes db s.metric s.candidate s.bound).take limit
    let s' := scanLoop (positions.length = limit) (s.bound - s.candidate).toNat positions s
    if s'.Pending ∧ maxInt64 ≤ s'.candidate then .error (bs "automatic timestamp space exhausted")
    else .ok s'
  else .ok s

/-- Failures of the database; a failed statement ends the transaction. -/
structure Faults where
  clocks : Option Bytes := none
  page : ℕ → Option Bytes := fun _ => none
  update : Option Bytes := none

/-- The loop over the pages, `none` if `fuel` rounds are not enough. -/
def pageLoop (db : Tables) (faults : Faults) :
    (fuel : ℕ) → (page : ℕ) → List Allocation → Option (Except Bytes (List Allocation))
  | fuel, page, states =>
      if ∃ s ∈ states, s.Pending then
        match fuel with
        | 0 => none
        | fuel + 1 =>
            match faults.page page with
            | some err => some (.error err)
            | none =>
                match states.mapM (takePage db (sharedLimit (states.countP (·.Pending)))) with
                | .error err => some (.error err)
                | .ok states => pageLoop db faults fuel (page + 1) states
      else some (.ok states)

/-- The metrics that ask for timestamps. -/
def requested (counts : OrdMap Bytes ℕ) : List (Bytes × ℕ) := counts.entries.filter fun e => 0 < e.2

/-- The upserts of the clocks. -/
def writeClocks (db : Tables) (states : List Allocation) : Tables :=
  let rows := states.map fun s => (encodeString s.metric, s.allocated.getLast?.getD 0)
  { db with metricClock := db.metricClock.setRows rows }

/-- `allocateBatchTimestamps`: the answer and the tables of the transaction behind it. -/
def allocateBatchTimestamps (faults : Faults) (next : Bytes → Int64) (counts : OrdMap Bytes ℕ)
    (reserved : Bytes → Finset ℤ) (fuel : ℕ) (db : Tables) :
    Option (Except Bytes (OrdMap Bytes (List ℤ)) × Tables) :=
  if requested counts = [] then some (.ok ∅, db)
  else
    match faults.clocks with
    | some err => some (.error err, db)
    | none =>
        match (requested counts).mapM fun e => startAllocation db next reserved e.1 e.2 with
        | .error err => some (.error err, db)
        | .ok states =>
            match pageLoop db faults fuel 0 states with
            | none => none
            | some (.error err) => some (.error err, db)
            | some (.ok states) =>
                match faults.update with
                | some err => some (.error err, db)
                | none =>
                    some (.ok ((∅ : OrdMap Bytes (List ℤ)).setRows
                      (states.map fun s => (s.metric, s.allocated))), writeClocks db states)

/-! ## What a page says

A page lists the taken positions up to where it was cut off. In front of its last row a position
that is missing is free. -/

section Page

variable {times : List ℤ} (hsorted : times.Pairwise (· < ·))

include hsorted

/-- In ordered times, the first one that is not smaller tells whether a time is there. -/
lemma head?_dropWhile_eq_some_iff (c : ℤ) :
    (times.dropWhile (· < c)).head? = some c ↔ c ∈ times := by
  induction times with
  | nil => simp
  | cons t times ih =>
      obtain ⟨hlt, htail⟩ := List.pairwise_cons.mp hsorted
      by_cases ht : t < c
      · rw [List.dropWhile_cons_of_pos (by simpa using ht), ih htail, List.mem_cons]
        exact ⟨.inr, fun h => h.resolve_left ht.ne'⟩
      · rw [List.dropWhile_cons_of_neg (by simpa using ht), List.head?_cons, List.mem_cons,
          Option.some.injEq, eq_comm]
        refine ⟨.inl, fun h => h.resolve_right fun hmem => ?_⟩
        exact ht (hlt c hmem)

lemma mem_take_of_le {c h : ℤ} {n : ℕ} (hc : c ∈ times) (hh : h ∈ times.take n) (hle : c ≤ h) :
    c ∈ times.take n := by
  rw [← List.take_append_drop n times] at hc hsorted
  rcases List.mem_append.mp hc with hc | hc
  · exact hc
  · exact absurd ((List.pairwise_append.mp hsorted).2.2 h hh c hc) (not_lt.mpr hle)

/-- **What a page says about a position**: unless the page was cut before it, the position is taken
exactly if it is the next row. -/
lemma head?_dropWhile_page {limit : ℕ} {c : ℤ}
    (hknown : ¬ ((times.take limit).dropWhile (· < c) = [] ∧ (times.take limit).length = limit)) :
    ((times.take limit).dropWhile (· < c)).head? = some c ↔ c ∈ times := by
  rw [head?_dropWhile_eq_some_iff (hsorted.sublist (List.take_sublist limit times))]
  refine ⟨fun h => List.mem_of_mem_take h, fun hc => ?_⟩
  by_cases hlen : (times.take limit).length = limit
  · obtain ⟨h, rest, hrest⟩ := List.exists_cons_of_ne_nil fun hnil => hknown ⟨hnil, hlen⟩
    have hhead := List.head?_dropWhile_not (fun t => decide (t < c)) (times.take limit)
    rw [hrest] at hhead
    have hle : c ≤ h := by simpa using hhead
    have hmem : h ∈ times.take limit :=
      (List.dropWhile_suffix fun t => decide (t < c)).mem (by rw [hrest]; simp)
    exact mem_take_of_le hsorted hc hmem hle
  · rw [List.take_of_length_le]
    · exact hc
    · rw [List.length_take] at hlen
      omega

end Page

lemma dropWhile_dropWhile_lt (times : List ℤ) {c d : ℤ} (h : c ≤ d) :
    (times.dropWhile (· < c)).dropWhile (· < d) = times.dropWhile (· < d) := by
  induction times with
  | nil => rfl
  | cons t times ih =>
      by_cases ht : t < c
      · rw [List.dropWhile_cons_of_pos (by simpa using ht),
          List.dropWhile_cons_of_pos (by simpa using lt_of_lt_of_le ht h), ih]
      · rw [List.dropWhile_cons_of_neg (by simpa using ht)]

/-- A window of one metric in the order of metrics and times. -/
lemma lex_window_iff {m m' : Bytes} {start stop t : ℤ} :
    toLex (m, start) ≤ toLex (m', t) ∧ toLex (m', t) < toLex (m, stop) ↔
      m' = m ∧ start ≤ t ∧ t < stop := by
  rw [Prod.Lex.toLex_le_toLex, Prod.Lex.toLex_lt_toLex]
  constructor
  · rintro ⟨hlow | ⟨hm, hlow⟩, hhigh | ⟨hm', hhigh⟩⟩
    · exact absurd hlow (lt_asymm hhigh)
    · exact absurd hm'.symm hlow.ne
    · exact absurd hm.symm hhigh.ne
    · exact ⟨hm', hlow, hhigh⟩
  · rintro ⟨rfl, hlow, hhigh⟩
    exact ⟨.inr ⟨rfl, hlow⟩, .inr ⟨rfl, hhigh⟩⟩

/-- The rows of a page are taken positions. -/
lemma mem_storedTimes {db : Tables} {metric : Bytes} {start stop t : ℤ} :
    t ∈ storedTimes db metric start stop ↔
      db.events.get? (toLex (encodeString metric, t)) ≠ none ∧ start ≤ t ∧ t < stop := by
  rw [Option.ne_none_iff_exists']
  simp only [storedTimes, List.mem_map, Prod.exists]
  constructor
  · rintro ⟨key, row, hmem, rfl⟩
    obtain ⟨hget, hwindow⟩ := (OrdMap.mem_range_iff _ _ _ _ _).mp hmem
    obtain ⟨m', t⟩ := key
    obtain ⟨rfl, hlow, hhigh⟩ := lex_window_iff.mp hwindow
    exact ⟨⟨row, hget⟩, hlow, hhigh⟩
  · rintro ⟨⟨row, hget⟩, hlow, hhigh⟩
    exact ⟨_, row, (OrdMap.mem_range_iff _ _ _ _ _).mpr ⟨hget, lex_window_iff.mpr
      ⟨rfl, hlow, hhigh⟩⟩, rfl⟩

lemma storedTimes_sorted (db : Tables) (metric : Bytes) (start stop : ℤ) :
    (storedTimes db metric start stop).Pairwise (· < ·) := by
  rw [storedTimes, List.pairwise_map]
  refine (db.events.range_sorted _ _).imp_of_mem ?_
  rintro ⟨⟨m, t⟩, row⟩ ⟨⟨m', t'⟩, row'⟩ h h' hlt
  obtain ⟨rfl, -, -⟩ := lex_window_iff.mp ((OrdMap.mem_range_iff _ _ _ _ _).mp h).2
  obtain ⟨rfl, -, -⟩ := lex_window_iff.mp ((OrdMap.mem_range_iff _ _ _ _ _).mp h').2
  rcases Prod.Lex.toLex_lt_toLex.mp hlt with hm | ⟨-, ht⟩
  · exact absurd hm (lt_irrefl _)
  · exact ht

/-! ## One metric

A page gives away free positions only, and moves the candidate on. -/

/-- What holds of a metric at every moment: the timestamps given so far are free, in order, behind
the clock and in front of the candidate. -/
structure Allocation.Sound (db : Tables) (s : Allocation) : Prop where
  increasing : s.allocated.Pairwise (· < ·)
  below : ∀ t ∈ s.allocated, t < s.candidate
  above : ∀ t ∈ s.allocated, 0 < t ∧ metricClock db s.metric < t
  free : ∀ t ∈ s.allocated,
    db.events.get? (toLex (encodeString s.metric, t)) = none ∧ t ∉ s.reserved
  length : s.allocated.length ≤ s.count
  clock : metricClock db s.metric < s.candidate
  positive : 0 < s.candidate
  limit : s.candidate ≤ maxInt64

/-- Two states of the same search, the second not before the first. -/
structure Allocation.Continues (s s' : Allocation) : Prop where
  metric : s'.metric = s.metric
  count : s'.count = s.count
  reserved : s'.reserved = s.reserved
  candidate : s.candidate ≤ s'.candidate

lemma Allocation.Continues.refl (s : Allocation) : s.Continues s := ⟨rfl, rfl, rfl, le_rfl⟩

lemma Allocation.Continues.trans {s s' s'' : Allocation} (h : s.Continues s')
    (h' : s'.Continues s'') :
    s.Continues s'' :=
  ⟨h'.metric.trans h.metric, h'.count.trans h.count, h'.reserved.trans h.reserved,
    h.candidate.trans h'.candidate⟩

/-- A position is given away only if it is free. -/
lemma Allocation.Sound.visit {db : Tables} {s : Allocation} (h : s.Sound db) (hpending : s.Pending)
    (hlimit : s.candidate < maxInt64) {free : Bool}
    (hfree : free = true → db.events.get? (toLex (encodeString s.metric, s.candidate)) = none ∧
      s.candidate ∉ s.reserved) : (s.visit free).Sound db := by
  cases free with
  | false =>
      exact ⟨h.increasing, fun t ht => (h.below t ht).trans (lt_add_one _), h.above,
        h.free, h.length,
        h.clock.trans (lt_add_one _), h.positive.trans (lt_add_one _), hlimit⟩
  | true =>
      have hmem : ∀ t ∈ s.allocated ++ [s.candidate], t ∈ s.allocated ∨ t = s.candidate := by simp
      constructor
      case increasing =>
        refine List.pairwise_append.mpr ⟨h.increasing, List.pairwise_singleton _ _, ?_⟩
        intro t ht c hc
        rw [List.mem_singleton.mp hc]
        exact h.below t ht
      case below =>
        intro t ht
        show t < s.candidate + 1
        rcases hmem t ht with ht | rfl
        · exact (h.below t ht).trans (lt_add_one _)
        · exact lt_add_one _
      case above =>
        intro t ht
        rcases hmem t ht with ht | rfl
        · exact h.above t ht
        · exact ⟨h.positive, h.clock⟩
      case free =>
        intro t ht
        rcases hmem t ht with ht | rfl
        · exact h.free t ht
        · exact hfree rfl
      case length =>
        show (s.allocated ++ [s.candidate]).length ≤ s.count
        rw [List.length_append, List.length_singleton]
        exact hpending
      case clock => exact h.clock.trans (lt_add_one _)
      case positive => exact h.positive.trans (lt_add_one _)
      case limit => exact hlimit

section Scan

variable {db : Tables} {times : List ℤ} {limit : ℕ} {start stop : ℤ}

/-- **A page gives away free positions only.** -/
lemma scanLoop_sound {metric : Bytes} (hstop : stop ≤ maxInt64)
    (htimes : times = storedTimes db metric start stop) {distance : ℕ} {positions : List ℤ}
    {s : Allocation} (hs : s.Sound db) (hmetric : s.metric = metric) (hstart : start ≤ s.candidate)
    (hdistance : s.candidate + distance ≤ stop)
    (hpositions : positions.dropWhile (· < s.candidate) = (times.take limit).dropWhile
      (· < s.candidate)) :
    (scanLoop ((times.take limit).length = limit) distance positions s).Sound db ∧
      s.Continues (scanLoop ((times.take limit).length = limit) distance positions s) := by
  induction distance generalizing positions s with
  | zero => exact ⟨hs, .refl s⟩
  | succ distance ih =>
      rw [scanLoop]
      by_cases hpending : s.Pending
      · rw [if_pos hpending]
        simp only [hpositions]
        by_cases hcut : (times.take limit).dropWhile (· < s.candidate) = [] ∧
            (times.take limit).length = limit
        · rw [if_pos (by simpa using hcut)]
          exact ⟨hs, .refl s⟩
        rw [if_neg (by simpa using hcut)]
        have hsorted : times.Pairwise (· < ·) := htimes ▸ storedTimes_sorted db metric start stop
        have htaken := head?_dropWhile_page hsorted hcut
        have hlt : s.candidate < stop := by
          push_cast at hdistance
          omega
        have hfree : decide (s.candidate ∉ s.reserved ∧
            ((times.take limit).dropWhile (· < s.candidate)).head? ≠ some s.candidate) = true →
            db.events.get? (toLex (encodeString s.metric, s.candidate)) = none ∧
              s.candidate ∉ s.reserved := by
          intro hfree
          obtain ⟨hreserved, hhead⟩ := of_decide_eq_true hfree
          refine ⟨?_, hreserved⟩
          by_contra hstored
          refine hhead (htaken.mpr ?_)
          rw [htimes, mem_storedTimes, ← hmetric]
          exact ⟨hstored, hstart, hlt⟩
        have hvisit := hs.visit hpending (lt_of_lt_of_le hlt hstop) hfree
        generalize decide (s.candidate ∉ s.reserved ∧
          ((times.take limit).dropWhile (· < s.candidate)).head? ≠ some s.candidate) = free at *
        have hcontinues : s.Continues (s.visit free) := ⟨rfl, rfl, rfl, le_of_lt (lt_add_one _)⟩
        obtain ⟨hsound, hmore⟩ := @ih ((times.take limit).dropWhile (· < s.candidate))
          (s.visit free)
          hvisit hmetric (hstart.trans hcontinues.candidate) (by
            show s.candidate + 1 + distance ≤ stop
            push_cast at hdistance
            omega) (dropWhile_dropWhile_lt _ (le_of_lt (lt_add_one s.candidate)))
        exact ⟨hsound, hcontinues.trans hmore⟩
      · rw [if_neg hpending]
        exact ⟨hs, .refl s⟩

lemma le_scanLoop (full : Bool) (distance : ℕ) (positions : List ℤ) (s : Allocation) :
    s.candidate ≤ (scanLoop full distance positions s).candidate := by
  induction distance generalizing positions s with
  | zero => exact le_rfl
  | succ distance ih =>
      rw [scanLoop]
      simp only
      split_ifs
      · exact le_rfl
      · exact (le_of_lt (lt_add_one s.candidate)).trans (ih _ _)
      · exact le_rfl

/-- **A page moves on**: a page that may have been cut has rows. -/
lemma scanLoop_progress {full : Bool} {distance : ℕ} {positions : List ℤ} {s : Allocation}
    (hpending : s.Pending) (hknown : ¬ (positions.dropWhile (· < s.candidate) = [] ∧ full = true)) :
    s.candidate < (scanLoop full (distance + 1) positions s).candidate := by
  rw [scanLoop, if_pos hpending]
  simp only [if_neg hknown]
  exact lt_of_lt_of_le (lt_add_one s.candidate) (le_scanLoop _ _ _ _)

end Scan

lemma bound_le (s : Allocation) (hlimit : s.candidate ≤ maxInt64) :
    s.candidate ≤ s.bound ∧ s.bound ≤ maxInt64 := by
  simp only [Allocation.bound]
  split_ifs <;> omega

lemma lt_bound {s : Allocation} (hlimit : s.candidate < maxInt64) : s.candidate < s.bound := by
  simp only [Allocation.bound]
  split_ifs <;> omega

/-- What a round does for one metric. -/
structure Allocation.Round (db : Tables) (s s' : Allocation) : Prop where
  sound : s'.Sound db
  continues : s.Continues s'
  pending : s'.Pending → s.Pending ∧ s.candidate < s'.candidate

/-- One page, for one metric. -/
lemma takePage_round {db : Tables} {limit : ℕ} (hlimit : 0 < limit) {s s' : Allocation}
    (hs : s.Sound db) (h : takePage db limit s = .ok s') : s.Round db s' := by
  unfold takePage at h
  by_cases hpending : s.Pending
  · rw [if_pos hpending] at h
    obtain ⟨hle, hmax⟩ := bound_le s hs.limit
    generalize htimes : storedTimes db s.metric s.candidate s.bound = times at h
    have hdistance : s.candidate + ((s.bound - s.candidate).toNat : ℕ) ≤ s.bound := by omega
    obtain ⟨hsound, hcontinues⟩ := @scanLoop_sound db times limit s.candidate s.bound s.metric hmax
      htimes.symm _ (times.take limit) s hs rfl le_rfl hdistance rfl
    simp only at h
    split_ifs at h with hexhausted
    obtain rfl := Except.ok.inj h
    refine ⟨hsound, hcontinues, fun hmore => ⟨hpending, ?_⟩⟩
    have hlt : s.candidate < maxInt64 := by
      have hnot : ¬ maxInt64 ≤ _ := fun hc => hexhausted ⟨hmore, hc⟩
      exact lt_of_le_of_lt hcontinues.candidate (not_le.mp hnot)
    obtain ⟨distance, hd⟩ : ∃ distance, (s.bound - s.candidate).toNat = distance + 1 := by
      have := lt_bound hlt
      exact ⟨(s.bound - s.candidate).toNat - 1, by omega⟩
    rw [hd]
    refine scanLoop_progress hpending ?_
    rintro ⟨hnil, hfull⟩
    have hkeep : ∀ t ∈ times.take limit, ¬ t < s.candidate := by
      intro t ht
      rw [← htimes] at ht
      exact not_lt.mpr (mem_storedTimes.mp (List.mem_of_mem_take ht)).2.1
    have hnil : times.take limit = [] := by
      cases hpage : times.take limit with
      | nil => rfl
      | cons t rest =>
          rw [hpage, List.dropWhile_cons_of_neg (by simpa using hkeep t (by simp [hpage]))] at hnil
          cases hnil
    have hlen : (times.take limit).length = limit := by simpa using hfull
    rw [hnil] at hlen
    simp at hlen
    omega
  · rw [if_neg hpending] at h
    obtain rfl := Except.ok.inj h
    exact ⟨hs, .refl s, fun hp => absurd hp hpending⟩

/-! ## All metrics

A round reads a page for every metric that is still pending; each allocation depends on its own page
alone. -/

lemma forall₂_of_mapM_ok {α β : Type} {f : α → Except Bytes β} {l : List α} {l' : List β}
    (h : l.mapM f = .ok l') : List.Forall₂ (fun a b => f a = .ok b) l l' := by
  induction l generalizing l' with
  | nil =>
      obtain rfl : [] = l' := Except.ok.inj h
      exact .nil
  | cons a l ih =>
      rw [List.mapM_cons] at h
      obtain ⟨b, hb, h⟩ := bind_eq_ok_iff.mp h
      obtain ⟨bs, hbs, h⟩ := bind_eq_ok_iff.mp h
      obtain rfl := Except.ok.inj h
      exact .cons hb (ih hbs)

section Pairs

variable {α β γ : Type} {R : α → β → Prop} {S : β → γ → Prop} {T : α → γ → Prop}

lemma forall₂_exists_left {l : List α} {l' : List β} (h : List.Forall₂ R l l') :
    ∀ b ∈ l', ∃ a ∈ l, R a b := by
  induction h with
  | nil => simp
  | cons hab _ ih =>
      intro b hb
      rcases List.mem_cons.mp hb with rfl | hb
      · exact ⟨_, List.mem_cons_self, hab⟩
      · obtain ⟨a, ha, hR⟩ := ih b hb
        exact ⟨a, List.mem_cons_of_mem _ ha, hR⟩

lemma forall₂_exists_right {l : List α} {l' : List β} (h : List.Forall₂ R l l') :
    ∀ a ∈ l, ∃ b ∈ l', R a b := by
  induction h with
  | nil => simp
  | cons hab _ ih =>
      intro a ha
      rcases List.mem_cons.mp ha with rfl | ha
      · exact ⟨_, List.mem_cons_self, hab⟩
      · obtain ⟨b, hb, hR⟩ := ih a ha
        exact ⟨b, List.mem_cons_of_mem _ hb, hR⟩

lemma forall₂_comp (hT : ∀ a b c, R a b → S b c → T a c) {l : List α} {l' : List β} {l'' : List γ}
    (h : List.Forall₂ R l l') (h' : List.Forall₂ S l' l'') : List.Forall₂ T l l'' := by
  induction h generalizing l'' with
  | nil =>
      cases h'
      exact .nil
  | cons hab _ ih =>
      cases h' with
      | cons hbc htail => exact .cons (hT _ _ _ hab hbc) (ih htail)

end Pairs

lemma sharedLimit_pos (n : ℕ) : 0 < sharedLimit n := by
  unfold sharedLimit
  omega

/-- **The loop over the pages ends.**  Every round moves each metric that still waits. -/
lemma pageLoop_ends {db : Tables} (faults : Faults) {fuel page : ℕ} {states : List Allocation}
    (hs : ∀ s ∈ states, s.Sound db)
    (hfuel : ∀ s ∈ states, s.Pending → maxInt64 - s.candidate < fuel) :
    (∃ err, pageLoop db faults fuel page states = some (.error err)) ∨
      ∃ states', pageLoop db faults fuel page states = some (.ok states') ∧
        List.Forall₂ (fun s s' => s'.Sound db ∧ s.Continues s' ∧ ¬ s'.Pending) states states' := by
  have hdone : ∀ {states : List Allocation}, (∀ s ∈ states, s.Sound db) →
      (¬ ∃ s ∈ states, s.Pending) →
      List.Forall₂ (fun s s' => s'.Sound db ∧ s.Continues s' ∧ ¬ s'.Pending) states states := by
    intro states hs hnone
    exact List.forall₂_same.mpr fun s hmem => ⟨hs s hmem, .refl s, fun hp => hnone ⟨s, hmem, hp⟩⟩
  induction fuel generalizing page states with
  | zero =>
      have hnone : ¬ ∃ s ∈ states, s.Pending := by
        rintro ⟨s, hmem, hp⟩
        have hlt := hfuel s hmem hp
        have hle := (hs s hmem).limit
        simp only [Nat.cast_zero] at hlt
        omega
      rw [pageLoop, if_neg hnone]
      exact .inr ⟨states, rfl, hdone hs hnone⟩
  | succ fuel ih =>
      rw [pageLoop]
      by_cases hsome : ∃ s ∈ states, s.Pending
      · rw [if_pos hsome]
        cases hfault : faults.page page with
        | some err => exact .inl ⟨err, rfl⟩
        | none =>
            cases hround : states.mapM (takePage db (sharedLimit (states.countP (·.Pending)))) with
            | error err => exact .inl ⟨err, rfl⟩
            | ok states' =>
                have hrounds : List.Forall₂ (fun s s' => s.Round db s') states states' :=
                  ((List.forall₂_and_left _ _).mpr ⟨hs, forall₂_of_mapM_ok hround⟩).imp
                    fun s s' h => takePage_round (sharedLimit_pos _) h.1 h.2
                have hs' : ∀ s' ∈ states', s'.Sound db := by
                  intro s' hmem
                  obtain ⟨s, -, hr⟩ := forall₂_exists_left hrounds s' hmem
                  exact hr.sound
                have hfuel' : ∀ s' ∈ states', s'.Pending → maxInt64 - s'.candidate < fuel := by
                  intro s' hmem hp
                  obtain ⟨s, hsmem, hr⟩ := forall₂_exists_left hrounds s' hmem
                  obtain ⟨hps, hlt⟩ := hr.pending hp
                  have := hfuel s hsmem hps
                  push_cast at this
                  omega
                rcases @ih (page + 1) states' hs' hfuel' with ⟨err, herr⟩ | ⟨states'', hok, hpairs⟩
                · exact .inl ⟨err, herr⟩
                · refine .inr ⟨states'', hok, forall₂_comp ?_ hrounds hpairs⟩
                  intro s s' s'' hr h
                  exact ⟨h.1, hr.continues.trans h.2.1, h.2.2⟩
      · rw [if_neg hsome]
        exact .inr ⟨states, rfl, hdone hs hsome⟩

/-- Where a search starts. -/
lemma startAllocation_sound {db : Tables} {next : Bytes → Int64} {reserved : Bytes → Finset ℤ}
    {metric : Bytes} {count : ℕ} {s : Allocation}
    (h : startAllocation db next reserved metric count = .ok s) :
    s.Sound db ∧ s.metric = metric ∧ s.count = count ∧ s.reserved = reserved metric := by
  have hnext := Int64.toInt_lt (next metric)
  simp only [startAllocation] at h
  split_ifs at h with hlast hle hpos hpos
  · obtain rfl := Except.ok.inj h
    refine ⟨⟨.nil, by simp, by simp, by simp, Nat.zero_le _, ?_, ?_, ?_⟩, rfl, rfl, rfl⟩
    · exact lt_add_one _
    · exact not_le.mp hpos
    · show metricClock db metric + 1 ≤ maxInt64
      omega
  · obtain rfl := Except.ok.inj h
    refine ⟨⟨.nil, by simp, by simp, by simp, Nat.zero_le _, ?_, ?_, ?_⟩, rfl, rfl, rfl⟩
    · exact not_le.mp hle
    · exact not_le.mp hpos
    · show (next metric).toInt ≤ maxInt64
      unfold maxInt64
      omega

/-- Timestamps nobody else has, behind the clock. -/
structure FreshTimes (db : Tables) (reserved : Finset ℤ) (metric : Bytes) (count : ℕ)
    (times : List ℤ) : Prop where
  length : times.length = count
  increasing : times.Pairwise (· < ·)
  above : ∀ t ∈ times, 0 < t ∧ metricClock db metric < t
  below : ∀ t ∈ times, t < maxInt64
  notStored : ∀ t ∈ times, db.events.get? (toLex (encodeString metric, t)) = none
  notReserved : ∀ t ∈ times, t ∉ reserved

lemma Allocation.Sound.freshTimes {db : Tables} {s : Allocation} (h : s.Sound db)
    (hdone : ¬ s.Pending) : FreshTimes db s.reserved s.metric s.count s.allocated where
  length := le_antisymm h.length (not_lt.mp hdone)
  increasing := h.increasing
  above := h.above
  below t ht := lt_of_lt_of_le (h.below t ht) h.limit
  notStored t ht := (h.free t ht).1
  notReserved t ht := (h.free t ht).2

/-- What an answer of the allocator means for the tables `db` it started with. -/
def AllocationAnswer (db : Tables) (counts : OrdMap Bytes ℕ) (reserved : Bytes → Finset ℤ) :
    Except Bytes (OrdMap Bytes (List ℤ)) × Tables → Prop
  | (.error _, db') => db' = db
  | (.ok allocated, db') =>
      (∀ metric count, counts.get? metric = some count → 0 < count → ∃ times,
        allocated.get? metric = some times ∧ FreshTimes db (reserved metric) metric count times ∧
          db'.metricClock.get? (encodeString metric) = times.getLast?) ∧
      (∀ metric times, allocated.get? metric = some times → ∃ count,
        counts.get? metric = some count ∧
        0 < count) ∧
      (∀ name, (∀ metric, allocated.get? metric ≠ none → name ≠ encodeString metric) →
        db'.metricClock.get? name = db.metricClock.get? name) ∧
      db' = { db with metricClock := db'.metricClock }

lemma mem_requested {counts : OrdMap Bytes ℕ} {metric : Bytes} {count : ℕ} :
    (metric, count) ∈ requested counts ↔ counts.get? metric = some count ∧ 0 < count := by
  simp [requested, OrdMap.mem_entries_iff]

lemma requested_nodup (counts : OrdMap Bytes ℕ) : ((requested counts).map Prod.fst).Nodup := by
  have hsorted : (requested counts).Pairwise fun a b => a.1 < b.1 := counts.sorted.filter _
  rw [List.Nodup, List.pairwise_map]
  exact hsorted.imp fun h => h.ne

/-- A finished search for a request. -/
structure Allocation.Serves (db : Tables) (reserved : Bytes → Finset ℤ) (request : Bytes × ℕ)
    (s : Allocation) : Prop where
  metric : s.metric = request.1
  times : FreshTimes db (reserved request.1) request.1 request.2 s.allocated

section Served

variable {db : Tables} {counts : OrdMap Bytes ℕ} {reserved : Bytes → Finset ℤ}
    {states : List Allocation}
  (h : List.Forall₂ (Allocation.Serves db reserved) (requested counts) states)

include h

lemma served_metrics : states.map (·.metric) = (requested counts).map Prod.fst := by
  have heq : List.Forall₂ (· = ·) (states.map (·.metric)) ((requested counts).map Prod.fst) := by
    rw [List.forall₂_map_left_iff, List.forall₂_map_right_iff]
    exact (h.imp fun e s hserve => hserve.metric).flip
  rwa [List.forall₂_eq_eq_eq] at heq

lemma clockRows_nodup :
    ((states.map fun s => (encodeString s.metric, s.allocated.getLast?.getD 0)).map
      Prod.fst).Nodup := by
  rw [List.map_map]
  have hcomp := (served_metrics h ▸ requested_nodup counts).map encodeString_injective
  rwa [List.map_map] at hcomp

end Served

/-- What is written when all searches are finished. -/
lemma allocationAnswer_of_serves {db : Tables} {counts : OrdMap Bytes ℕ}
    {reserved : Bytes → Finset ℤ}
    {states : List Allocation}
    (h : List.Forall₂ (Allocation.Serves db reserved) (requested counts) states) :
    AllocationAnswer db counts reserved
      (.ok ((∅ : OrdMap Bytes (List ℤ)).setRows (states.map fun s => (s.metric, s.allocated))),
        writeClocks db states) := by
  have hnodup : ((states.map fun s => (s.metric, s.allocated)).map Prod.fst).Nodup := by
    rw [List.map_map]
    exact served_metrics h ▸ requested_nodup counts
  have hclocks := clockRows_nodup h
  have hallocated : ∀ {metric times},
      ((∅ : OrdMap Bytes (List ℤ)).setRows (states.map fun s =>
        (s.metric, s.allocated))).get? metric =
        some times ↔ ∃ s ∈ states, s.metric = metric ∧ s.allocated = times := by
    intro metric times
    rw [OrdMap.get?_setRows_iff hnodup]
    simp
  refine ⟨?_, ?_, ?_, rfl⟩
  · intro metric count hcount hpos
    obtain ⟨s, hs, hserve⟩ := forall₂_exists_right h (metric, count)
      (mem_requested.mpr ⟨hcount, hpos⟩)
    refine ⟨s.allocated, hallocated.mpr ⟨s, hs, hserve.metric, rfl⟩, hserve.times, ?_⟩
    have hne : s.allocated ≠ [] := by
      have hlen := hserve.times.length
      rintro hnil
      rw [hnil] at hlen
      simp at hlen
      omega
    rw [List.getLast?_eq_some_getLast hne]
    refine (OrdMap.get?_setRows_iff hclocks _ _ _).mpr (.inl (List.mem_map.mpr ⟨s, hs, ?_⟩))
    rw [hserve.metric, List.getLast?_eq_some_getLast hne]
    rfl
  · intro metric times htimes
    obtain ⟨s, hs, rfl, rfl⟩ := hallocated.mp htimes
    obtain ⟨e, he, hserve⟩ := forall₂_exists_left h s hs
    exact ⟨e.2, hserve.metric ▸ mem_requested.mp he⟩
  · intro name hname
    show (db.metricClock.setRows _).get? name = _
    rw [OrdMap.get?_setRows, List.find?_eq_none.mpr, Option.map_none, Option.none_or]
    intro row hrow
    obtain ⟨s, hs, rfl⟩ := List.mem_map.mp (List.mem_reverse.mp hrow)
    have hne := hname s.metric (by rw [hallocated.mpr ⟨s, hs, rfl, rfl⟩]; simp)
    simpa using Ne.symm hne

/-- Nothing was asked for. -/
lemma allocationAnswer_nil {db : Tables} {counts : OrdMap Bytes ℕ} {reserved : Bytes → Finset ℤ}
    (hnone : requested counts = []) : AllocationAnswer db counts reserved (.ok ∅, db) := by
  refine ⟨?_, by simp, fun _ _ => rfl, rfl⟩
  intro metric count hcount hpos
  have hmem := mem_requested.mpr ⟨hcount, hpos⟩
  simp [hnone] at hmem

/-- The search for all metrics ends, with an error or with what was asked for. -/
lemma pageLoop_serves {db : Tables} (faults : Faults) {next : Bytes → Int64}
    {counts : OrdMap Bytes ℕ}
    {reserved : Bytes → Finset ℤ} {fuel : ℕ} (hfuel : 2 ^ 63 ≤ fuel) {states : List Allocation}
    (hstart : ((requested counts).mapM fun e =>
      startAllocation db next reserved e.1 e.2) = .ok states) :
    (∃ err, pageLoop db faults fuel 0 states = some (.error err)) ∨
      ∃ states', pageLoop db faults fuel 0 states = some (.ok states') ∧
        List.Forall₂ (Allocation.Serves db reserved) (requested counts) states' := by
  have hpairs := (forall₂_of_mapM_ok hstart).imp fun e s h => startAllocation_sound h
  have hs : ∀ s ∈ states, s.Sound db := by
    intro s hmem
    obtain ⟨e, -, he⟩ := forall₂_exists_left hpairs s hmem
    exact he.1
  have henough : ∀ s ∈ states, s.Pending → maxInt64 - s.candidate < fuel := by
    intro s hmem _
    have hpos := (hs s hmem).positive
    unfold maxInt64
    omega
  refine (@pageLoop_ends db faults fuel 0 states hs henough).imp_right ?_
  rintro ⟨states', hok, hdone⟩
  refine ⟨states', hok, forall₂_comp ?_ hpairs hdone⟩
  rintro e s s' ⟨-, hmetric, hcount, hreserved⟩ ⟨hsound, hcontinues, hpending⟩
  refine ⟨hcontinues.metric.trans hmetric, ?_⟩
  have hfresh := hsound.freshTimes hpending
  rwa [hcontinues.reserved, hcontinues.metric, hcontinues.count, hreserved, hmetric,
    hcount] at hfresh

/-- **Automatic timestamps never overwrite.**  Whatever is stored, reserved and asked for, and
whatever the clocks and the database do, the allocator ends, with fresh timestamps or without
writing a clock. -/
theorem allocate_fresh (faults : Faults) (next : Bytes → Int64) (counts : OrdMap Bytes ℕ)
    (reserved : Bytes → Finset ℤ) (db : Tables) {fuel : ℕ} (hfuel : 2 ^ 63 ≤ fuel) :
    ∃ answer, allocateBatchTimestamps faults next counts reserved fuel db = some answer ∧
      AllocationAnswer db counts reserved answer := by
  unfold allocateBatchTimestamps
  by_cases hnone : requested counts = []
  · rw [if_pos hnone]
    exact ⟨_, rfl, allocationAnswer_nil hnone⟩
  rw [if_neg hnone]
  cases faults.clocks with
  | some err => exact ⟨_, rfl, rfl⟩
  | none =>
      cases hstart : (requested counts).mapM fun e => startAllocation db next reserved e.1 e.2 with
      | error err => exact ⟨_, rfl, rfl⟩
      | ok states =>
          rcases pageLoop_serves faults hfuel hstart with ⟨err, herr⟩ | ⟨states', hok, hserves⟩
          · exact ⟨(.error err, db), by simp only [herr], rfl⟩
          · cases hupdate : faults.update with
            | some err => exact ⟨(.error err, db), by simp only [hok], rfl⟩
            | none => exact ⟨_, by simp only [hok], allocationAnswer_of_serves hserves⟩

/-- A metric with an event at 6. -/
def sixTables : Tables :=
  { events := (∅ : OrdMap (Bytes ×ₗ ℤ) EventRow).set (eventRowKey (bs "hits") 6)
      ⟨Float64.zero, ∅⟩ }

/-- Three timestamps of the metric, in a batch that writes to 8. -/
theorem allocate_fresh_three :
    ∃ answer, allocateBatchTimestamps {} (fun _ => 5) ((∅ : OrdMap Bytes ℕ).set (bs "hits") 3)
        (fun _ => {8}) (2 ^ 63) sixTables = some answer ∧
      AllocationAnswer sixTables ((∅ : OrdMap Bytes ℕ).set (bs "hits") 3) (fun _ => {8}) answer :=
  allocate_fresh {} (fun _ => 5) _ _ _ le_rfl

example :
    (allocateBatchTimestamps {} (fun _ => 5) ((∅ : OrdMap Bytes ℕ).set (bs "hits") 3)
      (fun _ => {8}) 1 sixTables).map (fun r => r.2.metricClock.entries) =
      some [(encodeString (bs "hits"), 9)] := by decide +kernel

end FlameDB.Analytics
