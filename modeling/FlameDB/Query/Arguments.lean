import FlameDB.Query.Parser

/-!
# Reading arguments

What the argument loops of all commands have in common, stated once for a table of `Arg`s:

* `readArgs_invariant` — a property that every entry of the table keeps holds of the result;
* `readArgs_simulation` — two tables whose entries correspond read the same tokens, with results
  that correspond;
* `loop_argStep_append` — tokens appended to the arguments are read after them, unless the first
  of them continues a `WHERE` clause.
-/

namespace FlameDB

open Go KV

/-- The first of the tokens is not an `AND`. -/
def NotAnd (extra : List Bytes) : Prop := ∀ a ∈ extra.head?, ∀ fold, isAnd fold a = false

instance (extra : List Bytes) : Decidable (NotAnd extra) :=
  inferInstanceAs (Decidable (∀ a ∈ extra.head?, _))

lemma notAnd_cons {a : Bytes} (h : ∀ fold, isAnd fold a = false) (rest : List Bytes) :
    NotAnd (a :: rest) := by
  intro b hb
  obtain rfl : a = b := by simpa using hb
  exact h

/-! ## One argument

A reader consumes tokens from the front; what it returns depends on nothing behind them. -/

/-- A filter ends where no AND follows, whatever comes behind it. -/
lemma whereLoop_spec {fold : Bool} {incomplete : Bytes} {noEq : Bytes → Bytes} {w w' : Tags}
    {ts rest : List Bytes} (h : whereLoop fold incomplete noEq w ts = .ok (w', rest)) :
    rest.length ≤ ts.length ∧ ∀ extra, NotAnd extra →
      whereLoop fold incomplete noEq w (ts ++ extra) = .ok (w', rest ++ extra) := by
  fun_induction whereLoop fold incomplete noEq w ts with
  | case1 w key eq value rest₀ heq => simp at h
  | case2 w key eq value heq =>
      obtain ⟨rfl, rfl⟩ : w.set key (tokenValue value) = w' ∧ [] = rest := by simpa using h
      refine ⟨by simp, fun extra hextra => ?_⟩
      cases extra with
      | nil => simp [whereLoop, heq]
      | cons a extra =>
          have ha : isAnd fold a = false := hextra a (by simp) fold
          simp [whereLoop, heq, ha]
  | case3 w key eq value heq and rest₀ hand ih =>
      obtain ⟨hlen, hext⟩ := ih h
      refine ⟨by simp; omega, fun extra hextra => ?_⟩
      simp only [List.cons_append, whereLoop, heq, hand, if_true, if_false]
      exact hext extra hextra
  | case4 w key eq value heq and rest₀ hand =>
      obtain ⟨rfl, rfl⟩ : w.set key (tokenValue value) = w' ∧ and :: rest₀ = rest := by
        simpa using h
      refine ⟨by simp, fun extra _ => ?_⟩
      simp [whereLoop, heq, hand]
  | case5 => simp at h

lemma do_some_eq_ok_iff {x : Except Bytes Query} {rest r : List Bytes} {q : Query} :
    (do return some (← x, rest) : Except Bytes (Option (Query × List Bytes))) = .ok (some (q, r)) ↔
      x = .ok q ∧ rest = r := by
  cases x <;> simp [bind, Except.bind, pure, Except.pure]

lemma do_some_ne_none {x : Except Bytes Query} {rest : List Bytes} :
    (do return some (← x, rest) : Except Bytes (Option (Query × List Bytes))) ≠ .ok none := by
  cases x <;> simp [bind, Except.bind, pure, Except.pure]

namespace Arg

/-- Every query the argument can lead to has the property. -/
def Yields (P : Query → Prop) : Arg → Prop
  | .flag q => P q
  | .value _ f => ∀ v q, f v = .ok q → P q
  | .groupBy f => ∀ v q, f v = .ok q → P q
  | .clauses _ _ _ _ f => ∀ w, P (f w)
  | .assign _ _ f => ∀ v q, f v = .ok q → P q
  | .fail _ => True

/-- The second argument does what the first one does, with corresponding results. -/
def Corresponds (R : Query → Query → Prop) : Arg → Arg → Prop
  | .flag q, .flag p => R q p
  | .value _ f, .value _ g => ∀ v q, f v = .ok q → ∃ p, g v = .ok p ∧ R q p
  | .groupBy f, .groupBy g => ∀ v q, f v = .ok q → ∃ p, g v = .ok p ∧ R q p
  | .clauses fold w i n f, .clauses fold' w' i' n' g =>
      fold = fold' ∧ w = w' ∧ i = i' ∧ n = n' ∧ ∀ w, R (f w) (g w)
  | .assign _ n f, .assign _ n' g => n = n' ∧ ∀ v q, f v = .ok q → ∃ p, g v = .ok p ∧ R q p
  | .fail _, _ => True
  | _, _ => False

/-- The argument never breaks out of the loop. -/
def Goes : Arg → Prop
  | .assign _ none _ => False
  | _ => True

/-- A round that goes on, case by case. -/
inductive Reads : Arg → List Bytes → Query → List Bytes → Prop where
  | flag (q : Query) (r : List Bytes) : Reads (.flag q) r q r
  | value {missing v : Bytes} {f : Bytes → Except Bytes Query} {q : Query} {r : List Bytes}
      (h : f v = .ok q) : Reads (.value missing f) (v :: r) q r
  | groupBy {b v : Bytes} {f : Bytes → Except Bytes Query} {q : Query} {r : List Bytes}
      (hb : toUpper b = bs "BY") (h : f v = .ok q) : Reads (.groupBy f) (b :: v :: r) q r
  | clauses {fold : Bool} {w w' : Tags} {i : Bytes} {n : Bytes → Bytes} {f : Tags → Query}
      {rest r : List Bytes} (h : whereLoop fold i n w rest = .ok (w', r)) :
      Reads (.clauses fold w i n f) rest (f w') r
  | assign {i v : Bytes} {n : Option Bytes} {f : Bytes → Except Bytes Query} {q : Query}
      {r : List Bytes} (h : f (tokenValue v) = .ok q) :
      Reads (.assign i n f) (bs "=" :: v :: r) q r

/-- The table entry, case by case. -/
lemma reads_of_read {a : Arg} {rest r : List Bytes} {q : Query}
    (h : a.read rest = .ok (some (q, r))) : Reads a rest q r := by
  cases a with
  | flag q₀ =>
      obtain ⟨rfl, rfl⟩ : q₀ = q ∧ rest = r := by simpa [read] using h
      exact .flag q₀ rest
  | value missing f =>
      cases rest with
      | nil => simp [read] at h
      | cons v rest =>
          obtain ⟨hf, rfl⟩ := do_some_eq_ok_iff.mp h
          exact .value hf
  | groupBy f =>
      rcases rest with _ | ⟨b, _ | ⟨v, rest⟩⟩
      · simp [read] at h
      · simp only [read] at h
        split_ifs at h
      · simp only [read] at h
        split_ifs at h with hb
        obtain ⟨hf, rfl⟩ := do_some_eq_ok_iff.mp h
        exact .groupBy (not_not.mp hb) hf
  | clauses fold w i n f =>
      simp only [read] at h
      cases hw : whereLoop fold i n w rest with
      | error e => simp [hw, bind, Except.bind] at h
      | ok p =>
          obtain ⟨rfl, rfl⟩ : f p.1 = q ∧ p.2 = r := by
            simpa [hw, bind, Except.bind, pure, Except.pure] using h
          exact .clauses hw
  | assign i n f =>
      rcases rest with _ | ⟨eq, _ | ⟨v, rest⟩⟩
      · simp [read] at h
      · simp [read] at h
      · simp only [read] at h
        split_ifs at h with heq
        · subst heq
          obtain ⟨hf, rfl⟩ := do_some_eq_ok_iff.mp h
          exact .assign hf
        · cases n <;> simp at h
  | fail msg => simp [read] at h

lemma Reads.read {a : Arg} {rest r : List Bytes} {q : Query} (h : Reads a rest q r) :
    a.read rest = .ok (some (q, r)) := by
  cases h with
  | flag => rfl
  | value h => exact do_some_eq_ok_iff.mpr ⟨h, rfl⟩
  | groupBy hb h =>
      simp only [Arg.read, hb, ne_eq, not_true_eq_false, if_false]
      exact do_some_eq_ok_iff.mpr ⟨h, rfl⟩
  | clauses h =>
      simp only [Arg.read, h]
      rfl
  | assign h =>
      simp only [Arg.read, if_true]
      exact do_some_eq_ok_iff.mpr ⟨h, rfl⟩

/-- A `break`: only at `key` followed by two tokens of which the first is not `=`. -/
lemma read_eq_none_iff {a : Arg} {rest : List Bytes} :
    a.read rest = .ok none ↔
      ∃ i f eq v r, a = .assign i none f ∧ rest = eq :: v :: r ∧ eq ≠ bs "=" := by
  constructor
  · intro h
    cases a with
    | flag q₀ => simp [read] at h
    | value missing f =>
        cases rest with
        | nil => simp [read] at h
        | cons v rest => exact absurd h do_some_ne_none
    | groupBy f =>
        rcases rest with _ | ⟨b, _ | ⟨v, rest⟩⟩ <;> simp only [read] at h
        · simp at h
        · split_ifs at h
        · split_ifs at h
          exact absurd h do_some_ne_none
    | clauses fold w i n f =>
        simp only [read] at h
        cases hw : whereLoop fold i n w rest <;>
          simp [hw, bind, Except.bind, pure, Except.pure] at h
    | assign i n f =>
        rcases rest with _ | ⟨eq, _ | ⟨v, rest⟩⟩ <;> simp only [read] at h
        · simp at h
        · simp at h
        · split_ifs at h with heq
          · exact absurd h do_some_ne_none
          · cases n with
            | none => exact ⟨i, f, eq, v, rest, rfl, rfl, heq⟩
            | some msg => simp at h
    | fail msg => simp [read] at h
  · rintro ⟨i, f, eq, v, r, rfl, rfl, heq⟩
    simp [read, heq]

lemma Reads.yields {P : Query → Prop} {a : Arg} {rest r : List Bytes} {q : Query}
    (h : Reads a rest q r) (ha : a.Yields P) : P q := by
  cases h with
  | flag => exact ha
  | value h => exact ha _ _ h
  | groupBy _ h => exact ha _ _ h
  | clauses h => exact ha _
  | assign h => exact ha _ _ h

lemma Reads.length {a : Arg} {rest r : List Bytes} {q : Query} (h : Reads a rest q r) :
    r.length ≤ rest.length := by
  cases h with
  | flag => exact le_rfl
  | value h => simp
  | groupBy _ h => simp only [List.length_cons]; omega
  | clauses h => exact (whereLoop_spec h).1
  | assign h => simp only [List.length_cons]; omega

lemma Reads.append {a : Arg} {rest r extra : List Bytes} {q : Query} (hextra : NotAnd extra)
    (h : Reads a rest q r) : Reads a (rest ++ extra) q (r ++ extra) := by
  cases h with
  | flag => exact .flag q _
  | value h => exact .value h
  | groupBy hb h => exact .groupBy hb h
  | clauses h => exact .clauses ((whereLoop_spec h).2 extra hextra)
  | assign h => exact .assign h

/-- Entries that correspond read the same tokens. -/
lemma Reads.corresponds {R : Query → Query → Prop} {a b : Arg} (hab : Corresponds R a b)
    {rest r : List Bytes} {q : Query} (h : Reads a rest q r) : ∃ p, Reads b rest p r ∧ R q p := by
  cases h with
  | flag =>
      cases b <;> try exact hab.elim
      exact ⟨_, .flag _ _, hab⟩
  | value h =>
      cases b <;> try exact hab.elim
      obtain ⟨p, hp, hR⟩ := hab _ _ h
      exact ⟨p, .value hp, hR⟩
  | groupBy hb h =>
      cases b <;> try exact hab.elim
      obtain ⟨p, hp, hR⟩ := hab _ _ h
      exact ⟨p, .groupBy hb hp, hR⟩
  | clauses h =>
      cases b <;> try exact hab.elim
      obtain ⟨rfl, rfl, rfl, rfl, hR⟩ := hab
      exact ⟨_, .clauses h, hR _⟩
  | assign h =>
      cases b <;> try exact hab.elim
      obtain ⟨p, hp, hR⟩ := hab.2 _ _ h
      exact ⟨p, .assign hp, hR⟩

lemma breaks_of_corresponds {R : Query → Query → Prop} {a b : Arg} (hab : Corresponds R a b)
    {rest : List Bytes} (h : a.read rest = .ok none) : b.read rest = .ok none := by
  obtain ⟨i, f, eq, v, r, rfl, rfl, heq⟩ := read_eq_none_iff.mp h
  cases b <;> try exact hab.elim
  obtain ⟨rfl, -⟩ := hab
  exact read_eq_none_iff.mpr ⟨_, _, eq, v, r, rfl, rfl, heq⟩

end Arg

/-! ## The loop over a table -/

section Table

variable {table : Query → Bytes → Arg}

lemma argStep_consumes : ArgLoop.Consumes (argStep table) := by
  intro q ts q' rest h
  cases ts with
  | nil => simp [argStep] at h
  | cons key ts => exact Nat.lt_succ_of_le (Arg.reads_of_read h).length

lemma argStep_extends {extra : List Bytes} (hextra : NotAnd extra) :
    ArgLoop.Extends (argStep table) extra where
  consumes := argStep_consumes
  next q key ts q' rest h := ((Arg.reads_of_read h).append hextra).read
  stop q key ts h := by
    obtain ⟨i, f, eq, v, r, ha, rfl, heq⟩ := Arg.read_eq_none_iff.mp h
    exact Arg.read_eq_none_iff.mpr ⟨i, f, eq, v, r ++ extra, ha, rfl, heq⟩

lemma readArgs_eq_ok_iff {q q' : Query} {args : List Bytes} :
    readArgs table q args = .ok q' ↔
      ∃ left, ArgLoop.loop (argStep table) q args = .ok (q', left) := by
  unfold readArgs
  cases ArgLoop.loop (argStep table) q args with
  | error e => simp [bind, Except.bind]
  | ok p =>
      obtain ⟨q₁, left⟩ := p
      simp [bind, Except.bind, pure, Except.pure]

/-- One round of an argument loop. -/
lemma readArgs_cons (table : Query → Bytes → Arg) (q : Query) (key : Bytes) (rest : List Bytes) :
    readArgs table q (key :: rest) =
      match (table q key).read rest with
      | .error e => .error e
      | .ok none => .ok q
      | .ok (some (q', rest')) => readArgs table q' rest' := by
  unfold readArgs
  rw [ArgLoop.loop_cons argStep_consumes]
  simp only [argStep]
  cases (table q key).read rest with
  | error e => rfl
  | ok o => cases o <;> rfl

lemma loop_of_reads {q q' : Query} {key : Bytes} {rest rest' : List Bytes}
    (h : (table q key).Reads rest q' rest') :
    ArgLoop.loop (argStep table) q (key :: rest) = ArgLoop.loop (argStep table) q' rest' := by
  rw [ArgLoop.loop_cons argStep_consumes]
  simp only [argStep, h.read]

/-- The first argument, read; the rest follows. -/
lemma readArgs_of_reads {q q' : Query} {key : Bytes} {rest rest' : List Bytes}
    (h : (table q key).Reads rest q' rest') :
    readArgs table q (key :: rest) = readArgs table q' rest' := by
  unfold readArgs
  rw [loop_of_reads h]

/-- **Invariant rule** for a table. -/
theorem readArgs_invariant {P : Query → Prop} (htable : ∀ q key, P q → (table q key).Yields P)
    {q q' : Query} {args : List Bytes} (h : readArgs table q args = .ok q') (hq : P q) : P q' := by
  obtain ⟨left, hloop⟩ := readArgs_eq_ok_iff.mp h
  refine ArgLoop.loop_invariant argStep_consumes ?_ hloop hq
  intro q key ts q' rest hq hstep
  exact (Arg.reads_of_read hstep).yields (htable q key hq)

/-- A table whose entries all go on leaves no token unread. -/
lemma left_eq_nil (htable : ∀ q key, (table q key).Goes) {q q' : Query} {args left : List Bytes}
    (h : ArgLoop.loop (argStep table) q args = .ok (q', left)) : left = [] := by
  have hw := ArgLoop.walks_of_loop argStep_consumes h
  clear h
  induction hw with
  | nil q => rfl
  | @stop q key ts hs =>
      obtain ⟨i, f, _, _, _, ha, _⟩ := Arg.read_eq_none_iff.mp hs
      have := htable q key
      rw [ha] at this
      exact this.elim
  | next _ _ ih => exact ih

/-- **Appended tokens are read after the arguments.** -/
theorem loop_argStep_append {extra : List Bytes} (hextra : NotAnd extra) {q q' : Query}
    {args left : List Bytes} (h : ArgLoop.loop (argStep table) q args = .ok (q', left)) :
    ArgLoop.loop (argStep table) q (args ++ extra) =
      if left = [] then ArgLoop.loop (argStep table) q' extra else .ok (q', left ++ extra) :=
  ArgLoop.loop_append (argStep_extends hextra) h

lemma readArgs_append (htable : ∀ q key, (table q key).Goes) {extra : List Bytes}
    (hextra : NotAnd extra) {q q' : Query} {args : List Bytes}
      (h : readArgs table q args = .ok q') :
    readArgs table q (args ++ extra) = readArgs table q' extra := by
  obtain ⟨left, hloop⟩ := readArgs_eq_ok_iff.mp h
  have hleft := left_eq_nil htable hloop
  unfold readArgs
  rw [loop_argStep_append hextra hloop, if_pos hleft]

/-- **Two tables in lockstep** also break at the same token. -/
theorem loop_argStep_simulation {table' : Query → Bytes → Arg} {R : Query → Query → Prop}
    (htable : ∀ q p key, R q p → (table q key).Corresponds R (table' p key))
    {q q' p : Query} {args left : List Bytes}
    (h : ArgLoop.loop (argStep table) q args = .ok (q', left)) (hR : R q p) :
    ∃ p', ArgLoop.loop (argStep table') p args = .ok (p', left) ∧ R q' p' := by
  refine ArgLoop.loop_simulation argStep_consumes argStep_consumes ?_ ?_ h hR
  · intro q p key ts q' rest hR hstep
    obtain ⟨p', hp', hR'⟩ := (Arg.reads_of_read hstep).corresponds (htable q p key hR)
    exact ⟨p', hp'.read, hR'⟩
  · intro q p key ts hR hstep
    exact Arg.breaks_of_corresponds (htable q p key hR) hstep

lemma readArgs_simulation {table' : Query → Bytes → Arg} {R : Query → Query → Prop}
    (htable : ∀ q p key, R q p → (table q key).Corresponds R (table' p key))
    {q q' p : Query} {args : List Bytes} (h : readArgs table q args = .ok q') (hR : R q p) :
    ∃ p', readArgs table' p args = .ok p' ∧ R q' p' := by
  obtain ⟨left, hloop⟩ := readArgs_eq_ok_iff.mp h
  obtain ⟨p', hloop', hR'⟩ := loop_argStep_simulation htable hloop hR
  exact ⟨p', readArgs_eq_ok_iff.mpr ⟨left, hloop'⟩, hR'⟩

end Table

end FlameDB
