import Mathlib.Data.List.Basic
import Mathlib.Tactic.Common

/-!
# Argument loops

A command parser walks over its tokens with `for i < len(tokens)`: each round looks at the front,
updates its result and advances, or breaks out and leaves the rest unread.  `loop` is that walk
over any step function, together with the tokens a `break` left behind.

* `loop_append` — if no round of the walk looks past what it consumes, text appended to the
  arguments is read after them, or left unread behind an earlier `break`.
* `loop_invariant`, `loop_simulation` — the rules for one walk and for two walks in lockstep.
-/

namespace ArgLoop

variable {σ σ' τ ε : Type}

/-- One round: an error, `none` for a `break`, or the new result and the tokens left. -/
abbrev Step (σ τ ε : Type) := σ → List τ → Except ε (Option (σ × List τ))

/-- The walk, bounded by `fuel` rounds. -/
def run (step : Step σ τ ε) : (fuel : ℕ) → σ → List τ → Except ε (σ × List τ)
  | _, q, [] => .ok (q, [])
  | 0, q, ts => .ok (q, ts)
  | fuel + 1, q, t :: ts =>
      match step q (t :: ts) with
      | .error e => .error e
      | .ok none => .ok (q, t :: ts)
      | .ok (some (q', rest)) => run step fuel q' rest

/-- The walk over all tokens: the result and what a `break` left unread.  Every round consumes a
token, so the number of tokens bounds the rounds. -/
def loop (step : Step σ τ ε) (q : σ) (ts : List τ) : Except ε (σ × List τ) :=
  run step ts.length q ts

/-- The rounds of a walk from `q` over `ts` that ends with `q'` and leaves `left` unread. -/
inductive Walks (step : Step σ τ ε) : σ → List τ → σ → List τ → Prop where
  | nil (q : σ) : Walks step q [] q []
  | stop {q : σ} {t : τ} {ts : List τ} (h : step q (t :: ts) = .ok none) :
      Walks step q (t :: ts) q (t :: ts)
  | next {q q₁ q' : σ} {t : τ} {ts rest left : List τ}
      (h : step q (t :: ts) = .ok (some (q₁, rest))) (hrest : Walks step q₁ rest q' left) :
      Walks step q (t :: ts) q' left

/-- Every round that goes on consumes a token. -/
def Consumes (step : Step σ τ ε) : Prop :=
  ∀ q ts q' rest, step q ts = .ok (some (q', rest)) → rest.length < ts.length

section

variable {step : Step σ τ ε} (hc : Consumes step)

include hc

lemma run_congr {n m : ℕ} {ts : List τ} (hn : ts.length ≤ n) (hm : ts.length ≤ m) (q : σ) :
    run step n q ts = run step m q ts := by
  induction n generalizing m q ts with
  | zero =>
      obtain rfl := List.eq_nil_of_length_eq_zero (Nat.le_zero.mp hn)
      cases m <;> rfl
  | succ n ih =>
      cases ts with
      | nil => cases m <;> rfl
      | cons t ts =>
          obtain ⟨m, rfl⟩ : ∃ k, m = k + 1 := ⟨m - 1, by simp at hm; omega⟩
          simp only [run]
          cases hstep : step q (t :: ts) with
          | error e => rfl
          | ok o =>
              rcases o with _ | ⟨q', rest⟩
              · rfl
              · have hlt := hc _ _ _ _ hstep
                simp only [List.length_cons] at hlt hn hm
                exact ih (by omega) (by omega) q'

/-- One round of the walk. -/
lemma loop_cons (q : σ) (t : τ) (ts : List τ) :
    loop step q (t :: ts) =
      match step q (t :: ts) with
      | .error e => .error e
      | .ok none => .ok (q, t :: ts)
      | .ok (some (q', rest)) => loop step q' rest := by
  simp only [loop, List.length_cons, run]
  cases hstep : step q (t :: ts) with
  | error e => rfl
  | ok o =>
      rcases o with _ | ⟨q', rest⟩
      · rfl
      · have hlt := hc _ _ _ _ hstep
        simp only [List.length_cons] at hlt
        exact run_congr hc (by omega) (Nat.le_refl _) q'

/-- A walk that ends well is a sequence of rounds. -/
lemma walks_of_loop {q q' : σ} {ts left : List τ} (h : loop step q ts = .ok (q', left)) :
    Walks step q ts q' left := by
  induction hn : ts.length using Nat.strongRecOn generalizing q ts with
  | _ n ih =>
      cases ts with
      | nil =>
          obtain ⟨rfl, rfl⟩ : q = q' ∧ [] = left := by simpa [loop, run] using h
          exact .nil q
      | cons t ts =>
          rw [loop_cons hc] at h
          cases hstep : step q (t :: ts) with
          | error e => simp [hstep] at h
          | ok o =>
              rcases o with _ | ⟨q₁, rest⟩
              · obtain ⟨rfl, rfl⟩ : q = q' ∧ t :: ts = left := by simpa [hstep] using h
                exact .stop hstep
              · simp only [hstep] at h
                have hlt := hc _ _ _ _ hstep
                exact .next hstep (ih rest.length (by rw [← hn]; exact hlt) h rfl)

/-- **Invariant rule.** -/
theorem loop_invariant {P : σ → Prop}
    (hstep : ∀ q t ts q' rest, P q → step q (t :: ts) = .ok (some (q', rest)) → P q')
    {q q' : σ} {ts left : List τ} (h : loop step q ts = .ok (q', left)) : P q → P q' := by
  have hw := walks_of_loop hc h
  clear h
  induction hw with
  | nil q => exact id
  | stop hs => exact id
  | next hs _ ih => exact fun hq => ih (hstep _ _ _ _ _ hq hs)

end

/-- No round looks past the tokens it consumes, nor does a `break`, as far as `extra` behind them
is concerned. -/
structure Extends (step : Step σ τ ε) (extra : List τ) : Prop where
  consumes : Consumes step
  next : ∀ q t ts q' rest, step q (t :: ts) = .ok (some (q', rest)) →
    step q (t :: ts ++ extra) = .ok (some (q', rest ++ extra))
  stop : ∀ q t ts, step q (t :: ts) = .ok none → step q (t :: ts ++ extra) = .ok none

/-- **Appended tokens are read after the others**, unless a `break` left tokens unread. -/
theorem loop_append {step : Step σ τ ε} {extra : List τ} (hx : Extends step extra) {q q' : σ}
    {ts left : List τ} (h : loop step q ts = .ok (q', left)) :
    loop step q (ts ++ extra) =
      if left = [] then loop step q' extra else .ok (q', left ++ extra) := by
  have hw := walks_of_loop hx.consumes h
  clear h
  induction hw with
  | nil q => simp
  | stop hs =>
      rw [List.cons_append, loop_cons hx.consumes, ← List.cons_append, hx.stop _ _ _ hs]
      simp
  | next hs _ ih =>
      rw [List.cons_append, loop_cons hx.consumes, ← List.cons_append, hx.next _ _ _ _ _ hs]
      exact ih

/-- **Two walks in lockstep.** -/
theorem loop_simulation {step : Step σ τ ε} {step' : Step σ' τ ε} (hc : Consumes step)
    (hc' : Consumes step') {R : σ → σ' → Prop}
    (hnext : ∀ q p t ts q' rest, R q p → step q (t :: ts) = .ok (some (q', rest)) →
      ∃ p', step' p (t :: ts) = .ok (some (p', rest)) ∧ R q' p')
    (hstop : ∀ q p t ts, R q p → step q (t :: ts) = .ok none → step' p (t :: ts) = .ok none)
    {q q' : σ} {ts left : List τ} (h : loop step q ts = .ok (q', left)) :
    ∀ {p}, R q p → ∃ p', loop step' p ts = .ok (p', left) ∧ R q' p' := by
  have hw := walks_of_loop hc h
  clear h
  induction hw with
  | nil q => exact fun {p} hR => ⟨p, rfl, hR⟩
  | stop hs =>
      intro p hR
      refine ⟨p, ?_, hR⟩
      rw [loop_cons hc', hstop _ p _ _ hR hs]
  | next hs _ ih =>
      intro p hR
      obtain ⟨p₁, hp₁, hR₁⟩ := hnext _ p _ _ _ _ hR hs
      obtain ⟨p', hp', hR'⟩ := ih hR₁
      refine ⟨p', ?_, hR'⟩
      rw [loop_cons hc', hp₁]
      exact hp'

end ArgLoop
