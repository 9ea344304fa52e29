import Mathlib.Data.List.Basic
import Mathlib.Tactic.Common

/-!
# Runs of a machine

A machine is a step function: `step s e` is the state after the event `e`, and `none` when the event
is not possible in `s`.  A run is a list of events.

* `run_invariant` — what every step keeps, under a condition on its event, every run keeps.
* `run_invariant_along` — the same where the condition depends on the state in which the event
  happens.
-/

namespace Machine

variable {σ ε : Type*} (step : σ → ε → Option σ)

/-- The state after a list of events. -/
def run (s : σ) (es : List ε) : Option σ := es.foldlM step s

variable {step}

@[simp] lemma run_nil (s : σ) : run step s [] = some s := rfl

lemma run_cons_eq_some {s s' : σ} {e : ε} {es : List ε} :
    run step s (e :: es) = some s' ↔ ∃ t, step s e = some t ∧ run step t es = some s' :=
  Option.bind_eq_some_iff

/-- **Steps that keep a property make runs that keep it**, if every event meets the condition. -/
theorem run_invariant {P : σ → Prop} {Q : ε → Prop}
    (hstep : ∀ {s s' : σ} {e : ε}, P s → Q e → step s e = some s' → P s') {s s' : σ} {es : List ε}
    (h : P s) (hes : ∀ e ∈ es, Q e) (hrun : run step s es = some s') : P s' := by
  induction es generalizing s with
  | nil =>
      obtain rfl : s = s' := by simpa using hrun
      exact h
  | cons e es ih =>
      obtain ⟨t, ht, hrest⟩ := run_cons_eq_some.mp hrun
      obtain ⟨he, hes⟩ := List.forall_mem_cons.mp hes
      exact ih (hstep h he ht) hes hrest

variable (step) in
/-- Every event of the run meets the condition in the state in which it happens. -/
def Along (Q : σ → ε → Prop) : σ → List ε → Prop
  | _, [] => True
  | s, e :: es => Q s e ∧ ∀ t ∈ step s e, Along Q t es

instance instDecidableAlong {Q : σ → ε → Prop} [∀ s e, Decidable (Q s e)] :
    ∀ s es, Decidable (Along step Q s es)
  | _, [] => isTrue trivial
  | s, e :: es =>
      have : DecidablePred fun t => Along step Q t es := fun t => instDecidableAlong t es
      inferInstanceAs (Decidable (Q s e ∧ ∀ t ∈ step s e, Along step Q t es))

/-- The invariant rule when each step also needs a condition on its event. -/
theorem run_invariant_along {P : σ → Prop} {Q : σ → ε → Prop}
    (hstep : ∀ {s s' : σ} {e : ε}, P s → Q s e → step s e = some s' → P s') {s s' : σ} {es : List ε}
    (h : P s) (hes : Along step Q s es) (hrun : run step s es = some s') : P s' := by
  induction es generalizing s with
  | nil =>
      obtain rfl : s = s' := by simpa using hrun
      exact h
  | cons e es ih =>
      obtain ⟨t, ht, hrest⟩ := run_cons_eq_some.mp hrun
      obtain ⟨he, hes⟩ := hes
      exact ih (hstep h he ht) (hes t ht) hrest

end Machine
