import FlameDB.KV.OrdMap

/-!
# Scans that jump

A loop over an iterator of an ordered map need not step from key to key: at a key that stands for a
whole interval it can seek to the end of the interval.  `OrdMap.scan` is such a loop, with a state
that takes in the keys it stops at.

* `OrdMap.seekGE` — the entries from a bound on;
* `OrdMap.scan` — the loop, which runs out of fuel when it never comes to the end;
* **`OrdMap.scan_covers`** — if every jump goes forward, one round for each entry is enough, and
  every key is a visited one or was jumped over from a visited one.
-/

namespace KV.OrdMap

variable {κ : Type*} [LinearOrder κ] {α σ : Type*}

/-- The entries from the first key on that is not below a bound. -/
def seekGE (m : OrdMap κ α) (bound : κ) : List (κ × α) := m.entries.dropWhile fun e => e.1 < bound

/-- Visit keys to the end of the iterator.  From a key the loop steps to the next one, or seeks to
the bound that `jump` gives. -/
def scan (m : OrdMap κ α) (jump : κ → Option κ) (visit : σ → κ → σ) :
    (fuel : ℕ) → List (κ × α) → σ → Option σ
  | _, [], s => some s
  | 0, _ :: _, _ => none
  | fuel + 1, e :: rows, s => m.scan jump visit fuel ((jump e.1).elim rows m.seekGE) (visit s e.1)

/-- A key counts as seen when the loop stopped at it, or at a key whose jump goes beyond it. -/
def SeenFrom (jump : κ → Option κ) (visited key : κ) : Prop :=
  visited ≤ key ∧ (key = visited ∨ ∃ bound ∈ jump visited, key < bound)

/-- The loop stopped at some of the rows, and all of them were seen from there. -/
structure Covers (jump : κ → Option κ) (rows : List (κ × α)) (visited : List κ) : Prop where
  stored : ∀ k ∈ visited, ∃ e ∈ rows, e.1 = k
  seen : ∀ e ∈ rows, ∃ k ∈ visited, SeenFrom jump k e.1

/-- Seeking forward from an entry drops rows behind it. -/
lemma seekGE_eq_dropWhile {m : OrdMap κ α} {e : κ × α} {rows : List (κ × α)}
    (hrows : e :: rows <:+ m.entries) {bound : κ} (hlt : e.1 < bound) :
    m.seekGE bound = rows.dropWhile fun e => e.1 < bound := by
  obtain ⟨front, hfront⟩ := hrows
  have hsorted := m.sorted
  rw [← hfront, List.pairwise_append] at hsorted
  have hbelow : ∀ x ∈ front ++ [e], x.1 < bound := by
    intro x hx
    rcases List.mem_append.mp hx with hx | hx
    · exact lt_trans (hsorted.2.2 x hx e List.mem_cons_self) hlt
    · rwa [List.mem_singleton.mp hx]
  rw [seekGE, ← hfront, List.append_cons, List.dropWhile_append_of_pos]
  exact fun x hx => decide_eq_true (hbelow x hx)

/-- **One round.** What a round leaves is a shorter suffix, and what it leaves out was seen from the
key it stopped at. -/
lemma suffix_of_jump {m : OrdMap κ α} {jump : κ → Option κ} {e : κ × α} {rows : List (κ × α)}
    (hrows : e :: rows <:+ m.entries) (hjump : ∀ bound ∈ jump e.1, e.1 < bound) :
    (jump e.1).elim rows m.seekGE <:+ rows ∧
      ∀ x ∈ rows, x ∈ (jump e.1).elim rows m.seekGE ∨ SeenFrom jump e.1 x.1 := by
  cases hj : jump e.1 with
  | none => exact ⟨List.suffix_rfl, fun x hx => Or.inl hx⟩
  | some bound =>
      have hlt := hjump bound hj
      have hle : ∀ x ∈ rows, e.1 ≤ x.1 := by
        intro x hx
        have hsorted := m.sorted.sublist hrows.sublist
        exact (List.rel_of_pairwise_cons hsorted hx).le
      rw [Option.elim_some, seekGE_eq_dropWhile hrows hlt]
      refine ⟨List.dropWhile_suffix _, fun x hx => ?_⟩
      by_cases hxb : x.1 < bound
      · exact Or.inr ⟨hle x hx, Or.inr ⟨bound, hj, hxb⟩⟩
      · rw [← rows.takeWhile_append_dropWhile (p := fun e => e.1 < bound), List.mem_append] at hx
        refine Or.inl (hx.resolve_left fun htake => hxb ?_)
        simpa using List.mem_takeWhile_imp htake

/-- **A scan that jumps forward sees everything**, in at most one round for each entry. -/
theorem scan_covers {m : OrdMap κ α} (jump : κ → Option κ) (visit : σ → κ → σ)
    (hjump : ∀ e ∈ m.entries, ∀ bound ∈ jump e.1, e.1 < bound) {fuel : ℕ} {rows : List (κ × α)}
    (hrows : rows <:+ m.entries) (hfuel : rows.length ≤ fuel) (s : σ) :
    ∃ visited, m.scan jump visit fuel rows s = some (visited.foldl visit s) ∧
      Covers jump rows visited := by
  induction fuel generalizing rows s with
  | zero =>
      have hnil : rows = [] := List.eq_nil_of_length_eq_zero (by omega)
      subst hnil
      exact ⟨[], rfl, by simp, by simp⟩
  | succ fuel ih =>
      cases rows with
      | nil => exact ⟨[], rfl, by simp, by simp⟩
      | cons e rows =>
          obtain ⟨hsuffix, hseen⟩ :=
            suffix_of_jump hrows (hjump e (hrows.subset List.mem_cons_self))
          have hlen := hsuffix.length_le
          rw [List.length_cons] at hfuel
          obtain ⟨visited, hscan, hcov⟩ := ih
            (hsuffix.trans ((List.suffix_cons e rows).trans hrows)) (by omega) (visit s e.1)
          refine ⟨e.1 :: visited, hscan, ?_, ?_⟩
          · intro k hk
            rcases List.mem_cons.mp hk with rfl | hk
            · exact ⟨e, List.mem_cons_self, rfl⟩
            · obtain ⟨x, hx, hxk⟩ := hcov.stored k hk
              exact ⟨x, List.mem_cons_of_mem _ (hsuffix.subset hx), hxk⟩
          · intro x hx
            rcases List.mem_cons.mp hx with rfl | hx
            · exact ⟨x.1, List.mem_cons_self, le_rfl, Or.inl rfl⟩
            · rcases hseen x hx with hleft | hfrom
              · obtain ⟨k, hk, hfrom⟩ := hcov.seen x hleft
                exact ⟨k, List.mem_cons_of_mem _ hk, hfrom⟩
              · exact ⟨e.1, List.mem_cons_self, hfrom⟩

end KV.OrdMap
