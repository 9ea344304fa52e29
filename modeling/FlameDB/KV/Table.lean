import FlameDB.KV.OrdMap

/-!
# Tables with a unique key

A table with a unique key is an ordered map from keys to rows.  Statements that insert rows differ
in what they do with a key that is taken.

* `insertRows` — the statement fails; `insertMissing` — the row is skipped.
* `insertRows_of_fresh`, `get?_setRows_iff`, `get?_insertMissing` — what a table holds afterwards.
-/

namespace KV.OrdMap

variable {κ : Type*} [LinearOrder κ] {α : Type*}

/-- The rows one after the other, the last one under a key winning. -/
def setRows (m : OrdMap κ α) (rows : List (κ × α)) : OrdMap κ α :=
  rows.foldl (fun m row => m.set row.1 row.2) m

/-- `INSERT` and `COPY`. -/
def insertRows (m : OrdMap κ α) (rows : List (κ × α)) : Option (OrdMap κ α) :=
  rows.foldlM (fun m row => if (m.get? row.1).isSome then none else some (m.set row.1 row.2)) m

/-- `INSERT … ON CONFLICT DO NOTHING`. -/
def insertMissing (m : OrdMap κ α) (rows : List (κ × α)) : OrdMap κ α :=
  rows.foldl (fun m row => if (m.get? row.1).isSome then m else m.set row.1 row.2) m

/-- The last row under a key decides. -/
lemma get?_setRows (m : OrdMap κ α) (rows : List (κ × α)) (k : κ) :
    (m.setRows rows).get? k =
      ((rows.reverse.find? fun row => row.1 = k).map Prod.snd).or (m.get? k) := by
  induction rows using List.reverseRecOn with
  | nil => rfl
  | append_singleton rows row ih =>
      rw [setRows, List.foldl_append, List.foldl_cons, List.foldl_nil, get?_set,
        List.reverse_append, List.reverse_singleton, List.singleton_append, List.find?_cons]
      by_cases hk : row.1 = k
      · simp [hk]
      · rw [if_neg (Ne.symm hk)]
        simp only [hk, decide_false]
        exact ih

/-- Rows under one key that agree. -/
lemma get?_setRows_of_mem {rows : List (κ × α)} {k : κ} {v : α} (hmem : (k, v) ∈ rows)
    (hall : ∀ v', (k, v') ∈ rows → v' = v) (m : OrdMap κ α) : (m.setRows rows).get? k = some v := by
  rw [get?_setRows]
  cases hfind : rows.reverse.find? (fun row => row.1 = k) with
  | none => simpa using List.find?_eq_none.mp hfind _ (List.mem_reverse.mpr hmem)
  | some row =>
      have hrow := List.mem_reverse.mp (List.mem_of_find?_eq_some hfind)
      obtain rfl : row.1 = k := by simpa using List.find?_some hfind
      rw [Option.map_some, Option.some_or, hall row.2 hrow]

/-- With distinct keys the rows are what the table holds under them. -/
lemma get?_setRows_iff {rows : List (κ × α)} (hnodup : (rows.map Prod.fst).Nodup)
    (m : OrdMap κ α) (k : κ) (v : α) : (m.setRows rows).get? k = some v ↔
      (k, v) ∈ rows ∨ k ∉ rows.map Prod.fst ∧ m.get? k = some v := by
  induction rows generalizing m with
  | nil => simp [setRows]
  | cons row rows ih =>
      rw [List.map_cons, List.nodup_cons] at hnodup
      rw [show m.setRows (row :: rows) = (m.set row.1 row.2).setRows rows from rfl,
        ih hnodup.2, get?_set, List.mem_cons, List.map_cons, List.mem_cons]
      by_cases hk : k = row.1
      · subst hk
        have hrows : ∀ v, (row.1, v) ∉ rows := fun v hmem =>
          hnodup.1 (List.mem_map.mpr ⟨_, hmem, rfl⟩)
        have hrow : (row.1, v) = row ↔ row.2 = v := by
          rw [Prod.ext_iff]
          exact ⟨fun h => h.2.symm, fun h => ⟨rfl, h.symm⟩⟩
        simp [hrows, hnodup.1, hrow]
      · have hrow : (k, v) ≠ row := by
          rintro rfl
          exact hk rfl
        simp [hk, hrow]

/-- **Rows with new, distinct keys can be inserted.** -/
lemma insertRows_of_fresh {rows : List (κ × α)} (hnodup : (rows.map Prod.fst).Nodup)
    {m : OrdMap κ α} (hfresh : ∀ row ∈ rows, m.get? row.1 = none) :
    m.insertRows rows = some (m.setRows rows) := by
  induction rows generalizing m with
  | nil => rfl
  | cons row rows ih =>
      rw [List.map_cons, List.nodup_cons] at hnodup
      have hhead : m.get? row.1 = none := hfresh row List.mem_cons_self
      have hrest : ∀ row' ∈ rows, (m.set row.1 row.2).get? row'.1 = none := by
        intro row' hmem
        rw [get?_set, if_neg]
        · exact hfresh row' (List.mem_cons_of_mem _ hmem)
        · rintro heq
          exact hnodup.1 (List.mem_map.mpr ⟨row', hmem, heq⟩)
      rw [insertRows, List.foldlM_cons, hhead]
      exact ih hnodup.2 hrest

/-- Skipped rows change nothing, others stand under their key. -/
lemma get?_insertMissing (m : OrdMap κ α) (rows : List (κ × α)) (k : κ) :
    (m.insertMissing rows).get? k =
      (m.get? k).or ((rows.find? fun row => row.1 = k).map Prod.snd) := by
  induction rows generalizing m with
  | nil => simp [insertMissing]
  | cons row rows ih =>
      rw [insertMissing, List.foldl_cons]
      refine (ih _).trans ?_
      rw [List.find?_cons]
      by_cases hk : row.1 = k
      · subst hk
        cases hget : m.get? row.1 with
        | some v => simp [hget]
        | none => simp
      · simp only [hk, decide_false]
        split_ifs
        · rfl
        · rw [get?_set, if_neg (Ne.symm hk)]

lemma entries_set (m : OrdMap κ α) (k : κ) (v : α) : (m.set k v).entries =
    m.entries.filter (fun e => e.1 < k) ++ (k, v) :: m.entries.filter fun e => k < e.1 := rfl

/-- Without a key, the entries before it are followed by those behind it. -/
lemma entries_erase (m : OrdMap κ α) (k : κ) : (m.erase k).entries =
    m.entries.filter (fun e => e.1 < k) ++ m.entries.filter fun e => k < e.1 := by
  refine eq_of_pairwise_of_mem_iff (r := fun a b => a.1 < b.1) (fun a => lt_irrefl a.1)
    (fun a b hab => lt_asymm hab) (m.erase k).sorted ?_ ?_
  · rw [List.pairwise_append]
    refine ⟨m.sorted.filter _, m.sorted.filter _, fun a ha b hb => ?_⟩
    have hak : a.1 < k := by simpa using (List.mem_filter.mp ha).2
    have hkb : k < b.1 := by simpa using (List.mem_filter.mp hb).2
    exact hak.trans hkb
  · intro a
    simp only [erase, List.mem_append, List.mem_filter, decide_eq_true_eq, ← and_or_left]
    exact and_congr_right fun _ => ⟨lt_or_gt_of_ne, fun h => h.elim ne_of_lt ne_of_gt⟩

end KV.OrdMap
